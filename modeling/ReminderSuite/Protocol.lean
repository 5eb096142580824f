import ReminderSuite.Client
import ReminderSuite.ServerLoop

/-! The protocol of the client library and the Data Provider: any number of calls of `executeCmd`,
each over a connection of its own, the sessions made of them, and the bytes in flight between. -/
namespace ReminderSuite
open Delimited FallibleRun Numbered
variable {σ : Type}

inductive ClientOp where
  | connect | send | readSome
deriving DecidableEq

inductive Answer where
  | connect (ok : Bool)
  | send (ok : Bool)
  | readSome (rb : Option Bytes)
deriving DecidableEq

def ClientOp.reached : ClientOp → List Answer
  | .connect => []
  | .send => [.connect true]
  | .readSome => [.connect true, .send true]

def replay : Network (List Answer) where
  resolve w := (true, w)
  connect
    | .connect ok :: w => (ok, w)
    | w => (false, w)
  send _
    | .send ok :: w => (ok, w)
    | w => (false, w)
  readSome _
    | .readSome rb :: w => (rb, w)
    | w => (none, w)
  close w := w

structure Exchange where
  cmd : Bytes
  /-- how its operations have ended so far -/
  answers : List Answer
  /-- the session that the Data Provider has made of the connection -/
  session : Option Nat
  /-- sent and not yet read by the session -/
  up : Bytes
  /-- written by the session and not yet read by the call -/
  down : Bytes
  /-- how much of the response that the session is writing has been written -/
  pushed : Nat
  /-- how many requests the Data Provider had handled when the call was made -/
  began : Nat
  /-- how many it had handled when the last operation of the call ended -/
  ended : Nat

namespace Exchange

def start (cmd : Bytes) (now : Nat) : Exchange := ⟨cmd, [], none, [], [], 0, now, now⟩

def pending (x : Exchange) : Option ClientOp :=
  match x.answers with
  | [] => some .connect
  | [.connect true] => some .send
  | [.connect true, .send true] => some .readSome
  | _ => none

def result (x : Exchange) : Option (Bool × List Bytes) :=
  match x.pending with
  | some _ => none
  | none => some (executeCmd replay x.cmd [] x.answers).1

def received (x : Exchange) : Bytes :=
  match x.answers with
  | .connect true :: .send true :: .readSome (some rb) :: _ => rb
  | _ => []

def connected (x : Exchange) : Bool := x.answers.head? = some (.connect true)

def heard (x : Exchange) (log : List Event) : List Bytes :=
  log.filterMap fun e => if x.session = some e.1 then some e.2 else none

def replies (x : Exchange) (srv : Server σ) : List Bytes :=
  match x.session with
  | some i => srv.repliesTo i
  | none => []

def answer (a : Answer) (now : Nat) (x : Exchange) : Exchange :=
  { x with answers := x.answers ++ [a], ended := now }

def flowed (i : Nat) (response : Bytes) (n : Nat) (x : Exchange) : Exchange :=
  if x.session = some i then
    { x with down := x.down ++ (response.drop x.pushed).take n, pushed := x.pushed + n }
  else x

def served (e : Completion) (x : Exchange) : Exchange :=
  match e with
  | .read i (.ok chunk) =>
    if x.session = some i then { x with up := x.up.drop chunk.length, pushed := 0 } else x
  | _ => x

def Allows (loop : ServerLoop σ) (x : Exchange) : Completion → Prop
  | .read i (.ok chunk) => x.session = some i → chunk ≠ [] ∧ chunk.length ≤ requestBuf ∧
      chunk <+: x.up
  | .write i none =>
    x.session = some i → x.pushed = (ServerLoop.sessionAt loop.sessions i).response_.length
  | _ => True

end Exchange

/-- `arrive` puts a connection, of a call or of another client, behind those that wait to be
accepted, `accept` makes a session of the first of them, a call's, and `serve` completes any other
operation of the Data Provider; its other clients may be anything. -/
inductive Move where
  | invoke (cmd : Bytes)
  | connect (k : Nat) (ok : Bool)
  | send (k n : Nat) (ok : Bool)
  | receive (k n : Nat)
  | fail (k : Nat)
  | arrive (who : Option Nat)
  | accept (k : Nat)
  | flow (i n : Nat)
  | serve (e : Completion)

structure Protocol (σ : Type) where
  loop : ServerLoop σ
  /-- the calls made so far, in order -/
  calls : List Exchange
  /-- the requests handled so far, in order -/
  log : List Event
  /-- the connections that wait to be accepted, in order; `none` is another client's -/
  backlog : List (Option Nat)

namespace Protocol
open ServerLoop (chunkOf sessionAt)

def start (store : σ) : Protocol σ := ⟨ServerLoop.start store, [], [], []⟩

def unaccepted : Completion → List (Option Nat) → List (Option Nat)
  | .accept none, backlog => backlog.tail
  | _, backlog => backlog

/-- `send` may pass on a part of the command only, whether or not it then fails: the client does
not look at how much was sent. -/
def step (lib : DBLibrary σ) (s : Protocol σ) : Move → Except Fault (Protocol σ)
  | .invoke cmd => .ok { s with calls := s.calls ++ [Exchange.start cmd s.log.length] }
  | .connect k ok =>
    .ok { s with calls := s.calls.modify k (Exchange.answer (.connect ok) s.log.length) }
  | .send k n ok =>
    let sending := fun x : Exchange => Exchange.answer (.send ok) s.log.length
      { x with up := x.cmd.take n }
    .ok { s with calls := s.calls.modify k sending }
  | .receive k n =>
    let reading := fun x : Exchange =>
      Exchange.answer (.readSome (some (x.down.take n))) s.log.length
        { x with down := x.down.drop n }
    .ok { s with calls := s.calls.modify k reading }
  | .fail k =>
    .ok { s with calls := s.calls.modify k (Exchange.answer (.readSome none) s.log.length) }
  | .arrive who => .ok { s with backlog := s.backlog ++ [who] }
  | .accept k =>
    (s.loop.step lib (.accept none)).map fun loop =>
      let linking := fun x : Exchange => { x with session := some s.loop.sessions.length }
      { s with loop := loop, calls := s.calls.modify k linking, backlog := s.backlog.tail }
  | .flow i n =>
    .ok { s with calls :=
      s.calls.map (Exchange.flowed i (sessionAt s.loop.sessions i).response_ n) }
  | .serve e =>
    (s.loop.step lib e).map fun loop =>
      ⟨loop, s.calls.map (Exchange.served e), s.log ++ (chunkOf e).toList, unaccepted e s.backlog⟩

def Waits (s : Protocol σ) (k : Nat) (op : ClientOp) : Prop :=
  ∃ x, s.calls[k]? = some x ∧ x.pending = some op

/-- A call has its connection, of which no session has been made. -/
def Unserved (s : Protocol σ) (k : Nat) : Prop :=
  ∃ x, s.calls[k]? = some x ∧ x.connected = true ∧ x.session = none

/-- The connection accepted next is no call's; a closed acceptor drops it, whosever it is. -/
def NextForeign (s : Protocol σ) : Prop :=
  ∃ who, s.backlog.head? = some who ∧ (s.loop.acceptor_ = true → who = none)

def Enabled (s : Protocol σ) : Move → Prop
  | .invoke _ => True
  | .connect k ok => s.Waits k .connect ∧ (ok = true → s.loop.acceptor_ = true)
  | .send k _ _ => s.Waits k .send
  | .receive k n =>
    ∃ x, s.calls[k]? = some x ∧ x.pending = some .readSome ∧ 0 < n ∧ n ≤ x.down.length ∧
      n ≤ streamBuf
  | .fail k => s.Waits k .readSome
  | .arrive who => s.loop.acceptor_ = true ∧ ∀ k, who = some k → who ∉ s.backlog ∧ s.Unserved k
  | .accept k =>
    s.loop.Enabled (.accept none) ∧ s.loop.acceptor_ = true ∧ s.backlog.head? = some (some k) ∧
    s.Unserved k
  | .flow i n =>
    ∃ p, s.loop.sessions[i]? = some p ∧ p.op = some .write ∧
      ∀ x ∈ s.calls, x.session = some i → x.pushed + n ≤ p.session.response_.length
  | .serve e =>
    s.loop.Enabled e ∧ (e = .accept none → s.NextForeign) ∧ ∀ x ∈ s.calls, x.Allows s.loop e

section Decide
variable (s : Protocol σ)

instance (k : Nat) (op : ClientOp) : Decidable (s.Waits k op) :=
  inferInstanceAs (Decidable (∃ x ∈ s.calls[k]?, x.pending = some op))

instance (k : Nat) : Decidable (s.Unserved k) :=
  inferInstanceAs (Decidable (∃ x ∈ s.calls[k]?, x.connected = true ∧ x.session = none))

instance : Decidable s.NextForeign :=
  inferInstanceAs (Decidable (∃ who ∈ s.backlog.head?, s.loop.acceptor_ = true → who = none))

instance (loop : ServerLoop σ) (x : Exchange) : (e : Completion) → Decidable (x.Allows loop e)
  | .read i (.ok chunk) =>
    inferInstanceAs (Decidable
      (x.session = some i → chunk ≠ [] ∧ chunk.length ≤ requestBuf ∧ chunk <+: x.up))
  | .write i none =>
    inferInstanceAs (Decidable
      (x.session = some i → x.pushed = (sessionAt loop.sessions i).response_.length))
  | .read _ (.error _) | .write _ (some _) | .accept _ | .signal => isTrue trivial

instance : (m : Move) → Decidable (s.Enabled m)
  | .invoke _ => isTrue trivial
  | .connect k ok =>
    inferInstanceAs (Decidable (s.Waits k .connect ∧ (ok = true → s.loop.acceptor_ = true)))
  | .send k _ _ => inferInstanceAs (Decidable (s.Waits k .send))
  | .receive k n =>
    inferInstanceAs (Decidable (∃ x ∈ s.calls[k]?,
      x.pending = some .readSome ∧ 0 < n ∧ n ≤ x.down.length ∧ n ≤ streamBuf))
  | .fail k => inferInstanceAs (Decidable (s.Waits k .readSome))
  | .arrive none => decidable_of_iff (s.loop.acceptor_ = true) (by simp [Enabled])
  | .arrive (some k) =>
    decidable_of_iff (s.loop.acceptor_ = true ∧ some k ∉ s.backlog ∧ s.Unserved k)
      (by simp [Enabled])
  | .accept k =>
    inferInstanceAs (Decidable (s.loop.Enabled (.accept none) ∧ s.loop.acceptor_ = true ∧
      s.backlog.head? = some (some k) ∧ s.Unserved k))
  | .flow i n =>
    inferInstanceAs (Decidable (∃ p ∈ s.loop.sessions[i]?, p.op = some .write ∧
      ∀ x ∈ s.calls, x.session = some i → x.pushed + n ≤ p.session.response_.length))
  | .serve e =>
    inferInstanceAs (Decidable
      (s.loop.Enabled e ∧ (e = .accept none → s.NextForeign) ∧ ∀ x ∈ s.calls, x.Allows s.loop e))

end Decide

/-! What one move does to a call: the bytes that it has sent and received, and the requests that
its session has read. -/

structure Stream (x : Exchange) (p : SessionPeer) : Prop where
  reading : p.op = some .read → x.received ++ x.down = p.delivered.flatten
  writing : p.op = some .write → x.pushed ≤ p.session.response_.length ∧
    x.received ++ x.down = p.delivered.flatten ++ p.session.response_.take x.pushed
  sent : x.received ++ x.down <+: p.session.written.flatten

structure Synced (log : List Event) (sessions : List SessionPeer) (x : Exchange) : Prop where
  asked : (x.heard log).flatten ++ x.up <+: x.cmd
  whole : ∀ chunk ∈ x.heard log, chunk ≠ []
  unsent : x.answers.length ≤ 1 → x.up = [] ∧ x.heard log = []
  began : x.began ≤ log.length ∧ x.heard (log.take x.began) = []
  ended : x.ended ≤ log.length ∧ (x.received ≠ [] → x.heard (log.take x.ended) ≠ [])
  idle : x.session = none → x.received ++ x.down = []
  got : ∀ rb, .readSome (some rb) ∈ x.answers → rb ≠ []
  stream : ∀ i, x.session = some i → ∃ p, sessions[i]? = some p ∧ Stream x p

section Calls
variable {log : List Event} {sessions sessions' : List SessionPeer} {x : Exchange} {i : Nat}

theorem answers_of_pending {op : ClientOp} (h : x.pending = some op) : x.answers = op.reached := by
  unfold Exchange.pending at h
  split at h
  all_goals first | (cases h; assumption) | cases h

@[simp] theorem heard_append (x : Exchange) (log log' : List Event) :
    x.heard (log ++ log') = x.heard log ++ x.heard log' := by
  simp [Exchange.heard]

theorem heard_of_session_ne {e : Event} (h : x.session ≠ some e.1) (log : List Event) :
    x.heard (log ++ [e]) = x.heard log := by
  simp [Exchange.heard, h]

theorem heard_concat {chunk : Bytes} (h : x.session = some i) (log : List Event) :
    x.heard (log ++ [(i, chunk)]) = x.heard log ++ [chunk] := by
  simp [Exchange.heard, h]

theorem heard_of_session_none (h : x.session = none) (log : List Event) : x.heard log = [] := by
  simp [Exchange.heard, h]

theorem heard_eq_nil_iff : x.heard log = [] ↔ ∀ e ∈ log, x.session ≠ some e.1 := by
  simp [Exchange.heard, List.filterMap_eq_nil_iff]

theorem synced_start (cmd : Bytes) (log : List Event) (sessions : List SessionPeer) :
    Synced log sessions (Exchange.start cmd log.length) := by
  constructor <;> simp [Exchange.start, Exchange.received, Exchange.heard]

theorem Synced.of_sessions (h : Synced log sessions x)
    (hstream : ∀ i p, x.session = some i → sessions[i]? = some p → Stream x p →
      ∃ q, sessions'[i]? = some q ∧ Stream x q) : Synced log sessions' x := by
  refine { h with stream := fun i hi => ?_ }
  obtain ⟨p, hp, hs⟩ := h.stream i hi
  exact hstream i p hi hp hs

theorem Synced.of_concat (h : Synced log sessions x) (q : SessionPeer) :
    Synced log (sessions ++ [q]) x :=
  h.of_sessions fun i p _ hp hs =>
    ⟨p, by rw [List.getElem?_append_left (List.getElem?_eq_some_iff.mp hp).1, hp], hs⟩

theorem Synced.of_set (h : Synced log sessions x) {p q : SessionPeer} (hp : sessions[i]? = some p)
    (hq : x.session = some i → Stream x p → Stream x q) : Synced log (sessions.set i q) x := by
  refine h.of_sessions fun j r hj hr hs => ?_
  by_cases hij : i = j
  · subst hij
    obtain rfl := Option.some.inj (hp.symm.trans hr)
    exact ⟨q, by simp [(List.getElem?_eq_some_iff.mp hp).1], hq hj hs⟩
  · exact ⟨r, by simp [hij, hr], hs⟩

theorem Synced.of_other (h : Synced log sessions x) {e : Event} (he : x.session ≠ some e.1) :
    Synced (log ++ [e]) sessions x := by
  obtain ⟨hbegan, hquiet⟩ := h.began
  obtain ⟨hended, hanswered⟩ := h.ended
  refine { h with asked := ?_, whole := ?_, unsent := ?_, began := ?_, ended := ?_ }
  · rw [heard_of_session_ne he]
    exact h.asked
  · rw [heard_of_session_ne he]
    exact h.whole
  · rw [heard_of_session_ne he]
    exact h.unsent
  · rw [List.take_append_of_le_length hbegan, List.length_append]
    exact ⟨Nat.le_add_right_of_le hbegan, hquiet⟩
  · rw [List.take_append_of_le_length hended, List.length_append]
    exact ⟨Nat.le_add_right_of_le hended, hanswered⟩

theorem received_of_pending {op : ClientOp} (h : x.pending = some op) : x.received = [] := by
  cases op <;> simp [Exchange.received, answers_of_pending h, ClientOp.reached]

theorem received_answer {op : ClientOp} (h : x.pending = some op) {a : Answer}
    (ha : ∀ rb, a ≠ .readSome (some rb)) (now : Nat) : (x.answer a now).received = [] := by
  have hreached := answers_of_pending h
  cases op with
  | connect => simp [Exchange.received, Exchange.answer, hreached, ClientOp.reached]
  | send => simp [Exchange.received, Exchange.answer, hreached, ClientOp.reached]
  | readSome =>
    match a with
    | .connect ok | .send ok | .readSome none =>
      simp [Exchange.received, Exchange.answer, hreached, ClientOp.reached]
    | .readSome (some rb) => exact absurd rfl (ha rb)

theorem received_readSome (h : x.pending = some .readSome) (rb : Bytes) (now : Nat) :
    (x.answer (.readSome (some rb)) now).received = rb := by
  simp [Exchange.received, Exchange.answer, answers_of_pending h, ClientOp.reached]

theorem Stream.congr {p : SessionPeer} {y : Exchange} (h : Stream x p)
    (hflow : y.received ++ y.down = x.received ++ x.down) (hpushed : y.pushed = x.pushed) :
    Stream y p :=
  ⟨hflow ▸ h.reading, hflow ▸ hpushed ▸ h.writing, hflow ▸ h.sent⟩

theorem Synced.answered (h : Synced log sessions x) (a : Answer) {up down : Bytes} {y : Exchange}
    (hy : y = Exchange.answer a log.length { x with up := up, down := down })
    (hup : (x.heard log).flatten ++ up <+: x.cmd) (hunsent : x.answers = [] → up = [])
    (hflow : y.received ++ y.down = x.received ++ x.down)
      (hgot : ∀ rb, a = .readSome (some rb) → rb ≠ [])
    (hreceived : y.received ≠ [] → x.heard log ≠ []) : Synced log sessions y := by
  have hheard : y.heard = x.heard := by rw [hy]; rfl
  have hsession : y.session = x.session := by rw [hy]; rfl
  refine ⟨?_, ?_, fun hlen => ?_, ?_, ?_, fun hnone => ?_, fun rb hrb => ?_, fun i hi => ?_⟩
  · rw [hheard, hy]
    exact hup
  · rw [hheard]
    exact h.whole
  · have hnil : x.answers = [] := by
      rw [hy] at hlen
      simpa [Exchange.answer] using hlen
    rw [hheard, hy]
    exact ⟨hunsent hnil, (h.unsent (by simp [hnil])).2⟩
  · rw [hheard, hy]
    exact h.began
  · have hended : y.ended = log.length := by rw [hy]; rfl
    rw [hheard, hended, List.take_length]
    exact ⟨Nat.le_refl _, hreceived⟩
  · rw [hflow]
    exact h.idle (hsession ▸ hnone)
  · rw [hy] at hrb
    cases List.mem_append.mp hrb with
    | inl hold => exact h.got rb hold
    | inr hnew => exact hgot rb (List.mem_singleton.mp hnew).symm
  · obtain ⟨p, hp, hs⟩ := h.stream i (hsession ▸ hi)
    have hpushed : y.pushed = x.pushed := by rw [hy]; rfl
    exact ⟨p, hp, hs.congr hflow hpushed⟩

theorem Synced.accepted (h : Synced log sessions x) (hnone : x.session = none)
    (hknown : ∀ e ∈ log, e.1 < sessions.length) :
    Synced log (sessions ++ [⟨Session.start, some .read, []⟩])
      { x with session := some sessions.length } := by
  have hquiet : ∀ log', log' <+: log →
      Exchange.heard { x with session := some sessions.length } log' = [] := by
    intro log' hlog
    rw [heard_eq_nil_iff]
    intro e he heq
    have hlt := hknown e (hlog.subset he)
    exact absurd (Option.some.inj heq) (Nat.ne_of_gt hlt)
  have hheard := hquiet log (List.prefix_refl _)
  have hnothing : x.received ++ x.down = [] := h.idle hnone
  have hasked := h.asked
  rw [heard_of_session_none hnone] at hasked
  have hunsent := h.unsent
  rw [heard_of_session_none hnone] at hunsent
  have hreceived : x.received = [] := (List.append_eq_nil_iff.mp hnothing).1
  refine ⟨?_, ?_, ?_, ⟨h.began.1, hquiet _ (List.take_prefix _ _)⟩, ⟨h.ended.1, fun hne => ?_⟩,
    ?_, h.got, ?_⟩
  · rw [hheard]
    exact hasked
  · rw [hheard]
    simp
  · rw [hheard]
    exact hunsent
  · exact absurd hreceived hne
  · simp
  · intro i hi
    obtain rfl := Option.some.inj hi
    refine ⟨_, List.getElem?_concat_length, fun _ => hnothing, by simp, ?_⟩
    rw [show Exchange.received { x with session := some sessions.length } ++ x.down =
      [] from hnothing]
    exact List.nil_prefix

theorem Synced.flow (h : Synced log sessions x) {p : SessionPeer} (hp : sessions[i]? = some p)
    (hop : p.op = some .write) (hsound : ServerLoop.Sound p) {n : Nat}
    (hn : x.session = some i → x.pushed + n ≤ p.session.response_.length) :
    Synced log sessions (x.flowed i p.session.response_ n) := by
  by_cases hi : x.session = some i
  · rw [Exchange.flowed, if_pos hi]
    refine { h with idle := fun hnone => ?_, stream := fun j hj => ?_ }
    · exact absurd (hi.symm.trans hnone) (by simp)
    · obtain ⟨q, hq, hs⟩ := h.stream i hi
      obtain rfl := Option.some.inj (hi.symm.trans hj)
      obtain rfl := Option.some.inj (hp.symm.trans hq)
      have hbytes : x.received ++ (x.down ++ (p.session.response_.drop x.pushed).take n) =
          p.delivered.flatten ++ p.session.response_.take (x.pushed + n) := by
        rw [← List.append_assoc, (hs.writing hop).2, List.append_assoc, ← List.take_add]
      refine ⟨p, hp, fun hread => ?_, fun _ => ⟨hn hi, hbytes⟩, ?_⟩
      · exact absurd (hop.symm.trans hread) (by simp)
      · have hbuffer : p.delivered.flatten ++ p.session.response_.take (x.pushed + n) <+:
            p.session.written.flatten := by
          rw [hsound.writing hop, List.flatten_append, List.flatten_singleton]
          exact (List.prefix_append_right_inj _).mpr (List.take_prefix _ _)
        rw [← hbytes] at hbuffer
        exact hbuffer
  · rw [Exchange.flowed, if_neg hi]
    exact h

/-- The call's session reads a chunk of what was sent and makes a response. -/
theorem Synced.heard_chunk (h : Synced log sessions x) (hi : x.session = some i) {p : SessionPeer}
    (hp : sessions[i]? = some p) (hop : p.op = some .read) {chunk : Bytes}
    (hne : chunk ≠ []) (hup : chunk <+: x.up) (response : Bytes) :
    Synced (log ++ [(i, chunk)])
      (sessions.set i ⟨Session.doWrite { p.session with response_ := response },
        some .write, p.delivered⟩)
      { x with up := x.up.drop chunk.length, pushed := 0 } := by
  obtain ⟨rest, hrest⟩ := hup
  obtain ⟨hbegan, hquiet⟩ := h.began
  obtain ⟨hended, hanswered⟩ := h.ended
  have hheard : Exchange.heard { x with up := x.up.drop chunk.length, pushed := 0 } = x.heard := rfl
  refine ⟨?_, ?_, fun hlen => ?_, ?_, ?_, fun hnone => ?_, h.got, fun j hj => ?_⟩
  · rw [hheard, heard_concat hi, ← hrest, List.drop_left, List.flatten_append,
      List.flatten_singleton, List.append_assoc, hrest]
    exact h.asked
  · rw [hheard, heard_concat hi]
    intro c hc
    cases List.mem_append.mp hc with
    | inl hold => exact h.whole c hold
    | inr hnew => exact (List.mem_singleton.mp hnew) ▸ hne
  · have hnil := (h.unsent hlen).1
    rw [← hrest] at hnil
    exact absurd (List.append_eq_nil_iff.mp hnil).1 hne
  · rw [hheard, List.take_append_of_le_length hbegan, List.length_append]
    exact ⟨Nat.le_add_right_of_le hbegan, hquiet⟩
  · rw [hheard, List.take_append_of_le_length hended, List.length_append]
    exact ⟨Nat.le_add_right_of_le hended, hanswered⟩
  · exact absurd (hi.symm.trans hnone) (by simp)
  · obtain rfl := Option.some.inj (hi.symm.trans hj)
    obtain ⟨q, hq, hs⟩ := h.stream i hi
    obtain rfl := Option.some.inj (hp.symm.trans hq)
    have hlt : i < sessions.length := (List.getElem?_eq_some_iff.mp hp).1
    have hsame := hs.reading hop
    refine ⟨_, List.getElem?_set_self hlt, by simp, fun _ => ⟨Nat.zero_le _, ?_⟩, ?_⟩
    · simp only [List.take_zero, List.append_nil]
      exact hsame
    · exact hs.sent.trans (by simp [Session.doWrite])

theorem Stream.sent_response {p : SessionPeer} (h : Stream x p) (hop : p.op = some .write)
    (hall : x.pushed = p.session.response_.length) :
    Stream x ⟨p.session, some .read, p.delivered ++ [p.session.response_]⟩ := by
  have hbytes := (h.writing hop).2
  rw [hall, List.take_length] at hbytes
  exact ⟨fun _ => by simpa using hbytes, by simp, h.sent⟩

theorem Synced.serve {lib : DBLibrary σ} {s s' : ServerLoop σ} {e : Completion}
    (h : Synced log s.sessions x) (hallow : x.Allows s e)
    (heffect : ServerLoop.Effect lib s e s') :
    Synced (log ++ (chunkOf e).toList) s'.sessions (x.served e) := by
  cases heffect with
  | closed ec _ => simpa [chunkOf, Exchange.served] using h
  | accepted _ => simpa [chunkOf, Exchange.served] using h.of_concat _
  | refused ec _ => simpa [chunkOf, Exchange.served] using h
  | signalled => simpa [chunkOf, Exchange.served] using h
  | @received i p chunk session store hp hop hparse =>
    obtain ⟨response, rfl⟩ := parseRequest_response hparse
    by_cases hi : x.session = some i
    · obtain ⟨hne, -, hup⟩ := hallow hi
      have hserved : x.served (.read i (.ok chunk)) =
          { x with up := x.up.drop chunk.length, pushed := 0 } :=
        if_pos hi
      rw [hserved]
      exact h.heard_chunk hi hp hop hne hup response
    · have hserved : x.served (.read i (.ok chunk)) = x := if_neg hi
      rw [hserved]
      exact (h.of_set hp fun heq => absurd heq hi).of_other hi
  | @sent i p hp hop =>
    have hall : x.session = some i → x.pushed = p.session.response_.length := by
      intro hi
      rw [hallow hi, ServerLoop.sessionAt_of_getElem? hp]
    simpa [chunkOf, Exchange.served] using
      h.of_set hp fun hi hs => hs.sent_response hop (hall hi)
  | @ended e i p he hp hop =>
    have hserved : x.served e = x := by
      unfold Exchange.served
      split
      · simp [chunkOf] at he
      · rfl
    rw [hserved, he, Option.toList_none, List.append_nil]
    exact h.of_set hp fun _ hs => ⟨by simp, by simp, hs.sent⟩

end Calls

def Distinct (calls : List Exchange) : Prop :=
  ∀ (k k' : Nat) (x x' : Exchange) (i : Nat), calls[k]? = some x → calls[k']? = some x' →
    x.session = some i → x'.session = some i → k = k'

structure Inv (lib : DBLibrary σ) (store : σ) (s : Protocol σ) : Prop where
  run : Reaches (Server.receive lib) (fun _ _ => True) ⟨fun _ => Session.start, store⟩ s.log
    s.loop.server
  loop : s.loop.Inv
  known : ∀ e ∈ s.log, e.1 < s.loop.sessions.length
  synced : ∀ x ∈ s.calls, Synced s.log s.loop.sessions x
  distinct : Distinct s.calls

theorem inv_start (lib : DBLibrary σ) (store : σ) : (start store).Inv lib store :=
  ⟨rfl, ServerLoop.inv_start store, by simp [start], by simp [start], by simp [start, Distinct]⟩

section Lists
variable {calls : List Exchange} {k : Nat} {f : Exchange → Exchange}

theorem Distinct.of_session_eq {calls' : List Exchange} (h : Distinct calls)
    (hsame : ∀ (k : Nat) (y : Exchange) (i : Nat), calls'[k]? = some y → y.session = some i →
      ∃ x, calls[k]? = some x ∧ x.session = some i) : Distinct calls' := by
  intro k k' y y' i hk hk' hi hi'
  obtain ⟨x, hx, hxi⟩ := hsame k y i hk hi
  obtain ⟨x', hx', hxi'⟩ := hsame k' y' i hk' hi'
  exact h k k' x x' i hx hx' hxi hxi'

theorem Distinct.map (h : Distinct calls) (hf : ∀ x, (f x).session = x.session) :
    Distinct (calls.map f) := by
  refine h.of_session_eq fun k y i hk hi => ?_
  rw [List.getElem?_map] at hk
  obtain ⟨x, hx, rfl⟩ := Option.map_eq_some_iff.mp hk
  exact ⟨x, hx, hf x ▸ hi⟩

theorem Distinct.modify (h : Distinct calls) (hf : ∀ x, (f x).session = x.session) :
    Distinct (calls.modify k f) := by
  refine h.of_session_eq fun j y i hj hi => ?_
  rw [List.getElem?_modify] at hj
  obtain ⟨x, hx, rfl⟩ := Option.map_eq_some_iff.mp hj
  refine ⟨x, hx, ?_⟩
  by_cases hkj : k = j
  · simpa [hkj, hf] using hi
  · simpa [hkj] using hi

theorem Distinct.concat (h : Distinct calls) {x : Exchange} (hx : x.session = none) :
    Distinct (calls ++ [x]) := by
  refine h.of_session_eq fun k y i hk hi => ?_
  rw [List.getElem?_append] at hk
  split at hk
  · exact ⟨y, hk, hi⟩
  · have hy : y = x := List.mem_singleton.mp (List.mem_of_getElem? hk)
    exact absurd hi (by simp [hy, hx])

theorem Distinct.link (h : Distinct calls) {i : Nat} (hfresh : ∀ x ∈ calls, x.session ≠ some i) :
    Distinct (calls.modify k fun x => { x with session := some i }) := by
  intro a b y y' j ha hb hj hj'
  rw [List.getElem?_modify] at ha hb
  obtain ⟨x, hx, rfl⟩ := Option.map_eq_some_iff.mp ha
  obtain ⟨x', hx', rfl⟩ := Option.map_eq_some_iff.mp hb
  have hold := hfresh x (List.mem_of_getElem? hx)
  have hold' := hfresh x' (List.mem_of_getElem? hx')
  by_cases hka : k = a
  · by_cases hkb : k = b
    · exact hka.symm.trans hkb
    · simp only [if_pos hka] at hj
      simp only [if_neg hkb] at hj'
      exact absurd (hj'.trans hj.symm) hold'
  · by_cases hkb : k = b
    · simp only [if_neg hka] at hj
      simp only [if_pos hkb] at hj'
      exact absurd (hj.trans hj'.symm) hold
    · simp only [if_neg hka] at hj
      simp only [if_neg hkb] at hj'
      exact h a b x x' j hx hx' hj hj'

end Lists

section Runs
variable {lib : DBLibrary σ} {store : σ} {s s' : Protocol σ} {x : Exchange} {k : Nat}

theorem Inv.modify (hI : s.Inv lib store) {f : Exchange → Exchange}
    (hlocal : ∀ x, s.calls[k]? = some x → Synced s.log s.loop.sessions (f x))
    (hf : ∀ x, (f x).session = x.session) :
    Inv lib store { s with calls := s.calls.modify k f } := by
  refine { hI with synced := fun y hy => ?_, distinct := hI.distinct.modify hf }
  cases mem_modify hy with
  | inl hold => exact hI.synced y hold
  | inr hnew =>
    obtain ⟨x, hx, rfl⟩ := hnew
    exact hlocal x hx

theorem Inv.answered (hI : s.Inv lib store) {op : ClientOp} (hop : s.Waits k op) {a : Answer}
    (ha : ∀ rb, a ≠ .readSome (some rb)) {f : Exchange → Bytes}
    (hup : ∀ x, x.pending = some op → Synced s.log s.loop.sessions x →
      (x.heard s.log).flatten ++ f x <+: x.cmd ∧ (x.answers = [] → f x = [])) :
    Inv lib store { s with
      calls := s.calls.modify k fun x => Exchange.answer a s.log.length { x with up := f x } } := by
  refine hI.modify (fun y hy => ?_) (fun _ => rfl)
  obtain ⟨x, hx, hpending⟩ := hop
  obtain rfl := Option.some.inj (hx.symm.trans hy)
  have hsync := hI.synced x (List.mem_of_getElem? hx)
  obtain ⟨hasked, hunsent⟩ := hup x hpending hsync
  have hnothing : (Exchange.answer a s.log.length { x with up := f x }).received = [] :=
    received_answer (x := { x with up := f x }) hpending ha _
  refine hsync.answered a rfl hasked hunsent ?_ (fun rb heq => absurd heq (ha rb))
    (fun hne => absurd hnothing hne)
  rw [hnothing, received_of_pending hpending]
  rfl

theorem replies_length
    (h : Reaches (Server.receive lib) (fun _ _ => True) ⟨fun _ => Session.start, store⟩
    s.log s.loop.server) (x : Exchange) :
    (x.replies s.loop.server).length = (x.heard s.log).length := by
  cases hsession : x.session with
  | none => simp [Exchange.replies, hsession, heard_of_session_none hsession]
  | some i =>
    have hcount : (x.heard s.log).length = s.log.countP (fun e => e.1 == i) := by
      rw [Exchange.heard, List.length_filterMap_eq_countP]
      refine List.countP_congr fun e _ => ?_
      by_cases he : e.1 = i
      · simp [hsession, he]
      · simp [hsession, he, Ne.symm he]
    have hlength := ServerLoop.written_length h i
    simp only [Exchange.replies, hsession, hcount, hlength]
    simp [Server.repliesTo, Session.start]

theorem Inv.received_replies (hI : s.Inv lib store) (hx : x ∈ s.calls) :
    x.received ++ x.down <+: (x.replies s.loop.server).flatten := by
  have hsync := hI.synced x hx
  cases hsession : x.session with
  | none =>
    rw [hsync.idle hsession]
    exact List.nil_prefix
  | some i =>
    obtain ⟨p, hp, hstream⟩ := hsync.stream i hsession
    rw [Exchange.replies, hsession]
    simp only [ServerLoop.repliesTo_of_getElem? hp]
    exact hstream.sent

theorem Inv.heard_ne_nil (hI : s.Inv lib store) (hx : x ∈ s.calls)
    (hbytes : x.received ++ x.down ≠ []) :
    x.heard s.log ≠ [] := by
  intro hquiet
  have hlength := replies_length hI.run x
  rw [hquiet] at hlength
  have hsent := hI.received_replies hx
  rw [List.eq_nil_of_length_eq_zero hlength] at hsent
  exact hbytes (List.prefix_nil.mp hsent)

theorem Inv.receive (hI : s.Inv lib store) (hx : s.calls[k]? = some x)
    (hop : x.pending = some .readSome) {n : Nat} (hpos : 0 < n) (hn : n ≤ x.down.length) :
    Inv lib store { s with
      calls := s.calls.modify k fun x =>
        Exchange.answer (.readSome (some (x.down.take n))) s.log.length
          { x with down := x.down.drop n } } := by
  refine hI.modify (fun y hy => ?_) (fun _ => rfl)
  obtain rfl := Option.some.inj (hx.symm.trans hy)
  have hmem := List.mem_of_getElem? hx
  have hsync := hI.synced x hmem
  have hgot := received_readSome (x := { x with down := x.down.drop n }) hop
    (x.down.take n) s.log.length
  refine hsync.answered _ rfl hsync.asked (fun hnil => ?_) ?_ (fun rb hrb => ?_) (fun hne => ?_)
  · exact absurd ((answers_of_pending hop).symm.trans hnil) (by simp [ClientOp.reached])
  · rw [hgot, received_of_pending hop]
    exact List.take_append_drop n x.down
  · obtain rfl : x.down.take n = rb := by simpa using hrb
    exact List.ne_nil_of_length_pos (by rw [List.length_take]; omega)
  · rw [hgot] at hne
    refine hI.heard_ne_nil hmem fun hnone => hne ?_
    rw [(List.append_eq_nil_iff.mp hnone).2, List.take_nil]

theorem session_ne_length (hI : s.Inv lib store) {y : Exchange} (hy : y ∈ s.calls) :
    y.session ≠ some s.loop.sessions.length := by
  intro hsession
  obtain ⟨p, hp, -⟩ := (hI.synced y hy).stream _ hsession
  exact absurd (List.getElem?_eq_some_iff.mp hp).1 (Nat.lt_irrefl _)

theorem Inv.accept (hI : s.Inv lib store) (hx : s.calls[k]? = some x) (hnone : x.session = none)
    (hopen : s.loop.acceptor_ = true) {loop : ServerLoop σ}
    (h : s.loop.step lib (.accept none) = .ok loop) :
    Inv lib store { s with
      loop := loop
      calls := s.calls.modify k fun x => { x with session := some s.loop.sessions.length }
      backlog := s.backlog.tail } := by
  obtain rfl : { s.loop with
      sessions := s.loop.sessions ++ [⟨Session.start, some .read, []⟩], accepting := true } =
      loop := by
    simpa [ServerLoop.step, hopen] using h
  have hfresh : ∀ y ∈ s.calls, y.session ≠ some s.loop.sessions.length :=
    fun y hy => session_ne_length hI hy
  have heffect : ServerLoop.Effect lib s.loop (.accept none) _ := .accepted hopen
  have hloop := hI.loop.effect heffect
  refine ⟨?_, hloop, fun e he => ?_, fun y hy => ?_, hI.distinct.link hfresh⟩
  · simpa [ServerLoop.server, ServerLoop.sessionAt_concat] using hI.run
  · rw [List.length_append]
    exact Nat.lt_add_right _ (hI.known e he)
  · cases mem_modify hy with
    | inl hold => exact (hI.synced y hold).of_concat _
    | inr hnew =>
      obtain ⟨z, hz, rfl⟩ := hnew
      obtain rfl := Option.some.inj (hx.symm.trans hz)
      exact (hI.synced x (List.mem_of_getElem? hx)).accepted hnone hI.known

theorem Inv.flow (hI : s.Inv lib store) {i n : Nat} {p : SessionPeer}
    (hp : s.loop.sessions[i]? = some p) (hop : p.op = some .write)
    (hn : ∀ x ∈ s.calls, x.session = some i → x.pushed + n ≤ p.session.response_.length) :
    Inv lib store { s with
      calls := s.calls.map (Exchange.flowed i (sessionAt s.loop.sessions i).response_ n) } := by
  rw [ServerLoop.sessionAt_of_getElem? hp]
  have hsession : ∀ x : Exchange, (x.flowed i p.session.response_ n).session = x.session := by
    intro x
    unfold Exchange.flowed
    split <;> rfl
  refine { hI with synced := fun y hy => ?_, distinct := hI.distinct.map hsession }
  obtain ⟨x, hx, rfl⟩ := List.mem_map.mp hy
  exact (hI.synced x hx).flow hp hop (hI.loop.sound p (List.mem_of_getElem? hp)) (hn x hx)

theorem Inv.serve (hI : s.Inv lib store) {e : Completion} {loop : ServerLoop σ}
    (he : s.loop.Enabled e) (hallow : ∀ x ∈ s.calls, x.Allows s.loop e)
    (h : s.loop.step lib e = .ok loop) :
    Inv lib store
      ⟨loop, s.calls.map (Exchange.served e), s.log ++ (chunkOf e).toList,
        unaccepted e s.backlog⟩ := by
  have heffect := ServerLoop.effect_of_step he h
  have hsession : ∀ x : Exchange, (x.served e).session = x.session := by
    intro x
    unfold Exchange.served
    split
    · split <;> rfl
    · rfl
  refine ⟨?_, hI.loop.effect heffect, ?_, fun y hy => ?_, hI.distinct.map hsession⟩
  · rw [reaches_append_iff]
    refine ⟨_, hI.run, ?_⟩
    cases ServerLoop.step_server he h with
    | inl hquiet =>
      rw [hquiet.1]
      exact hquiet.2
    | inr hrequest =>
      obtain ⟨event, hevent, hreceive⟩ := hrequest
      rw [hevent]
      exact ⟨trivial, _, hreceive, rfl⟩
  · intro event hevent
    obtain ⟨hgrown, hnew⟩ := heffect.sessions_length
    cases List.mem_append.mp hevent with
    | inl hold => exact Nat.lt_of_lt_of_le (hI.known event hold) hgrown
    | inr hlast => exact hnew event (Option.mem_toList.mp hlast)
  · obtain ⟨x, hx, rfl⟩ := List.mem_map.mp hy
    exact (hI.synced x hx).serve (hallow x hx) heffect

/-- One move keeps all of it. -/
theorem inv_step (hI : s.Inv lib store) {m : Move} (he : s.Enabled m) (h : s.step lib m = .ok s') :
    s'.Inv lib store := by
  cases m with
  | invoke cmd =>
    obtain rfl := Except.ok.inj h
    exact { hI with
      synced := forall_mem_concat hI.synced (synced_start cmd s.log s.loop.sessions)
      distinct := hI.distinct.concat rfl }
  | connect k ok =>
    obtain rfl := Except.ok.inj h
    exact hI.answered (f := Exchange.up) he.1 (by simp) fun x hop hsync =>
      ⟨hsync.asked, fun hnil => (hsync.unsent (by simp [hnil])).1⟩
  | send k n ok =>
    obtain rfl := Except.ok.inj h
    refine hI.answered (f := fun x => x.cmd.take n) he (by simp) fun x hop hsync => ?_
    have hreached := answers_of_pending hop
    have hquiet := (hsync.unsent (by simp [hreached, ClientOp.reached])).2
    refine ⟨?_, fun hnil => absurd (hreached.symm.trans hnil) (by simp [ClientOp.reached])⟩
    rw [hquiet]
    exact List.take_prefix n x.cmd
  | receive k n =>
    obtain ⟨x, hx, hop, hpos, hn, -⟩ := he
    obtain rfl := Except.ok.inj h
    exact hI.receive hx hop hpos hn
  | fail k =>
    obtain rfl := Except.ok.inj h
    exact hI.answered (f := Exchange.up) he (by simp) fun x hop hsync =>
      ⟨hsync.asked, fun hnil => (hsync.unsent (by simp [hnil])).1⟩
  | arrive who =>
    obtain rfl := Except.ok.inj h
    exact { hI with }
  | accept k =>
    obtain ⟨-, hopen, -, x, hx, -, hnone⟩ := he
    obtain ⟨loop, hstep, rfl⟩ := map_eq_ok_iff.mp h
    exact hI.accept hx hnone hopen hstep
  | flow i n =>
    obtain ⟨p, hp, hop, hn⟩ := he
    obtain rfl := Except.ok.inj h
    exact hI.flow hp hop hn
  | serve e =>
    obtain ⟨loop, hstep, rfl⟩ := map_eq_ok_iff.mp h
    exact hI.serve he.1 he.2.2 hstep

theorem inv_reaches {moves : List Move} (h : Reaches (step lib) Enabled (start store) moves s) :
    s.Inv lib store :=
  h.invariant (fun _ _ _ hI he hs => inv_step hI he hs) (inv_start lib store)

end Runs

/-- For every library, any number of calls and every order of what happens: the store is that of
the requests handled, one after the other. The requests of a call are pieces of its command, in
order and from its beginning, none of them handled before the call was made or over the session of
another; each got one response, and what the call has received are the responses from their
beginning. -/
theorem bytes_in_order (lib : DBLibrary σ) (store : σ) (moves : List Move) (s : Protocol σ)
    (h : Reaches (step lib) Enabled (start store) moves s) :
    Reaches (Server.receive lib)
      (fun _ _ => True) ⟨fun _ => Session.start, store⟩ s.log s.loop.server ∧
    Distinct s.calls ∧
    ∀ x ∈ s.calls,
      (x.heard s.log).flatten <+: x.cmd ∧ (∀ chunk ∈ x.heard s.log, chunk ≠ []) ∧
      x.heard (s.log.take x.began) = [] ∧
      (x.replies s.loop.server).length = (x.heard s.log).length ∧
      x.received <+: (x.replies s.loop.server).flatten := by
  have hI := inv_reaches h
  refine ⟨hI.run, hI.distinct, fun x hx => ?_⟩
  have hsync := hI.synced x hx
  refine ⟨?_, hsync.whole, hsync.began.2, replies_length hI.run x, ?_⟩
  · exact (List.prefix_append _ _).trans hsync.asked
  · exact (List.prefix_append _ _).trans (hI.received_replies hx)

/-- A command of which the network takes a part only, and the session reads less of that: another
record is looked for. -/
theorem bytes_in_order_sample :
    let store := (Server.ofFile (ascii "name:note\nmilk:x\n")).store
    let moves : List Move := [.invoke (ascii "/delete/milk"), .connect 0 true, .send 0 11 true,
      .arrive (some 0), .accept 0, .serve (.read 0 (.ok (ascii "/delete/m")))]
    ∃ s x, Reaches (step textLibrary) Enabled (start store) moves s ∧ s.calls = [x] ∧
      x.heard s.log = [ascii "/delete/m"] ∧ x.up = ascii "il" ∧ (x.heard s.log).flatten <+: x.cmd ∧
      (x.replies s.loop.server).length = 1 := by
  intro store moves
  have hplay : ∃ s ∈ play (step textLibrary) Enabled (start store) moves,
      s.calls.map (fun x => (x.heard s.log, x.up)) = [([ascii "/delete/m"], ascii "il")] := by
    decide +kernel
  obtain ⟨s, hs, hcalls⟩ := hplay
  obtain ⟨x, hx, hpair⟩ := List.map_eq_singleton_iff.mp hcalls
  obtain ⟨hheard, hup⟩ := Prod.mk.inj hpair
  have hrun := play_eq_some_iff.mp hs
  obtain ⟨hasked, -, -, hlength, -⟩ :=
    (bytes_in_order textLibrary store moves s hrun).2.2 x (by simp [hx])
  exact ⟨s, x, hrun, hx, hheard, hup, hasked, by rw [hlength, hheard]; rfl⟩

end Protocol
end ReminderSuite
