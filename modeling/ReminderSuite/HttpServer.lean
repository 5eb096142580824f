import ReminderSuite.Answering
import ReminderSuite.Numbered
import Mathlib.Data.Finset.Basic
import Mathlib.Data.List.Infix

/-! The gateway's event loop: the acceptor, the signal that stops it, and the connections it
manages, over the completions of their operations in any order. -/
namespace ReminderSuite
open FallibleRun Numbered RequestParser
variable {ω : Type}

/-- An outstanding operation, and whether the socket was open when it was begun -/
inductive Operation where
  | read (live : Bool)
  | write (live : Bool)
deriving DecidableEq

structure Peer where
  conn : Connection
  isOpen : Bool
  op : Option Operation

namespace Peer

def doRead (p : Peer) : Peer := { p with op := some (.read p.isOpen) }

def doWrite (p : Peer) : Peer := { p with op := some (.write p.isOpen) }

def stop (p : Peer) : Peer := { p with isOpen := false }

/-- A read or write completes only where it is outstanding, aborted only on a closed socket, and
well only where it was begun on an open one. -/
def MayRead (p : Peer) (result : Except AsioError Bytes) : Prop :=
  match p.op, result with
  | some (.read live), .ok _ => live = true
  | some (.read _), .error .operationAborted => p.isOpen = false
  | some (.read _), .error .other => True
  | _, _ => False

def MayWrite (p : Peer) (ec : Option AsioError) : Prop :=
  match p.op, ec with
  | some (.write live), none => live = true
  | some (.write _), some .operationAborted => p.isOpen = false
  | some (.write _), some .other => True
  | _, _ => False

def work (p : Peer) : Nat :=
  match p.op with
  | none => 0
  | some (.read true) => 2
  | some _ => 1

end Peer

structure HttpServer (ω : Type) where
  /-- whether the acceptor is open -/
  acceptor_ : Bool
  accepting : Bool
  awaitingStop : Bool
  /-- the connections made so far, in order -/
  peers : List Peer
  /-- the managed ones -/
  connections_ : Finset Nat
  /-- what the handler of requests works on -/
  world : ω

def bufferSize : Nat := 8192

namespace HttpServer

def start (world : ω) : HttpServer ω := ⟨true, true, true, [], ∅, world⟩

def managerStart (s : HttpServer ω) (c : Peer) : HttpServer ω :=
  { s with connections_ := insert s.peers.length s.connections_, peers := s.peers ++ [c.doRead] }

def managerStop (s : HttpServer ω) (i : Nat) : HttpServer ω :=
  { s with connections_ := s.connections_.erase i, peers := s.peers.modify i Peer.stop }

def managerStopAll (s : HttpServer ω) : HttpServer ω :=
  { s with
    connections_ := ∅
    peers := s.peers.mapIdx fun i p => if i ∈ s.connections_ then p.stop else p }

def doAccept (s : HttpServer ω) : HttpServer ω := { s with accepting := true }

def step (handle : Handler ω) (s : HttpServer ω) : Completion → Except Fault (HttpServer ω)
  | .accept ec =>
    let s := { s with accepting := false }
    if !s.acceptor_ then .ok s
    else if ec = none then .ok (s.managerStart ⟨.start, true, none⟩).doAccept
    else .ok s.doAccept
  | .signal => .ok { s with awaitingStop := false, acceptor_ := false }.managerStopAll
  | .read i result =>
    match s.peers[i]? with
    | none => .ok s
    | some p =>
      let p := { p with op := none }
      match result with
      | .ok chunk =>
        match p.conn.doRead handle chunk s.world with
        | (.error fault, _) => .error fault
        | (.ok conn, world) =>
          let p := { p with conn := conn }
          .ok { s with world := world, peers := s.peers.set i (if conn.reading then p.doRead
            else p.doWrite) }
      | .error ec =>
        let s := { s with peers := s.peers.set i p }
        .ok (if ec ≠ .operationAborted then s.managerStop i else s)
  | .write i ec =>
    match s.peers[i]? with
    | none => .ok s
    | some p =>
      let s := { s with peers := s.peers.set i { p with op := none } }
      .ok (if ec ≠ some .operationAborted then s.managerStop i else s)

def Enabled (s : HttpServer ω) : Completion → Prop
  | .accept ec => s.accepting = true ∧ (ec = some .operationAborted → s.acceptor_ = false)
  | .signal => s.awaitingStop = true
  | .read i result => ∃ p, s.peers[i]? = some p ∧ p.MayRead result ∧ ReadFits bufferSize result
  | .write i ec => ∃ p, s.peers[i]? = some p ∧ p.MayWrite ec

/-- No operation is outstanding, so that `io_service::run` returns. -/
def Idle (s : HttpServer ω) : Prop :=
  s.accepting = false ∧ s.awaitingStop = false ∧ ∀ p ∈ s.peers, p.op = none

inductive Effect (handle : Handler ω) (s : HttpServer ω) : Completion → HttpServer ω → Prop
  | closed (ec : Option AsioError) (h : s.acceptor_ = false) :
      Effect handle s (.accept ec) { s with accepting := false }
  | accepted (h : s.acceptor_ = true) :
      Effect handle s (.accept none) (s.managerStart ⟨.start, true, none⟩).doAccept
  | refused (ec : AsioError) (h : s.acceptor_ = true) :
      Effect handle s (.accept (some ec)) s.doAccept
  | signalled (h : s.awaitingStop = true) :
      Effect handle s .signal { s with awaitingStop := false, acceptor_ := false }.managerStopAll
  | received {i : Nat} {p : Peer} {chunk : Bytes} {conn : Connection} {world : ω}
      (hp : s.peers[i]? = some p) (hop : p.op = some (.read true))
      (hread : p.conn.doRead handle chunk s.world = (.ok conn, world)) :
      Effect handle s (.read i (.ok chunk)) { s with
        world := world
        peers := s.peers.set i ⟨conn, p.isOpen,
          some (if conn.reading then .read p.isOpen else .write p.isOpen)⟩ }
  | aborted {e : Completion} {i : Nat} {p : Peer} (he : ∀ j chunk, e ≠ .read j (.ok chunk))
      (hp : s.peers[i]? = some p) (hop : p.op ≠ none) (hclosed : p.isOpen = false) :
      Effect handle s e { s with peers := s.peers.set i ⟨p.conn, false, none⟩ }
  | dropped {e : Completion} {i : Nat} {p : Peer} (he : ∀ j chunk, e ≠ .read j (.ok chunk))
      (hp : s.peers[i]? = some p) (hop : p.op ≠ none) :
      Effect handle s e { s with
        connections_ := s.connections_.erase i
        peers := s.peers.set i ⟨p.conn, false, none⟩ }

theorem effect_of_step {handle : Handler ω} {s s' : HttpServer ω} {e : Completion}
    (he : s.Enabled e)
    (h : s.step handle e = .ok s') : Effect handle s e s' := by
  cases e with
  | accept ec =>
    cases hacceptor : s.acceptor_ with
    | false =>
      obtain rfl : { s with accepting := false } = s' := by simpa [step, hacceptor] using h
      exact .closed ec hacceptor
    | true =>
      cases ec with
      | none =>
        have hgo : s.step handle (.accept none) =
            .ok (s.managerStart ⟨.start, true, none⟩).doAccept := by
          simp [step, hacceptor, managerStart, doAccept]
        rw [hgo] at h
        exact Except.ok.inj h ▸ .accepted hacceptor
      | some ec =>
        have hgo : s.step handle (.accept (some ec)) = .ok s.doAccept := by
          simp [step, hacceptor, doAccept]
        rw [hgo] at h
        exact Except.ok.inj h ▸ .refused ec hacceptor
  | signal =>
    obtain rfl : _ = s' := by simpa [step] using h
    exact .signalled he
  | read i result =>
    obtain ⟨p, hp, hmay, -⟩ := he
    cases hop : p.op with
    | none => simp [Peer.MayRead, hop] at hmay
    | some op =>
      cases op with
      | write live => simp [Peer.MayRead, hop] at hmay
      | read live =>
        cases result with
        | ok chunk =>
          obtain rfl : live = true := by simpa [Peer.MayRead, hop] using hmay
          rcases hread : p.conn.doRead handle chunk s.world with ⟨_ | conn, world⟩
          · simp [step, hp, hread] at h
          · have hset : (if conn.reading then (⟨conn, p.isOpen, none⟩ : Peer).doRead
                else (⟨conn, p.isOpen, none⟩ : Peer).doWrite) =
                ⟨conn, p.isOpen, some (if conn.reading then .read p.isOpen
                  else .write p.isOpen)⟩ := by
              cases conn.reading <;> rfl
            have hgo := h
            simp only [step, hp, hread, hset] at hgo
            exact Except.ok.inj hgo ▸ .received hp hop hread
        | error ec =>
          have hne : p.op ≠ none := by simp [hop]
          have hnot : ∀ j chunk, Completion.read i (.error ec) ≠ .read j (.ok chunk) := by simp
          cases ec with
          | operationAborted =>
            have hclosed : p.isOpen = false := by simpa [Peer.MayRead, hop] using hmay
            simp only [step, hp] at h
            obtain rfl := Except.ok.inj h
            exact hclosed ▸ .aborted hnot hp hne hclosed
          | other =>
            simp only [step, hp] at h
            obtain rfl := Except.ok.inj h
            rw [if_pos (by decide), managerStop, modify_set]
            exact Effect.dropped (p := p) hnot hp hne
  | write i ec =>
    obtain ⟨p, hp, hmay⟩ := he
    have hnot : ∀ j chunk, Completion.write i ec ≠ .read j (.ok chunk) := by simp
    cases hop : p.op with
    | none => simp [Peer.MayWrite, hop] at hmay
    | some op =>
      cases op with
      | read live => simp [Peer.MayWrite, hop] at hmay
      | write live =>
        have hne : p.op ≠ none := by simp [hop]
        simp only [step, hp] at h
        obtain rfl := Except.ok.inj h
        by_cases hec : ec = some .operationAborted
        · subst hec
          have hclosed : p.isOpen = false := by simpa [Peer.MayWrite, hop] using hmay
          exact hclosed ▸ .aborted hnot hp hne hclosed
        · rw [if_pos hec, managerStop, modify_set]
          exact Effect.dropped (p := p) hnot hp hne

/-- A connection whose socket is open has an operation outstanding that was begun on it. It is a
read while more of the request is wanted, and the write of the reply from then on. -/
structure Sound (p : Peer) : Prop where
  busy : p.isOpen = true → p.op = some (.read true) ∨ p.op = some (.write true)
  reading : ∀ live, p.op = some (.read live) → p.conn.reading = true
  writing : ∀ live, p.op = some (.write live) → p.conn.reading = false

def OpenAt (peers : List Peer) (i : Nat) : Prop := ∃ p, peers[i]? = some p ∧ p.isOpen = true

theorem openAt_iff {peers : List Peer} {i : Nat} : OpenAt peers i ↔
    view Peer.isOpen false peers i = true := by
  cases hp : peers[i]? <;> simp [OpenAt, view, hp]

theorem openAt_set_iff {peers : List Peer} {i : Nat} {p : Peer} (hp : peers[i]? = some p) (q : Peer)
    (j : Nat) : OpenAt (peers.set i q) j ↔ if j = i then q.isOpen = true else OpenAt peers j := by
  rw [openAt_iff, openAt_iff, view_set hp, Function.update_apply]
  split <;> exact Iff.rfl

theorem openAt_append_iff (peers : List Peer) (q : Peer) (j : Nat) :
    OpenAt (peers ++ [q]) j ↔ j = peers.length ∧ q.isOpen = true ∨ OpenAt peers j := by
  rw [openAt_iff, openAt_iff, view_append, Function.update_apply]
  by_cases hj : j = peers.length
  · simp [hj, view_length]
  · simp [hj]

structure Inv (s : HttpServer ω) : Prop where
  sound : ∀ p ∈ s.peers, Sound p
  managed : ∀ i, i ∈ s.connections_ ↔ OpenAt s.peers i
  awaiting : s.awaitingStop = s.acceptor_
  accepting : s.acceptor_ = true → s.accepting = true
  stopped : s.acceptor_ = false → s.connections_ = ∅

theorem inv_start (world : ω) : (start world).Inv := by
  constructor <;> simp [start, OpenAt]

theorem sound_closed (conn : Connection) : Sound ⟨conn, false, none⟩ := by
  constructor <;> simp

theorem Inv.accepted {s : HttpServer ω} (hI : s.Inv) (h : s.acceptor_ = true) :
    (s.managerStart ⟨.start, true, none⟩).doAccept.Inv where
  sound := by
    refine forall_mem_concat hI.sound ?_
    constructor <;> simp [Peer.doRead, Connection.start]
  managed := by
    intro i
    simp only [managerStart, doAccept, Finset.mem_insert, hI.managed, openAt_append_iff,
      Peer.doRead, and_true]
  awaiting := hI.awaiting
  accepting _ := rfl
  stopped hclosed := absurd h (by simp [show s.acceptor_ = false from hclosed])

theorem Inv.signalled {s : HttpServer ω} (hI : s.Inv) :
    ({ s with awaitingStop := false, acceptor_ := false } : HttpServer ω).managerStopAll.Inv where
  sound := by
    intro p hp
    obtain ⟨i, hi, rfl⟩ := List.mem_mapIdx.mp hp
    have hsound := hI.sound _ (List.getElem_mem hi)
    split_ifs
    · exact ⟨fun hopen => absurd hopen (by simp [Peer.stop]), hsound.reading, hsound.writing⟩
    · exact hsound
  managed := by
    intro i
    refine iff_of_false (Finset.notMem_empty i) fun hopen => ?_
    obtain ⟨p, hp, hisOpen⟩ := hopen
    rw [managerStopAll, List.getElem?_mapIdx, Option.map_eq_some_iff] at hp
    obtain ⟨q, hq, rfl⟩ := hp
    split_ifs at hisOpen with hmanaged
    · simp [Peer.stop] at hisOpen
    · exact hmanaged ((hI.managed i).mpr ⟨q, hq, hisOpen⟩)
  awaiting := rfl
  accepting hopen := absurd hopen (by simp [managerStopAll])
  stopped _ := rfl

theorem Inv.effect {handle : Handler ω} {s s' : HttpServer ω} {e : Completion} (hI : s.Inv)
    (h : Effect handle s e s') : s'.Inv := by
  cases h with
  | closed ec h =>
    exact ⟨hI.sound, hI.managed, hI.awaiting, fun ht => absurd ht (by simp [h]), hI.stopped⟩
  | accepted h => exact hI.accepted h
  | refused ec h => exact ⟨hI.sound, hI.managed, hI.awaiting, fun _ => rfl, hI.stopped⟩
  | signalled h => exact hI.signalled
  | @received i p chunk conn world hp hop hread =>
    refine ⟨forall_mem_set hI.sound ?_, fun j => ?_, hI.awaiting, hI.accepting, hI.stopped⟩
    · cases hreading : conn.reading <;> constructor <;> simp [hreading]
    · rw [openAt_set_iff hp, hI.managed]
      by_cases hj : j = i
      · simp [hj, OpenAt, hp]
      · rw [if_neg hj]
  | @aborted e i p he hp hop hclosed =>
    refine ⟨forall_mem_set hI.sound (sound_closed _), fun j => ?_, hI.awaiting,
      hI.accepting, hI.stopped⟩
    rw [openAt_set_iff hp, hI.managed]
    by_cases hj : j = i
    · simp [hj, OpenAt, hp, hclosed]
    · rw [if_neg hj]
  | dropped he hp hop =>
    refine ⟨forall_mem_set hI.sound (sound_closed _), fun j => ?_, hI.awaiting, hI.accepting,
      fun hclosed => ?_⟩
    · rw [openAt_set_iff hp, Finset.mem_erase, hI.managed]
      split_ifs with hj <;> simp [hj]
    · rw [hI.stopped hclosed, Finset.erase_empty]

theorem inv_step {handle : Handler ω} {s s' : HttpServer ω} {e : Completion} (hI : s.Inv)
    (he : s.Enabled e) (h : s.step handle e = .ok s') : s'.Inv :=
  hI.effect (effect_of_step he h)

theorem inv_reaches {handle : Handler ω} {s s' : HttpServer ω} {es : List Completion} (hI : s.Inv)
    (h : Reaches (step handle) Enabled s es s') : s'.Inv :=
  h.invariant (fun _ _ _ hI he hs => inv_step hI he hs) hI

section Draining

def work (s : HttpServer ω) : Nat :=
  s.peers.foldr (fun p n => p.work + n) 0 + if s.accepting then 1 else 0

def pending (s : HttpServer ω) : Nat := s.peers.countP fun p => p.op.isSome

theorem work_le (s : HttpServer ω) : s.work ≤ 2 * s.pending + 1 := by
  have hpeers : s.peers.foldr (fun p n => p.work + n) 0 ≤ 2 * s.pending := by
    rw [pending]
    induction s.peers with
    | nil => simp
    | cons p ps ih =>
      have hp : p.work ≤ 2 * if p.op.isSome then 1 else 0 := by
        rcases hop : p.op with _ | (live | live)
        · simp [Peer.work, hop]
        · cases live <;> simp [Peer.work, hop]
        · simp [Peer.work, hop]
      simp only [List.foldr_cons, List.countP_cons]
      omega
  rw [work]
  split <;> omega

theorem foldr_set_lt {α : Type} {l : List α} {i : Nat} {a b : α} {f : α → Nat} (hi : l[i]? = some a)
    (h : f b < f a) :
    (l.set i b).foldr (fun x n => f x + n) 0 < l.foldr (fun x n => f x + n) 0 := by
  induction l generalizing i with
  | nil => simp at hi
  | cons x xs ih =>
    cases i with
    | zero =>
      obtain rfl : x = a := by simpa using hi
      simpa using h
    | succ i =>
      have hrest := ih (by simpa using hi)
      simpa using hrest

/-- Once the acceptor is closed every completion takes from the work. -/
theorem work_lt {handle : Handler ω} {s s' : HttpServer ω} {e : Completion} (hI : s.Inv)
    (hstop : s.acceptor_ = false) (he : s.Enabled e) (h : Effect handle s e s') :
    s'.acceptor_ = false ∧ s'.work < s.work := by
  have hclosed : ∀ {i : Nat} {p : Peer}, s.peers[i]? = some p → p.isOpen = false := by
    intro i p hp
    by_contra hopen
    have hmem := (hI.managed i).mpr ⟨p, hp, by simpa using hopen⟩
    rw [hI.stopped hstop] at hmem
    exact absurd hmem (Finset.notMem_empty i)
  have hwork : ∀ {p : Peer} (conn : Connection), p.op ≠ none →
      (⟨conn, false, none⟩ : Peer).work < p.work := by
    intro p conn hop
    rcases hop' : p.op with _ | (live | live)
    · exact absurd hop' hop
    · cases live <;> simp [Peer.work, hop']
    · simp [Peer.work, hop']
  cases h with
  | closed ec h =>
    have haccepting : s.accepting = true := he.1
    exact ⟨hstop, by simp [work, haccepting]⟩
  | accepted h => exact absurd h (by simp [hstop])
  | refused ec h => exact absurd h (by simp [hstop])
  | signalled h => exact absurd h (by simp [hI.awaiting, hstop])
  | @received i p chunk conn world hp hop hread =>
    refine ⟨hstop, Nat.add_lt_add_right (foldr_set_lt hp ?_) _⟩
    rw [hclosed hp]
    cases conn.reading <;> simp [Peer.work, hop]
  | aborted he hp hop hclosed =>
    exact ⟨hstop, Nat.add_lt_add_right (foldr_set_lt hp (hwork _ hop)) _⟩
  | dropped he hp hop => exact ⟨hstop, Nat.add_lt_add_right (foldr_set_lt hp (hwork _ hop)) _⟩

/-- The loop is idle exactly when no completion can occur. -/
theorem idle_iff (s : HttpServer ω) : s.Idle ↔ ∀ e, ¬ s.Enabled e := by
  constructor
  · intro h e he
    obtain ⟨haccepting, hawaiting, hops⟩ := h
    cases e with
    | accept ec => simp [Enabled, haccepting] at he
    | signal => simp [Enabled, hawaiting] at he
    | read i result =>
      obtain ⟨p, hp, hmay, -⟩ := he
      simp [Peer.MayRead, hops p (List.mem_of_getElem? hp)] at hmay
    | write i ec =>
      obtain ⟨p, hp, hmay⟩ := he
      simp [Peer.MayWrite, hops p (List.mem_of_getElem? hp)] at hmay
  · intro h
    refine ⟨?_, ?_, fun p hp => ?_⟩
    · simpa [Enabled] using h (.accept none)
    · simpa [Enabled] using h .signal
    · obtain ⟨i, hi⟩ := List.mem_iff_getElem?.mp hp
      have hread := h (.read i (.error .other))
      have hwrite := h (.write i (some .other))
      simp only [Enabled, hi, Option.some.injEq, exists_eq_left'] at hread hwrite
      rcases hop : p.op with _ | (live | live)
      · rfl
      · simp [Peer.MayRead, ReadFits, hop] at hread
      · simp [Peer.MayWrite, hop] at hwrite

theorem inv_work_lt {handle : Handler ω} {s s' : HttpServer ω} {e : Completion}
    (hI : s.Inv ∧ s.acceptor_ = false) (he : s.Enabled e) (h : s.step handle e = .ok s') :
    (s'.Inv ∧ s'.acceptor_ = false) ∧ s'.work < s.work :=
  have hdone := work_lt hI.1 hI.2 he (effect_of_step he h)
  ⟨⟨inv_step hI.1 he h, hdone.1⟩, hdone.2⟩

end Draining

/-- For every handler and every order of completions, in every state of the loop: an accept is
outstanding while the acceptor is open; the managed connections are those with an open socket;
each of these has exactly one operation outstanding, which was begun on it: a read while it
wants more of its request, and from then on the write of its reply; after the acceptor is closed
none is left; and the loop ends with every socket closed, and only after the signal. -/
theorem loop_invariant (handle : Handler ω) (world : ω) (es : List Completion) (s : HttpServer ω)
    (h : Reaches (step handle) Enabled (start world) es s) :
    (s.acceptor_ = true → s.accepting = true) ∧
    (∀ i p, s.peers[i]? = some p → (i ∈ s.connections_ ↔ p.isOpen = true)) ∧
    (∀ p ∈ s.peers, p.isOpen = true →
      p.op = some (.read true) ∧ p.conn.reading = true ∨
      p.op = some (.write true) ∧ p.conn.reading = false) ∧
    (s.acceptor_ = false → s.connections_ = ∅) ∧
    (s.Idle → s.acceptor_ = false ∧ ∀ p ∈ s.peers, p.isOpen = false) := by
  have hI := inv_reaches (inv_start world) h
  refine ⟨hI.accepting, fun i p hp => ?_, fun p hp hopen => ?_, hI.stopped,
    fun hidle => ⟨?_, fun p hp => ?_⟩⟩
  · simp [hI.managed, OpenAt, hp]
  · have hsound := hI.sound p hp
    cases hsound.busy hopen with
    | inl hread => exact Or.inl ⟨hread, hsound.reading true hread⟩
    | inr hwrite => exact Or.inr ⟨hwrite, hsound.writing true hwrite⟩
  · cases hacceptor : s.acceptor_ with
    | false => rfl
    | true => exact absurd (hI.accepting hacceptor) (by simp [hidle.1])
  · cases hopen : p.isOpen with
    | false => rfl
    | true => exact absurd ((hI.sound p hp).busy hopen) (by simp [hidle.2.2 p hp])

theorem loop_invariant_sample :
    let handle : Handler Unit := fun _ rep _ => (.ok rep, ())
    ∃ s, Reaches (step handle) Enabled (start ()) [.accept none, .read 0 (.ok (ascii "GET")),
      .accept none] s ∧
      s.connections_ = {0, 1} ∧ ∀ i p, s.peers[i]? = some p → (i ∈ s.connections_ ↔
        p.isOpen = true) := by
  intro handle
  have hrun : ∃ s, Reaches (step handle) Enabled (start ())
      [.accept none, .read 0 (.ok (ascii "GET")), .accept none] s ∧ s.connections_ = {0, 1} := by
    refine ⟨_, ⟨⟨rfl, by simp⟩, _, rfl, ⟨_, rfl, rfl, by decide⟩, _, rfl,
      ⟨rfl, by simp⟩, _, rfl, rfl⟩, ?_⟩
    decide
  obtain ⟨s, hs, hmanaged⟩ := hrun
  exact ⟨s, hs, hmanaged, (loop_invariant handle () _ s hs).2.1⟩

/-- Once the signal has come, whatever the connections were doing: no more completions can occur
than two for each connection with an operation outstanding and one for the acceptor, and where
none can occur any more nothing is outstanding, so that `run` returns. -/
theorem stopped_drains (handle : Handler ω) (world : ω) (es more : List Completion)
    (s s' : HttpServer ω)
    (h : Reaches (step handle) Enabled (start world) es s) (hstop : s.acceptor_ = false)
    (hmore : Reaches (step handle) Enabled s more s') :
    more.length ≤ 2 * s.pending + 1 ∧ (s'.Idle ↔ ∀ e, ¬ s'.Enabled e) := by
  have hI := inv_reaches (inv_start world) h
  have hlength := hmore.length_add_le (fun _ _ _ hI he hs => inv_work_lt hI he hs) ⟨hI, hstop⟩
  have hwork := s.work_le
  exact ⟨by omega, idle_iff s'⟩

/-- A connection that is read from when the signal comes: the bound is reached where its read
has completed already. -/
theorem stopped_drains_sample :
    let handle : Handler Unit := fun _ rep _ => (.ok rep, ())
    let more : List Completion := [.read 0 (.ok (ascii "GET")), .read 0 (.error .other),
      .accept (some .operationAborted)]
    ∃ s s', Reaches (step handle) Enabled (start ()) [.accept none, .signal] s ∧ s.pending = 1 ∧
      Reaches (step handle) Enabled s more s' ∧ more.length ≤ 2 * s.pending + 1 ∧
      (s'.Idle ↔ ∀ e, ¬ s'.Enabled e) := by
  intro handle more
  have hrun : ∃ s s', Reaches (step handle) Enabled (start ()) [.accept none, .signal] s ∧
      s.acceptor_ = false ∧ s.pending = 1 ∧ Reaches (step handle) Enabled s more s' := by
    exact ⟨_, _, ⟨⟨rfl, by simp⟩, _, rfl, rfl, _, rfl, rfl⟩, rfl, rfl,
      ⟨_, rfl, rfl, by decide⟩, _, rfl, ⟨_, rfl, trivial, trivial⟩, _, rfl,
      ⟨rfl, fun _ => rfl⟩, _, rfl, rfl⟩
  obtain ⟨s, s', hs, hstop, hpending, hmore⟩ := hrun
  exact ⟨s, s', hs, hpending, hmore, stopped_drains handle () _ more s s' hs hstop hmore⟩

end HttpServer
end ReminderSuite
