import ReminderSuite.Numbered
import ReminderSuite.Server

/-! The Data Provider's event loop: its acceptor, the signal that closes that, and its sessions,
each of which reads and writes in turn, over the completions of their operations in any order. -/
namespace ReminderSuite
open Delimited FallibleRun Numbered
variable {σ : Type}

inductive SessionOp where
  | read | write
deriving DecidableEq

structure SessionPeer where
  session : Session
  op : Option SessionOp
  /-- the responses whose write has completed, as the buffer had them then -/
  delivered : List Bytes

structure ServerLoop (σ : Type) where
  /-- whether the acceptor is open -/
  acceptor_ : Bool
  accepting : Bool
  awaitingStop : Bool
  /-- the sessions made so far, in order -/
  sessions : List SessionPeer
  store : σ

namespace ServerLoop

def start (store : σ) : ServerLoop σ := ⟨true, true, true, [], store⟩

def step (lib : DBLibrary σ) (s : ServerLoop σ) : Completion → Except Fault (ServerLoop σ)
  | .accept ec =>
    let s := { s with accepting := false }
    if !s.acceptor_ then .ok s
    else
      let sessions := if ec = none then s.sessions ++ [⟨Session.start, some .read, []⟩]
        else s.sessions
      .ok { s with sessions := sessions, accepting := true }
  | .signal => .ok { s with awaitingStop := false, acceptor_ := false }
  | .read i result =>
    match s.sessions[i]? with
    | none => .ok s
    | some p =>
      match result with
      | .ok chunk =>
        (parseRequest lib chunk p.session s.store).map fun (session, store) =>
          { s with
            store := store
            sessions := s.sessions.set i { p with session := session, op := some .write } }
      | .error _ => .ok { s with sessions := s.sessions.set i { p with op := none } }
  | .write i ec =>
    match s.sessions[i]? with
    | none => .ok s
    | some p =>
      match ec with
      | none =>
        let p := { p with op := some .read, delivered := p.delivered ++ [p.session.response_] }
        .ok { s with sessions := s.sessions.set i p }
      | some _ => .ok { s with sessions := s.sessions.set i { p with op := none } }

def Enabled (s : ServerLoop σ) : Completion → Prop
  | .accept ec => s.accepting = true ∧ (ec = some .operationAborted → s.acceptor_ = false)
  | .signal => s.awaitingStop = true
  | .read i result => ∃ p, s.sessions[i]? = some p ∧ p.op = some .read ∧ ReadFits requestBuf result
  | .write i _ => ∃ p, s.sessions[i]? = some p ∧ p.op = some .write

instance (loop : ServerLoop σ) : (e : Completion) → Decidable (loop.Enabled e)
  | .accept ec =>
    inferInstanceAs (Decidable
      (loop.accepting = true ∧ (ec = some .operationAborted → loop.acceptor_ = false)))
  | .signal => inferInstanceAs (Decidable (loop.awaitingStop = true))
  | .read i result =>
    inferInstanceAs (Decidable
      (∃ p ∈ loop.sessions[i]?, p.op = some .read ∧ ReadFits requestBuf result))
  | .write i _ => inferInstanceAs (Decidable (∃ p ∈ loop.sessions[i]?, p.op = some .write))

def chunkOf : Completion → Option Event
  | .read i (.ok chunk) => some (i, chunk)
  | _ => none

def sessionAt (sessions : List SessionPeer) (i : Nat) : Session :=
  (sessions[i]?.map SessionPeer.session).getD Session.start

def server (s : ServerLoop σ) : Server σ := ⟨sessionAt s.sessions, s.store⟩

section Steps
variable {lib : DBLibrary σ} {s s' : ServerLoop σ} {e : Completion}

theorem sessionAt_set {sessions : List SessionPeer} {i : Nat} {p : SessionPeer}
    (hp : sessions[i]? = some p) (q : SessionPeer) :
    sessionAt (sessions.set i q) = Function.update (sessionAt sessions) i q.session :=
  view_set hp q

theorem sessionAt_of_getElem? {sessions : List SessionPeer} {i : Nat} {p : SessionPeer}
    (hp : sessions[i]? = some p) : sessionAt sessions i = p.session :=
  view_of_getElem? hp

theorem repliesTo_of_getElem? {i : Nat} {p : SessionPeer} (hp : s.sessions[i]? = some p) :
    s.server.repliesTo i = p.session.written := by
  simp [Server.repliesTo, server, sessionAt_of_getElem? hp]

theorem sessionAt_concat (sessions : List SessionPeer) {q : SessionPeer}
    (hq : q.session = Session.start) :
    sessionAt (sessions ++ [q]) = sessionAt sessions :=
  view_concat sessions hq

inductive Effect (lib : DBLibrary σ) (s : ServerLoop σ) : Completion → ServerLoop σ → Prop
  | closed (ec : Option AsioError) (h : s.acceptor_ = false) :
      Effect lib s (.accept ec) { s with accepting := false }
  | accepted (h : s.acceptor_ = true) :
      Effect lib s (.accept none)
        { s with sessions := s.sessions ++ [⟨Session.start, some .read, []⟩], accepting := true }
  | refused (ec : AsioError) (h : s.acceptor_ = true) :
      Effect lib s (.accept (some ec)) { s with accepting := true }
  | signalled : Effect lib s .signal { s with awaitingStop := false, acceptor_ := false }
  | received {i : Nat} {p : SessionPeer} {chunk : Bytes} {session : Session} {store : σ}
      (hp : s.sessions[i]? = some p) (hop : p.op = some .read)
      (hparse : parseRequest lib chunk p.session s.store = .ok (session, store)) :
      Effect lib s (.read i (.ok chunk)) { s with
        store := store
        sessions := s.sessions.set i ⟨session, some .write, p.delivered⟩ }
  | sent {i : Nat} {p : SessionPeer} (hp : s.sessions[i]? = some p) (hop : p.op = some .write) :
      Effect lib s (.write i none) { s with
        sessions := s.sessions.set i ⟨p.session, some .read, p.delivered ++ [p.session.response_]⟩ }
  | ended {e : Completion} {i : Nat} {p : SessionPeer} (he : chunkOf e = none)
      (hp : s.sessions[i]? = some p) (hop : p.op ≠ none) :
      Effect lib s e { s with sessions := s.sessions.set i ⟨p.session, none, p.delivered⟩ }

theorem effect_of_step (he : s.Enabled e) (h : s.step lib e = .ok s') : Effect lib s e s' := by
  cases e with
  | accept ec =>
    cases hacceptor : s.acceptor_ with
    | false =>
      obtain rfl : { s with accepting := false } = s' := by simpa [step, hacceptor] using h
      exact .closed ec hacceptor
    | true =>
      have hgo : s.step lib (.accept ec) = .ok { s with
          sessions := if ec = none then s.sessions ++ [⟨Session.start, some .read, []⟩]
            else s.sessions
          accepting := true } := by
        simp [step, hacceptor]
      rw [hgo] at h
      obtain rfl := Except.ok.inj h
      cases ec with
      | none => exact .accepted hacceptor
      | some ec => exact .refused ec hacceptor
  | signal => exact Except.ok.inj h ▸ .signalled
  | read i result =>
    obtain ⟨p, hp, hop, -⟩ := he
    cases result with
    | ok chunk =>
      simp only [step, hp] at h
      obtain ⟨⟨session, store⟩, hparse, rfl⟩ := map_eq_ok_iff.mp h
      exact .received hp hop hparse
    | error ec =>
      simp only [step, hp] at h
      exact Except.ok.inj h ▸ Effect.ended (p := p) rfl hp (by simp [hop])
  | write i ec =>
    obtain ⟨p, hp, hop⟩ := he
    cases ec with
    | none =>
      simp only [step, hp] at h
      exact Except.ok.inj h ▸ Effect.sent (p := p) hp hop
    | some ec =>
      simp only [step, hp] at h
      exact Except.ok.inj h ▸ Effect.ended (p := p) rfl hp (by simp [hop])

theorem Effect.sessions_length (h : Effect lib s e s') : s.sessions.length ≤ s'.sessions.length ∧
    ∀ event, chunkOf e = some event → event.1 < s'.sessions.length := by
  cases h with
  | received hp hop hparse =>
    refine ⟨by simp, fun event hevent => ?_⟩
    obtain rfl := Option.some.inj hevent
    simpa using (List.getElem?_eq_some_iff.mp hp).1
  | ended he hp hop => exact ⟨by simp, by simp [he]⟩
  | _ => exact ⟨by simp, by simp [chunkOf]⟩

/-- A completion that returns no bytes is no step of the sessions; one that does is one request. -/
theorem step_server (he : s.Enabled e) (h : s.step lib e = .ok s') :
    (chunkOf e = none ∧ s'.server = s.server) ∨
    ∃ event, chunkOf e = some event ∧ s.server.receive lib event = .ok s'.server := by
  cases effect_of_step he h with
  | closed ec h => exact Or.inl ⟨rfl, rfl⟩
  | accepted h => exact Or.inl ⟨rfl, by rw [server, server, sessionAt_concat _ rfl]⟩
  | refused ec h => exact Or.inl ⟨rfl, rfl⟩
  | signalled => exact Or.inl ⟨rfl, rfl⟩
  | received hp hop hparse =>
    refine Or.inr ⟨_, rfl, ?_⟩
    simp only [Server.receive, server, sessionAt_of_getElem? hp, hparse, map_ok, sessionAt_set hp]
  | sent hp hop =>
    refine Or.inl ⟨rfl, ?_⟩
    rw [server, server, sessionAt_set hp, ← sessionAt_of_getElem? hp, Function.update_eq_self]
  | ended he hp hop =>
    refine Or.inl ⟨he, ?_⟩
    rw [server, server, sessionAt_set hp, ← sessionAt_of_getElem? hp, Function.update_eq_self]

end Steps

/-- A session writes the response that its last request made, and has none of them to write
while it reads. One that has ended may have lost the last. -/
structure Sound (p : SessionPeer) : Prop where
  reading : p.op = some .read → p.delivered = p.session.written
  writing : p.op = some .write → p.session.written = p.delivered ++ [p.session.response_]
  ended : p.session.written = p.delivered ∨ p.session.written = p.delivered ++ [p.session.response_]

structure Inv (s : ServerLoop σ) : Prop where
  sound : ∀ p ∈ s.sessions, Sound p
  accepting : s.acceptor_ = true → s.accepting = true
  awaiting : s.awaitingStop = s.acceptor_

theorem inv_start (store : σ) : (start store).Inv := by
  constructor <;> simp [start]

section Runs
variable {lib : DBLibrary σ} {s s' : ServerLoop σ} {e : Completion}

/-- The buffer of a write that is outstanding is left alone until it completes. -/
theorem Inv.effect (hI : s.Inv) (h : Effect lib s e s') : s'.Inv := by
  cases h with
  | closed ec h => exact ⟨hI.sound, fun ht => absurd ht (by simp [h]), hI.awaiting⟩
  | accepted h =>
    exact ⟨forall_mem_concat hI.sound ⟨fun _ => rfl, by simp, Or.inl rfl⟩,
      fun _ => rfl, hI.awaiting⟩
  | refused ec h => exact ⟨hI.sound, fun _ => rfl, hI.awaiting⟩
  | signalled => exact ⟨hI.sound, by simp, rfl⟩
  | received hp hop hparse =>
    refine ⟨forall_mem_set hI.sound ?_, hI.accepting, hI.awaiting⟩
    obtain ⟨response, rfl⟩ := parseRequest_response hparse
    have hread := (hI.sound _ (List.mem_of_getElem? hp)).reading hop
    exact ⟨by simp, fun _ => by simp [Session.doWrite, hread],
      Or.inr (by simp [Session.doWrite, hread])⟩
  | sent hp hop =>
    have hwrite := (hI.sound _ (List.mem_of_getElem? hp)).writing hop
    exact ⟨forall_mem_set hI.sound ⟨fun _ => hwrite.symm, by simp, Or.inl hwrite⟩,
      hI.accepting, hI.awaiting⟩
  | ended he hp hop =>
    have hsound := hI.sound _ (List.mem_of_getElem? hp)
    exact ⟨forall_mem_set hI.sound ⟨by simp, by simp, hsound.ended⟩, hI.accepting, hI.awaiting⟩

theorem inv_reaches {es : List Completion} (hI : s.Inv) (h : Reaches (step lib) Enabled s es s') :
    s'.Inv :=
  h.invariant (fun _ _ _ hI he hs => hI.effect (effect_of_step he hs)) hI

theorem server_reaches {es : List Completion} (h : Reaches (step lib) Enabled s es s') :
    Reaches (Server.receive lib) (fun _ _ => True) s.server (es.filterMap chunkOf) s'.server := by
  have hstep : ∀ (s : ServerLoop σ) (srv : Server σ) (e : Completion) (s' : ServerLoop σ),
      srv = s.server → s.Enabled e → s.step lib e = .ok s' →
      (chunkOf e = none ∧ srv = s'.server) ∨
        ∃ event srv', chunkOf e = some event ∧ srv.receive lib event = .ok srv' ∧
          srv' = s'.server := by
    intro s srv e s' hsrv he hs
    subst hsrv
    cases step_server he hs with
    | inl hquiet => exact Or.inl ⟨hquiet.1, hquiet.2.symm⟩
    | inr hrequest =>
      obtain ⟨event, hevent, hreceive⟩ := hrequest
      exact Or.inr ⟨event, _, hevent, hreceive, rfl⟩
  obtain ⟨srv', hrun, rfl⟩ := h.simulates hstep rfl
  exact hrun

theorem written_length {srv srv' : Server σ} {events : List Event}
    (h : Reaches (Server.receive lib) (fun _ _ => True) srv events srv') (i : Nat) :
    (srv'.repliesTo i).length = (srv.repliesTo i).length + events.countP
      fun event => event.1 == i := by
  induction events generalizing srv with
  | nil =>
    obtain rfl : srv' = srv := h
    simp
  | cons event events ih =>
    obtain ⟨-, srv1, h1, hrest⟩ := h
    obtain ⟨⟨session, store⟩, hparse, rfl⟩ := map_eq_ok_iff.mp h1
    obtain ⟨response, rfl⟩ := parseRequest_response hparse
    rw [ih hrest, List.countP_cons]
    by_cases hi : event.1 = i
    · subst hi
      simp [Server.repliesTo, Session.doWrite]
      omega
    · simp [Server.repliesTo, Ne.symm hi, hi]

def Reading (s : ServerLoop σ) (i : Nat) : Prop := ∃ p, s.sessions[i]? = some p ∧ p.op = some .read

/-- Every request of sessions that are being read from can come, and its response be sent. -/
theorem exists_reaches {events : List Event} {srv : Server σ}
    (hreading : ∀ event ∈ events, s.Reading event.1)
    (hfits : ∀ event ∈ events, ReadFits requestBuf (.ok event.2))
    (h : Reaches (Server.receive lib) (fun _ _ => True) s.server events srv) :
    ∃ es s', Reaches (step lib) Enabled s es s' ∧ es.filterMap chunkOf = events ∧
      s'.server = srv := by
  induction events generalizing s with
  | nil => exact ⟨[], s, rfl, rfl, h.symm⟩
  | cons event events ih =>
    obtain ⟨i, chunk⟩ := event
    obtain ⟨-, srv1, h1, hrest⟩ := h
    obtain ⟨⟨p, hp, hop⟩, hmore⟩ := List.forall_mem_cons.mp hreading
    obtain ⟨hthis, hothers⟩ := List.forall_mem_cons.mp hfits
    obtain ⟨⟨session, store⟩, hparse, rfl⟩ := map_eq_ok_iff.mp h1
    have hat : parseRequest lib chunk p.session s.store = .ok (session, store) := by
      rw [← sessionAt_of_getElem? hp]
      exact hparse
    let q : SessionPeer := ⟨session, some .write, p.delivered⟩
    let q' : SessionPeer := ⟨session, some .read, p.delivered ++ [session.response_]⟩
    let s1 : ServerLoop σ := { s with store := store, sessions := s.sessions.set i q }
    let s2 : ServerLoop σ := { s1 with sessions := s1.sessions.set i q' }
    have hi : i < s.sessions.length := (List.getElem?_eq_some_iff.mp hp).1
    have hq : s1.sessions[i]? = some q := by simp [s1, hi]
    have hread : s.step lib (.read i (.ok chunk)) = .ok s1 := by
      simp only [step, hp, hat, map_ok]
      rfl
    have hwrite : s1.step lib (.write i none) = .ok s2 := by
      simp only [step, hq]
      rfl
    have hserver : s2.server = ⟨Function.update s.server.sessions i session, store⟩ := by
      simp only [server, s2, s1, sessionAt_set hq, sessionAt_set hp, q, q', Function.update_idem]
    have hstill : ∀ event ∈ events, s2.Reading event.1 := by
      intro event hevent
      obtain ⟨r, hr, hrop⟩ := hmore event hevent
      by_cases hj : event.1 = i
      · exact ⟨q', by simp [s2, s1, hj, hi], rfl⟩
      · exact ⟨r, by simp [s2, s1, Ne.symm hj, hr], hrop⟩
    obtain ⟨es, s', hes, hview, hend⟩ := ih hstill hothers (hserver ▸ hrest)
    exact ⟨.read i (.ok chunk) :: .write i none :: es, s',
      ⟨⟨p, hp, hop, hthis⟩, s1, hread, ⟨q, hq, rfl⟩, s2, hwrite, hes⟩, by rw [← hview]; rfl, hend⟩

theorem stopped_effect (hI : s.Inv) (hstop : s.acceptor_ = false) (he : s.Enabled e)
    (h : Effect lib s e s') : s'.acceptor_ = false ∧ s'.sessions.length = s.sessions.length := by
  cases h with
  | accepted h => exact absurd h (by simp [hstop])
  | refused ec h => exact absurd h (by simp [hstop])
  | signalled =>
    have hawaiting : s.awaitingStop = true := he
    exact absurd hawaiting (by simp [hI.awaiting, hstop])
  | _ => exact ⟨hstop, by simp⟩

end Runs

/-- For every library and every order of completions: the loop has done what the sessions do with
the chunks that the reads returned, one request after the other; each chunk got one response; and
the responses of a session have been sent whole and in order, but for the last while its write is
outstanding or where the session has ended. -/
theorem loop_refines (lib : DBLibrary σ) (store : σ) (es : List Completion) (s : ServerLoop σ)
    (h : Reaches (step lib) Enabled (start store) es s) :
    Reaches (Server.receive lib) (fun _ _ => True) ⟨fun _ => Session.start, store⟩
      (es.filterMap chunkOf)
      s.server ∧
    ∀ i p, s.sessions[i]? = some p →
      p.session.written.length = (es.filterMap chunkOf).countP (fun event => event.1 == i) ∧
      (p.op = some .read → p.delivered = p.session.written) ∧
      (p.session.written = p.delivered ∨ p.session.written = p.delivered ++
        [p.session.response_]) := by
  have hrun := server_reaches h
  refine ⟨hrun, fun i p hp => ?_⟩
  have hsound := (inv_reaches (inv_start store) h).sound p (List.mem_of_getElem? hp)
  have hlength := written_length hrun i
  have hnone : (start store).server.repliesTo i = [] := rfl
  rw [repliesTo_of_getElem? hp, hnone] at hlength
  exact ⟨by simpa using hlength, hsound.reading, hsound.ended⟩

/-- A record that is removed over one session while another has its fields written -/
theorem loop_refines_sample :
    let store := (Server.ofFile (ascii "name:note\nmilk:x\n")).store
    let es : List Completion := [.accept none, .accept none, .read 0 (.ok (ascii "/fields")),
      .read 1 (.ok (ascii "/delete/milk")), .write 0 none]
    ∃ s, Reaches (step textLibrary) Enabled (start store) es s ∧ s.store.db.entries_ = [] ∧
      Reaches (Server.receive textLibrary) (fun _ _ => True) ⟨fun _ => Session.start, store⟩
        (es.filterMap chunkOf) s.server := by
  intro store es
  have hrun : ∃ s, Reaches (step textLibrary) Enabled (start store) es s ∧
      s.store.db.entries_ = [] :=
    ⟨_, ⟨⟨rfl, by simp⟩, _, rfl, ⟨rfl, by simp⟩, _, rfl, ⟨_, rfl, rfl, by decide⟩, _, rfl,
      ⟨_, rfl, rfl, by decide⟩, _, rfl, ⟨_, rfl, rfl⟩, _, rfl, rfl⟩, rfl⟩
  obtain ⟨s, hs, hstore⟩ := hrun
  exact ⟨s, hs, hstore, (loop_refines textLibrary store es s hs).1⟩

/-- In every state of the loop, before the stop signal and after it: whatever requests the sessions
that are read from may send, if each fits a read and none of them faults, they can all still be
handled and answered. The signal only ends the accepting of new sessions. -/
theorem sessions_outlive_stop (lib : DBLibrary σ) (store : σ) (es : List Completion)
    (s : ServerLoop σ) (h : Reaches (step lib) Enabled (start store) es s) :
    (∀ (events : List Event) (srv : Server σ), (∀ event ∈ events, s.Reading event.1) →
      (∀ event ∈ events, ReadFits requestBuf (.ok event.2)) →
      Reaches (Server.receive lib) (fun _ _ => True) s.server events srv →
      ∃ more s', Reaches (step lib) Enabled s more s' ∧ more.filterMap chunkOf = events ∧
        s'.server = srv) ∧
    (s.acceptor_ = false → ∀ more s', Reaches (step lib) Enabled s more s' →
      s'.acceptor_ = false ∧ s'.sessions.length = s.sessions.length) := by
  refine ⟨fun events srv hreading hfits hrun => exists_reaches hreading hfits hrun,
    fun hstop more s' hmore => ?_⟩
  have hI := inv_reaches (inv_start store) h
  have hend := hmore.invariant (I := fun t => t.Inv ∧ t.acceptor_ = false ∧
    t.sessions.length = s.sessions.length) (fun t e t' ht he hs => ?_) ⟨hI, hstop, rfl⟩
  · exact hend.2
  · have heffect := effect_of_step he hs
    obtain ⟨hclosed, hsame⟩ := stopped_effect ht.1 ht.2.1 he heffect
    exact ⟨ht.1.effect heffect, hclosed, hsame.trans ht.2.2⟩

/-- A lookup after the signal -/
theorem sessions_outlive_stop_sample :
    let store := (Server.ofFile (ascii "name:note\nmilk:x\n")).store
    ∃ s, Reaches (step textLibrary) Enabled (start store) [.accept none, .signal] s ∧
      s.acceptor_ = false ∧
      ∃ more s', Reaches (step textLibrary) Enabled s more s' ∧
        more.filterMap chunkOf = [(0, ascii "/get/milk")] ∧
        s'.server.repliesTo 0 = [ascii "milk:x:\n"] := by
  intro store
  have hrun : ∃ s, Reaches (step textLibrary) Enabled (start store) [.accept none, .signal] s ∧
      s.acceptor_ = false ∧ s.Reading 0 :=
    ⟨_, ⟨⟨rfl, by simp⟩, _, rfl, rfl, _, rfl, rfl⟩, rfl, _, rfl, rfl⟩
  obtain ⟨s, hs, hstop, hreading⟩ := hrun
  have hserver : s.server = (start store).server := server_reaches hs
  have hreceive : ∃ srv, Reaches (Server.receive textLibrary) (fun _ _ => True) s.server
      [(0, ascii "/get/milk")] srv ∧ srv.repliesTo 0 = [ascii "milk:x:\n"] := by
    rw [hserver]
    exact ⟨_, ⟨trivial, _, rfl, rfl⟩, by decide⟩
  obtain ⟨srv, hsrv, hreplies⟩ := hreceive
  obtain ⟨more, s', hmore, hview, rfl⟩ := (sessions_outlive_stop textLibrary store _ s hs).1
    [(0, ascii "/get/milk")] srv (by simpa using hreading) (by decide) hsrv
  exact ⟨s, hs, hstop, more, s', hmore, hview, hreplies⟩

end ServerLoop
end ReminderSuite
