import ReminderSuite.Protocol

/-! What the callers of `executeCmd` can rely on: the requests that are handled, one after the
other, are the commands, and a call that returns a response had its command handled meanwhile. -/
namespace ReminderSuite
open Delimited FallibleRun Numbered
variable {σ : Type}

namespace Protocol

theorem replay_connect {w w' : List Answer} (h : replay.connect w = (true, w')) :
    w = .connect true :: w' := by
  match w with
  | .connect ok :: w => simpa [replay, Prod.ext_iff] using h
  | [] | .send _ :: _ | .readSome _ :: _ => simp [replay] at h

theorem replay_send {cmd : Bytes} {w w' : List Answer} (h : replay.send cmd w = (true, w')) :
    w = .send true :: w' := by
  match w with
  | .send ok :: w => simpa [replay, Prod.ext_iff] using h
  | [] | .connect _ :: _ | .readSome _ :: _ => simp [replay] at h

theorem replay_readSome {n : Nat} {rb : Bytes} {w w' : List Answer}
    (h : replay.readSome n w = (some rb, w')) : w = .readSome (some rb) :: w' := by
  match w with
  | .readSome rb :: w => simpa [replay, Prod.ext_iff] using h
  | [] | .connect _ :: _ | .send _ :: _ => simp [replay] at h

section Calls
variable {x : Exchange} {log : List Event} {sessions : List SessionPeer}

theorem result_true {lines : List Bytes} (h : x.result = some (true, lines)) :
    .readSome (some x.received) ∈ x.answers ∧ lines = tokens lf x.received := by
  unfold Exchange.result at h
  split at h
  · cases h
  · have hrun := Option.some.inj h
    unfold executeCmd at hrun
    cases hconnect : replay.connect x.answers with
    | mk connected w1 =>
      cases hsend : replay.send x.cmd w1 with
      | mk sent w2 =>
        cases hread : replay.readSome streamBuf w2 with
        | mk part w3 =>
          cases connected <;> cases sent <;> cases part <;> simp [hconnect, hsend, hread] at hrun
          have hanswers := replay_connect hconnect
          rw [replay_send hsend, replay_readSome hread] at hanswers
          simp [Exchange.received, hanswers, hrun]

theorem exists_first {n : Nat} (h : x.heard (log.take n) ≠ []) :
    ∃ before e, x.session = some e.1 ∧ before ++ [e] <+: log.take n ∧ x.heard before = [] := by
  have hsome : ∃ e ∈ log.take n, x.session = some e.1 := by
    by_contra hnone
    exact h (heard_eq_nil_iff.mpr fun e he heq => hnone ⟨e, he, heq⟩)
  cases hfind : (log.take n).find? (fun e => decide (x.session = some e.1)) with
  | none =>
    obtain ⟨e, he, heq⟩ := hsome
    exact absurd heq (by simpa using List.find?_eq_none.mp hfind e he)
  | some e =>
    obtain ⟨hsession, before, after, htake, hbefore⟩ := List.find?_eq_some_iff_append.mp hfind
    refine ⟨before, e, by simpa using hsession, ⟨after, by simp [htake]⟩, ?_⟩
    exact heard_eq_nil_iff.mpr fun d hd => by simpa using hbefore d hd

theorem sessions_of_reaches {lib : DBLibrary σ} {srv srv' : Server σ}
    {events : List Event} {i : Nat}
    (h : Reaches (Server.receive lib) (fun _ _ => True) srv events srv')
    (hi : ∀ e ∈ events, e.1 ≠ i) :
    srv'.sessions i = srv.sessions i := by
  induction events generalizing srv with
  | nil =>
    obtain rfl : srv' = srv := h
    rfl
  | cons e events ih =>
    obtain ⟨-, srv1, h1, hrest⟩ := h
    obtain ⟨hne, hmore⟩ := List.forall_mem_cons.mp hi
    obtain ⟨⟨session, store⟩, hparse, rfl⟩ := map_eq_ok_iff.mp h1
    rw [ih hrest hmore]
    exact Function.update_of_ne hne.symm _ _

theorem heard_of_whole (h : Synced log sessions x) {before after : List Event} {e : Event}
    (he : x.session = some e.1) (hwhole : e.2 = x.cmd) (hlog : log = before ++ [e] ++ after)
    (hbefore : x.heard before = []) : x.heard after = [] := by
  have hown : x.heard (before ++ [e]) = x.heard before ++ [e.2] := heard_concat he before
  have hheard : x.heard log = x.cmd :: x.heard after := by
    rw [hlog, heard_append, hown, hbefore, hwhole]
    rfl
  have hlen := h.asked.length_le
  rw [hheard, List.flatten_cons] at hlen
  simp only [List.length_append] at hlen
  have hflat : (x.heard after).flatten = [] := List.eq_nil_of_length_eq_zero (by omega)
  rw [List.eq_nil_iff_forall_not_mem]
  intro chunk hchunk
  have hnil : chunk = [] := List.flatten_eq_nil_iff.mp hflat chunk hchunk
  refine h.whole chunk ?_ hnil
  rw [hheard]
  exact List.mem_cons_of_mem _ hchunk

end Calls

/-- A call takes effect with the first request of its session, which is handled between the
invocation of the call and its return, over the store that the requests before have left. -/
structure TakesEffect (lib : DBLibrary σ) (store : σ) (s : Protocol σ) (x : Exchange)
    (before : List Event) (e : Event) (srv : Server σ) (session : Session) (store' : σ) : Prop where
  own : x.session = some e.1
  handled : before ++ [e] <+: s.log
  first : x.heard before = []
  began : x.began ≤ before.length
  ended : before.length < x.ended
  run : Reaches (Server.receive lib) (fun _ _ => True) ⟨fun _ => Session.start, store⟩ before srv
  parsed : parseRequest lib e.2 Session.start srv.store = .ok (session, store')

section Effect
variable {lib : DBLibrary σ} {store store' : σ} {s : Protocol σ} {x : Exchange}
    {before : List Event}
  {e : Event} {srv : Server σ} {session : Session}

theorem exists_takesEffect (hI : s.Inv lib store) (hx : x ∈ s.calls) (hne : x.received ≠ []) :
    ∃ before e srv session store', TakesEffect lib store s x before e srv session store' := by
  have hsync := hI.synced x hx
  obtain ⟨before, e, he, hprefix, hfirst⟩ := exists_first (hsync.ended.2 hne)
  obtain ⟨hhandled, hlength⟩ := List.prefix_take_iff.mp hprefix
  rw [List.length_append] at hlength
  obtain ⟨after, hlog⟩ := hhandled
  have hrun := hI.run
  rw [← hlog] at hrun
  obtain ⟨srv1, hthis, -⟩ := reaches_append_iff.mp hrun
  obtain ⟨srv, hsrv, -, srv', hreceive, -⟩ := reaches_append_iff.mp hthis
  obtain ⟨⟨session, store'⟩, hparse, -⟩ := map_eq_ok_iff.mp hreceive
  have hfresh : srv.sessions e.1 = Session.start :=
    sessions_of_reaches hsrv fun d hd heq => heard_eq_nil_iff.mp hfirst d hd (heq ▸ he)
  rw [hfresh] at hparse
  refine ⟨before, e, srv, session, store', he, ⟨after, hlog⟩, hfirst, ?_, hlength, hsrv, hparse⟩
  by_contra hlt
  have hearly : before ++ [e] <+: s.log.take x.began := by
    rw [List.prefix_take_iff, List.length_append]
    exact ⟨⟨after, hlog⟩, Nat.lt_of_not_le hlt⟩
  exact heard_eq_nil_iff.mp hsync.began.2 e (hearly.subset (by simp)) he

theorem TakesEffect.heard (h : TakesEffect lib store s x before e srv session store') :
    e.2 ∈ x.heard s.log :=
  List.mem_filterMap.mpr ⟨e, h.handled.subset (by simp), if_pos h.own⟩

theorem TakesEffect.before_later (h : TakesEffect lib store s x before e srv session store')
    {y : Exchange} (hy : y.heard (s.log.take y.began) = []) (hlater : x.ended ≤ y.began) :
    y.heard (before ++ [e]) = [] := by
  have hpast : before ++ [e] <+: s.log.take y.began := by
    rw [List.prefix_take_iff, List.length_append]
    exact ⟨h.handled, Nat.lt_of_lt_of_le h.ended hlater⟩
  rw [heard_eq_nil_iff] at hy ⊢
  exact fun d hd => hy d (hpast.subset hd)

/-- What a call whose command was read whole has received comes from the one response. -/
theorem TakesEffect.response (h : TakesEffect lib store s x before e srv session store')
    (hI : s.Inv lib store) (hx : x ∈ s.calls) (hwhole : e.2 = x.cmd) :
    x.heard s.log = [x.cmd] ∧ x.received <+: session.response_ := by
  obtain ⟨after, hlog⟩ := h.handled
  have hnone := heard_of_whole (hI.synced x hx) h.own hwhole hlog.symm h.first
  have hown : x.heard (before ++ [e]) = x.heard before ++ [e.2] := heard_concat h.own before
  refine ⟨?_, ?_⟩
  · rw [← hlog, heard_append, hown, h.first, hnone, hwhole]
    rfl
  · have hrun := hI.run
    rw [← hlog] at hrun
    obtain ⟨srv', hthis, hafter⟩ := reaches_append_iff.mp hrun
    obtain ⟨srv1, hsrv1, -, srv2, hreceive, rfl⟩ := reaches_append_iff.mp hthis
    obtain rfl : srv = srv1 := h.run.serve_eq.symm.trans hsrv1.serve_eq
    have hfresh : srv.sessions e.1 = Session.start :=
      sessions_of_reaches h.run fun d hd heq => heard_eq_nil_iff.mp h.first d hd (heq ▸ h.own)
    rw [Server.receive, hfresh, h.parsed, map_ok] at hreceive
    obtain rfl := Except.ok.inj hreceive
    have hlast : s.loop.server.sessions e.1 = session := by
      rw [sessions_of_reaches hafter fun d hd heq => heard_eq_nil_iff.mp hnone d hd (heq ▸ h.own)]
      exact Function.update_self _ _ _
    have hsent := hI.received_replies hx
    obtain ⟨response, rfl⟩ := parseRequest_response h.parsed
    simp only [Exchange.replies, h.own, Server.repliesTo, hlast] at hsent
    exact (List.prefix_append _ _).trans (by simpa [Session.doWrite, Session.start] using hsent)

end Effect

/-- For every library, any number of calls and every order of what happens: a call that has
returned a response has taken effect between its invocation and its return, by one request of its
own, and every call that was made after its return takes effect later. If that request was the
whole command, it was the only one of the call, and the lines returned are those of a part of the
response to it, from its beginning. -/
theorem calls_linearize (lib : DBLibrary σ) (store : σ) (moves : List Move) (s : Protocol σ)
    (h : Reaches (step lib) Enabled (start store) moves s) (k : Nat) (x : Exchange)
    (lines : List Bytes) (hx : s.calls[k]? = some x) (hresult : x.result = some (true, lines)) :
    ∃ before e srv session store' part, TakesEffect lib store s x before e srv session store' ∧
      (∀ y ∈ s.calls, x.ended ≤ y.began → y.heard (before ++ [e]) = []) ∧
      part ≠ [] ∧ lines = tokens lf part ∧
      (e.2 = x.cmd → x.heard s.log = [x.cmd] ∧ part <+: session.response_) := by
  have hI := inv_reaches h
  have hmem := List.mem_of_getElem? hx
  obtain ⟨hanswer, hlines⟩ := result_true hresult
  have hne : x.received ≠ [] := (hI.synced x hmem).got _ hanswer
  obtain ⟨before, e, srv, session, store', heffect⟩ := exists_takesEffect hI hmem hne
  refine ⟨before, e, srv, session, store', x.received, heffect, fun y hy hlater => ?_, hne, hlines,
    heffect.response hI hmem⟩
  exact heffect.before_later (hI.synced y hy).began.2 hlater

/-- A lookup -/
theorem calls_linearize_sample :
    let store := (Server.ofFile (ascii "name:note\nmilk:x\n")).store
    let moves : List Move :=
      [.invoke (ascii "/get/milk"), .connect 0 true, .arrive (some 0), .accept 0,
      .send 0 9 true, .serve (.read 0 (.ok (ascii "/get/milk"))), .flow 0 8, .receive 0 8]
    ∃ s x before e srv session store', Reaches (step textLibrary) Enabled (start store) moves s ∧
      s.calls[0]? = some x ∧ x.result = some (true, [ascii "milk:x:"]) ∧
      TakesEffect textLibrary store s x before e srv session store' := by
  intro store moves
  have hplay : ∃ s ∈ play (step textLibrary) Enabled (start store) moves,
      ∃ x ∈ s.calls[0]?, x.result = some (true, [ascii "milk:x:"]) := by decide +kernel
  obtain ⟨s, hs, x, hx, hresult⟩ := hplay
  have hrun := play_eq_some_iff.mp hs
  obtain ⟨before, e, srv, session, store', _, heffect, -⟩ :=
    calls_linearize textLibrary store moves s hrun 0 x _ hx hresult
  exact ⟨s, x, before, e, srv, session, store', hrun, hx, hresult, heffect⟩

section Waiting
variable {lib : DBLibrary σ} {store : σ} {s s' s'' : Protocol σ} {k : Nat}

/-- The connections of calls that wait to be accepted can be, each of them once. -/
structure Waiting (s : Protocol σ) : Prop where
  unserved : ∀ k, some k ∈ s.backlog → s.Unserved k
  once : s.backlog.Pairwise fun a b => a = b → a = none

theorem Waiting.mono (h : Waiting s) (hqueue : s'.backlog.Sublist s.backlog)
    (hcalls : ∀ k, some k ∈ s'.backlog → s.Unserved k → s'.Unserved k) : Waiting s' :=
  ⟨fun k hk => hcalls k hk (h.unserved k (hqueue.subset hk)), h.once.sublist hqueue⟩

theorem Unserved.of_calls (h : s.Unserved k) (f : Exchange → Exchange)
    (hcalls : ∀ x, s.calls[k]? = some x → s'.calls[k]? = some x ∨ s'.calls[k]? = some (f x))
    (hconnected : ∀ x, x.connected = true → (f x).connected = true)
    (hsession : ∀ x, (f x).session = x.session) : s'.Unserved k := by
  obtain ⟨x, hx, hc, hnone⟩ := h
  cases hcalls x hx with
  | inl hsame => exact ⟨x, hsame, hc, hnone⟩
  | inr hnew => exact ⟨f x, hnew, hconnected x hc, (hsession x).trans hnone⟩

theorem getElem?_modify_or {calls : List Exchange} {j : Nat} {f : Exchange → Exchange}
    {x : Exchange} (hx : calls[k]? = some x) :
    (calls.modify j f)[k]? = some x ∨ (calls.modify j f)[k]? = some (f x) := by
  by_cases hjk : j = k
  · exact Or.inr (by simp [hjk, hx])
  · exact Or.inl (by simp [hjk, hx])

theorem connected_answer (a : Answer) (now : Nat) {x : Exchange} {up down : Bytes}
    (h : x.connected = true) :
    (Exchange.answer a now { x with up := up, down := down }).connected = true := by
  have hhead : x.answers.head? = some (.connect true) := by simpa [Exchange.connected] using h
  simp [Exchange.connected, Exchange.answer, List.head?_append, hhead]

theorem waiting_step (hW : s.Waiting) {m : Move} (he : s.Enabled m) (h : s.step lib m = .ok s') :
    s'.Waiting := by
  cases m with
  | invoke cmd =>
    obtain rfl := Except.ok.inj h
    refine hW.mono (List.Sublist.refl _) fun k _ hk => hk.of_calls id (fun x hx => Or.inl ?_)
      (fun _ hc => hc) fun _ => rfl
    rw [List.getElem?_append_left (List.getElem?_eq_some_iff.mp hx).1, hx]
  | connect j ok | send j n ok | receive j n | fail j =>
    obtain rfl := Except.ok.inj h
    exact hW.mono (List.Sublist.refl _) fun k _ hk =>
      hk.of_calls _ (fun x hx => getElem?_modify_or hx)
      (fun x hc => connected_answer _ _ hc) fun _ => rfl
  | arrive who =>
    obtain ⟨-, hwho⟩ := he
    obtain rfl := Except.ok.inj h
    refine ⟨fun k hk => ?_, List.pairwise_append.mpr ⟨hW.once, List.pairwise_singleton _ _, ?_⟩⟩
    · cases List.mem_append.mp hk with
      | inl hold => exact hW.unserved k hold
      | inr hnew => exact (hwho k (List.mem_singleton.mp hnew).symm).2
    · intro a ha b hb hab
      obtain rfl := List.mem_singleton.mp hb
      cases a with
      | none => rfl
      | some k => exact absurd (hab ▸ ha) (hwho k hab.symm).1
  | accept j =>
    obtain ⟨-, -, hhead, -⟩ := he
    obtain ⟨loop, -, rfl⟩ := map_eq_ok_iff.mp h
    obtain ⟨rest, hqueue⟩ := List.head?_eq_some_iff.mp hhead
    have honce := hqueue ▸ hW.once
    refine hW.mono (List.tail_sublist _) fun k hk hunserved => ?_
    obtain ⟨x, hx, hc, hnone⟩ := hunserved
    have hne : j ≠ k := by
      rintro rfl
      have hagain : some j ∈ rest := by simpa [hqueue] using hk
      exact absurd (List.rel_of_pairwise_cons honce hagain rfl) (by simp)
    exact ⟨x, by simp [hne, hx], hc, hnone⟩
  | flow i n =>
    obtain rfl := Except.ok.inj h
    refine hW.mono (List.Sublist.refl _) fun k _ hk => hk.of_calls
      (Exchange.flowed i (ServerLoop.sessionAt s.loop.sessions i).response_ n)
      (fun x hx => Or.inr (by simp [hx])) (fun x hc => ?_) fun x => ?_
    all_goals
      unfold Exchange.flowed
      split
    exacts [hc, hc, rfl, rfl]
  | serve e =>
    obtain ⟨loop, -, rfl⟩ := map_eq_ok_iff.mp h
    have hqueue : (unaccepted e s.backlog).Sublist s.backlog := by
      unfold unaccepted
      split
      · exact List.tail_sublist _
      · exact List.Sublist.refl _
    refine hW.mono hqueue fun k _ hk => hk.of_calls (Exchange.served e)
      (fun x hx => Or.inr (by simp [hx])) (fun x hc => ?_) fun x => ?_
    · unfold Exchange.served
      split
      · split <;> exact hc
      · exact hc
    · unfold Exchange.served
      split
      · split <;> rfl
      · rfl

theorem waiting_reaches {moves : List Move} (h : Reaches (step lib) Enabled (start store) moves s) :
    s.Waiting :=
  h.invariant (fun _ _ _ hW he hs => waiting_step hW he hs) ⟨by simp [start], List.Pairwise.nil⟩

/-- The calls and sessions that were there are left alone, except that calls which wait to be
accepted may have been given their session. -/
structure LeavesAlone (s s' : Protocol σ) : Prop where
  calls : ∀ (k : Nat) (x : Exchange), s.calls[k]? = some x → s'.calls[k]? = some x ∨
    some k ∈ s.backlog ∧ x.session = none ∧ ∃ i, s'.calls[k]? = some { x with session := some i }
  sessions : s.loop.sessions <+: s'.loop.sessions
  backlog : s'.backlog ⊆ s.backlog

theorem LeavesAlone.refl (s : Protocol σ) : LeavesAlone s s :=
  ⟨fun _ _ hx => Or.inl hx, List.prefix_rfl, List.Subset.refl _⟩

theorem LeavesAlone.trans (h : LeavesAlone s s') (h' : LeavesAlone s' s'') : LeavesAlone s s'' := by
  refine ⟨fun k x hx => ?_, h.sessions.trans h'.sessions, List.Subset.trans h'.backlog h.backlog⟩
  cases h.calls k x hx with
  | inl hsame => exact (h'.calls k x hsame).imp_right fun hlater => ⟨h.backlog hlater.1, hlater.2⟩
  | inr hlinked =>
    obtain ⟨hin, hnone, i, hy⟩ := hlinked
    have hstays := (h'.calls k _ hy).resolve_right fun hlater => absurd hlater.2.1 (by simp)
    exact Or.inr ⟨hin, hnone, i, hstays⟩

theorem LeavesAlone.of_append {calls : List Exchange} (hcalls : s'.calls = s.calls ++ calls)
    (hsessions : s.loop.sessions <+: s'.loop.sessions) (hqueue : s'.backlog = []) :
    LeavesAlone s s' := by
  refine ⟨fun k x hx => Or.inl ?_, hsessions, hqueue ▸ List.nil_subset _⟩
  rw [hcalls, List.getElem?_append_left (List.getElem?_eq_some_iff.mp hx).1, hx]

structure OnlyAccepts (s s' : Protocol σ) : Prop where
  log : s'.log = s.log
  store : s'.loop.store = s.loop.store
  acceptor : s'.loop.acceptor_ = s.loop.acceptor_
  length : s'.calls.length = s.calls.length
  alone : s.LeavesAlone s'

theorem OnlyAccepts.trans (h : OnlyAccepts s s') (h' : OnlyAccepts s' s'') : OnlyAccepts s s'' where
  log := h'.log.trans h.log
  store := h'.store.trans h.store
  acceptor := h'.acceptor.trans h.acceptor
  length := h'.length.trans h.length
  alone := h.alone.trans h'.alone

/-- The first of the connections that wait is accepted. -/
theorem exists_accepted (hI : s.Inv lib store) (hW : s.Waiting) (hopen : s.loop.acceptor_ = true)
    {who : Option Nat} {rest : List (Option Nat)} (hqueue : s.backlog = who :: rest) :
    ∃ m t, s.Enabled m ∧ s.step lib m = .ok t ∧ t.backlog = rest ∧ OnlyAccepts s t := by
  have hloop : s.loop.step lib (.accept none) = .ok { s.loop with
      sessions := s.loop.sessions ++ [⟨Session.start, some .read, []⟩], accepting := true } := by
    simp [ServerLoop.step, hopen]
  have hready : s.loop.Enabled (.accept none) := ⟨hI.loop.accepting hopen, by simp⟩
  have hshorter : rest ⊆ s.backlog := hqueue ▸ List.subset_cons_self who rest
  cases who with
  | none =>
    have hothers : s.calls.map (Exchange.served (.accept none)) = s.calls := List.map_id' s.calls
    have hstep : s.step lib (.serve (.accept none)) = .ok ⟨{ s.loop with
        sessions := s.loop.sessions ++ [⟨Session.start, some .read, []⟩], accepting := true },
        s.calls, s.log, rest⟩ := by
      simp only [step, hloop, map_ok, hothers]
      simp [ServerLoop.chunkOf, unaccepted, hqueue]
    refine ⟨.serve (.accept none), _, ⟨hready, fun _ => ⟨none, by simp [hqueue], fun _ => rfl⟩,
      fun _ _ => trivial⟩, hstep, rfl,
      rfl, rfl, rfl, rfl, fun _ _ hx => Or.inl hx, List.prefix_append _ _, hshorter⟩
  | some k =>
    obtain ⟨x, hx, hc, hnone⟩ := hW.unserved k (by simp [hqueue])
    have hstep : s.step lib (.accept k) = .ok ⟨{ s.loop with
        sessions := s.loop.sessions ++ [⟨Session.start, some .read, []⟩], accepting := true },
        s.calls.modify k fun x => { x with session := some s.loop.sessions.length }, s.log,
        rest⟩ := by
      simp [step, hloop, map_ok, hqueue]
    refine ⟨.accept k, _, ⟨hready, hopen, by simp [hqueue], x, hx, hc, hnone⟩, hstep, rfl,
      rfl, rfl, rfl, List.length_modify _ _ _, fun j y hy => ?_, List.prefix_append _ _, hshorter⟩
    by_cases hkj : k = j
    · subst hkj
      obtain rfl := Option.some.inj (hx.symm.trans hy)
      exact Or.inr ⟨by simp [hqueue], hnone, s.loop.sessions.length, by simp [hx]⟩
    · exact Or.inl (by simp [hkj, hy])

theorem reaches_drained (hI : s.Inv lib store) (hW : s.Waiting) (hopen : s.loop.acceptor_ = true) :
    ∃ moves t, Reaches (step lib) Enabled s moves t ∧ t.backlog = [] ∧ OnlyAccepts s t := by
  induction hqueue : s.backlog generalizing s with
  | nil => exact ⟨[], s, rfl, hqueue, rfl, rfl, rfl, rfl, LeavesAlone.refl s⟩
  | cons who rest ih =>
    obtain ⟨m, s1, hm, hstep, hrest, honly⟩ := exists_accepted hI hW hopen hqueue
    obtain ⟨moves, t, hmoves, hempty, hlater⟩ :=
      ih (inv_step hI hm hstep) (waiting_step hW hm hstep) (honly.acceptor.trans hopen) hrest
    exact ⟨m :: moves, t, ⟨hm, s1, hstep, hmoves⟩, hempty, honly.trans hlater⟩

end Waiting

section Progress
variable {lib : DBLibrary σ} {store : σ} {s : Protocol σ}

def connectedCall (cmd : Bytes) (now : Nat) : Exchange :=
  (Exchange.start cmd now).answer (.connect true) now

def answeredCall (cmd response : Bytes) (i now : Nat) : Exchange :=
  ⟨cmd, [.connect true, .send true], some i, [], response, response.length, now, now⟩

theorem reaches_connected (hI : s.Inv lib store) (hopen : s.loop.acceptor_ = true)
    (hempty : s.backlog = []) (cmd : Bytes) :
    Reaches (step lib) Enabled s
      [.invoke cmd, .connect s.calls.length true, .arrive (some s.calls.length),
        .accept s.calls.length]
      ⟨{ s.loop with
          sessions := s.loop.sessions ++ [⟨Session.start, some .read, []⟩], accepting := true },
        s.calls ++ [{ connectedCall cmd s.log.length with session := some s.loop.sessions.length }],
        s.log, []⟩ := by
  let now := s.log.length
  have hinvoke : s.step lib (.invoke cmd) =
      .ok ⟨s.loop, s.calls ++ [Exchange.start cmd now], s.log, []⟩ := by
    rw [← hempty]
    rfl
  have hconnect : step lib ⟨s.loop, s.calls ++ [Exchange.start cmd now], s.log, []⟩
      (.connect s.calls.length true) =
      .ok ⟨s.loop, s.calls ++ [connectedCall cmd now], s.log, []⟩ := by
    simp only [step, modify_last]
    rfl
  have harrive : step lib ⟨s.loop, s.calls ++ [connectedCall cmd now], s.log, []⟩
      (.arrive (some s.calls.length)) =
      .ok ⟨s.loop, s.calls ++ [connectedCall cmd now], s.log, [some s.calls.length]⟩ := rfl
  have haccept : step lib
      ⟨s.loop, s.calls ++ [connectedCall cmd now], s.log, [some s.calls.length]⟩
      (.accept s.calls.length) = .ok ⟨{ s.loop with
          sessions := s.loop.sessions ++ [⟨Session.start, some .read, []⟩], accepting := true },
        s.calls ++ [{ connectedCall cmd now with session := some s.loop.sessions.length }],
        s.log, []⟩ := by
    have hgo : s.loop.step lib (.accept none) = .ok { s.loop with
        sessions := s.loop.sessions ++ [⟨Session.start, some .read, []⟩], accepting := true } := by
      simp [ServerLoop.step, hopen]
    simp only [step, hgo, map_ok, modify_last]
    rfl
  refine ⟨trivial, _, hinvoke, ?_, _, hconnect, ?_, _, harrive, ?_, _, haccept, rfl⟩
  · exact ⟨⟨_, List.getElem?_concat_length, rfl⟩, fun _ => hopen⟩
  · refine ⟨hopen, fun k hk => ?_⟩
    obtain rfl := Option.some.inj hk
    exact ⟨by simp, _, List.getElem?_concat_length, rfl, rfl⟩
  · exact ⟨⟨hI.loop.accepting hopen, by simp⟩, hopen, rfl, _, List.getElem?_concat_length, rfl, rfl⟩

theorem reaches_heard (loop : ServerLoop σ) (log : List Event) {sessions : List SessionPeer}
    {calls : List Exchange}
    (hsessions : loop.sessions = sessions ++ [⟨Session.start, some .read, []⟩])
    (hold : ∀ y ∈ calls, y.session ≠ some sessions.length) {cmd : Bytes} (hne : cmd ≠ [])
    (hlen : cmd.length ≤ requestBuf) {session : Session} {store' : σ}
    (hparse : parseRequest lib cmd Session.start loop.store = .ok (session, store')) :
    Reaches (step lib) Enabled
      ⟨loop, calls ++ [{ connectedCall cmd log.length with session := some sessions.length }],
        log, []⟩
      [.send calls.length cmd.length true, .serve (.read sessions.length (.ok cmd)),
        .flow sessions.length session.response_.length]
      ⟨{ loop with store := store', sessions := sessions ++ [⟨session, some .write, []⟩] },
        calls ++ [answeredCall cmd session.response_ sessions.length log.length],
        log ++ [(sessions.length, cmd)], []⟩ := by
  let i := sessions.length
  let sent : Exchange := Exchange.answer (.send true) log.length
    { connectedCall cmd log.length with session := some i, up := cmd.take cmd.length }
  let read : Exchange := { sent with up := sent.up.drop cmd.length, pushed := 0 }
  let handled : ServerLoop σ :=
    { loop with store := store', sessions := sessions ++ [⟨session, some .write, []⟩] }
  have hfresh : loop.sessions[i]? = some ⟨Session.start, some .read, []⟩ :=
    hsessions ▸ List.getElem?_concat_length
  have hbusy : handled.sessions[i]? = some ⟨session, some .write, []⟩ :=
    List.getElem?_concat_length
  have hsend : step lib
      ⟨loop, calls ++ [{ connectedCall cmd log.length with session := some i }], log, []⟩
      (.send calls.length cmd.length true) = .ok ⟨loop, calls ++ [sent], log, []⟩ := by
    simp only [step, modify_last]
    rfl
  have hread : step lib ⟨loop, calls ++ [sent], log, []⟩ (.serve (.read i (.ok cmd))) =
      .ok ⟨handled, calls ++ [read], log ++ [(i, cmd)], []⟩ := by
    have hgo : loop.step lib (.read i (.ok cmd)) = .ok handled := by
      simp [ServerLoop.step, hparse, handled, hsessions, i]
    have hothers : calls.map (Exchange.served (.read i (.ok cmd))) = calls :=
      (List.map_congr_left fun y hy => if_neg (hold y hy)).trans (List.map_id calls)
    have hread : sent.served (.read i (.ok cmd)) = read := if_pos rfl
    simp only [step, hgo, map_ok, List.map_append, hothers, List.map_singleton, hread]
    rfl
  have hflow : step lib ⟨handled, calls ++ [read], log ++ [(i, cmd)], []⟩
      (.flow i session.response_.length) =
      .ok ⟨handled, calls ++ [answeredCall cmd session.response_ i log.length],
        log ++ [(i, cmd)], []⟩ := by
    have hresponse : (ServerLoop.sessionAt handled.sessions i).response_ = session.response_ := by
      rw [ServerLoop.sessionAt_of_getElem? hbusy]
    have hothers : calls.map (Exchange.flowed i session.response_ session.response_.length) =
        calls :=
      (List.map_congr_left fun y hy => if_neg (hold y hy)).trans (List.map_id calls)
    have hflow : read.flowed i session.response_ session.response_.length =
        answeredCall cmd session.response_ i log.length := by
      have hi : read.session = some i := rfl
      rw [Exchange.flowed, if_pos hi]
      simp [answeredCall, read, sent, connectedCall, Exchange.answer, Exchange.start]
    simp only [step, hresponse, List.map_append, hothers, List.map_singleton, hflow]
  refine ⟨?_, _, hsend, ?_, _, hread, ?_, _, hflow, rfl⟩
  · exact ⟨_, List.getElem?_concat_length, rfl⟩
  · refine ⟨⟨_, hfresh, rfl, hne, hlen⟩, by simp, fun y hy hi => ?_⟩
    cases List.mem_append.mp hy with
    | inl hmem => exact absurd hi (hold y hmem)
    | inr hnew =>
      rw [List.mem_singleton.mp hnew]
      exact ⟨hne, hlen, by simp [sent, Exchange.answer]⟩
  · refine ⟨_, hbusy, rfl, fun y hy hi => ?_⟩
    cases List.mem_append.mp hy with
    | inl hmem => exact absurd hi (hold y hmem)
    | inr hnew =>
      rw [List.mem_singleton.mp hnew]
      simp [read]

/-- A new call is connected and its command is handled, while everything else waits. -/
theorem reaches_answered (hI : s.Inv lib store) (hopen : s.loop.acceptor_ = true)
    (hempty : s.backlog = []) {cmd : Bytes} (hne : cmd ≠ []) (hlen : cmd.length ≤ requestBuf)
    {session : Session} {store' : σ}
    (hparse : parseRequest lib cmd Session.start s.loop.store = .ok (session, store')) :
    ∃ rest s', Reaches (step lib) Enabled s (.invoke cmd :: rest) s' ∧ s'.loop.store = store' ∧
      s'.loop.acceptor_ = true ∧ s'.backlog = [] ∧ s.loop.sessions <+: s'.loop.sessions ∧
      s'.log = s.log ++ [(s.loop.sessions.length, cmd)] ∧
      s'.calls =
        s.calls ++ [answeredCall cmd session.response_ s.loop.sessions.length s.log.length] := by
  have hold : ∀ y ∈ s.calls, y.session ≠ some s.loop.sessions.length :=
    fun y hy => session_ne_length hI hy
  have hconnected := reaches_connected hI hopen hempty cmd
  have hheard := reaches_heard { s.loop with
    sessions := s.loop.sessions ++ [⟨Session.start, some .read, []⟩], accepting := true } s.log
    rfl hold hne hlen hparse
  have hrun := reaches_append_iff.mpr ⟨_, hconnected, hheard⟩
  exact ⟨_, _, hrun, rfl, hopen, rfl, List.prefix_append _ _, rfl, rfl⟩

theorem reaches_returned (lib : DBLibrary σ) {calls : List Exchange} {cmd response : Bytes}
    {i now : Nat}
    (hcalls : s.calls = calls ++ [answeredCall cmd response i now]) (hne : response ≠ []) :
    ∃ s' x, Reaches (step lib) Enabled s
      [.receive calls.length (min streamBuf response.length)] s' ∧
      s'.loop = s.loop ∧ s'.log = s.log ∧ s'.backlog = s.backlog ∧ s'.calls = calls ++ [x] ∧
      x.cmd = cmd ∧ x.result = some (true, tokens lf (response.take streamBuf)) := by
  let n := min streamBuf response.length
  let x : Exchange := Exchange.answer (.readSome (some (response.take n))) s.log.length
    { answeredCall cmd response i now with down := response.drop n }
  have hpos : 0 < n := Nat.lt_min.mpr ⟨by decide, List.length_pos_iff.mpr hne⟩
  have hread : s.step lib (.receive calls.length n) = .ok { s with calls := calls ++ [x] } := by
    simp only [step, hcalls, modify_last]
    rfl
  refine ⟨_, x, ⟨⟨answeredCall cmd response i now, ?_, rfl, hpos, Nat.min_le_right _ _,
    Nat.min_le_left _ _⟩, _, hread, rfl⟩, rfl, rfl, rfl, rfl, rfl, ?_⟩
  · rw [hcalls]
    exact List.getElem?_concat_length
  · have htake : response.take n = response.take streamBuf := by
      rw [← List.take_take, List.take_length]
    simp [x, Exchange.result, Exchange.pending, Exchange.answer, answeredCall, executeCmd,
      replay, htake]

/-- In every state of the two sides in which the Data Provider accepts connections, whatever other
calls, sessions and clients wait for: a call that is made now with a command that one read takes and
that does not make its session fault can go through to its return. No other request is handled for
that, and the other calls and the sessions stay as they were, except that the connections which wait
to be accepted are; the call returns the lines of the first 8192 bytes of its response. -/
theorem call_unobstructed (lib : DBLibrary σ) (store : σ) (moves : List Move) (s : Protocol σ)
    (h : Reaches (step lib) Enabled (start store) moves s) (hopen : s.loop.acceptor_ = true)
    (cmd : Bytes) (hne : cmd ≠ []) (hlen : cmd.length ≤ requestBuf) (session : Session) (store' : σ)
    (hparse : parseRequest lib cmd Session.start s.loop.store = .ok (session, store')) :
    ∃ more s' x i, Reaches (step lib) Enabled s more s' ∧ s'.log = s.log ++ [(i, cmd)] ∧
      s.LeavesAlone s' ∧ s'.calls.length = s.calls.length + 1 ∧ s'.calls[s.calls.length]? = some x ∧
      x.cmd = cmd ∧ x.result = some (true, tokens lf (session.response_.take streamBuf)) ∧
      s'.loop.store = store' := by
  obtain ⟨drain, t0, hdrain, hempty, honly⟩ :=
    reaches_drained (inv_reaches h) (waiting_reaches h) hopen
  have hI := inv_reaches (reaches_append_iff.mpr ⟨s, h, hdrain⟩)
  rw [← honly.store] at hparse
  obtain ⟨more, t, hmore, hstore, -, hqueue, hkept, hlog, hcalls⟩ :=
    reaches_answered hI (honly.acceptor.trans hopen) hempty hne hlen hparse
  have hresponse : session.response_ ≠ [] := by
    obtain ⟨response, rfl⟩ := parseRequest_response hparse
    simp [Session.doWrite]
  obtain ⟨s', x, hread, hloop, hsame, hstill, hlast, hcmd, hresult⟩ :=
    reaches_returned lib hcalls hresponse
  have hrun := reaches_append_iff.mpr ⟨t0, hdrain, reaches_append_iff.mpr ⟨t, hmore, hread⟩⟩
  refine ⟨_, s', x, t0.loop.sessions.length, hrun, ?_, ?_, ?_, ?_, hcmd, hresult, hloop ▸ hstore⟩
  · rw [hsame, hlog, honly.log]
  · exact honly.alone.trans
      (LeavesAlone.of_append hlast (hloop ▸ hkept) (hstill.trans hqueue))
  · rw [hlast, List.length_append, honly.length]
    rfl
  · rw [hlast, ← honly.length]
    exact List.getElem?_concat_length

/-- A removal while the connection of another call waits to be accepted -/
theorem call_unobstructed_sample :
    let store := (Server.ofFile (ascii "name:note\nmilk:x\n")).store
    let moves : List Move := [.invoke (ascii "/fields"), .connect 0 true, .arrive (some 0)]
    ∃ s, Reaches (step textLibrary) Enabled (start store) moves s ∧
      ∃ more s' x, Reaches (step textLibrary) Enabled s more s' ∧ s'.calls[1]? = some x ∧
        x.result = some (true, [ascii "SUCCESS", []]) ∧ s'.loop.store.db.entries_ = [] := by
  intro store moves
  have hplay : ∃ s ∈ play (step textLibrary) Enabled (start store) moves,
      s.loop.acceptor_ = true ∧ s.calls.length = 1 ∧
      (parseRequest textLibrary (ascii "/delete/milk") Session.start s.loop.store).map
        (fun r => (r.1.response_, r.2.db.entries_)) = .ok (ascii "SUCCESS\n\n", []) := by
    decide +kernel
  obtain ⟨s, hs, hopen, hone, hmap⟩ := hplay
  obtain ⟨⟨session, store'⟩, hparse, hpair⟩ := map_eq_ok_iff.mp hmap
  obtain ⟨hresponse, hentries⟩ := Prod.mk.inj hpair
  have hrun := play_eq_some_iff.mp hs
  obtain ⟨more, s', x, -, hmore, -, -, -, hx, -, hresult, rfl⟩ :=
    call_unobstructed textLibrary store
    moves s hrun hopen (ascii "/delete/milk") (by decide) (by decide) session store' hparse
  rw [hresponse] at hresult
  exact ⟨s, hrun, more, s', x, hmore, hone ▸ hx, hresult, hentries⟩

end Progress

end Protocol
end ReminderSuite
