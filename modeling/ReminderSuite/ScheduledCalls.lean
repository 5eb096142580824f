import ReminderSuite.CommittedCalls

/-! A program that calls the client library while other calls, sessions and clients go on. What goes
on beside it is drawn up beforehand, and its calls return what comes of that. -/
namespace ReminderSuite
open Delimited FallibleRun
variable {σ : Type}

namespace Protocol

/-- How the lookups of the host end, and for each call what goes on before it is made and from then
until it returns -/
structure Schedule where
  lookups : List Bool
  turns : List (List Move × List Move)

def callAmid (lib : DBLibrary σ) (cmd : Bytes) (turn : List Move × List Move) (s : Protocol σ) :
    Option ((Bool × List Bytes) × Protocol σ) := do
  let before ← play (step lib) Enabled s turn.1
  let s' ← play (step lib) Enabled before (.invoke cmd :: turn.2)
  let x ← s'.calls[before.calls.length]?
  let reply ← x.result
  return (reply, s')

/-- The client library as such a program uses it. A call with nothing drawn up for it that leads to
its return does not reach the Data Provider. -/
def scheduled (lib : DBLibrary σ) : DataClient (Protocol σ × Schedule) where
  create w :=
    match w.2.lookups with
    | [] => (false, w)
    | found :: lookups => (found, w.1, { w.2 with lookups := lookups })
  executeCmd cmd result w :=
    match w.2.turns with
    | [] => ((false, result), w)
    | turn :: turns =>
      match callAmid lib cmd turn w.1 with
      | none => ((false, result), w.1, { w.2 with turns := turns })
      | some ((done, lines), s) => ((done, result ++ lines), s, { w.2 with turns := turns })

def GoesOn (lib : DBLibrary σ) (s s' : Protocol σ) : Prop :=
  ∃ moves, Reaches (step lib) Enabled s moves s'

section GoesOn
variable {lib : DBLibrary σ} {s s' s'' : Protocol σ}

theorem GoesOn.refl (s : Protocol σ) : GoesOn lib s s := ⟨[], rfl⟩

theorem GoesOn.trans (h : GoesOn lib s s') (h' : GoesOn lib s' s'') : GoesOn lib s s'' := by
  obtain ⟨moves, hmoves⟩ := h
  obtain ⟨more, hmore⟩ := h'
  exact ⟨moves ++ more, reaches_append_iff.mpr ⟨s', hmoves, hmore⟩⟩

theorem GoesOn.inv {store : σ} (h : GoesOn lib (start store) s) : s.Inv lib store := by
  obtain ⟨moves, hmoves⟩ := h
  exact inv_reaches hmoves

theorem GoesOn.waiting {store : σ} (h : GoesOn lib (start store) s) : s.Waiting := by
  obtain ⟨moves, hmoves⟩ := h
  exact waiting_reaches hmoves

structure Continues (x y : Exchange) : Prop where
  cmd : y.cmd = x.cmd
  began : y.began = x.began
  session : x.session ≠ none → y.session = x.session

theorem Continues.refl (x : Exchange) : Continues x x := ⟨rfl, rfl, fun _ => rfl⟩

theorem Continues.trans {x y z : Exchange} (h : Continues x y) (h' : Continues y z) :
    Continues x z where
  cmd := h'.cmd.trans h.cmd
  began := h'.began.trans h.began
  session hne := by
    have hy := h.session hne
    exact (h'.session (hy ▸ hne)).trans hy

structure Grown (s s' : Protocol σ) : Prop where
  log : s.log <+: s'.log
  calls : ∀ (k : Nat) (x : Exchange), s.calls[k]? = some x → ∃ y, s'.calls[k]? = some y ∧
    Continues x y

theorem grown_modify {k : Nat} {f : Exchange → Exchange}
    (hf : ∀ x, s.calls[k]? = some x → Continues x (f x))
    {loop : ServerLoop σ} {backlog : List (Option Nat)} :
    Grown s { s with loop := loop, calls := s.calls.modify k f, backlog := backlog } where
  log := List.prefix_refl _
  calls j x hx := by
    by_cases hkj : k = j
    · subst hkj
      exact ⟨f x, by simp [hx], hf x hx⟩
    · exact ⟨x, by simp [hkj, hx], Continues.refl x⟩

theorem grown_map {f : Exchange → Exchange} (hf : ∀ x, Continues x (f x)) {loop : ServerLoop σ}
    {more : List Event} {backlog : List (Option Nat)} :
    Grown s ⟨loop, s.calls.map f, s.log ++ more, backlog⟩ where
  log := List.prefix_append _ _
  calls k x hx := ⟨f x, by simp [hx], hf x⟩

theorem continues_answer (a : Answer) (now : Nat) {x : Exchange} {up down : Bytes} :
    Continues x (Exchange.answer a now { x with up := up, down := down }) :=
      ⟨rfl, rfl, fun _ => rfl⟩

theorem continues_served (e : Completion) (x : Exchange) : Continues x (x.served e) := by
  unfold Exchange.served
  split
  · split <;> exact ⟨rfl, rfl, fun _ => rfl⟩
  · exact Continues.refl x

theorem continues_flowed (i : Nat) (response : Bytes) (n : Nat) (x : Exchange) :
    Continues x (x.flowed i response n) := by
  unfold Exchange.flowed
  split
  · exact ⟨rfl, rfl, fun _ => rfl⟩
  · exact Continues.refl x

theorem grown_step {m : Move} (he : s.Enabled m) (h : s.step lib m = .ok s') : Grown s s' := by
  cases m with
  | invoke cmd =>
    obtain rfl := Except.ok.inj h
    refine ⟨List.prefix_refl _, fun k x hx => ⟨x, ?_, Continues.refl x⟩⟩
    rw [List.getElem?_append_left (List.getElem?_eq_some_iff.mp hx).1, hx]
  | connect k ok | send k n ok | receive k n | fail k =>
    obtain rfl := Except.ok.inj h
    exact grown_modify fun x _ => continues_answer _ _
  | arrive who =>
    obtain rfl := Except.ok.inj h
    exact ⟨List.prefix_refl _, fun k x hx => ⟨x, hx, Continues.refl x⟩⟩
  | accept k =>
    obtain ⟨-, -, -, x, hx, -, hnone⟩ := he
    obtain ⟨loop, -, rfl⟩ := map_eq_ok_iff.mp h
    refine grown_modify (f := fun y => { y with session := some s.loop.sessions.length })
      fun y hy => ⟨rfl, rfl, fun hne => ?_⟩
    obtain rfl := Option.some.inj (hx.symm.trans hy)
    exact absurd hnone hne
  | flow i n =>
    obtain rfl := Except.ok.inj h
    have hgrown : Grown s ⟨s.loop, _, s.log ++ [], s.backlog⟩ :=
      grown_map (continues_flowed i (ServerLoop.sessionAt s.loop.sessions i).response_ n)
    rwa [List.append_nil] at hgrown
  | serve e =>
    obtain ⟨loop, -, rfl⟩ := map_eq_ok_iff.mp h
    exact grown_map (continues_served e)

theorem GoesOn.grown (h : GoesOn lib s s') : Grown s s' := by
  obtain ⟨moves, hmoves⟩ := h
  refine hmoves.invariant (I := Grown s) (fun t m t' ht hm hstep => ?_)
    ⟨List.prefix_refl _, fun k x hx => ⟨x, hx, Continues.refl x⟩⟩
  have hnext := grown_step hm hstep
  refine ⟨ht.log.trans hnext.log, fun k x hx => ?_⟩
  obtain ⟨y, hy, hxy⟩ := ht.calls k x hx
  obtain ⟨z, hz, hyz⟩ := hnext.calls k y hy
  exact ⟨z, hz, hxy.trans hyz⟩

def Whole (s : Protocol σ) : Prop :=
  ∀ x ∈ s.calls, x.heard s.log = [] ∨ x.heard s.log = [x.cmd]

instance (s : Protocol σ) : Decidable s.Whole :=
  inferInstanceAs (Decidable (∀ x ∈ s.calls, x.heard s.log = [] ∨ x.heard s.log = [x.cmd]))

theorem Grown.whole (h : Grown s s') (hwhole : s'.Whole) : s.Whole := by
  intro x hx
  obtain ⟨k, hk⟩ := List.mem_iff_getElem?.mp hx
  obtain ⟨y, hy, hxy⟩ := h.calls k x hk
  by_cases hnone : x.session = none
  · exact Or.inl (heard_of_session_none hnone _)
  · have hsame : y.heard s'.log = x.heard s'.log := by
      simp only [Exchange.heard, hxy.session hnone]
    have hpast := heard_mono x h.log
    cases hwhole y (List.mem_of_getElem? hy) with
    | inl hnil =>
      rw [← hsame, hnil] at hpast
      exact Or.inl (List.prefix_nil.mp hpast)
    | inr hone =>
      rw [← hsame, hone, hxy.cmd] at hpast
      cases List.prefix_cons_iff.mp hpast with
      | inl hnil => exact Or.inl hnil
      | inr hcons =>
        obtain ⟨t, hcons, ht⟩ := hcons
        exact Or.inr (by rw [hcons, List.prefix_nil.mp ht])

theorem callAmid_goesOn {cmd : Bytes} {turn : List Move × List Move} {reply : Bool × List Bytes}
    (h : callAmid lib cmd turn s = some (reply, s')) :
    GoesOn lib s s' ∧ ∃ x ∈ s'.calls, x.cmd = cmd ∧ s.log.length ≤ x.began ∧
      x.result = some reply := by
  simp only [callAmid, Option.bind_eq_bind, Option.bind_eq_some_iff, Option.pure_def,
    Option.some.injEq, Prod.mk.injEq] at h
  obtain ⟨before, hbefore, s1, hcall, x, hx, r, hresult, rfl, rfl⟩ := h
  have hfirst : GoesOn lib s before := ⟨_, play_eq_some_iff.mp hbefore⟩
  obtain ⟨-, made, hmade, hrest⟩ := play_eq_some_iff.mp hcall
  have hmove : GoesOn lib before made := ⟨[.invoke cmd], trivial, made, hmade, rfl⟩
  have hlast : GoesOn lib made s1 := ⟨_, hrest⟩
  refine ⟨hfirst.trans (hmove.trans hlast), x, List.mem_of_getElem? hx, ?_⟩
  obtain rfl := Except.ok.inj hmade
  obtain ⟨y, hy, hcontinues⟩ :=
    hlast.grown.calls before.calls.length (Exchange.start cmd before.log.length)
    List.getElem?_concat_length
  obtain rfl := Option.some.inj (hx.symm.trans hy)
  refine ⟨hcontinues.cmd, ?_, hresult⟩
  rw [hcontinues.began]
  exact hfirst.grown.log.length_le

theorem scheduled_goesOn (lib : DBLibrary σ) (cmd : Bytes) (w : Protocol σ × Schedule) :
    let r := (scheduled lib).executeCmd cmd [] w
    GoesOn lib w.1 r.2.1 ∧ ∀ lines, r.1 = (true, lines) →
      ∃ x ∈ r.2.1.calls, x.cmd = cmd ∧ w.1.log.length ≤ x.began ∧
        x.result = some (true, lines) := by
  intro r
  cases hturns : w.2.turns with
  | nil =>
    have hr : r = ((false, []), w) := by simp [r, scheduled, hturns]
    rw [hr]
    exact ⟨GoesOn.refl _, by simp⟩
  | cons turn turns =>
    cases hcall : callAmid lib cmd turn w.1 with
    | none =>
      have hr : r = ((false, []), w.1, { w.2 with turns := turns }) := by
        simp [r, scheduled, hturns, hcall]
      rw [hr]
      exact ⟨GoesOn.refl _, by simp⟩
    | some out =>
      obtain ⟨⟨done, lines⟩, s⟩ := out
      have hr : r = ((done, lines), s, { w.2 with turns := turns }) := by
        simp [r, scheduled, hturns, hcall]
      obtain ⟨hgoes, hx⟩ := callAmid_goesOn hcall
      rw [hr]
      exact ⟨hgoes, fun _ heq => heq ▸ hx⟩

theorem scheduled_create (lib : DBLibrary σ) (w : Protocol σ × Schedule) :
    ((scheduled lib).create w).2.1 = w.1 := by
  cases hlookups : w.2.lookups <;> simp [scheduled, hlookups]

end GoesOn

def Handled (lib : DBLibrary σ) (store : σ) (s s' : Protocol σ) (cmd part : Bytes) : Prop :=
  ∃ before e srv session store', s.log <+: before ∧ before ++ [e] <+: s'.log ∧ e.2 = cmd ∧
    Reaches (Server.receive lib) (fun _ _ => True) ⟨fun _ => Session.start, store⟩ before srv ∧
    parseRequest lib cmd Session.start srv.store = .ok (session, store') ∧
    part ≠ [] ∧ part <+: session.response_

section Calls
variable {lib : DBLibrary σ} {store : σ} {s s0 s1 s' : Protocol σ} {cmd part : Bytes}

theorem Handled.mono (h : Handled lib store s0 s1 cmd part) (hfirst : s.log <+: s0.log)
    (hlast : s1.log <+: s'.log) : Handled lib store s s' cmd part := by
  obtain ⟨before, e, srv, session, store', hbefore, hpast, hrest⟩ := h
  exact ⟨before, e, srv, session, store', hfirst.trans hbefore, hpast.trans hlast, hrest⟩

/-- A call that has returned a response was handled between its invocation and its return. -/
theorem Inv.handled (hI : s'.Inv lib store) (hwhole : s'.Whole) {x : Exchange} (hx : x ∈ s'.calls)
    {lines : List Bytes} (hresult : x.result = some (true, lines)) (hlog : s.log <+: s'.log)
    (hbegan : s.log.length ≤ x.began) : ∃ part, lines = tokens lf part ∧
      Handled lib store s s' x.cmd part := by
  obtain ⟨hanswer, hlines⟩ := result_true hresult
  have hne : x.received ≠ [] := (hI.synced x hx).got _ hanswer
  obtain ⟨before, e, srv, session, store', heffect⟩ := exists_takesEffect hI hx hne
  have hown := heffect.heard
  have hcmd : e.2 = x.cmd := by
    cases hwhole x hx with
    | inl hnil => simp [hnil] at hown
    | inr hone =>
      rw [hone] at hown
      exact List.mem_singleton.mp hown
  have hlate : s.log <+: before := by
    refine List.prefix_of_prefix_length_le hlog
      ((List.prefix_append before [e]).trans heffect.handled) ?_
    exact Nat.le_trans hbegan heffect.began
  exact ⟨x.received, hlines, before, e, srv, session, store', hlate, heffect.handled, hcmd,
    heffect.run, hcmd ▸ heffect.parsed, hne, (heffect.response hI hx hcmd).2⟩

theorem scheduled_handled {w : Protocol σ × Schedule} (h : GoesOn lib (start store) w.1)
    (cmd : Bytes) :
    let r := (scheduled lib).executeCmd cmd [] w
    GoesOn lib w.1 r.2.1 ∧ ∀ lines, r.1 = (true, lines) → r.2.1.Whole →
      ∃ part, lines = tokens lf part ∧ Handled lib store w.1 r.2.1 cmd part := by
  intro r
  obtain ⟨hgoes, hreturned⟩ := scheduled_goesOn lib cmd w
  refine ⟨hgoes, fun lines hlines hwhole => ?_⟩
  obtain ⟨x, hx, rfl, hbegan, hresult⟩ := hreturned lines hlines
  exact (h.trans hgoes).inv.handled hwhole hx hresult hgoes.grown.log hbegan

end Calls
end Protocol
end ReminderSuite
