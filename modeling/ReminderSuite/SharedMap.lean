import ReminderSuite.CallOrder
import ReminderSuite.TextStoreMap

/-! The text store as the callers of `executeCmd` see it, however their calls overlap: one map,
which each of them reads or changes at a moment of its own call. -/
namespace ReminderSuite
open Delimited FallibleRun

def callOf (chunk : Bytes) : Option Call :=
  match plan (segments chunk) with
  | .ok planned => planned
  | .error _ => none

theorem plan_of_callOf {chunk : Bytes} {c : Call} (h : callOf chunk = some c) :
    plan (segments chunk) = .ok (some c) := by
  cases hplan : plan (segments chunk) with
  | error fault => simp [callOf, hplan] at h
  | ok planned => simpa [callOf, hplan] using h

theorem callOf_of_plan {chunk : Bytes} {planned : Option Call}
    (h : plan (segments chunk) = .ok planned) :
    callOf chunk = planned := by
  rw [callOf, h]

namespace Records

def after (fields : List Bytes) (m : Records) (requests : List Bytes) : Records :=
  (requests.filterMap callOf).foldl (fun m c => (m.call fields c).2) m

theorem after_append (fields : List Bytes) (m : Records) (before later : List Bytes) :
    m.after fields (before ++ later) = (m.after fields before).after fields later := by
  rw [after, after, after, List.filterMap_append, List.foldl_append]

end Records

/-- No request writes through the first field. -/
def KeepsFirst (fields : List Bytes) (requests : List Bytes) : Prop :=
  ∀ chunk ∈ requests, ∀ name field value, callOf chunk = some (.setField name field value) →
    fields.head? ≠ some field

theorem KeepsFirst.of_prefix {fields : List Bytes} {log log' : List Event}
    (h : KeepsFirst fields (log'.map Prod.snd)) (hlog : log <+: log') :
    KeepsFirst fields (log.map Prod.snd) :=
  fun chunk hchunk => h chunk ((hlog.map Prod.snd).subset hchunk)

section Refinement
variable {fields : List Bytes} {srv srv' : Server TextStore} {m : Records} {log : List Event}

theorem Refines.invoke {s s' : TextStore} (h : Refines fields s m) {chunk : Bytes} {c : Call}
    {result : Result} (hcall : callOf chunk = some c)
    (hfirst : ∀ name field value, c = .setField name field value → fields.head? ≠ some field)
    (hi : textLibrary.invoke c s = .ok (result, s')) :
    (m.call fields c).1 = some result ∧ Refines fields s' (m.call fields c).2 := by
  obtain ⟨hresult, hnext⟩ := h.step (keepsKeys_of_plan (plan_of_callOf hcall) hfirst)
  have hcalled : callText s c = (.ok result, s') := by
    rw [callText_eq, hi, invoke_text_effect hi]
    rfl
  rw [hcalled] at hresult hnext
  exact ⟨hresult.symm, hnext⟩

/-- A request on the store and on the map -/
theorem Refines.parse {s s' : TextStore} {chunk : Bytes} {session session' : Session}
    (h : Refines fields s m) (hkeep : KeepsFirst fields [chunk])
    (hparse : parseRequest textLibrary chunk session s = .ok (session', s')) :
    Refines fields s' (m.after fields [chunk]) := by
  cases parseRequest_ok hparse with
  | inl hquiet =>
    have hnone : callOf chunk = none := callOf_of_plan hquiet.1
    simpa [Records.after, hnone, hquiet.2.1] using h
  | inr hcall =>
    obtain ⟨c, result, hplan, hi, -⟩ := hcall
    have hsome : callOf chunk = some c := callOf_of_plan hplan
    have hfirst := hkeep chunk (by simp)
    simp only [hsome, Option.some.injEq] at hfirst
    simpa [Records.after, hsome] using (h.invoke hsome hfirst hi).2

theorem Refines.reaches (h : Refines fields srv.store m)
    (hkeep : KeepsFirst fields (log.map Prod.snd))
    (hrun : Reaches (Server.receive textLibrary) (fun _ _ => True) srv log srv') :
    Refines fields srv'.store (m.after fields (log.map Prod.snd)) := by
  induction log generalizing srv m with
  | nil =>
    obtain rfl : srv' = srv := hrun
    exact h
  | cons e log ih =>
    obtain ⟨-, srv1, hreceive, hrest⟩ := hrun
    obtain ⟨⟨session, store⟩, hparse, rfl⟩ := map_eq_ok_iff.mp hreceive
    obtain ⟨hnow, hlater⟩ := List.forall_mem_cons.mp hkeep
    have hnext := ih (h.parse (List.forall_mem_singleton.mpr hnow) hparse) hlater hrest
    rwa [← Records.after_append] at hnext

end Refinement

namespace Protocol

/-- For every text store with pairwise distinct names, any number of calls and every order of what
happens, as long as no request that is handled writes through the first field: there is one map
that the store holds. A call that has returned a response, and whose command the session had read
whole, returns the lines of a part of the answer that the map gives, from its beginning, at a
moment between the invocation of the call and its return, the requests that were handled before
being those that had changed the map. -/
theorem callers_see_map (store : TextStore) (hnodup : (store.db.entries_.map Entry.name).Nodup)
    (moves : List Move) (s : Protocol TextStore)
    (h : Reaches (step textLibrary) Enabled (start store) moves s)
    (hkeep : KeepsFirst store.db.fields_ (s.log.map Prod.snd)) :
    ∃ m : Records, m.toList = store.db.entries_.map Entry.binding ∧
      s.loop.store.db.entries_.map Entry.binding =
        (m.after store.db.fields_ (s.log.map Prod.snd)).toList ∧
      ∀ x ∈ s.calls, ∀ (lines : List Bytes) (c : Call), x.result = some (true, lines) →
        x.heard s.log = [x.cmd] → callOf x.cmd = some c →
        ∃ before e result part, x.session = some e.1 ∧ e.2 = x.cmd ∧ before ++ [e] <+: s.log ∧
          x.began ≤ before.length ∧ before.length < x.ended ∧
          ((m.after store.db.fields_ (before.map Prod.snd)).call store.db.fields_ c).1 =
            some result ∧
          part ≠ [] ∧ lines = tokens lf part ∧
          part <+: answer (stripCRLF x.cmd) c result ++ [lf] := by
  have hI := inv_reaches h
  let srv : Server TextStore := ⟨fun _ => Session.start, store⟩
  have hstart : Refines store.db.fields_ srv.store _ := Refines.ofList store hnodup
  have hend := hstart.reaches hkeep hI.run
  refine ⟨_, hstart.bindings, hend.bindings.symm, fun x hx lines c hresult hheard hcall => ?_⟩
  obtain ⟨hanswer, hlines⟩ := result_true hresult
  have hne : x.received ≠ [] := (hI.synced x hx).got _ hanswer
  obtain ⟨before, e, srv', session, store', heffect⟩ := exists_takesEffect hI hx hne
  have hmem : e ∈ s.log := heffect.handled.subset (by simp)
  have hwhole : e.2 = x.cmd := List.mem_singleton.mp (hheard ▸ heffect.heard)
  have hpart := (heffect.response hI hx hwhole).2
  have hpast := hkeep.of_prefix ((List.prefix_append before [e]).trans heffect.handled)
  have hnow := hstart.reaches hpast heffect.run
  have hparsed := heffect.parsed
  rw [hwhole] at hparsed
  cases parseRequest_ok hparsed with
  | inl hrefused =>
    have hnone := callOf_of_plan hrefused.1
    exact absurd (hcall.symm.trans hnone) (by simp)
  | inr hcalled =>
    obtain ⟨c', result, hplan, hi, rfl⟩ := hcalled
    obtain rfl : c = c' := Option.some.inj (hcall.symm.trans (callOf_of_plan hplan))
    have hfirst := hkeep e.2 (List.mem_map_of_mem hmem)
    rw [hwhole, hcall] at hfirst
    simp only [Option.some.injEq] at hfirst
    have hmap := (hnow.invoke hcall hfirst hi).1
    exact ⟨before, e, result, x.received, heffect.own, hwhole, heffect.handled, heffect.began,
      heffect.ended, hmap, hne, hlines, hpart⟩

/-- A lookup that overlaps an update, which is handled first -/
theorem callers_see_map_sample :
    let store := (Server.ofFile (ascii "name:note\nmilk:x\n")).store
    let lookup := ascii "/get/milk/note"
    let update := ascii "/set/milk/note/two"
    let moves : List Move := [.invoke lookup, .invoke update, .connect 0 true, .connect 1 true,
      .arrive (some 0), .arrive (some 1), .accept 0, .accept 1, .send 1 18 true,
      .serve (.read 1 (.ok update)), .send 0 14 true, .serve (.read 0 (.ok lookup)), .flow 0 4,
      .receive 0 4]
    ∃ s x y, Reaches (step textLibrary) Enabled (start store) moves s ∧ s.calls = [x, y] ∧
      x.result = some (true, [ascii "two"]) ∧ y.result = none ∧
      ∃ (m : Records) (before : List Event) (result : Result),
        ((m.after store.db.fields_ (before.map Prod.snd)).call store.db.fields_
          (.get (ascii "milk") (ascii "note"))).1 = some result ∧ before <+: s.log := by
  intro store lookup update moves
  have hplay : ∃ s ∈ play (step textLibrary) Enabled (start store) moves,
      s.log = [(1, update), (0, lookup)] ∧ s.calls.map Exchange.cmd = [lookup, update] ∧
      s.calls.map (Exchange.heard · s.log) = [[lookup], [update]] ∧
      s.calls.map Exchange.result = [some (true, [ascii "two"]), none] := by decide +kernel
  obtain ⟨s, hs, hlog, hcmds, hheards, hresults⟩ := hplay
  obtain ⟨x, rest, hcalls, hresult, hmore⟩ := List.map_eq_cons_iff.mp hresults
  obtain ⟨y, rfl, hpending⟩ := List.map_eq_singleton_iff.mp hmore
  simp only [hcalls, List.map_cons, List.map_nil, List.cons.injEq, and_true] at hcmds hheards
  obtain ⟨hcmd, -⟩ := hcmds
  obtain ⟨hheard, -⟩ := hheards
  have hrun := play_eq_some_iff.mp hs
  have hkeep : KeepsFirst store.db.fields_ (s.log.map Prod.snd) := by
    rw [hlog]
    refine List.forall_mem_cons.mpr ⟨fun name field value h => ?_,
      List.forall_mem_singleton.mpr fun name field value h => ?_⟩
    · have hcall : callOf update =
          some (.setField (ascii "milk") (ascii "note") (ascii "two")) := by decide
      obtain ⟨-, rfl, -⟩ : ascii "milk" = name ∧ ascii "note" = field ∧ ascii "two" = value := by
        simpa using hcall.symm.trans h
      decide
    · have hcall : callOf lookup = some (.get (ascii "milk") (ascii "note")) := by decide
      simpa using hcall.symm.trans h
  obtain ⟨m, -, -, hmap⟩ := callers_see_map store (by decide) moves s hrun hkeep
  obtain ⟨before, e, result, part, -, -, hbefore, -, -, hanswer, -⟩ := hmap x (by simp [hcalls]) _
    (.get (ascii "milk") (ascii "note")) hresult (hcmd ▸ hheard) (by rw [hcmd]; decide)
  exact ⟨s, x, y, hrun, hcalls, hresult, hpending, m, before, result, hanswer,
    (List.prefix_append before [e]).trans hbefore⟩

end Protocol
end ReminderSuite
