import ReminderSuite.Durability
import ReminderSuite.SharedMap

/-! What the file of the text store holds while calls of `executeCmd` overlap, between the requests:
the store at a moment that no commit which has returned comes after. -/
namespace ReminderSuite
open Delimited FallibleRun

/-- The file holds the store after some of the requests, from the first one on, with every commit
among them. -/
structure Preserved (contents : Bytes) (log : List Event) (srv : Server TextStore) : Prop where
  run : Reaches (Server.receive textLibrary) (fun _ _ => True) (Server.ofFile contents) log srv
  opens : srv.store.file.opens = true
  overwrites : srv.store.file.overwrites = true
  representable : Representable srv.store.db
  held : ∃ past srv', past <+: log ∧
    Reaches (Server.receive textLibrary) (fun _ _ => True) (Server.ofFile contents) past srv' ∧
    load srv.store.file.contents = srv'.store.db ∧
    ∀ before e, before ++ [e] <+: log → callOf e.2 = some .save → before ++ [e] <+: past

theorem preserved_start (contents : Bytes) : Preserved contents [] (Server.ofFile contents) where
  run := rfl
  opens := rfl
  overwrites := rfl
  representable := load_representable contents
  held := ⟨[], _, List.prefix_refl _, rfl, rfl, fun _ _ h _ => h⟩

/-- Only a commit moves the file on, and it moves it to its own moment. -/
theorem Preserved.concat {contents : Bytes} {log : List Event} {srv srv' : Server TextStore}
    {e : Event} (h : Preserved contents log srv) (hplain : SetsPlain srv e)
    (hreceive : srv.receive textLibrary e = .ok srv') : Preserved contents (log ++ [e]) srv' := by
  have hrun : Reaches (Server.receive textLibrary) (fun _ _ => True) (Server.ofFile contents)
      (log ++ [e]) srv' :=
    reaches_append_iff.mpr ⟨srv, h.run, trivial, srv', hreceive, rfl⟩
  have hkept : Representable srv'.store.db :=
    receive_text_invariant (P := fun s => Representable s.db) hreceive h.representable
      fun c hc => h.representable.effect hplain hc
  by_cases hcommit : plan (segments e.2) = .ok (some .save)
  · have hstore := receive_commit hreceive hcommit
    have hdb : srv'.store.db = srv.store.db := by rw [hstore]
    have hfile : srv'.store.file = { srv.store.file with contents := srv.store.db.serialise } := by
      rw [hstore]
      simp [DBTextFile.save, h.overwrites]
    refine ⟨hrun, by rw [hfile]; exact h.opens, by rw [hfile]; exact h.overwrites, hkept, ?_⟩
    refine ⟨log ++ [e], srv', List.prefix_refl _, hrun, ?_, fun _ _ h _ => h⟩
    rw [hfile, hdb]
    exact load_serialise h.representable
  · have hfile := receive_file_eq hreceive hcommit
    refine ⟨hrun, by rw [hfile]; exact h.opens, by rw [hfile]; exact h.overwrites, hkept, ?_⟩
    obtain ⟨past, srv0, hpast, hrun0, hload, hcommits⟩ := h.held
    refine ⟨past, srv0, hpast.trans (List.prefix_append _ _), hrun0, by rw [hfile]; exact hload, ?_⟩
    intro before d hd hsave
    cases List.prefix_concat_iff.mp hd with
    | inl heq =>
      obtain rfl : d = e := (List.append_inj' heq rfl).2 |> List.singleton_inj.mp
      exact absurd (plan_of_callOf hsave) hcommit
    | inr hold => exact hcommits before d hold hsave

theorem preserved_reaches {contents : Bytes} {log : List Event} {srv : Server TextStore}
    (h : Reaches (Server.receive textLibrary) SetsPlain (Server.ofFile contents) log srv) :
    Preserved contents log srv :=
  h.history (preserved_start contents) fun _ _ _ _ hP hplain hreceive => hP.concat hplain hreceive

namespace Protocol

theorem heard_mono (x : Exchange) {past log : List Event} (h : past <+: log) :
    x.heard past <+: x.heard log := by
  obtain ⟨rest, rfl⟩ := h
  rw [heard_append]
  exact List.prefix_append _ _

theorem Inv.survivor {contents : Bytes} {s : Protocol TextStore}
    (hI : s.Inv textLibrary (Server.ofFile contents).store)
    (hplain : Guarded (Server.receive textLibrary) SetsPlain (Server.ofFile contents) s.log) :
    ∃ past srv, past <+: s.log ∧
      Reaches (Server.receive textLibrary) (fun _ _ => True) (Server.ofFile contents) past srv ∧
      DBTextFile.fresh.read s.loop.store.file = (true, srv.store.db) ∧
      ∀ before e, before ++ [e] <+: s.log → callOf e.2 = some .save → before ++ [e] <+: past := by
  have hpreserved := preserved_reaches (hI.run.of_guarded hplain)
  obtain ⟨past, srv, hpast, hrun, hload, hcommits⟩ := hpreserved.held
  have hread : DBTextFile.fresh.read s.loop.store.file = (true, load s.loop.store.file.contents) :=
    read_fresh hpreserved.opens
  refine ⟨past, srv, hpast, hrun, ?_, hcommits⟩
  rw [hread]
  exact congrArg (true, ·) hload

/-- For a file that can be opened and overwritten, any number of calls and every order of what
happens, as long as no value with a ':' is stored through a field: whenever no request is being
handled, so that no commit is half written, a restart finds the store after some of the requests,
from the first one on. Every commit that has returned and whose command the session had read whole
is among them, and so is every call, with its command read whole, that had returned before that
commit was made. -/
theorem commits_survive (contents : Bytes) (moves : List Move) (s : Protocol TextStore)
    (h : Reaches (step textLibrary) Enabled (start (Server.ofFile contents).store) moves s)
    (hplain : Guarded (Server.receive textLibrary) SetsPlain (Server.ofFile contents) s.log) :
    ∃ past srv, past <+: s.log ∧
      Reaches (Server.receive textLibrary) (fun _ _ => True) (Server.ofFile contents) past srv ∧
      DBTextFile.fresh.read s.loop.store.file = (true, srv.store.db) ∧
      ∀ x ∈ s.calls, ∀ lines, x.result = some (true, lines) → x.heard s.log = [x.cmd] →
        callOf x.cmd = some .save → x.heard past = [x.cmd] ∧
        ∀ y ∈ s.calls, ∀ lines, y.result = some (true, lines) → y.ended ≤ x.began →
          y.heard s.log = [y.cmd] → y.heard past = [y.cmd] := by
  have hI := inv_reaches h
  obtain ⟨past, srv, hpast, hrun, hread, hcommits⟩ := hI.survivor hplain
  -- a call with one request that has taken effect in the past has it there
  have hthere (y : Exchange) {before : List Event} {e : Event} (hown : y.session = some e.1)
      (hbefore : before ++ [e] <+: past) (hheard : y.heard s.log = [y.cmd]) :
      y.heard past = [y.cmd] := by
    have hmono := heard_mono y hpast
    rw [hheard] at hmono
    cases List.prefix_cons_iff.mp hmono with
    | inl hnil => exact absurd hown (heard_eq_nil_iff.mp hnil e (hbefore.subset (by simp)))
    | inr hone =>
      obtain ⟨t, hone, ht⟩ := hone
      rw [hone, List.prefix_nil.mp ht]
  refine ⟨past, srv, hpast, hrun, hread, fun x hx lines hresult hheard hsave => ?_⟩
  have hne : x.received ≠ [] := (hI.synced x hx).got _ (result_true hresult).1
  obtain ⟨before, e, srv1, session, store', heffect⟩ := exists_takesEffect hI hx hne
  have hwhole : e.2 = x.cmd := List.mem_singleton.mp (hheard ▸ heffect.heard)
  have hin := hcommits before e heffect.handled (hwhole ▸ hsave)
  refine ⟨hthere x heffect.own hin hheard, fun y hy lines' hresult' hearlier hheard' => ?_⟩
  have hne' : y.received ≠ [] := (hI.synced y hy).got _ (result_true hresult').1
  obtain ⟨before', e', srv2, session', store2, heffect'⟩ := exists_takesEffect hI hy hne'
  have hlength : (before' ++ [e']).length ≤ (before ++ [e]).length := by
    have hended := heffect'.ended
    have hbegan := heffect.began
    simp only [List.length_append, List.length_singleton]
    omega
  have hfirst := List.prefix_of_prefix_length_le heffect'.handled heffect.handled hlength
  exact hthere y heffect'.own (hfirst.trans hin) hheard'

/-- A call has changed a record and returned before another commits. -/
theorem commits_survive_sample :
    let contents := ascii "name:note\nmilk:x\n"
    let update := ascii "/set/milk/note/two"
    let commit := ascii "/commit"
    let moves : List Move := [.invoke update, .connect 0 true, .arrive (some 0), .accept 0,
      .send 0 18 true, .serve (.read 0 (.ok update)), .flow 0 9, .receive 0 9, .invoke commit,
      .connect 1 true, .arrive (some 1), .accept 1, .send 1 7 true, .serve (.read 1 (.ok commit)),
      .flow 1 23, .receive 1 23]
    ∃ s x y past, Reaches (step textLibrary) Enabled
      (start (Server.ofFile contents).store) moves s ∧
      s.calls = [x, y] ∧ x.result = some (true, [ascii "SUCCESS", []]) ∧
      y.result = some (true, [ascii "Failed to preserve DB: "]) ∧
      past <+: s.log ∧ x.heard past = [update] ∧ y.heard past = [commit] := by
  intro contents update commit moves
  have hplay : ∃ s ∈ play (step textLibrary) Enabled (start (Server.ofFile contents).store) moves,
      s.log = [(0, update), (1, commit)] ∧ s.calls.map Exchange.cmd = [update, commit] ∧
      s.calls.map (Exchange.heard · s.log) = [[update], [commit]] ∧
      s.calls.map Exchange.began = [0, 1] ∧ s.calls.map Exchange.ended = [1, 2] ∧
      s.calls.map Exchange.result =
        [some (true, [ascii "SUCCESS", []]), some (true, [ascii "Failed to preserve DB: "])] := by
    decide +kernel
  obtain ⟨s, hs, hlog, hcmds, hheards, hbegan, hended, hresults⟩ := hplay
  obtain ⟨x, rest, hcalls, hresult, hmore⟩ := List.map_eq_cons_iff.mp hresults
  obtain ⟨y, rfl, hresult'⟩ := List.map_eq_singleton_iff.mp hmore
  simp only [hcalls, List.map_cons, List.map_nil, List.cons.injEq, and_true]
    at hcmds hheards hbegan hended
  obtain ⟨hxcmd, hycmd⟩ := hcmds
  obtain ⟨hupdate, hcommit⟩ := hheards
  have hrun := play_eq_some_iff.mp hs
  have hplain : Guarded (Server.receive textLibrary) SetsPlain (Server.ofFile contents) s.log := by
    refine guarded_of_forall_mem (fun srv e he name field value hseg _ => ?_) _
    have hplain : ∀ e ∈ [((0 : Nat), update), (1, commit)], ∀ v ∈ (segments e.2).drop 3,
        colon ∉ v := by
      decide
    exact hplain e (hlog ▸ he) value (by simp [hseg])
  obtain ⟨past, -, hpast, -, -, hsurvive⟩ := commits_survive contents moves s hrun hplain
  obtain ⟨hin, hbefore⟩ :=
    hsurvive y (by simp [hcalls]) _ hresult' (hycmd ▸ hcommit) (hycmd ▸ by decide)
  have hold := hbefore x (by simp [hcalls]) _ hresult (by omega) (hxcmd ▸ hupdate)
  exact ⟨s, x, y, past, hrun, hcalls, hresult, hresult', hpast, hxcmd ▸ hold, hycmd ▸ hin⟩

end Protocol
end ReminderSuite
