import ReminderSuite.Replies
import Mathlib.Data.Set.Basic

/-! Clients on disjoint sets of names: what one of them is answered does not depend
on the others. -/
namespace ReminderSuite
open Delimited FallibleRun FirstMatch

namespace DBTextFile
variable (N : Set Bytes) [DecidablePred (· ∈ N)] {db : DBTextFile} {name field value record : Bytes}

def inside (e : Entry) : Bool := decide (e.name ∈ N)

def restrict (db : DBTextFile) : DBTextFile := { db with entries_ := db.entries_.filter (inside N) }

@[simp] theorem restrict_fields (db : DBTextFile) : (db.restrict N).fields_ = db.fields_ := rfl

def restrictCursor (it : Cursor Entry) : Cursor Entry :=
  ⟨it.before.filter (inside N), it.here, it.after.filter (inside N)⟩

theorem findName_restrict (h : name ∈ N) (db : DBTextFile) :
    (db.restrict N).findName name = (db.findName name).map (restrictCursor N) := by
  apply findIf_filter
  intro e he
  rw [Entry.named_iff] at he
  simpa [inside, he] using h

theorem filter_write (it : Cursor Entry) {e : Entry} (he : e.name ∈ N) :
    (it.write e).filter (inside N) = (restrictCursor N it).write e := by
  simp [Cursor.write, restrictCursor, inside, he]

theorem filter_write_of_notMem (it : Cursor Entry) {e : Entry} (hi : it.here.name ∉ N)
    (he : e.name ∉ N) : (it.write e).filter (inside N) = it.list.filter (inside N) := by
  simp [Cursor.write, Cursor.list, inside, hi, he]

theorem filter_erase (it : Cursor Entry) :
    it.erase.filter (inside N) = (restrictCursor N it).erase := by
  simp [Cursor.erase, restrictCursor]

theorem filter_erase_of_notMem (it : Cursor Entry) (hi : it.here.name ∉ N) :
    it.erase.filter (inside N) = it.list.filter (inside N) := by
  simp [Cursor.erase, Cursor.list, inside, hi]

section Inside

theorem get_restrict (h : name ∈ N) (db : DBTextFile) (field : Bytes) :
    (db.restrict N).get name field = db.get name field := by
  have hfield : (db.restrict N).findField field = db.findField field := rfl
  rw [get, get, findName_restrict N h, hfield]
  cases db.findName name <;> rfl

theorem set_restrict (h : recordName record ∈ N) (db : DBTextFile) :
    (db.restrict N).set (recordName record) record =
      ((db.set (recordName record) record).1,
        (db.set (recordName record) record).2.restrict N) := by
  have hname : (Entry.ofLine record).name ∈ N := by rwa [Entry.name_ofLine]
  rw [set, set, findName_restrict N h]
  cases db.findName (recordName record) with
  | none => simp [restrict, inside, hname]
  | some it => simp [restrict, Entry.setEntry, filter_write N it hname]

theorem setField_restrict (h : name ∈ N) (hv : db.fields_.head? = some field → value ∈ N) :
    (db.restrict N).setField name field value =
      ((db.setField name field value).1, (db.setField name field value).2.restrict N) := by
  have hfield : (db.restrict N).findField field = db.findField field := rfl
  rw [setField, setField, findName_restrict N h, hfield]
  cases hn : db.findName name with
  | none => rfl
  | some it =>
    have hin : it.here.name ∈ N := by rwa [(found_of_findName hn).name_eq]
    cases hf : db.findField field with
    | none => rfl
    | some idx =>
      simp only [Option.map_some, restrictCursor]
      by_cases hlt : idx < it.here.values.length
      · have hput := filter_write N it (name_put (P := (· ∈ N)) hf hin hv)
        simp [Entry.setValue_of_lt hlt, restrict, hput, restrictCursor]
      · have hsame := filter_write N it hin
        simp [Entry.setValue_of_le (Nat.le_of_not_lt hlt), restrict, hsame, restrictCursor]

theorem erase_restrict (h : name ∈ N) (db : DBTextFile) :
    (db.restrict N).erase name = ((db.erase name).1, (db.erase name).2.restrict N) := by
  rw [erase, erase, findName_restrict N h]
  cases db.findName name with
  | none => rfl
  | some it => simp [restrict, filter_erase]

end Inside

section Outside

theorem set_restrict_of_notMem (h : recordName record ∉ N) (db : DBTextFile) :
    (db.set (recordName record) record).2.restrict N = db.restrict N := by
  have hname : (Entry.ofLine record).name ∉ N := by rwa [Entry.name_ofLine]
  cases set_cases db (recordName record) record with
  | inl habsent =>
    obtain ⟨-, hs⟩ := habsent
    rw [hs]
    simp [restrict, inside, hname]
  | inr hfound =>
    obtain ⟨it, hit, hs⟩ := hfound
    have hhere : it.here.name ∉ N := by rwa [hit.name_eq]
    rw [hs, restrict, filter_write_of_notMem N it hhere hname, hit.list_eq]
    rfl

theorem setField_restrict_of_notMem (h : name ∉ N)
    (hv : db.fields_.head? = some field → value ∉ N) :
    (db.setField name field value).2.restrict N = db.restrict N := by
  cases setField_cases db name field value with
  | inl habsent => rw [habsent.2]
  | inr hfound =>
    obtain ⟨it, idx, hit, hf, -, -, hs⟩ := hfound
    have hhere : it.here.name ∉ N := by rwa [hit.name_eq]
    have hput : (it.here.put idx value).name ∉ N := name_put (P := (· ∉ N)) hf hhere hv
    rw [hs, restrict, filter_write_of_notMem N it hhere hput, hit.list_eq]
    rfl

theorem erase_restrict_of_notMem (h : name ∉ N) (db : DBTextFile) :
    (db.erase name).2.restrict N = db.restrict N := by
  cases erase_cases db name with
  | inl habsent => rw [habsent.2]
  | inr hfound =>
    obtain ⟨it, hit, hs⟩ := hfound
    have hhere : it.here.name ∉ N := by rwa [hit.name_eq]
    rw [hs, restrict, filter_erase_of_notMem N it hhere, hit.list_eq]
    rfl

end Outside
end DBTextFile

namespace Call

/-- The names a call touches: an update of the first field of the store renames. -/
def Touches (fields : List Bytes) : Call → Bytes → Prop
  | .get name _, n => n = name
  | .set name _, n => n = name
  | .setField name field value, n => n = name ∨ fields.head? = some field ∧ n = value
  | .erase name, n => n = name
  | _, _ => False

def Named : Call → Prop
  | .get _ _ | .set _ _ | .setField _ _ _ | .erase _ => True
  | .fields | .getAll | .save => False

end Call

def WorksOn (fields : List Bytes) (N : Set Bytes) (chunk : Bytes) : Prop :=
  ∃ c, plan (segments chunk) = .ok (some c) ∧ c.Named ∧ ∀ n, c.Touches fields n → n ∈ N

def StaysOff (fields : List Bytes) (N : Set Bytes) (chunk : Bytes) : Prop :=
  ∃ c, plan (segments chunk) = .ok (some c) ∧
    ((∃ name field, c = .get name field) ∨ ∀ n, c.Touches fields n → n ∉ N)

section
variable (N : Set Bytes) [DecidablePred (· ∈ N)] {chunk : Bytes} {c : Call} {s t : TextStore}

theorem invoke_inside (hplan : plan (segments chunk) = .ok (some c)) (hn : c.Named)
    (htouch : ∀ n, c.Touches s.db.fields_ n → n ∈ N) (file : DiskFile) :
    (textLibrary.invoke c s).map (fun r => (r.1, r.2.db.restrict N)) =
      (textLibrary.invoke c ⟨s.db.restrict N, file⟩).map fun r => (r.1, r.2.db) := by
  rw [invoke_text, invoke_text]
  cases c with
  | get name field =>
    simp only [DBTextFile.get_restrict N (htouch name rfl)]
    cases s.db.get name field <;> rfl
  | set name record =>
    obtain rfl := (spelledBy_of_plan hplan).2
    simp only [DBTextFile.set_restrict N (htouch _ rfl), map_ok]
  | setField name field value =>
    have hv : s.db.fields_.head? = some field → value ∈ N :=
      fun hf => htouch value (Or.inr ⟨hf, rfl⟩)
    simp only [DBTextFile.setField_restrict N (htouch name (Or.inl rfl)) hv, map_ok]
  | erase name => simp only [DBTextFile.erase_restrict N (htouch name rfl), map_ok]
  | _ => exact absurd hn id

/-- Two stores that agree on the names inside answer such a call alike. -/
theorem parseRequest_inside (hplan : plan (segments chunk) = .ok (some c)) (hn : c.Named)
    (htouch : ∀ n, c.Touches s.db.fields_ n → n ∈ N) (hview : s.db.restrict N = t.db.restrict N)
    (session : Session) :
    (∃ session' s' t', parseRequest textLibrary chunk session s = .ok (session', s') ∧
      parseRequest textLibrary chunk session t = .ok (session', t') ∧
      s'.db.restrict N = t'.db.restrict N) ∨
    ∃ e e', parseRequest textLibrary chunk session s = .error e ∧
      parseRequest textLibrary chunk session t = .error e' := by
  have hfields : s.db.fields_ = t.db.fields_ := by
    simpa using congrArg DBTextFile.fields_ hview
  have hs := invoke_inside N hplan hn htouch s.file
  have ht := invoke_inside N hplan hn (hfields ▸ htouch) s.file
  rw [← hview, ← hs] at ht
  cases his : textLibrary.invoke c s with
  | error e =>
    cases hit : textLibrary.invoke c t with
    | error e' =>
      exact Or.inr ⟨e, e', parseRequest_error_iff.mpr (Or.inr ⟨c, hplan, his⟩),
        parseRequest_error_iff.mpr (Or.inr ⟨c, hplan, hit⟩)⟩
    | ok r => simp [his, hit] at ht
  | ok r =>
    cases hit : textLibrary.invoke c t with
    | error e' => simp [his, hit] at ht
    | ok q =>
      obtain ⟨result, s'⟩ := r
      obtain ⟨result', t'⟩ := q
      simp only [his, hit, map_ok, Except.ok.injEq, Prod.mk.injEq] at ht
      obtain ⟨rfl, hview'⟩ := ht
      exact Or.inl ⟨_, s', t', parseRequest_call hplan his, parseRequest_call hplan hit,
        hview'.symm⟩

theorem effect_outside (hplan : plan (segments chunk) = .ok (some c))
    (hoff : (∃ name field, c = .get name field) ∨ ∀ n, c.Touches s.db.fields_ n → n ∉ N) :
    (c.effect s).db.restrict N = s.db.restrict N := by
  rw [effect_eq]
  cases hoff with
  | inl hget =>
    obtain ⟨name, field, rfl⟩ := hget
    rfl
  | inr hoff =>
    cases c with
    | set name record =>
      obtain rfl := (spelledBy_of_plan hplan).2
      exact DBTextFile.set_restrict_of_notMem N (hoff _ rfl) s.db
    | setField name field value =>
      exact DBTextFile.setField_restrict_of_notMem N (hoff name (Or.inl rfl))
        fun hf => hoff value (Or.inr ⟨hf, rfl⟩)
    | erase name => exact DBTextFile.erase_restrict_of_notMem N (hoff name rfl) s.db
    | _ => rfl

/-- The server of a run with every client and the one of a client's run alone, as
far as that client can tell them apart -/
structure Agree (client : Nat) (fields : List Bytes) (srv alone : Server TextStore) : Prop where
  session : srv.sessions client = alone.sessions client
  fields_eq : srv.store.db.fields_ = fields
  view : srv.store.db.restrict N = alone.store.db.restrict N

variable {client : Nat} {fields : List Bytes} {srv alone : Server TextStore} {e : Event}

theorem Agree.own (h : Agree N client fields srv alone) (he : e.1 = client)
    (hw : WorksOn fields N e.2) :
    (∃ srv' alone', srv.receive textLibrary e = .ok srv' ∧
      alone.receive textLibrary e = .ok alone' ∧ Agree N client fields srv' alone') ∨
    ∃ f f', srv.receive textLibrary e = .error f ∧ alone.receive textLibrary e = .error f' := by
  obtain ⟨c, hplan, hn, htouch⟩ := hw
  subst he
  rw [← h.fields_eq] at htouch
  have hp := parseRequest_inside N hplan hn htouch h.view (srv.sessions e.1)
  unfold Server.receive
  rw [← h.session]
  cases hp with
  | inl hgo =>
    obtain ⟨session', s', t', hs, ht, hview⟩ := hgo
    refine Or.inl ⟨_, _, by rw [hs]; rfl, by rw [ht]; rfl, by simp, ?_, hview⟩
    have hr : srv.receive textLibrary e = .ok ⟨Function.update srv.sessions e.1 session', s'⟩ := by
      rw [Server.receive, hs]
      rfl
    exact (receive_text_fields hr).trans h.fields_eq
  | inr hstop =>
    obtain ⟨f, f', hs, ht⟩ := hstop
    exact Or.inr ⟨f, f', by rw [hs]; rfl, by rw [ht]; rfl⟩

theorem Agree.other (h : Agree N client fields srv alone) (he : e.1 ≠ client)
    (hoff : StaysOff fields N e.2) (hpast : ¬ ReadsPastEnd srv.store.db e.2) :
    ∃ srv', srv.receive textLibrary e = .ok srv' ∧ Agree N client fields srv' alone := by
  obtain ⟨c, hplan, hoff⟩ := hoff
  rw [← h.fields_eq] at hoff
  cases hp : parseRequest textLibrary e.2 (srv.sessions e.1) srv.store with
  | error fault =>
    cases parseRequest_text_error_iff.mp hp with
    | inl hbare =>
      obtain ⟨-, hd⟩ := hbare
      have hthrow := plan_eq_error_iff.mpr ⟨rfl, hd⟩
      simp [hplan] at hthrow
    | inr hread =>
      obtain ⟨-, hr⟩ := hread
      exact absurd hr hpast
  | ok r =>
    have hr : srv.receive textLibrary e =
        .ok ⟨Function.update srv.sessions e.1 r.1, r.2⟩ := by
      rw [Server.receive, hp]
      rfl
    refine ⟨_, hr, ?_, (receive_text_fields hr).trans h.fields_eq, ?_⟩
    · simpa [Function.update_of_ne (Ne.symm he)] using h.session
    · cases receive_ok hr with
      | inl hquiet =>
        obtain ⟨hnone, -⟩ := hquiet
        simp [hplan] at hnone
      | inr hcall =>
        obtain ⟨c', result, hplan', hi⟩ := hcall
        obtain rfl : c = c' := by simpa [hplan] using hplan'
        rw [invoke_text_effect hi, effect_outside N hplan hoff]
        exact h.view

end

/-- For every interleaving of requests in which one client works on names in `N`
and the others stay off them, and no request of another client reads past the end
of a record, that client receives what it receives alone. -/
theorem disjoint_clients_isolated (srv : Server TextStore) (client : Nat) (N : Set Bytes)
    (events : List Event)
    (hown : ∀ e ∈ events, e.1 = client → WorksOn srv.store.db.fields_ N e.2)
    (hothers : ∀ e ∈ events, e.1 ≠ client → StaysOff srv.store.db.fields_ N e.2)
    (hg : Guarded (Server.receive textLibrary)
      (fun srv e => e.1 ≠ client → ¬ ReadsPastEnd srv.store.db e.2) srv events) :
    (serve (Server.receive textLibrary) srv events).repliesTo client =
      (serve (Server.receive textLibrary) srv
        (events.filter fun e => e.1 = client)).repliesTo client := by
  classical
  have hboth := (hg.and_of_forall_mem hown).and_of_forall_mem hothers
  have hagree : Agree N client srv.store.db.fields_
      (serve (Server.receive textLibrary) srv events)
      (serve (Server.receive textLibrary) srv (events.filter fun e => e.1 = client)) := by
    refine serve_filter_related hboth ?_ ?_ ⟨rfl, rfl, rfl⟩
    · intro s t e he hcond h
      have he : e.1 = client := by simpa using he
      exact h.own N he (hcond.1.2 he)
    · intro s t e he hcond h
      have he : e.1 ≠ client := by simpa using he
      exact h.other N he (hcond.2 he) (hcond.1.1 he)
  exact congrArg Session.written hagree.session

/-- One client reads and changes `milk` while another adds a record and commits. -/
theorem disjoint_clients_isolated_sample :
    let srv := Server.ofFile (ascii "name:note\nmilk:x\n")
    let events := [(0, ascii "/get/milk"), (1, ascii "/set/eggs:six"),
      (0, ascii "/set/milk/note/two"), (1, ascii "/commit"), (0, ascii "/get/milk/note")]
    (serve (Server.receive textLibrary) srv events).repliesTo 0 =
      (serve (Server.receive textLibrary) srv (events.filter fun e => e.1 = 0)).repliesTo 0 := by
  intro srv events
  have hfirst : srv.store.db.fields_.head? ≠ some (ascii "note") := by decide
  have hown : ∀ e ∈ events, e.1 = 0 → WorksOn srv.store.db.fields_ {n | n = ascii "milk"} e.2 := by
    simp only [events, List.forall_mem_cons, List.not_mem_nil, false_implies,
      implies_true, and_true]
    refine ⟨fun _ => ⟨.get (ascii "milk") [], by decide, trivial, ?_⟩, nofun,
      fun _ => ⟨.setField (ascii "milk") (ascii "note") (ascii "two"), by decide, trivial, ?_⟩,
      nofun, fun _ => ⟨.get (ascii "milk") (ascii "note"), by decide, trivial, ?_⟩⟩
    all_goals simp [Call.Touches, hfirst]
  have hne : ascii "eggs" ≠ ascii "milk" := by decide
  have hothers : ∀ e ∈ events, e.1 ≠ 0 →
      StaysOff srv.store.db.fields_ {n | n = ascii "milk"} e.2 := by
    simp only [events, List.forall_mem_cons, List.not_mem_nil, false_implies,
      implies_true, and_true]
    refine ⟨nofun, fun _ => ⟨.set (ascii "eggs") (ascii "eggs:six"), by decide, Or.inr ?_⟩,
      nofun, fun _ => ⟨.save, by decide, Or.inr nofun⟩, nofun⟩
    simp [Call.Touches, hne]
  have hg : Guarded (Server.receive textLibrary)
      (fun srv e => e.1 ≠ 0 → ¬ ReadsPastEnd srv.store.db e.2) srv events := by
    refine guarded_of_forall_mem (fun s e he hne => ?_) srv
    intro h
    obtain ⟨name, field, hplan, -⟩ := h
    have hcalls : ∀ e ∈ events, e.1 ≠ 0 → plan (segments e.2) ∈
        [.ok (some (.set (ascii "eggs") (ascii "eggs:six"))), .ok (some .save)] := by
      decide
    simpa [hplan] using hcalls e he hne
  exact disjoint_clients_isolated srv 0 _ events hown hothers hg

/-- Another client looks up the second field of a record that has only one value. The
language leaves what follows undefined, so nothing is promised to the first client,
who alone is answered. -/
theorem foreign_lookup_past_end :
    let srv := Server.ofFile (ascii "name:type\na:x\nb\n")
    let events := [(1, ascii "/get/b/type"), (0, ascii "/get/a")]
    let names := {n | n = ascii "a"}
    (∀ e ∈ events, e.1 = 0 → WorksOn srv.store.db.fields_ names e.2) ∧
    (∀ e ∈ events, e.1 ≠ 0 → StaysOff srv.store.db.fields_ names e.2) ∧
    srv.receive textLibrary (1, ascii "/get/b/type") = .error .pastEnd ∧
    (serve (Server.receive textLibrary) srv events).repliesTo 0 = [] ∧
    (serve (Server.receive textLibrary) srv (events.filter fun e => e.1 = 0)).repliesTo 0 =
      [ascii "a:x:\n"] := by
  intro srv events names
  refine ⟨?_, ?_, ?_, by decide, by decide⟩
  · simp only [events, List.forall_mem_cons, List.not_mem_nil, false_implies,
      implies_true, and_true]
    exact ⟨nofun, fun _ => ⟨.get (ascii "a") [], by decide, trivial, fun _ hn => hn⟩⟩
  · simp only [events, List.forall_mem_cons, List.not_mem_nil, false_implies,
      implies_true, and_true]
    exact ⟨fun _ => ⟨.get (ascii "b") (ascii "type"), by decide, Or.inl ⟨_, _, rfl⟩⟩, nofun⟩
  · have hp : parseRequest textLibrary (ascii "/get/b/type") (srv.sessions 1) srv.store =
        .error .pastEnd := by decide
    rw [Server.receive, hp]
    rfl

end ReminderSuite
