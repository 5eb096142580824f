import ReminderSuite.Replies
import ReminderSuite.TextFileCodec

/-! Every index that the text backend passes to `getValue`, against the number of
values of the record it is applied to. -/
namespace ReminderSuite
open Delimited FirstMatch FallibleRun

namespace DBTextFile
variable {db : DBTextFile}

def nameUses (db : DBTextFile) (name : Bytes) : List (Entry × Nat) :=
  (examined (Entry.named name) db.entries_).map fun e => (e, 0)

def fieldUse (db : DBTextFile) (name field : Bytes) : List (Entry × Nat) :=
  match db.findName name, db.findField field with
  | some it, some idx => if field.isEmpty then [] else [(it.here, idx)]
  | _, _ => []

/-- The applications of `getValue` in a call: a record and an index for each -/
def getValueUses (db : DBTextFile) : Call → List (Entry × Nat)
  | .get name field => db.nameUses name ++ db.fieldUse name field
  | .set name _ => db.nameUses name
  | .setField name _ _ => db.nameUses name
  | .erase name => db.nameUses name
  | .fields | .getAll | .save => []

def InRange (db : DBTextFile) (c : Call) : Prop :=
  ∀ u ∈ db.getValueUses c, u.2 < u.1.values.length

/-- No search for a name leaves a record: each has a first value. -/
theorem nameUses_inRange (db : DBTextFile) (name : Bytes) :
    ∀ u ∈ db.nameUses name, u.2 < u.1.values.length := by
  intro u hu
  obtain ⟨e, -, rfl⟩ := List.mem_map.mp hu
  exact e.values_pos

theorem fieldUse_inRange_iff (db : DBTextFile) (name field : Bytes) :
    (∀ u ∈ db.fieldUse name field, u.2 < u.1.values.length) ↔
      db.readsPastEnd name field = false := by
  unfold fieldUse readsPastEnd
  cases db.findName name with
  | none => simp
  | some it =>
    cases db.findField field with
    | none => simp
    | some idx => cases hf : field.isEmpty <;> simp

theorem inRange_iff {c : Call} :
    db.InRange c ↔ ∀ name field, c = .get name field → db.readsPastEnd name field = false := by
  have hname := nameUses_inRange db
  cases c with
  | get name field =>
    simp only [InRange, getValueUses, List.forall_mem_append, fieldUse_inRange_iff,
      Call.get.injEq]
    constructor
    · intro h n f heq
      obtain ⟨rfl, rfl⟩ := heq
      exact h.2
    · intro h
      exact ⟨hname name, h name field ⟨rfl, rfl⟩⟩
  | set name record => simpa [InRange, getValueUses] using hname name
  | setField name field value => simpa [InRange, getValueUses] using hname name
  | erase name => simpa [InRange, getValueUses] using hname name
  | _ => simp [InRange, getValueUses]

theorem invoke_pastEnd_iff {c : Call} {s : TextStore} :
    textLibrary.invoke c s = .error .pastEnd ↔ ¬ s.db.InRange c := by
  rw [invoke_text_error_iff, inRange_iff]
  simp

end DBTextFile

/-- Every index that the request has the backend use is in range. -/
def IndexesInRange (srv : Server TextStore) (e : Event) : Prop :=
  ∀ c, plan (segments e.2) = .ok (some c) → srv.store.db.InRange c

theorem indexesInRange_iff (srv : Server TextStore) (e : Event) :
    IndexesInRange srv e ↔ ¬ ReadsPastEnd srv.store.db e.2 := by
  simp only [IndexesInRange, DBTextFile.inRange_iff, ReadsPastEnd, not_exists, not_and,
    Bool.not_eq_true]
  constructor
  · intro h name field hplan
    exact h _ hplan name field rfl
  · intro h c hplan name field heq
    subst heq
    exact h name field hplan

structure FullRows (fields : List Bytes) (db : DBTextFile) : Prop where
  fields_eq : db.fields_ = fields
  rows_full : db.All fun e => fields.length ≤ e.values.length

theorem FullRows.in_range {fields : List Bytes} {db : DBTextFile} (h : FullRows fields db)
    (name field : Bytes) : db.readsPastEnd name field = false := by
  unfold DBTextFile.readsPastEnd
  cases hn : db.findName name with
  | none => rfl
  | some it =>
    cases hf : db.findField field with
    | none => rfl
    | some idx =>
      rw [DBTextFile.findField_eq_findIdx?, h.fields_eq] at hf
      have hidx : idx < fields.length := (List.findIdx?_eq_some_iff_getElem.mp hf).1
      have hrow := h.rows_full _ (DBTextFile.found_of_findName hn).mem
      have hlt : ¬ it.here.values.length ≤ idx := by omega
      simp [hlt]

def SetsFullRow (fields : List Bytes) (e : Event) : Prop :=
  ∀ record, segments e.2 = [ascii "set", record] → fields.length ≤ (tokens colon record).length

theorem FullRows.effect {fields : List Bytes} {s : TextStore} {e : Event} {c : Call}
    (h : FullRows fields s.db) (hset : SetsFullRow fields e)
    (hplan : plan (segments e.2) = .ok (some c)) : FullRows fields (c.effect s).db := by
  refine ⟨(effect_fields c s).trans h.fields_eq, ?_⟩
  have hseg := spelledBy_of_plan hplan
  rw [effect_eq]
  cases c with
  | set name record => exact h.rows_full.set name (hset record hseg.1)
  | setField name field value =>
    refine h.rows_full.setField fun _ e idx he => ?_
    simpa [Entry.put] using he
  | erase name => exact h.rows_full.erase name
  | _ => exact h.rows_full

/-- An index out of range is what makes a call run past the end of a record. Every index of every
request of a run is in range exactly when no request looks up a name and a field that exist where
the first record of that name has no value at the position of the field; and no run can do so whose
file and whose record sets leave every record with a value for every field. -/
theorem record_reads_in_range (contents : Bytes) (events : List Event) :
    (∀ (c : Call) (s : TextStore), textLibrary.invoke c s = .error .pastEnd ↔ ¬ s.db.InRange c) ∧
    (Guarded (Server.receive textLibrary) IndexesInRange (Server.ofFile contents) events ↔
      Guarded (Server.receive textLibrary) (fun srv e => ¬ ReadsPastEnd srv.store.db e.2)
        (Server.ofFile contents) events) ∧
    (FullRows (load contents).fields_ (load contents) →
      (∀ e ∈ events, SetsFullRow (load contents).fields_ e) →
      Guarded (Server.receive textLibrary) IndexesInRange (Server.ofFile contents) events) := by
  refine ⟨fun _ _ => DBTextFile.invoke_pastEnd_iff, guarded_congr indexesInRange_iff _ _,
    fun hload hsets => ?_⟩
  refine guarded_of_invariant (I := fun srv => FullRows (load contents).fields_ srv.store.db)
    ?_ ?_ hload
  · intro srv e _ hfull
    rw [indexesInRange_iff]
    intro h
    obtain ⟨name, field, -, hpast⟩ := h
    simp [hfull.in_range name field] at hpast
  · intro srv e he srv' hfull hr
    exact receive_text_invariant (P := fun s => FullRows (load contents).fields_ s.db) hr hfull
      fun c hplan => hfull.effect (hsets e he) hplan

/-- A file of full records and a full record set, then a lookup of each field -/
theorem record_reads_in_range_sample :
    Guarded (Server.receive textLibrary) IndexesInRange
      (Server.ofFile (ascii "name:note\nmilk:x\n"))
      [(0, ascii "/set/eggs:six"), (1, ascii "/get/eggs/note"), (0, ascii "/get/milk/name")] := by
  have hrecords : ∀ e ∈ [((0 : Nat), ascii "/set/eggs:six"), (1, ascii "/get/eggs/note"),
      (0, ascii "/get/milk/name")], (segments e.2).length = 2 → segments e.2 =
        [ascii "set", ascii "eggs:six"] := by decide
  have hpieces : (load (ascii "name:note\nmilk:x\n")).fields_.length ≤
      (tokens colon (ascii "eggs:six")).length := by decide
  refine (record_reads_in_range _ _).2.2 ⟨rfl, by unfold DBTextFile.All; decide⟩
    fun e he record hseg => ?_
  have hrecord := (hrecords e he (by simp [hseg])).symm.trans hseg
  obtain rfl : ascii "eggs:six" = record := by simpa using hrecord
  exact hpieces

/-- A file with a short record and one lookup of its missing value -/
theorem short_record_read_past_end :
    let srv := Server.ofFile (ascii "name:type\nb\n")
    ¬ Guarded (Server.receive textLibrary) IndexesInRange srv [(0, ascii "/get/b/type")] ∧
    (srv.store.db.getValueUses (.get (ascii "b") (ascii "type"))).map
      (fun u => (u.1.values, u.2)) = [([ascii "b"], 0), ([ascii "b"], 1)] ∧
    srv.receive textLibrary (0, ascii "/get/b/type") = .error .pastEnd := by
  intro srv
  have hplan : plan (segments (ascii "/get/b/type")) =
      .ok (some (.get (ascii "b") (ascii "type"))) := by decide
  have hpast : srv.store.db.readsPastEnd (ascii "b") (ascii "type") = true := by decide
  have hp : parseRequest textLibrary (ascii "/get/b/type") (srv.sessions 0) srv.store =
      .error .pastEnd := by decide
  refine ⟨fun hg => ?_, by decide, ?_⟩
  · exact (indexesInRange_iff _ _).mp hg.1 ⟨_, _, hplan, hpast⟩
  · rw [Server.receive, hp]
    rfl

end ReminderSuite
