import ReminderSuite.DBLibrary

/-! What each operation of the text backend can do to the records it holds. -/
namespace ReminderSuite
open FirstMatch

namespace DBTextFile
variable {db : DBTextFile} {name field value record : Bytes}

/-- The position a search for a name stops at. -/
structure Found (db : DBTextFile) (name : Bytes) (it : Cursor Entry) : Prop where
  list_eq : it.list = db.entries_
  name_eq : it.here.name = name
  before_ne : ∀ e ∈ it.before, e.name ≠ name

theorem found_of_findName {it : Cursor Entry} (h : db.findName name = some it) :
    Found db name it := by
  obtain ⟨hl, hn, hb⟩ := findIf_eq_some_iff.mp h
  exact ⟨hl, Entry.named_iff.mp hn, fun e he => Entry.named_eq_false_iff.mp (hb e he)⟩

theorem findName_eq_none_iff : db.findName name = none ↔ ∀ e ∈ db.entries_, e.name ≠ name := by
  simp [findName, findIf_eq_none_iff, Entry.named_eq_false_iff]

theorem findName_of_found {it : Cursor Entry} (h : Found db name it) :
    db.findName name = some it :=
  findIf_eq_some_iff.mpr ⟨h.list_eq, Entry.named_iff.mpr h.name_eq,
    fun e he => Entry.named_eq_false_iff.mpr (h.before_ne e he)⟩

theorem Found.mem {it : Cursor Entry} (h : Found db name it) : it.here ∈ db.entries_ :=
  h.list_eq ▸ it.here_mem

theorem findField_eq_findIdx? (db : DBTextFile) (field : Bytes) :
    db.findField field = db.fields_.findIdx? fun f => f == field :=
  map_index_findIf _ _

theorem findField_eq_zero_iff : db.findField field = some 0 ↔ db.fields_.head? = some field := by
  rw [findField_eq_findIdx?]
  cases db.fields_ with
  | nil => simp
  | cons f fs => by_cases hf : f = field <;> simp [List.findIdx?_cons, hf]

theorem name_put {P : Bytes → Prop} {e : Entry} {idx : Nat} (hidx : db.findField field = some idx)
    (he : P e.name) (hv : db.fields_.head? = some field → P value) : P (e.put idx value).name := by
  by_cases h0 : idx = 0
  · subst h0
    rw [Entry.name_put_zero]
    exact hv (findField_eq_zero_iff.mp hidx)
  · rwa [Entry.name_put_pos _ h0]

def cell? (db : DBTextFile) (name field : Bytes) : Option Bytes :=
  match db.findName name, db.findField field with
  | some it, some idx => it.here.values[idx]?
  | _, _ => none

def readsPastEnd (db : DBTextFile) (name field : Bytes) : Bool :=
  match db.findName name, db.findField field with
  | some it, some idx => !field.isEmpty && decide (it.here.values.length ≤ idx)
  | _, _ => false

theorem set_cases (db : DBTextFile) (name record : Bytes) :
    (db.findName name = none ∧
      db.set name record = (true, { db with entries_ := db.entries_ ++ [Entry.ofLine record] })) ∨
    ∃ it, Found db name it ∧
      db.set name record = (true, { db with entries_ := it.write (Entry.ofLine record) }) := by
  cases h : db.findName name with
  | none => exact Or.inl ⟨rfl, by simp [set, h]⟩
  | some it => exact Or.inr ⟨it, found_of_findName h, by simp [set, h, Entry.setEntry]⟩

@[simp] theorem set_fst (db : DBTextFile) (name record : Bytes) :
    (db.set name record).1 = true := by
  cases set_cases db name record with
  | inl habsent => rw [habsent.2]
  | inr hfound =>
    obtain ⟨it, -, hs⟩ := hfound
    rw [hs]

@[simp] theorem save_fst (db : DBTextFile) (file : DiskFile) : (db.save file).1 = false := by
  unfold save
  split_ifs <;> rfl

theorem setField_cases (db : DBTextFile) (name field value : Bytes) :
    (db.cell? name field = none ∧ db.setField name field value = (false, db)) ∨
    ∃ it idx, Found db name it ∧ db.findField field = some idx ∧ idx < it.here.values.length ∧
      db.cell? name field = it.here.values[idx]? ∧
      db.setField name field value =
        (true, { db with entries_ := it.write (it.here.put idx value) }) := by
  cases hn : db.findName name with
  | none => exact Or.inl ⟨by simp [cell?, hn], by simp [setField, hn]⟩
  | some it =>
    have hit := found_of_findName hn
    cases hf : db.findField field with
    | none => exact Or.inl ⟨by simp [cell?, hn, hf], by simp [setField, hn, hf]⟩
    | some idx =>
      by_cases hlt : idx < it.here.values.length
      · refine Or.inr ⟨it, idx, hit, rfl, hlt, by simp [cell?, hn, hf], ?_⟩
        simp [setField, hn, hf, Entry.setValue_of_lt hlt]
      · have hle : it.here.values.length ≤ idx := Nat.le_of_not_lt hlt
        have hsame : it.write it.here = db.entries_ := hit.list_eq
        refine Or.inl ⟨by simp [cell?, hn, hf, hle], ?_⟩
        simp [setField, hn, hf, Entry.setValue_of_le hle, hsame]

theorem erase_cases (db : DBTextFile) (name : Bytes) :
    (db.findName name = none ∧ db.erase name = (false, db)) ∨
    ∃ it, Found db name it ∧ db.erase name = (true, { db with entries_ := it.erase }) := by
  cases h : db.findName name with
  | none => exact Or.inl ⟨rfl, by simp [erase, h]⟩
  | some it => exact Or.inr ⟨it, found_of_findName h, by simp [erase, h]⟩

/-- A lookup leaves the defined behaviour exactly past the end of a record. -/
theorem get_error_iff (db : DBTextFile) (name field : Bytes) :
    (∃ fault, db.get name field = .error fault) ↔ db.readsPastEnd name field = true := by
  unfold get readsPastEnd
  cases db.findName name with
  | none => simp
  | some it =>
    cases hf : field.isEmpty with
    | true => cases db.findField field <;> simp
    | false =>
      cases db.findField field with
      | none => simp
      | some idx =>
        by_cases hlt : idx < it.here.values.length
        · simp [Entry.getValue_of_lt hlt, hlt]
        · simp [Entry.getValue_of_le (Nat.le_of_not_lt hlt), Nat.le_of_not_lt hlt]

theorem get_ok {reply : Bytes} (h : db.get name field = .ok reply) :
    (reply = [] ∧ (db.findName name = none ∨ field ≠ [] ∧ db.findField field = none)) ∨
    ∃ it, Found db name it ∧ (field = [] ∧ reply = it.here.asString ∨
      field ≠ [] ∧ db.cell? name field = some reply ∧ reply ∈ it.here.values) := by
  unfold get at h
  cases hn : db.findName name with
  | none => exact Or.inl ⟨by simpa [hn, eq_comm] using h, Or.inl rfl⟩
  | some it =>
    have hit := found_of_findName hn
    simp only [hn, List.isEmpty_iff] at h
    by_cases hfield : field = []
    · rw [if_pos hfield] at h
      exact Or.inr ⟨it, hit, Or.inl ⟨hfield, (Except.ok.inj h).symm⟩⟩
    · rw [if_neg hfield] at h
      cases hf : db.findField field with
      | none => exact Or.inl ⟨by simpa [hf, eq_comm] using h, Or.inr ⟨hfield, rfl⟩⟩
      | some idx =>
        have hv : it.here.values[idx]? = some reply := by
          simp only [hf, Entry.getValue] at h
          split at h <;> simp_all
        refine Or.inr ⟨it, hit, Or.inr ⟨hfield, ?_, List.mem_of_getElem? hv⟩⟩
        simp [cell?, hn, hf, hv]

theorem get_error_eq {fault : Fault} (h : db.get name field = .error fault) :
    fault = .pastEnd := by
  unfold get Entry.getValue at h
  repeat' split at h
  all_goals simp_all

@[simp] theorem set_fields (db : DBTextFile) (name record : Bytes) :
    (db.set name record).2.fields_ = db.fields_ := by
  rcases set_cases db name record with ⟨-, h⟩ | ⟨it, -, h⟩ <;> rw [h]

@[simp] theorem setField_fields (db : DBTextFile) (name field value : Bytes) :
    (db.setField name field value).2.fields_ = db.fields_ := by
  rcases setField_cases db name field value with ⟨-, h⟩ | ⟨it, idx, -, -, -, -, h⟩ <;> rw [h]

@[simp] theorem erase_fields (db : DBTextFile) (name : Bytes) :
    (db.erase name).2.fields_ = db.fields_ := by
  rcases erase_cases db name with ⟨-, h⟩ | ⟨it, -, h⟩ <;> rw [h]

def All (P : Entry → Prop) (db : DBTextFile) : Prop := ∀ e ∈ db.entries_, P e

variable {P : Entry → Prop}

theorem All.set (h : db.All P) (name : Bytes) (hr : P (Entry.ofLine record)) :
    (db.set name record).2.All P := by
  intro e he
  cases set_cases db name record with
  | inl habsent =>
    obtain ⟨-, hs⟩ := habsent
    rw [hs, List.mem_append, List.mem_singleton] at he
    cases he with
    | inl he => exact h e he
    | inr heq =>
      subst heq
      exact hr
  | inr hfound =>
    obtain ⟨it, hit, hs⟩ := hfound
    rw [hs] at he
    cases Cursor.mem_write he with
    | inl heq =>
      subst heq
      exact hr
    | inr he => exact h e (hit.list_eq ▸ he)

theorem All.setField (h : db.All P)
    (hv : (db.cell? name field).isSome → ∀ e idx, P e → P (e.put idx value)) :
    (db.setField name field value).2.All P := by
  cases setField_cases db name field value with
  | inl habsent => rwa [habsent.2]
  | inr hfound =>
    obtain ⟨it, idx, hit, -, hlt, hc, hs⟩ := hfound
    rw [hs]
    intro e he
    cases Cursor.mem_write he with
    | inl heq =>
      subst heq
      exact hv (by simp [hc, hlt]) _ _ (h _ hit.mem)
    | inr he => exact h e (hit.list_eq ▸ he)

theorem All.erase (h : db.All P) (name : Bytes) : (db.erase name).2.All P := by
  cases erase_cases db name with
  | inl habsent => rwa [habsent.2]
  | inr hfound =>
    obtain ⟨it, hit, hs⟩ := hfound
    rw [hs]
    intro e he
    exact h e (hit.list_eq ▸ Cursor.mem_erase he)

end DBTextFile

theorem Entry.forall_put {Q : Bytes → Prop} {e : Entry} {idx : Nat} {value : Bytes}
    (h : ∀ v ∈ e.values, Q v) (hv : Q value) : ∀ v ∈ (e.put idx value).values, Q v := by
  intro v hm
  cases List.mem_or_eq_of_mem_set hm with
  | inl hm => exact h v hm
  | inr heq =>
    subst heq
    exact hv

def Call.effect (c : Call) (s : TextStore) : TextStore := (textLibrary.call s c).2

theorem effect_eq (c : Call) (s : TextStore) :
    c.effect s = match c with
      | .set name record => { s with db := (s.db.set name record).2 }
      | .setField name field value => { s with db := (s.db.setField name field value).2 }
      | .erase name => { s with db := (s.db.erase name).2 }
      | .save => { s with file := (s.db.save s.file).2 }
      | .fields | .getAll | .get _ _ => s := by
  unfold Call.effect DBLibrary.call
  rw [invoke_text]
  cases c with
  | get name field =>
    simp only
    cases s.db.get name field <;> rfl
  | _ => rfl

theorem effect_fields (c : Call) (s : TextStore) : (c.effect s).db.fields_ = s.db.fields_ := by
  cases c <;> simp [effect_eq]

theorem invoke_text_effect {c : Call} {s s' : TextStore} {result : Result}
    (h : textLibrary.invoke c s = .ok (result, s')) : s' = c.effect s := by
  rw [Call.effect, DBLibrary.call, h]

end ReminderSuite
