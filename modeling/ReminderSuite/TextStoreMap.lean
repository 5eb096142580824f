import ReminderSuite.Server
import ReminderSuite.OrderedMap

/-! What the text store is for: a map from names to their values, in the order in
which the names came in. -/
namespace ReminderSuite
open Delimited FirstMatch FallibleRun

abbrev Records := OrderedMap Bytes (List Bytes)

namespace Records

/-- The reference meaning of a call. A lookup whose name and field exist but whose
record is too short has no specified result. -/
def call (fields : List Bytes) (m : Records) : Call → Option Result × Records
  | .fields => (some (.text (terminated colon fields)), m)
  | .getAll => (some (.lines (m.toList.map fun b => terminated colon b.2)), m)
  | .get name field =>
    (match m.val name, fields.idxOf? field with
      | none, _ => some (.text [])
      | some values, idx =>
        if field = [] then some (.text (terminated colon values))
        else match idx with
          | none => some (.text [])
          | some idx => values[idx]?.map Result.text, m)
  | .set _ record => (some (.flag true), m.insert (recordName record) (tokens colon record))
  | .setField name field value =>
    match m.val name, fields.idxOf? field with
    | some values, some idx =>
      if idx < values.length then (some (.flag true), m.insert name (values.set idx value))
      else (some (.flag false), m)
    | _, _ => (some (.flag false), m)
  | .erase name =>
    match m.val name with
    | some _ => (some (.flag true), m.erase name)
    | none => (some (.flag false), m)
  | .save => (some (.flag false), m)

end Records

def callText (s : TextStore) (c : Call) : Except Fault Result × TextStore := textLibrary.call s c

theorem callText_eq (s : TextStore) (c : Call) :
    callText s c = ((textLibrary.invoke c s).map Prod.fst, c.effect s) := by
  unfold callText Call.effect DBLibrary.call
  cases textLibrary.invoke c s <;> rfl

/-- The calls whose meaning as a map operation is promised: the key of a record is
its own, and the field that holds the keys is not written through. -/
def Call.KeepsKeys (fields : List Bytes) : Call → Prop
  | .set name record => name = recordName record
  | .setField _ field _ => fields.head? ≠ some field
  | _ => True

def Entry.binding (e : Entry) : Bytes × List Bytes := (e.name, e.values)

structure Refines (fields : List Bytes) (s : TextStore) (m : Records) : Prop where
  fields_eq : s.db.fields_ = fields
  bindings : m.toList = s.db.entries_.map Entry.binding

namespace Refines
variable {fields : List Bytes} {s : TextStore} {m : Records} {name : Bytes}

theorem val_of_none (h : Refines fields s m) (hn : s.db.findName name = none) :
    m.val name = none := by
  rw [OrderedMap.val_eq_none_iff]
  intro v hv
  rw [h.bindings] at hv
  obtain ⟨e, he, hb⟩ := List.mem_map.mp hv
  exact DBTextFile.findName_eq_none_iff.mp hn e he (Prod.mk.inj hb).1

theorem split (h : Refines fields s m) {it : Cursor Entry} (hit : s.db.Found name it) :
    m.toList = it.before.map Entry.binding ++
      (name, it.here.values) :: it.after.map Entry.binding := by
  rw [h.bindings, ← hit.list_eq, ← hit.name_eq]
  simp [Cursor.list, Entry.binding]

theorem val_of_found (h : Refines fields s m) {it : Cursor Entry} (hit : s.db.Found name it) :
    m.val name = some it.here.values :=
  OrderedMap.val_of_split (h.split hit)

theorem findField_eq (h : Refines fields s m) (field : Bytes) :
    s.db.findField field = fields.idxOf? field := by
  rw [DBTextFile.findField_eq_findIdx?, h.fields_eq]
  rfl

theorem names_nodup (h : Refines fields s m) : (s.db.entries_.map Entry.name).Nodup := by
  have hm := m.nodup
  rw [← OrderedMap.map_fst_toList, h.bindings, List.map_map] at hm
  exact hm

theorem ofList (s : TextStore) (h : (s.db.entries_.map Entry.name).Nodup) :
    Refines s.db.fields_ s (OrderedMap.ofList (s.db.entries_.map Entry.binding)
      (by rwa [List.map_map])) :=
  ⟨rfl, OrderedMap.toList_ofList _ _⟩

theorem write (h : Refines fields s m) {it : Cursor Entry} (hit : s.db.Found name it) {e : Entry}
    (he : e.name = name) :
    Refines fields { s with db := { s.db with entries_ := it.write e } }
      (m.insert name e.values) where
  fields_eq := h.fields_eq
  bindings := by
    rw [OrderedMap.toList_insert_split (h.split hit)]
    simp [Cursor.write, Entry.binding, he]

theorem get (h : Refines fields s m) (name field : Bytes) :
    ((s.db.get name field).map Result.text).toOption = (m.call fields (.get name field)).1 := by
  unfold DBTextFile.get Records.call
  cases hn : s.db.findName name with
  | none => simp [h.val_of_none hn, Except.toOption]
  | some it =>
    have hval := h.val_of_found (DBTextFile.found_of_findName hn)
    simp only [hval, h.findField_eq]
    cases field with
    | nil => simp [Entry.asString, Except.toOption]
    | cons b bs =>
      cases fields.idxOf? (b :: bs) with
      | none => simp [Except.toOption]
      | some idx => cases hv : it.here.values[idx]? <;> simp [Entry.getValue, hv, Except.toOption]

theorem set (h : Refines fields s m) (record : Bytes) :
    Refines fields { s with db := (s.db.set (recordName record) record).2 }
      (m.insert (recordName record) (tokens colon record)) := by
  cases DBTextFile.set_cases s.db (recordName record) record with
  | inl habsent =>
    obtain ⟨hn, hs⟩ := habsent
    rw [hs]
    refine ⟨h.fields_eq, ?_⟩
    have hnew : (Entry.ofLine record).binding = (recordName record, tokens colon record) :=
      Prod.ext (Entry.name_ofLine record) rfl
    rw [OrderedMap.toList_insert_new (h.val_of_none hn), h.bindings, List.map_append,
      List.map_singleton, hnew]
  | inr hfound =>
    obtain ⟨it, hit, hs⟩ := hfound
    rw [hs]
    exact h.write hit (Entry.name_ofLine record)

theorem setField (h : Refines fields s m) {name field : Bytes} (hf : fields.head? ≠ some field)
    (value : Bytes) :
    (some (.flag (s.db.setField name field value).1) : Option Result) =
        (m.call fields (.setField name field value)).1 ∧
      Refines fields { s with db := (s.db.setField name field value).2 }
        (m.call fields (.setField name field value)).2 := by
  have hfield := h.findField_eq field
  cases hn : s.db.findName name with
  | none => simpa [DBTextFile.setField, Records.call, hn, h.val_of_none hn] using h
  | some it =>
    have hit := DBTextFile.found_of_findName hn
    have hval := h.val_of_found hit
    cases hi : fields.idxOf? field with
    | none => simpa [DBTextFile.setField, Records.call, hn, hval, hfield, hi] using h
    | some idx =>
      have hsame : it.write it.here = s.db.entries_ := hit.list_eq
      by_cases hlt : idx < it.here.values.length
      · have hpos : idx ≠ 0 := by
          intro heq
          subst heq
          obtain ⟨_, hx, -⟩ := List.findIdx?_eq_some_iff_getElem.mp hi
          simp_all [List.head?_eq_getElem?]
        have hname : (it.here.put idx value).name = name :=
          (Entry.name_put_pos _ hpos value).trans hit.name_eq
        simpa [DBTextFile.setField, Records.call, hn, hval, hfield, hi, hlt,
          Entry.setValue_of_lt hlt, Entry.put] using h.write hit hname
      · simpa [DBTextFile.setField, Records.call, hn, hval, hfield, hi, hlt, hsame,
          Entry.setValue_of_le (Nat.le_of_not_lt hlt)] using h

theorem erase (h : Refines fields s m) (name : Bytes) :
    (some (.flag (s.db.erase name).1) : Option Result) = (m.call fields (.erase name)).1 ∧
      Refines fields { s with db := (s.db.erase name).2 } (m.call fields (.erase name)).2 := by
  cases DBTextFile.erase_cases s.db name with
  | inl habsent =>
    obtain ⟨hn, hs⟩ := habsent
    rw [hs]
    simpa [Records.call, h.val_of_none hn] using h
  | inr hfound =>
    obtain ⟨it, hit, hs⟩ := hfound
    rw [hs]
    simp only [Records.call, h.val_of_found hit, true_and]
    refine ⟨h.fields_eq, ?_⟩
    rw [OrderedMap.toList_erase_split (h.split hit)]
    simp [Cursor.erase]

/-- One call on the store and on the map -/
theorem step (h : Refines fields s m) {c : Call} (hc : c.KeepsKeys fields) :
    (callText s c).1.toOption = (m.call fields c).1 ∧
      Refines fields (callText s c).2 (m.call fields c).2 := by
  rw [callText_eq, effect_eq, invoke_text]
  cases c with
  | fields => exact ⟨by simp [DBTextFile.fields, Records.call, h.fields_eq, Except.toOption], h⟩
  | getAll =>
    have hl : s.db.getAll = m.toList.map fun b => terminated colon b.2 := by
      rw [h.bindings, List.map_map]
      rfl
    exact ⟨by simp [Records.call, hl, Except.toOption], h⟩
  | get name field =>
    refine ⟨?_, h⟩
    rw [← h.get name field]
    cases hg : s.db.get name field <;> simp [hg]
  | set name record =>
    obtain rfl : name = recordName record := hc
    exact ⟨by simp [Records.call, Except.toOption], h.set record⟩
  | setField name field value =>
    obtain ⟨hdone, hnext⟩ := h.setField hc value
    exact ⟨by rw [← hdone]; rfl, hnext⟩
  | erase name =>
    obtain ⟨hdone, hnext⟩ := h.erase name
    exact ⟨by rw [← hdone]; rfl, hnext⟩
  | save =>
    exact ⟨by simp [Records.call, Except.toOption],
      h.fields_eq, h.bindings⟩

end Refines

theorem keepsKeys_of_plan {fields : List Bytes} {chunk : Bytes} {c : Call}
    (hplan : plan (segments chunk) = .ok (some c))
    (hfirst : ∀ name field value, c = .setField name field value → fields.head? ≠ some field) :
    c.KeepsKeys fields := by
  cases c with
  | set name record => exact (spelledBy_of_plan hplan).2
  | setField name field value => exact hfirst name field value rfl
  | _ => trivial

/-- The text store refines the map. Along every sequence of calls that requests can
make, none of them writing through the first field, the results are those of the
map wherever it specifies one, and the store then holds the bindings of the map in
its order under pairwise distinct names. -/
theorem text_store_refines_map (s : TextStore) (hnodup : (s.db.entries_.map Entry.name).Nodup)
    (calls : List Call)
    (hcalls : ∀ c ∈ calls, (∃ chunk, plan (segments chunk) = .ok (some c)) ∧
      ∀ name field value, c = .setField name field value →
        s.db.fields_.head? ≠ some field) :
    ∃ m : Records, m.toList = s.db.entries_.map Entry.binding ∧
      (trace callText s calls).1.map Except.toOption =
        (trace (Records.call s.db.fields_) m calls).1 ∧
      (trace callText s calls).2.db.entries_.map Entry.binding =
        (trace (Records.call s.db.fields_) m calls).2.toList ∧
      (trace callText s calls).2.db.fields_ = s.db.fields_ ∧
      ((trace callText s calls).2.db.entries_.map Entry.name).Nodup := by
  have hstart := Refines.ofList s hnodup
  have hstep : ∀ c ∈ calls, ∀ t m, Refines s.db.fields_ t m →
      (callText t c).1.toOption = (m.call s.db.fields_ c).1 ∧
        Refines s.db.fields_ (callText t c).2 (m.call s.db.fields_ c).2 := by
    intro c hc t m ht
    obtain ⟨⟨chunk, hplan⟩, hfirst⟩ := hcalls c hc
    exact ht.step (keepsKeys_of_plan hplan hfirst)
  obtain ⟨hout, hend⟩ := trace_related hstep hstart
  exact ⟨_, hstart.bindings, hout, hend.bindings.symm, hend.fields_eq, hend.names_nodup⟩

/-- A new record, an update of a cell, a lookup and a removal -/
theorem text_store_refines_map_sample :
    let s := (Server.ofFile (ascii "name:note\nmilk:x\n")).store
    let calls := [Call.set (ascii "eggs") (ascii "eggs:six"),
      Call.setField (ascii "milk") (ascii "note") (ascii "two"),
      Call.get (ascii "milk") (ascii "note"), Call.erase (ascii "milk")]
    (trace callText s calls).1 = [.ok (.flag true), .ok (.flag true), .ok (.text (ascii "two")),
      .ok (.flag true)] ∧
    ∃ m : Records, m.toList = s.db.entries_.map Entry.binding ∧
      (trace callText s calls).2.db.entries_.map Entry.binding =
        (trace (Records.call s.db.fields_) m calls).2.toList := by
  intro s calls
  have hfirst : ∀ name field value,
      Call.setField (ascii "milk") (ascii "note") (ascii "two") = .setField name field value →
        s.db.fields_.head? ≠ some field := by
    rintro _ _ _ ⟨⟩
    decide
  have hcalls : ∀ c ∈ calls, (∃ chunk, plan (segments chunk) = .ok (some c)) ∧
      ∀ name field value, c = .setField name field value → s.db.fields_.head? ≠ some field := by
    simp only [calls, List.forall_mem_cons, List.not_mem_nil, false_implies, implies_true, and_true]
    refine ⟨⟨⟨ascii "/set/eggs:six", by decide⟩, nofun⟩,
      ⟨⟨ascii "/set/milk/note/two", by decide⟩, hfirst⟩,
      ⟨⟨ascii "/get/milk/note", by decide⟩, nofun⟩,
      ⟨⟨ascii "/delete/milk", by decide⟩, nofun⟩⟩
  obtain ⟨m, hm, -, hend, -, -⟩ :=
    text_store_refines_map s (by decide) calls hcalls
  exact ⟨by decide, m, hm, hend⟩

end ReminderSuite
