import ReminderSuite.Basic
import ReminderSuite.Delimited
import ReminderSuite.FirstMatch

/-! The text backend: records of ':'-separated values held in memory, read from
and written to one file. -/
namespace ReminderSuite
open Delimited FirstMatch

/-- A record. Both ways an entry enters the store tokenise a line, which always
yields a value, and no operation removes one. -/
structure Entry where
  values : List Bytes
  values_ne : values ≠ []
deriving DecidableEq

namespace Entry

def ofLine (line : Bytes) : Entry := ⟨tokens colon line, tokens_ne_nil colon line⟩

def asString (e : Entry) : Bytes := terminated colon e.values

def getValue (e : Entry) (idx : Nat) : Except Fault Bytes :=
  match e.values[idx]? with
  | some v => .ok v
  | none => .error .pastEnd

def setEntry (_ : Entry) (entry : Entry) : Bool × Entry := (true, entry)

def setValue (e : Entry) (idx : Nat) (value : Bytes) : Bool × Entry :=
  if idx ≥ e.values.length then (false, e)
  else (true, ⟨e.values.set idx value, by simpa using e.values_ne⟩)

def named (name : Bytes) (e : Entry) : Bool :=
  match e.getValue 0 with
  | .ok v => v == name
  | .error _ => false

def name (e : Entry) : Bytes := e.values.head e.values_ne

theorem ext_values {e d : Entry} (h : e.values = d.values) : e = d := by
  cases e
  cases d
  simpa using h

theorem values_pos (e : Entry) : 0 < e.values.length := List.length_pos_of_ne_nil e.values_ne

@[simp] theorem getValue_zero (e : Entry) : e.getValue 0 = .ok e.name := by
  obtain ⟨_ | ⟨v, vs⟩, h⟩ := e
  · exact absurd rfl h
  · rfl

theorem getValue_of_lt {e : Entry} {idx : Nat} (h : idx < e.values.length) :
    e.getValue idx = .ok e.values[idx] := by
  simp [getValue, h]

theorem getValue_of_le {e : Entry} {idx : Nat} (h : e.values.length ≤ idx) :
    e.getValue idx = .error .pastEnd := by
  simp [getValue, h]

@[simp] theorem named_iff {name : Bytes} {e : Entry} : e.named name = true ↔ e.name = name := by
  simp [named]

theorem named_eq (name : Bytes) : named name = fun e => decide (e.name = name) := by
  funext e
  rw [Bool.eq_iff_iff]
  simp

theorem named_eq_false_iff {name : Bytes} {e : Entry} :
    e.named name = false ↔ e.name ≠ name := by
  simp [named_eq]

theorem head?_values (e : Entry) : e.values.head? = some e.name :=
  List.head?_eq_some_head e.values_ne

theorem name_ofLine (line : Bytes) : (ofLine line).name = line.takeWhile (· ≠ colon) := by
  have h := (head?_values (ofLine line)).symm.trans (head?_tokens colon line)
  exact Option.some.inj h

def put (e : Entry) (idx : Nat) (value : Bytes) : Entry :=
  ⟨e.values.set idx value, by simpa using e.values_ne⟩

theorem setValue_of_lt {e : Entry} {idx : Nat} (h : idx < e.values.length) (value : Bytes) :
    e.setValue idx value = (true, e.put idx value) := by
  simp [setValue, put, Nat.not_le.mpr h]

theorem setValue_of_le {e : Entry} {idx : Nat} (h : e.values.length ≤ idx) (value : Bytes) :
    e.setValue idx value = (false, e) := by
  simp [setValue, h]

theorem name_put_zero (e : Entry) (value : Bytes) : (e.put 0 value).name = value := by
  obtain ⟨_ | ⟨v, vs⟩, h⟩ := e
  · exact absurd rfl h
  · rfl

theorem name_put_pos (e : Entry) {idx : Nat} (h : idx ≠ 0) (value : Bytes) :
    (e.put idx value).name = e.name := by
  obtain ⟨_ | ⟨v, vs⟩, he⟩ := e
  · exact absurd rfl he
  · obtain ⟨i, rfl⟩ := Nat.exists_eq_succ_of_ne_zero h
    rfl

theorem asString_ne_nil (e : Entry) : e.asString ≠ [] :=
  fun h => e.values_ne (terminated_eq_nil_iff.mp h)

end Entry

/-- The file a provider is given: its bytes, and whether each of the two ways
`fileHandler` opens it succeeds. -/
structure DiskFile where
  contents : Bytes
  opens : Bool
  overwrites : Bool
deriving DecidableEq

structure DBTextFile where
  fields_ : List Bytes
  entries_ : List Entry
deriving DecidableEq

namespace DBTextFile

def fresh : DBTextFile := ⟨[], []⟩

def findName (db : DBTextFile) (name : Bytes) : Option (Cursor Entry) :=
  findIf (Entry.named name) db.entries_

def findField (db : DBTextFile) (field : Bytes) : Option Nat :=
  (findIf (fun f => f == field) db.fields_).map Cursor.index

def fields (db : DBTextFile) : Bytes := terminated colon db.fields_

def getAll (db : DBTextFile) : List Bytes := db.entries_.map Entry.asString

def get (db : DBTextFile) (name field : Bytes) : Except Fault Bytes :=
  match db.findName name with
  | none => .ok []
  | some it =>
    if field.isEmpty then .ok it.here.asString
    else match db.findField field with
      | none => .ok []
      | some idx => it.here.getValue idx

def set (db : DBTextFile) (name csvValues : Bytes) : Bool × DBTextFile :=
  match db.findName name with
  | none => (true, { db with entries_ := db.entries_ ++ [Entry.ofLine csvValues] })
  | some it =>
    (true, { db with entries_ := it.write (it.here.setEntry (Entry.ofLine csvValues)).2 })

def setField (db : DBTextFile) (name field value : Bytes) : Bool × DBTextFile :=
  match db.findName name with
  | none => (false, db)
  | some it =>
    match db.findField field with
    | none => (false, db)
    | some idx =>
      let (done, entry) := it.here.setValue idx value
      (done, { db with entries_ := it.write entry })

def erase (db : DBTextFile) (name : Bytes) : Bool × DBTextFile :=
  match db.findName name with
  | none => (false, db)
  | some it => (true, { db with entries_ := it.erase })

/-- The tokens of any text contain a first line, so the iterator that `read`
dereferences is never at the end. -/
def read (db : DBTextFile) (file : DiskFile) : Bool × DBTextFile :=
  if !file.opens then (false, db)
  else
    let dLine := tokens lf file.contents
    let first := dLine.head (tokens_ne_nil lf file.contents)
    (true, ⟨(Entry.ofLine first).values, db.entries_ ++ dLine.tail.map Entry.ofLine⟩)

def serialise (db : DBTextFile) : Bytes :=
  terminated colon db.fields_ ++ [lf] ++ terminated lf (db.entries_.map Entry.asString)

/-- `save` reports `false` on both of its exits. -/
def save (db : DBTextFile) (file : DiskFile) : Bool × DiskFile :=
  if !file.overwrites then (false, file)
  else (false, { file with contents := db.serialise })

end DBTextFile
end ReminderSuite
