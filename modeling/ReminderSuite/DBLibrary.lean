import ReminderSuite.TextFile
import ReminderSuite.FallibleRun

/-! The provider interface that the server is written against, and the text
backend as an instance of it. -/
namespace ReminderSuite

/-- The virtual functions of `DBLibrary` over a state of the backend's own. Any
of them may change that state or fail to return. -/
structure DBLibrary (σ : Type) where
  fields : σ → Except Fault (Bytes × σ)
  getAll : σ → Except Fault (List Bytes × σ)
  get : Bytes → Bytes → σ → Except Fault (Bytes × σ)
  set : Bytes → Bytes → σ → Except Fault (Bool × σ)
  setField : Bytes → Bytes → Bytes → σ → Except Fault (Bool × σ)
  erase : Bytes → σ → Except Fault (Bool × σ)
  read : σ → Except Fault (Bool × σ)
  save : σ → Except Fault (Bool × σ)

structure TextStore where
  db : DBTextFile
  file : DiskFile
deriving DecidableEq

def textLibrary : DBLibrary TextStore where
  fields s := .ok (s.db.fields, s)
  getAll s := .ok (s.db.getAll, s)
  get name field s := (s.db.get name field).map fun reply => (reply, s)
  set name csvValues s :=
    let (done, db) := s.db.set name csvValues
    .ok (done, { s with db := db })
  setField name field value s :=
    let (done, db) := s.db.setField name field value
    .ok (done, { s with db := db })
  erase name s :=
    let (done, db) := s.db.erase name
    .ok (done, { s with db := db })
  read s :=
    let (done, db) := s.db.read s.file
    .ok (done, { s with db := db })
  save s :=
    let (done, file) := s.db.save s.file
    .ok (done, { s with file := file })

inductive Call where
  | fields
  | getAll
  | get (name field : Bytes)
  | set (name csvValues : Bytes)
  | setField (name field value : Bytes)
  | erase (name : Bytes)
  | save
deriving DecidableEq

inductive Result where
  | text (reply : Bytes)
  | lines (reply : List Bytes)
  | flag (done : Bool)
deriving DecidableEq

namespace DBLibrary
variable {σ : Type}

def invoke (lib : DBLibrary σ) : Call → σ → Except Fault (Result × σ)
  | .fields, s => (lib.fields s).map fun (reply, s') => (.text reply, s')
  | .getAll, s => (lib.getAll s).map fun (reply, s') => (.lines reply, s')
  | .get name field, s => (lib.get name field s).map fun (reply, s') => (.text reply, s')
  | .set name csv, s => (lib.set name csv s).map fun (done, s') => (.flag done, s')
  | .setField name field value, s =>
    (lib.setField name field value s).map fun (done, s') => (.flag done, s')
  | .erase name, s => (lib.erase name s).map fun (done, s') => (.flag done, s')
  | .save, s => (lib.save s).map fun (done, s') => (.flag done, s')

/-- A call, what it returns and the state it leaves; one that faults leaves the state as it was. -/
def call (lib : DBLibrary σ) (s : σ) (c : Call) : Except Fault Result × σ :=
  match lib.invoke c s with
  | .ok (result, s') => (.ok result, s')
  | .error fault => (.error fault, s)

def logged (lib : DBLibrary σ) : DBLibrary (σ × List Call) where
  fields s := (lib.fields s.1).map fun (reply, t) => (reply, t, s.2 ++ [.fields])
  getAll s := (lib.getAll s.1).map fun (reply, t) => (reply, t, s.2 ++ [.getAll])
  get name field s :=
    (lib.get name field s.1).map fun (reply, t) => (reply, t, s.2 ++ [.get name field])
  set name csv s := (lib.set name csv s.1).map fun (done, t) => (done, t, s.2 ++ [.set name csv])
  setField name field value s :=
    (lib.setField name field value s.1).map fun (done, t) =>
      (done, t, s.2 ++ [.setField name field value])
  erase name s := (lib.erase name s.1).map fun (done, t) => (done, t, s.2 ++ [.erase name])
  read s := (lib.read s.1).map fun (done, t) => (done, t, s.2)
  save s := (lib.save s.1).map fun (done, t) => (done, t, s.2 ++ [.save])

theorem invoke_logged (lib : DBLibrary σ) (c : Call) (s : σ) (log : List Call) :
    lib.logged.invoke c (s, log) =
      (lib.invoke c s).map fun (result, t) => (result, t, log ++ [c]) := by
  cases c with
  | fields => cases h : lib.fields s <;> simp [invoke, logged, h]
  | getAll => cases h : lib.getAll s <;> simp [invoke, logged, h]
  | get name field => cases h : lib.get name field s <;> simp [invoke, logged, h]
  | set name csv => cases h : lib.set name csv s <;> simp [invoke, logged, h]
  | setField name field value =>
    cases h : lib.setField name field value s <;> simp [invoke, logged, h]
  | erase name => cases h : lib.erase name s <;> simp [invoke, logged, h]
  | save => cases h : lib.save s <;> simp [invoke, logged, h]

end DBLibrary

theorem invoke_text (c : Call) (s : TextStore) :
    textLibrary.invoke c s = match c with
      | .fields => .ok (.text s.db.fields, s)
      | .getAll => .ok (.lines s.db.getAll, s)
      | .get name field => (s.db.get name field).map fun reply => (.text reply, s)
      | .set name csv => .ok (.flag (s.db.set name csv).1, { s with db := (s.db.set name csv).2 })
      | .setField name field value =>
        .ok (.flag (s.db.setField name field value).1,
          { s with db := (s.db.setField name field value).2 })
      | .erase name => .ok (.flag (s.db.erase name).1, { s with db := (s.db.erase name).2 })
      | .save => .ok (.flag (s.db.save s.file).1, { s with file := (s.db.save s.file).2 }) := by
  cases c with
  | get name field =>
    cases h : s.db.get name field <;> simp [DBLibrary.invoke, textLibrary, h]
  | _ => rfl

theorem result_of_invoke {c : Call} {s s' t : TextStore} {result value : Result}
    (hc : textLibrary.invoke c s = .ok (value, t))
    (h : textLibrary.invoke c s = .ok (result, s')) : value = result :=
  (Prod.mk.inj (Except.ok.inj (hc.symm.trans h))).1

theorem invoke_get_ok {name field : Bytes} {s s' : TextStore} {result : Result}
    (h : textLibrary.invoke (.get name field) s = .ok (result, s')) :
    ∃ reply, s.db.get name field = .ok reply ∧ result = .text reply ∧ s' = s := by
  rw [invoke_text] at h
  obtain ⟨reply, hget, hr⟩ := FallibleRun.map_eq_ok_iff.mp h
  obtain ⟨hresult, hs⟩ := Prod.mk.inj hr
  exact ⟨reply, hget, hresult.symm, hs.symm⟩

end ReminderSuite
