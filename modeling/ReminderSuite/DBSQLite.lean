import ReminderSuite.DBLibrary

/-! The SQLite backend over the calls it makes of the SQLite library. -/
namespace ReminderSuite
open Delimited FallibleRun

inductive StepCode where
  | ok
  | done
  | busy
  | error
  | misuse
  | other
deriving DecidableEq

/-- The SQLite library on databases of some type. `exec` gives the rows that the callback
sees before the text ends or fails, which is all the source uses of it but for its log;
`prepare` and `step` concern the first statement of a text. -/
structure SQLite (τ : Type) where
  exec : Bytes → τ → List (List Bytes) × τ
  prepare : Bytes → τ → Bool
  step : Bytes → τ → StepCode × τ

def eraseLastTwo (s : Bytes) : Bytes := s.take (s.length - 2)

structure DBSQLite (τ : Type) where
  /-- what `getFields` has returned -/
  fieldsReady_ : Bool
  fields_ : List Bytes
  worker_ : τ
deriving DecidableEq

namespace DBSQLite

def getAllSQL : Bytes := ascii "select * from reminders"

def getSQL (name field : Bytes) : Bytes :=
  ascii "select " ++ (if field.isEmpty then ascii "*" else field) ++
    ascii " from reminders where name='" ++ name ++ ascii "';"

/-- The text of `alreadyExists`, with a quote after its final `;` -/
def countSQL (name : Bytes) : Bytes :=
  ascii "select count(name) from reminders where name='" ++ name ++ ascii "';'"

def addAssignment (fieldValues : List Bytes) (acc : Bytes × Nat) (field : Bytes) :
    Except Fault (Bytes × Nat) :=
  match fieldValues[acc.2]? with
  | some value => .ok (acc.1 ++ field ++ ascii " = '" ++ value ++ ascii "', ", acc.2 + 1)
  | none => .error .pastEnd

def updateSQL (fields fieldValues : List Bytes) (name : Bytes) : Except Fault Bytes := do
  let acc ← fields.foldlM (addAssignment fieldValues) (ascii "update reminders set ", 0)
  return eraseLastTwo acc.1 ++ ascii " where name='" ++ name ++ ascii "';"

def addValue (resStmt value : Bytes) : Bytes := resStmt ++ ascii "'" ++ value ++ ascii "', "

def insertSQL (fieldValues : List Bytes) : Bytes :=
  eraseLastTwo (fieldValues.foldl addValue (ascii "insert into reminders values (")) ++ ascii ");"

def countsMatch (fields fieldValues : List Bytes) : Bool :=
  fields.isEmpty || fields.length == fieldValues.length

def setSQL (fields fieldValues : List Bytes) (name : Bytes) (existing : Bool) :
    Except Fault Bytes :=
  if existing then updateSQL fields fieldValues name else .ok (insertSQL fieldValues)

variable {τ : Type} (lib : SQLite τ)

def fields (db : DBSQLite τ) : Bytes :=
  if db.fieldsReady_ then terminated colon db.fields_ else []

def getAll (db : DBSQLite τ) : List Bytes × DBSQLite τ :=
  let (rows, worker) := lib.exec getAllSQL db.worker_
  (rows.map (terminated colon), { db with worker_ := worker })

def get (db : DBSQLite τ) (name field : Bytes) : Bytes × DBSQLite τ :=
  let (rows, worker) := lib.exec (getSQL name field) db.worker_
  (rows.flatMap (terminated colon), { db with worker_ := worker })

/-- The callback appends the first column of each row, of which a result has at least one. -/
def alreadyExists (db : DBSQLite τ) (name : Bytes) : Bool × DBSQLite τ :=
  let (rows, worker) := lib.exec (countSQL name) db.worker_
  (rows.flatMap (·.headD []) != ascii "0", { db with worker_ := worker })

def set (db : DBSQLite τ) (name csvValues : Bytes) : Except Fault (Bool × DBSQLite τ) := do
  let fieldValues := tokens colon csvValues
  if !countsMatch db.fields_ fieldValues then return (false, db)
  let (existing, db) := db.alreadyExists lib name
  let setSQL ← setSQL db.fields_ fieldValues name existing
  if !lib.prepare setSQL db.worker_ then return (false, db)
  let (code, worker) := lib.step setSQL db.worker_
  return (code == .ok || code == .done, { db with worker_ := worker })

theorem set_of_prepare {lib : SQLite τ} {db : DBSQLite τ} {name csvValues sql : Bytes}
    (hcounts : countsMatch db.fields_ (tokens colon csvValues) = true)
    (hsql : setSQL db.fields_ (tokens colon csvValues) name (db.alreadyExists lib name).1 = .ok sql)
    (hprepare : lib.prepare sql (db.alreadyExists lib name).2.worker_ = true)
    (hcode : (lib.step sql (db.alreadyExists lib name).2.worker_).1 = .done) :
    db.set lib name csvValues =
      .ok (true, { db with worker_ :=
        (lib.step sql (db.alreadyExists lib name).2.worker_).2 }) := by
  have hfields : (db.alreadyExists lib name).2.fields_ = db.fields_ := rfl
  have hready : (db.alreadyExists lib name).2.fieldsReady_ = db.fieldsReady_ := rfl
  simp [set, hcounts, hfields, hready, hsql, hprepare, hcode]

end DBSQLite
end ReminderSuite
