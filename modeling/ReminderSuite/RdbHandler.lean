import ReminderSuite.Client

/-! The gateway's handler of Data Provider calls: which request paths it accepts,
the commands it sends for them and the reply that it makes of the responses. -/
namespace ReminderSuite
open Delimited
variable {ν : Type}

def dot : UInt8 := 46

inductive PTree where
  | node (data : Bytes) (children : List (Bytes × PTree))

namespace PTree

def data : PTree → Bytes
  | node data _ => data

def children : PTree → List (Bytes × PTree)
  | node _ children => children

def leaf (data : Bytes) : PTree := node data []

def empty : PTree := leaf []

def pushBack (t : PTree) (child : Bytes × PTree) : PTree := node t.data (t.children ++ [child])

inductive Unmixed : PTree → Prop
  | node {data : Bytes} {children : List (Bytes × PTree)} (hdata : data = [] ∨ children = [])
      (hchildren : ∀ child ∈ children, Unmixed child.2) : Unmixed (node data children)

theorem unmixed_leaf (data : Bytes) : (leaf data).Unmixed := .node (Or.inr rfl) (by simp)

/-- The trees that `write_json` renders; it throws for any other. -/
structure Renderable (t : PTree) : Prop where
  root : t.data = []
  unmixed : t.Unmixed

end PTree

structure PTreeOps where
  put : PTree → Bytes → Bytes → PTree
  addChild : PTree → Bytes → PTree → PTree

/-- The library's behaviour on a plain key that the node does not have yet -/
structure PTreeOps.Appends (ops : PTreeOps) : Prop where
  put : ∀ (t : PTree) (key value : Bytes), key ≠ [] → dot ∉ key →
    (∀ child ∈ t.children, child.1 ≠ key) → ops.put t key value = t.pushBack (key, .leaf value)
  addChild : ∀ (t : PTree) (key : Bytes) (child : PTree), key ≠ [] → dot ∉ key →
    (∀ child ∈ t.children, child.1 ≠ key) → ops.addChild t key child = t.pushBack (key, child)

def plainTree : PTreeOps where
  put t key value := t.pushBack (key, .leaf value)
  addChild t key child := t.pushBack (key, child)

theorem plainTree_appends : plainTree.Appends where
  put _ _ _ _ _ _ := rfl
  addChild _ _ _ _ _ _ := rfl

inductive RdbReply where
  | json (output : PTree)
  | text (reply : Bytes)

/-- `reply_`, given what `write_json` makes of a tree -/
def RdbReply.getResponse (writeJson : PTree → Bytes) : RdbReply → Bytes
  | json output => writeJson output
  | text reply => reply

namespace RdbHandler

/-- `std::set` iterates in order. -/
def commands_ : List Bytes :=
  [ascii "commit", ascii "delete", ascii "fields", ascii "get", ascii "set"]

def isRDBcall (request : Bytes) : Bool := request.take 5 == ascii "/rdb/"

/-- `std::equal` with the end of the second range left out -/
def equal : Bytes → Bytes → Bool
  | [], _ => true
  -- behind the parameter stands its terminating null character, which no command has
  | _ :: _, [] => false
  | c :: cs, p :: ps => c = p && equal cs ps

def isValidCall (request : Bytes) : Except Fault Bool :=
  (substr request 5 none).map fun param => commands_.any fun cmd => equal cmd param

theorem isRDBcall_iff {request : Bytes} : isRDBcall request = true ↔ ascii "/rdb/" <+: request := by
  rw [isRDBcall, beq_iff_eq, List.prefix_iff_eq_take]
  exact eq_comm

theorem equal_iff {cmd param : Bytes} : equal cmd param = true ↔ cmd <+: param := by
  fun_induction equal cmd param with
  | case1 => simp
  | case2 => simp
  | case3 c cs p ps ih => simp [List.cons_prefix_cons, ih]

theorem isValidCall_eq (param : Bytes) :
    isValidCall (ascii "/rdb/" ++ param) = .ok (commands_.any fun cmd => equal cmd param) := by
  have hsub : substr (ascii "/rdb/" ++ param) 5 none = .ok param := by
    simp [substr, ascii]
  rw [isValidCall, hsub]
  rfl

theorem isValidCall_iff {param : Bytes} :
    isValidCall (ascii "/rdb/" ++ param) = .ok true ↔ ∃ cmd ∈ commands_, cmd <+: param := by
  simp [isValidCall_eq, equal_iff]

def rowNode (ops : PTreeOps) : List Bytes → List Bytes → PTree → Except Fault PTree
  | _, [], node => .ok node
  | [], _ :: _, _ => .error .pastEnd
  | field :: fields, value :: values, node => rowNode ops fields values (ops.put node field value)

/-- The children for the rows of a response; empty rows are skipped. -/
def rows (ops : PTreeOps) (fields : List Bytes) : List Bytes → PTree → Except Fault PTree
  | [], nodes => .ok nodes
  | row :: rest, nodes => do
    if row.isEmpty then rows ops fields rest nodes
    else
      let node ← rowNode ops fields (tokens colon row) .empty
      rows ops fields rest (nodes.pushBack ([], node))

def fieldsOutput (ops : PTreeOps) (fields : List Bytes) : PTree :=
  ops.addChild .empty (ascii "fields")
    (fields.foldl (fun nodes field => nodes.pushBack ([], .leaf field)) .empty)

def listing (ops : PTreeOps) (fields result : List Bytes) : Except Fault PTree :=
  (rows ops fields result .empty).map fun nodes => ops.addChild .empty (ascii "reminders") nodes

def isGet (param : Bytes) : Bool := param.take 4 == ascii "/get"

def forward (ops : PTreeOps) (client : DataClient ν) (param : Bytes) (fields : List Bytes)
    (world : ν) : Except Fault (Option RdbReply) × ν :=
  match client.executeCmd param [] world with
  | ((false, _), world) => (.ok none, world)
  | ((true, result), world) =>
    if isGet param then ((listing ops fields result).map fun output => some (.json output), world)
    else (.ok (some (.text (result.flatMap fun line => line ++ [cr, lf]))), world)

/-- `none` is the result `false`. -/
def parse (ops : PTreeOps) (client : DataClient ν) (request : Bytes) (world : ν) :
    Except Fault (Option RdbReply) × ν :=
  match client.create world with
  | (false, world) => (.error .systemError, world)
  | (true, world) =>
    match substr request 4 none with
    | .error fault => (.error fault, world)
    | .ok param =>
      if param = ascii "/fields" ∨ isGet param then
        match client.executeCmd (ascii "/fields") [] world with
        | ((false, _), world) => (.ok none, world)
        | ((true, []), world) => (.error .pastEnd, world)
        | ((true, front :: _), world) =>
          let fields := tokens colon front
          if param = ascii "/fields" then (.ok (some (.json (fieldsOutput ops fields))), world)
          else forward ops client param fields world
      else forward ops client param [] world

end RdbHandler
end ReminderSuite
