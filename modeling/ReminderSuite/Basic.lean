import Mathlib.Data.List.Basic

/-! Byte strings and the library calls the sources make on them. -/
namespace ReminderSuite

abbrev Bytes := List UInt8

def ch (c : Char) : UInt8 := UInt8.ofNat c.toNat

def ascii (s : String) : Bytes := s.toList.map ch

def slash : UInt8 := 47
def colon : UInt8 := 58
def lf : UInt8 := 10
def cr : UInt8 := 13

/-- How a handler can end other than by returning. -/
inductive Fault where
  /-- `std::out_of_range`, thrown by `vector::at` and `string::substr` -/
  | outOfRange
  /-- an element past the end is read through `operator[]` or an iterator,
  which the language leaves undefined -/
  | pastEnd
  /-- `boost::system::system_error`, thrown by a resolver -/
  | systemError
deriving DecidableEq

/-- How an operation of `boost::asio` fails: what it waits on was closed while it was
outstanding, or otherwise -/
inductive AsioError where
  | operationAborted | other
deriving DecidableEq

/-- The completion of an operation: of the acceptor, of the wait for a signal, or of a read or
write of one of the sockets, numbered as they were accepted -/
inductive Completion where
  | accept (ec : Option AsioError)
  | signal
  | read (i : Nat) (result : Except AsioError Bytes)
  | write (i : Nat) (ec : Option AsioError)
deriving DecidableEq

def ReadFits (size : Nat) : Except AsioError Bytes → Prop
  | .ok chunk => chunk ≠ [] ∧ chunk.length ≤ size
  | .error _ => True

instance (size : Nat) : (result : Except AsioError Bytes) → Decidable (ReadFits size result)
  | .ok chunk => inferInstanceAs (Decidable (chunk ≠ [] ∧ chunk.length ≤ size))
  | .error _ => isTrue trivial

def vecAt {α : Type} (v : List α) (i : Nat) : Except Fault α :=
  match v[i]? with
  | some x => .ok x
  | none => .error .outOfRange

/-- `string::substr`; `none` is `npos` -/
def substr (s : Bytes) (pos : Nat) (count : Option Nat) : Except Fault Bytes :=
  if s.length < pos then .error .outOfRange
  else .ok (match count with
    | none => s.drop pos
    | some n => (s.drop pos).take n)

def findFirstOf (s : Bytes) (c : UInt8) : Option Nat := s.findIdx? fun b => b == c

def cString (s : Bytes) : Bytes := s.takeWhile (· ≠ 0)

@[simp] theorem vecAt_zero {α : Type} (x : α) (xs : List α) : vecAt (x :: xs) 0 = .ok x := rfl
@[simp] theorem vecAt_nil {α : Type} (i : Nat) : vecAt ([] : List α) i = .error .outOfRange := rfl
@[simp] theorem vecAt_succ {α : Type} (x : α) (xs : List α) (i : Nat) :
    vecAt (x :: xs) (i + 1) = vecAt xs i := rfl

theorem substr_findFirstOf (s : Bytes) (c : UInt8) :
    substr s 0 (findFirstOf s c) = .ok (s.takeWhile (· ≠ c)) := by
  have hidx : s.takeWhile (· ≠ c) = s.take (s.findIdx fun b => b == c) := by
    rw [List.takeWhile_eq_take_findIdx_not]
    congr 2
    funext b
    by_cases hb : b = c <;> simp [hb]
  rw [hidx]
  cases h : findFirstOf s c with
  | none => simp [substr, List.findIdx?_eq_none_iff_findIdx_eq.mp h]
  | some n => simp [substr, (List.findIdx?_eq_some_iff_findIdx_eq.mp h).2]

end ReminderSuite
