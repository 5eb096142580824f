import Mathlib.Data.List.Basic
import Mathlib.Logic.Function.Basic

/-! Lists whose entries keep the number that they came with: new ones go to the end, and the others
are only replaced. -/
namespace Numbered
variable {α β : Type*} {xs : List α} {i : Nat} {x y : α} {f : α → α} {P : α → Prop}

theorem forall_mem_set (h : ∀ z ∈ xs, P z) (hy : P y) : ∀ z ∈ xs.set i y, P z := by
  intro z hz
  cases List.mem_or_eq_of_mem_set hz with
  | inl hold => exact h z hold
  | inr hnew => exact hnew ▸ hy

theorem forall_mem_concat (h : ∀ z ∈ xs, P z) (hy : P y) : ∀ z ∈ xs ++ [y], P z := by
  intro z hz
  cases List.mem_append.mp hz with
  | inl hold => exact h z hold
  | inr hnew => exact List.mem_singleton.mp hnew ▸ hy

theorem mem_modify (h : y ∈ xs.modify i f) : y ∈ xs ∨ ∃ x, xs[i]? = some x ∧ y = f x := by
  obtain ⟨j, hj⟩ := List.mem_iff_getElem?.mp h
  rw [List.getElem?_modify] at hj
  obtain ⟨x, hx, rfl⟩ := Option.map_eq_some_iff.mp hj
  by_cases hij : i = j
  · subst hij
    exact Or.inr ⟨x, hx, if_pos rfl⟩
  · exact Or.inl (by simpa [hij] using List.mem_of_getElem? hx)

theorem modify_set (xs : List α) (i : Nat) (x : α) (f : α → α) :
    (xs.set i x).modify i f = xs.set i (f x) := by
  apply List.ext_getElem?
  intro j
  rw [List.getElem?_modify, List.getElem?_set, List.getElem?_set]
  by_cases hij : i = j
  · by_cases hj : j < xs.length <;> simp [hij, hj]
  · simp [hij]

theorem modify_last (xs : List α) (x : α) (f : α → α) :
    (xs ++ [x]).modify xs.length f = xs ++ [f x] := by
  induction xs with
  | nil => rfl
  | cons y xs ih => simpa using ih

def view (g : α → β) (d : β) (xs : List α) (i : Nat) : β := (xs[i]?.map g).getD d

variable {g : α → β} {d : β}

theorem view_of_getElem? (hx : xs[i]? = some x) : view g d xs i = g x := by
  simp [view, hx]

theorem view_set (hx : xs[i]? = some x) (y : α) :
    view g d (xs.set i y) = Function.update (view g d xs) i (g y) := by
  have hi : i < xs.length := (List.getElem?_eq_some_iff.mp hx).1
  funext j
  by_cases hij : j = i
  · subst hij
    simp [view, hi]
  · simp [view, Ne.symm hij, hij]

theorem view_append (xs : List α) (y : α) :
    view g d (xs ++ [y]) = Function.update (view g d xs) xs.length (g y) := by
  funext i
  obtain hlt | heq | hgt := Nat.lt_trichotomy i xs.length
  · simp [view, List.getElem?_append_left hlt, Nat.ne_of_lt hlt]
  · simp [view, heq]
  · have hnone : (xs ++ [y])[i]? = none := by simp; omega
    simp [view, hnone, List.getElem?_eq_none (Nat.le_of_lt hgt), Nat.ne_of_gt hgt]

theorem view_length (xs : List α) : view g d xs xs.length = d := by simp [view]

theorem view_concat (xs : List α) (hy : g y = d) : view g d (xs ++ [y]) = view g d xs := by
  rw [view_append, hy, Function.update_eq_self_iff, view_length]

end Numbered
