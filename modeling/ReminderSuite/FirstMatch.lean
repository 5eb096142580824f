import Mathlib.Data.List.Nodup

/-! Linear search for the first match, with the position found kept as a cursor
that can be written through or erased. -/
namespace FirstMatch
variable {ε : Type*}

structure Cursor (ε : Type*) where
  before : List ε
  here : ε
  after : List ε

namespace Cursor

def list (c : Cursor ε) : List ε := c.before ++ c.here :: c.after
def write (c : Cursor ε) (x : ε) : List ε := c.before ++ x :: c.after
def erase (c : Cursor ε) : List ε := c.before ++ c.after
def index (c : Cursor ε) : Nat := c.before.length

theorem here_mem (c : Cursor ε) : c.here ∈ c.list := by simp [list]

theorem mem_write {c : Cursor ε} {x y : ε} (h : y ∈ c.write x) : y = x ∨ y ∈ c.list := by
  simp only [write, list, List.mem_append, List.mem_cons] at h ⊢
  tauto

theorem mem_erase {c : Cursor ε} {y : ε} (h : y ∈ c.erase) : y ∈ c.list := by
  simp only [erase, list, List.mem_append, List.mem_cons] at h ⊢
  tauto

end Cursor

def findIf (p : ε → Bool) : List ε → Option (Cursor ε)
  | [] => none
  | x :: xs =>
    if p x then some ⟨[], x, xs⟩
    else (findIf p xs).map fun c => { c with before := x :: c.before }

def examined (p : ε → Bool) : List ε → List ε
  | [] => []
  | x :: xs => if p x then [x] else x :: examined p xs

theorem findIf_of_split {p : ε → Bool} {x : ε} (hx : p x = true) (a b : List ε)
    (ha : ∀ y ∈ a, p y = false) : findIf p (a ++ x :: b) = some ⟨a, x, b⟩ := by
  induction a with
  | nil => simp [findIf, hx]
  | cons y ys ih =>
    have hy : p y = false := ha y (by simp)
    simp [findIf, hy, ih fun z hz => ha z (List.mem_cons_of_mem y hz)]

theorem findIf_eq_none_iff {p : ε → Bool} {l : List ε} :
    findIf p l = none ↔ ∀ x ∈ l, p x = false := by
  induction l with
  | nil => simp [findIf]
  | cons x xs ih => cases hx : p x <;> simp [findIf, hx, ih]

/-- What a successful search says: the cursor stands on the list searched, at an
element that matches, and nothing before it matches. -/
theorem findIf_eq_some_iff {p : ε → Bool} {l : List ε} {c : Cursor ε} :
    findIf p l = some c ↔ c.list = l ∧ p c.here = true ∧ ∀ x ∈ c.before, p x = false := by
  constructor
  · intro h
    induction l generalizing c with
    | nil => simp [findIf] at h
    | cons x xs ih =>
      cases hx : p x with
      | true =>
        simp only [findIf, hx, if_true, Option.some.injEq] at h
        subst h
        simp [Cursor.list, hx]
      | false =>
        simp only [findIf, hx, Bool.false_eq_true, if_false, Option.map_eq_some_iff] at h
        obtain ⟨d, hd, rfl⟩ := h
        obtain ⟨hl, hp, hb⟩ := ih hd
        refine ⟨?_, hp, ?_⟩
        · simpa [Cursor.list] using hl
        · simpa [hx] using hb
  · intro h
    obtain ⟨rfl, hp, hb⟩ := h
    exact findIf_of_split hp c.before c.after hb

theorem findIf_cases (p : ε → Bool) (l : List ε) :
    (findIf p l = none ∧ ∀ x ∈ l, p x = false) ∨
    ∃ c, findIf p l = some c ∧ c.list = l ∧ p c.here = true ∧ ∀ x ∈ c.before, p x = false := by
  cases h : findIf p l with
  | none => exact Or.inl ⟨rfl, findIf_eq_none_iff.mp h⟩
  | some c => exact Or.inr ⟨c, rfl, findIf_eq_some_iff.mp h⟩

theorem map_index_findIf (p : ε → Bool) (l : List ε) :
    (findIf p l).map Cursor.index = l.findIdx? p := by
  induction l with
  | nil => rfl
  | cons x xs ih =>
    rw [List.findIdx?_cons, ← ih, findIf]
    cases p x with
    | true => rfl
    | false => simp [Option.map_map, Function.comp_def, Cursor.index]

theorem findIf_filter {p q : ε → Bool} (hpq : ∀ x, p x = true → q x = true) (l : List ε) :
    findIf p (l.filter q) =
      (findIf p l).map fun c => ⟨c.before.filter q, c.here, c.after.filter q⟩ := by
  cases findIf_cases p l with
  | inl habsent =>
    obtain ⟨hn, hl⟩ := habsent
    rw [hn, findIf_eq_none_iff.mpr fun x hx => hl x (List.mem_of_mem_filter hx)]
    rfl
  | inr hfound =>
    obtain ⟨c, hc, rfl, hp, hb⟩ := hfound
    have hsplit : c.list.filter q = c.before.filter q ++ c.here :: c.after.filter q := by
      simp [Cursor.list, hpq c.here hp]
    rw [hc, hsplit]
    exact findIf_of_split hp _ _ fun x hx => hb x (List.mem_of_mem_filter hx)

section Keyed
variable {κ : Type*} (key : ε → κ)

theorem nodup_write_iff {c : Cursor ε} (h : (c.list.map key).Nodup) (x : ε) :
    ((c.write x).map key).Nodup ↔ ∀ y ∈ c.before ++ c.after, key y ≠ key x := by
  have hrest : ((c.before ++ c.after).map key).Nodup :=
    h.sublist (((List.sublist_cons_self _ _).append_left _).map key)
  rw [Cursor.write, List.map_append, List.map_cons, List.nodup_middle, List.nodup_cons,
    ← List.map_append]
  simp only [hrest, and_true, List.mem_map, not_exists, not_and]

theorem ne_of_nodup {c : Cursor ε} (h : (c.list.map key).Nodup) :
    ∀ y ∈ c.before ++ c.after, key y ≠ key c.here :=
  (nodup_write_iff key h c.here).mp h

theorem forall_around_ne_iff {c : Cursor ε} {k : κ} (h : k ≠ key c.here) :
    (∀ x ∈ c.before ++ c.after, key x ≠ k) ↔ ∀ x ∈ c.list, key x ≠ k := by
  constructor
  · intro hn x hx
    cases List.mem_append.mp hx with
    | inl hb => exact hn x (List.mem_append_left _ hb)
    | inr hx =>
      cases List.mem_cons.mp hx with
      | inl heq =>
        subst heq
        exact Ne.symm h
      | inr ha => exact hn x (List.mem_append_right _ ha)
  · intro hn x hx
    exact hn x (Cursor.mem_erase hx)

end Keyed
end FirstMatch
