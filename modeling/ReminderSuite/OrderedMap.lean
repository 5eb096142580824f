import Mathlib.Data.List.Nodup
import Mathlib.Logic.Function.Basic

/-! Finite maps that remember the order in which their keys were first inserted:
the keys in order and a partial function on them. -/

structure OrderedMap (κ ν : Type*) where
  order : List κ
  val : κ → Option ν
  nodup : order.Nodup
  mem_order : ∀ k, k ∈ order ↔ (val k).isSome = true

namespace OrderedMap
variable {κ ν : Type*}

def toList (m : OrderedMap κ ν) : List (κ × ν) :=
  m.order.filterMap fun k => (m.val k).map fun v => (k, v)

theorem mem_toList {m : OrderedMap κ ν} {k : κ} {v : ν} :
    (k, v) ∈ m.toList ↔ m.val k = some v := by
  simp only [toList, List.mem_filterMap, Option.map_eq_some_iff, Prod.mk.injEq]
  constructor
  · intro h
    obtain ⟨j, -, w, hw, rfl, rfl⟩ := h
    exact hw
  · intro h
    exact ⟨k, (m.mem_order k).mpr (by simp [h]), v, h, rfl, rfl⟩

theorem map_fst_toList (m : OrderedMap κ ν) : m.toList.map Prod.fst = m.order := by
  rw [toList, List.map_filterMap]
  conv_rhs => rw [← List.filterMap_some (l := m.order)]
  apply List.filterMap_congr
  intro k hk
  obtain ⟨v, hv⟩ := Option.isSome_iff_exists.mp ((m.mem_order k).mp hk)
  simp [hv]

theorem val_eq_none_iff {m : OrderedMap κ ν} {k : κ} :
    m.val k = none ↔ ∀ v, (k, v) ∉ m.toList := by
  simp only [mem_toList]
  exact Option.eq_none_iff_forall_ne_some

/-- A map is determined by the order of its keys and what each is bound to. -/
theorem toList_eq_of_order {m : OrderedMap κ ν} {l : List (κ × ν)}
    (horder : m.order = l.map Prod.fst) (hval : ∀ p ∈ l, m.val p.1 = some p.2) :
    m.toList = l := by
  rw [toList, horder, List.filterMap_map]
  conv_rhs => rw [← List.filterMap_some (l := l)]
  apply List.filterMap_congr
  intro p hp
  simp [hval p hp]

section Split
variable {m : OrderedMap κ ν} {a b : List (κ × ν)} {k : κ} {w : ν}

theorem ne_of_split (h : m.toList = a ++ (k, w) :: b) : ∀ p ∈ a ++ b, p.1 ≠ k := by
  have hn : ((a ++ (k, w) :: b).map Prod.fst).Nodup := by
    rw [← h, map_fst_toList]
    exact m.nodup
  rw [List.map_append, List.map_cons, List.nodup_middle, List.nodup_cons, ← List.map_append] at hn
  exact fun p hp he => hn.1 (List.mem_map.mpr ⟨p, hp, he⟩)

theorem val_of_split (h : m.toList = a ++ (k, w) :: b) : m.val k = some w :=
  mem_toList.mp (by simp [h])

end Split

variable [DecidableEq κ]

/-- A binding of a present key is replaced in place, a new key goes last. -/
def insert (m : OrderedMap κ ν) (k : κ) (v : ν) : OrderedMap κ ν where
  order := if k ∈ m.order then m.order else m.order ++ [k]
  val := Function.update m.val k (some v)
  nodup := by
    split_ifs with h
    · exact m.nodup
    · exact List.nodup_append.mpr ⟨m.nodup, by simp, by
        intro a ha b hb
        obtain rfl : b = k := by simpa using hb
        exact fun he => h (he ▸ ha)⟩
  mem_order j := by
    by_cases hj : j = k
    · subst hj
      split_ifs <;> simp_all
    · rw [Function.update_of_ne hj, ← m.mem_order j]
      split_ifs <;> simp [hj]

def erase (m : OrderedMap κ ν) (k : κ) : OrderedMap κ ν where
  order := m.order.erase k
  val := Function.update m.val k none
  nodup := m.nodup.erase k
  mem_order j := by
    rw [m.nodup.mem_erase_iff, m.mem_order]
    by_cases hj : j = k
    · simp [hj]
    · simp [hj]

theorem lookup_of_mem {l : List (κ × ν)} (h : (l.map Prod.fst).Nodup) {k : κ} {v : ν}
    (hm : (k, v) ∈ l) : l.lookup k = some v := by
  induction l with
  | nil => simp at hm
  | cons p l ih =>
    obtain ⟨j, w⟩ := p
    obtain ⟨hj, hl⟩ := List.nodup_cons.mp h
    cases List.mem_cons.mp hm with
    | inl he =>
      obtain ⟨rfl, rfl⟩ := Prod.mk.inj he
      simp
    | inr hm =>
      have hkj : (k == j) = false := by
        have : k ≠ j := fun he => hj (he ▸ List.mem_map.mpr ⟨(k, v), hm, rfl⟩)
        simpa using this
      rw [List.lookup_cons, hkj]
      exact ih hl hm

def ofList (l : List (κ × ν)) (h : (l.map Prod.fst).Nodup) : OrderedMap κ ν where
  order := l.map Prod.fst
  val k := l.lookup k
  nodup := h
  mem_order k := by
    constructor
    · intro hk
      obtain ⟨⟨j, v⟩, hm, rfl⟩ := List.mem_map.mp hk
      rw [lookup_of_mem h hm]
      rfl
    · intro hk
      obtain ⟨v, hv⟩ := Option.isSome_iff_exists.mp hk
      obtain ⟨a, b, rfl, -⟩ := List.lookup_eq_some_iff.mp hv
      simp

theorem toList_ofList (l : List (κ × ν)) (h : (l.map Prod.fst).Nodup) :
    (ofList l h).toList = l :=
  toList_eq_of_order rfl fun _ hp => lookup_of_mem h hp

theorem toList_insert_new {m : OrderedMap κ ν} {k : κ} (h : m.val k = none) (v : ν) :
    (m.insert k v).toList = m.toList ++ [(k, v)] := by
  have hk : k ∉ m.order := by simp [m.mem_order, h]
  apply toList_eq_of_order
  · simp [insert, hk, map_fst_toList]
  · intro p hj
    obtain ⟨j, w⟩ := p
    cases List.mem_append.mp hj with
    | inl hj =>
      have hval : m.val j = some w := mem_toList.mp hj
      have hjk : j ≠ k := fun he => by simp [he, h] at hval
      simpa [insert, Function.update_of_ne hjk] using hval
    | inr hj =>
      obtain ⟨rfl, rfl⟩ : j = k ∧ w = v := by simpa using hj
      simp [insert]

section Split
variable {m : OrderedMap κ ν} {a b : List (κ × ν)} {k : κ} {w : ν}

theorem toList_insert_split (h : m.toList = a ++ (k, w) :: b) (v : ν) :
    (m.insert k v).toList = a ++ (k, v) :: b := by
  have hne := ne_of_split h
  have hk : k ∈ m.order := (m.mem_order k).mpr (by simp [val_of_split h])
  have horder : m.order = a.map Prod.fst ++ k :: b.map Prod.fst := by
    rw [← map_fst_toList, h]
    simp
  apply toList_eq_of_order
  · change (if k ∈ m.order then m.order else m.order ++ [k]) = _
    rw [if_pos hk, horder]
    simp
  · intro p hj
    obtain ⟨j, x⟩ := p
    by_cases hjk : j = k
    · subst hjk
      have hx : (j, x) = (j, v) := by
        cases List.mem_append.mp hj with
        | inl hm => exact absurd rfl (hne _ (List.mem_append_left b hm))
        | inr hm =>
          cases List.mem_cons.mp hm with
          | inl he => exact he
          | inr hm => exact absurd rfl (hne _ (List.mem_append_right a hm))
      simpa [insert] using (Prod.mk.inj hx).2.symm
    · have hm : (j, x) ∈ m.toList := by
        rw [h]
        simpa [hjk] using hj
      simpa [insert, Function.update_of_ne hjk] using mem_toList.mp hm

theorem toList_erase_split (h : m.toList = a ++ (k, w) :: b) : (m.erase k).toList = a ++ b := by
  have hne := ne_of_split h
  have hka : k ∉ a.map Prod.fst := by
    intro hm
    obtain ⟨p, hp, he⟩ := List.mem_map.mp hm
    exact hne p (List.mem_append_left b hp) he
  have horder : m.order = a.map Prod.fst ++ k :: b.map Prod.fst := by
    rw [← map_fst_toList, h]
    simp
  apply toList_eq_of_order
  · change m.order.erase k = _
    rw [horder, List.erase_append_right _ hka]
    simp
  · intro p hj
    obtain ⟨j, x⟩ := p
    have hjk : j ≠ k := hne _ hj
    have hm : (j, x) ∈ m.toList := by
      rw [h]
      cases List.mem_append.mp hj with
      | inl hm => exact List.mem_append_left _ hm
      | inr hm => exact List.mem_append_right _ (List.mem_cons_of_mem _ hm)
    simpa [erase, Function.update_of_ne hjk] using mem_toList.mp hm

end Split
end OrderedMap
