import Mathlib.Data.List.Basic

/-! Splitting a list at one separator the way a regex token iterator with
sub-match -1 does, and the inverse that writes the separator after every piece. -/
namespace Delimited
variable {α : Type*}

def terminated (sep : α) (ps : List (List α)) : List α :=
  ps.flatMap fun p => p ++ [sep]

@[simp] theorem terminated_nil (sep : α) : terminated sep [] = [] := rfl

@[simp] theorem terminated_cons (sep : α) (p : List α) (ps : List (List α)) :
    terminated sep (p :: ps) = p ++ sep :: terminated sep ps := by
  simp [terminated]

theorem terminated_eq_nil_iff {sep : α} {ps : List (List α)} :
    terminated sep ps = [] ↔ ps = [] := by
  cases ps <;> simp

theorem getLast?_terminated (sep : α) {ps : List (List α)} (hne : ps ≠ []) :
    (terminated sep ps).getLast? = some sep := by
  induction ps with
  | nil => exact absurd rfl hne
  | cons p ps ih =>
    rw [terminated_cons, List.getLast?_append_of_ne_nil p (List.cons_ne_nil _ _)]
    by_cases hps : ps = []
    · simp [hps]
    · obtain ⟨y, ys, hy⟩ := List.exists_cons_of_ne_nil (mt terminated_eq_nil_iff.mp hps)
      rw [hy, List.getLast?_cons_cons, ← hy, ih hps]

def preceded (sep : α) (ps : List (List α)) : List α :=
  ps.flatMap fun p => sep :: p

@[simp] theorem preceded_nil (sep : α) : preceded sep [] = [] := rfl

@[simp] theorem preceded_cons (sep : α) (p : List α) (ps : List (List α)) :
    preceded sep (p :: ps) = sep :: (p ++ preceded sep ps) := by
  simp [preceded]

section Joined
variable {ι : Type*} (item : ι → List α)

theorem flatMap_append_eq_intercalate (sep : List α) {is : List ι} (hne : is ≠ []) :
    (is.flatMap fun i => item i ++ sep) = sep.intercalate (is.map item) ++ sep := by
  induction is with
  | nil => exact absurd rfl hne
  | cons i is ih =>
    cases is with
    | nil => simp
    | cons j js =>
      have hrest := ih (by simp)
      simp only [List.flatMap_cons, List.map_cons, List.intercalate_cons_cons,
        List.append_assoc] at hrest ⊢
      rw [hrest]

theorem not_mem_intercalate_iff {x : α} {sep : List α} (hx : x ∉ sep) (is : List ι) :
    x ∉ sep.intercalate (is.map item) ↔ ∀ i ∈ is, x ∉ item i := by
  induction is with
  | nil => simp
  | cons i is ih =>
    cases is with
    | nil => simp
    | cons j js =>
      simp only [List.map_cons, List.intercalate_cons_cons, List.mem_append, not_or] at ih ⊢
      simp [hx, ih]

theorem infix_intercalate {p : List α} {ps : List (List α)} (h : p ∈ ps) (sep : List α) :
    p <:+: sep.intercalate ps := by
  induction ps with
  | nil => simp at h
  | cons q qs ih =>
    cases qs with
    | nil => simp_all
    | cons r rs =>
      rw [List.intercalate_cons_cons]
      cases List.mem_cons.mp h with
      | inl hq =>
        exact hq ▸ List.infix_append_of_infix_left
          (List.infix_append_of_infix_left (List.infix_refl p))
      | inr hr => exact List.infix_append_of_infix_right (ih hr)

theorem infix_append_cons {l a b : List α} {sep : α} (hsep : sep ∉ l) (h : l <:+: a ++ sep :: b) :
    l <:+: a ∨ l <:+: b := by
  obtain ⟨s, t, heq⟩ := h
  rcases List.append_eq_append_iff.mp heq with ⟨u, ha, -⟩ | ⟨u, hsl, hb⟩
  · exact Or.inl ⟨s, u, ha.symm⟩
  cases u with
  | nil => exact Or.inl ⟨s, [], by simpa using hsl⟩
  | cons x u =>
    obtain ⟨rfl, rfl⟩ := List.cons.inj hb
    rcases List.append_eq_append_iff.mp hsl with ⟨v, -, hl⟩ | ⟨v, -, hv⟩
    · exact absurd (hl ▸ by simp) hsep
    cases v with
    | nil =>
      have hl : l = sep :: u := hv.symm
      exact absurd (by simp [hl]) hsep
    | cons y v =>
      obtain ⟨-, rfl⟩ := List.cons.inj hv
      exact Or.inr ⟨v, t, rfl⟩

end Joined

theorem infix_preceded {sep : α} {l : List α} (hsep : sep ∉ l) (hne : l ≠ []) {ps : List (List α)}
    (h : l <:+: preceded sep ps) : ∃ p ∈ ps, l <:+: p := by
  induction ps with
  | nil => exact absurd (List.eq_nil_of_infix_nil h) hne
  | cons p ps ih =>
    have hrest : l <:+: p ++ preceded sep ps := by
      rw [preceded_cons] at h
      exact (infix_append_cons hsep h).resolve_left fun hnil => hne (List.eq_nil_of_infix_nil hnil)
    cases ps with
    | nil => exact ⟨p, by simp, by simpa using hrest⟩
    | cons q qs =>
      rw [preceded_cons] at hrest
      cases infix_append_cons hsep hrest with
      | inl hp => exact ⟨p, by simp, hp⟩
      | inr hqs =>
        obtain ⟨r, hr, hlr⟩ :=
          ih (by rw [preceded_cons]; exact hqs.trans (List.suffix_cons sep _).isInfix)
        exact ⟨r, List.mem_cons_of_mem p hr, hlr⟩

variable [DecidableEq α]

theorem splitOn_sep_cons (sep : α) (s : List α) : (sep :: s).splitOn sep = [] :: s.splitOn sep := by
  simp [List.splitOn_cons_eq_if_modifyHead]

theorem splitOn_preceded {sep : α} {ps : List (List α)} (h : ∀ p ∈ ps, sep ∉ p) :
    (preceded sep ps).splitOn sep = [] :: ps := by
  induction ps with
  | nil => simp
  | cons p ps ih =>
    obtain ⟨hp, hps⟩ := List.forall_mem_cons.mp h
    have hrest : (p ++ preceded sep ps).splitOn sep = p :: ps := by
      cases ps with
      | nil => simpa using List.splitOn_eq_singleton hp
      | cons q qs =>
        have hqs := ih hps
        rw [preceded_cons, splitOn_sep_cons] at hqs
        rw [preceded_cons, List.splitOn_append_cons_self_of_not_mem hp, (List.cons.inj hqs).2]
    rw [preceded_cons, splitOn_sep_cons, hrest]

/-- The pieces between the matches of `sep`. Without a match the whole list is
the only piece; after at least one match a final empty piece is left out. -/
def tokens (sep : α) (s : List α) : List (List α) :=
  match s.splitOn sep with
  | [] => []
  | [whole] => [whole]
  | ps => if ps.getLast? = some [] then ps.dropLast else ps

def closed (sep : α) (s : List α) : List α :=
  if s.getLast? = some sep then s else s ++ [sep]

@[simp] theorem tokens_nil (sep : α) : tokens sep [] = [[]] := by
  simp [tokens]

theorem tokens_cons_sep (sep : α) (s : List α) :
    tokens sep (sep :: s) = [] :: if s = [] then [] else tokens sep s := by
  cases s with
  | nil => simp [tokens, List.splitOn_cons_eq_if_modifyHead]
  | cons x xs =>
    obtain ⟨p, ps, hp⟩ := List.exists_cons_of_ne_nil (List.splitOn_ne_nil sep (x :: xs))
    rw [tokens, tokens, List.splitOn_cons_eq_if_modifyHead, hp]
    cases ps with
    | nil =>
      have hx : [sep].intercalate ((x :: xs).splitOn sep) = x :: xs :=
        List.intercalate_splitOn sep
      have hne : p ≠ [] := by
        intro heq
        subst heq
        simp [hp] at hx
      simp [hne]
    | cons q qs => simp [List.getLast?_cons_cons]; split_ifs <;> rfl

theorem tokens_cons_ne {sep x : α} (h : x ≠ sep) (s : List α) :
    tokens sep (x :: s) = (tokens sep s).modifyHead (x :: ·) := by
  obtain ⟨p, ps, hp⟩ := List.exists_cons_of_ne_nil (List.splitOn_ne_nil sep s)
  rw [tokens, tokens, List.splitOn_cons_eq_if_modifyHead, hp]
  cases ps with
  | nil => simp [h]
  | cons q qs =>
    simp [h, List.getLast?_cons_cons]
    split_ifs <;> rfl

@[simp] theorem tokens_ne_nil (sep : α) (s : List α) : tokens sep s ≠ [] := by
  induction s with
  | nil => simp
  | cons x xs ih =>
    by_cases hx : x = sep
    · subst x
      simp [tokens_cons_sep]
    · simpa [tokens_cons_ne hx, List.modifyHead_eq_nil_iff] using ih

theorem tokens_cons_ne_exists {sep x : α} (h : x ≠ sep) (s : List α) :
    ∃ p ps, tokens sep s = p :: ps ∧ tokens sep (x :: s) = (x :: p) :: ps := by
  obtain ⟨p, ps, hp⟩ := List.exists_cons_of_ne_nil (tokens_ne_nil sep s)
  exact ⟨p, ps, hp, by rw [tokens_cons_ne h, hp]; rfl⟩

theorem sep_not_mem_token {sep : α} {s p : List α} (h : p ∈ tokens sep s) : sep ∉ p := by
  induction s generalizing p with
  | nil => simp_all
  | cons x xs ih =>
    by_cases hx : x = sep
    · subst x
      by_cases hxs : xs = []
      · simp_all [tokens_cons_sep]
      · simp only [tokens_cons_sep, hxs, if_false, List.mem_cons] at h
        cases h with
        | inl heq =>
          subst heq
          simp
        | inr h => exact ih h
    · obtain ⟨q, qs, hq, hqs⟩ := tokens_cons_ne_exists hx xs
      rw [hqs, List.mem_cons] at h
      cases h with
      | inl heq =>
        subst heq
        have := ih (p := q) (by simp [hq])
        simp [Ne.symm hx, this]
      | inr h => exact ih (by simp [hq, h])

theorem mem_of_mem_token {sep x : α} {s p : List α} (h : p ∈ tokens sep s) (hx : x ∈ p) :
    x ∈ s := by
  induction s generalizing p with
  | nil => simp_all
  | cons y ys ih =>
    by_cases hy : y = sep
    · subst y
      by_cases hys : ys = []
      · simp_all [tokens_cons_sep]
      · simp only [tokens_cons_sep, hys, if_false, List.mem_cons] at h
        cases h with
        | inl heq =>
          subst heq
          simp at hx
        | inr h => exact List.mem_cons_of_mem _ (ih h hx)
    · obtain ⟨q, qs, hq, hqs⟩ := tokens_cons_ne_exists hy ys
      rw [hqs, List.mem_cons] at h
      cases h with
      | inl heq =>
        subst heq
        cases List.mem_cons.mp hx with
        | inl heq =>
          subst heq
          simp
        | inr hx => exact List.mem_cons_of_mem _ (ih (p := q) (by simp [hq]) hx)
      | inr h => exact List.mem_cons_of_mem _ (ih (by simp [hq, h]) hx)

theorem tokens_of_sep_not_mem {sep : α} {s : List α} (h : sep ∉ s) : tokens sep s = [s] := by
  simp [tokens, List.splitOn_eq_singleton h]

theorem tokens_append_of_sep_not_mem {sep : α} {a : List α} (h : sep ∉ a) (s : List α) :
    tokens sep (a ++ s) = (tokens sep s).modifyHead (a ++ ·) := by
  induction a with
  | nil => exact congrFun List.modifyHead_id.symm (tokens sep s)
  | cons x xs ih =>
    have hx : x ≠ sep := fun he => h (by simp [he])
    have hxs : sep ∉ xs := fun hm => h (List.mem_cons_of_mem x hm)
    rw [List.cons_append, tokens_cons_ne hx, ih hxs, List.modifyHead_modifyHead]
    rfl

theorem tokens_append_sep {sep : α} {a : List α} (h : sep ∉ a) (s : List α) :
    tokens sep (a ++ sep :: s) = a :: if s = [] then [] else tokens sep s := by
  induction a with
  | nil => exact tokens_cons_sep sep s
  | cons x xs ih =>
    have hx : x ≠ sep := fun he => h (by simp [he])
    have hxs : sep ∉ xs := fun hm => h (List.mem_cons_of_mem x hm)
    rw [List.cons_append, tokens_cons_ne hx, ih hxs]
    rfl

/-- Reading back what was written: every separator-free list of at least one
piece survives, empty pieces and empty last pieces included. -/
theorem tokens_terminated {sep : α} {ps : List (List α)} (hne : ps ≠ [])
    (h : ∀ p ∈ ps, sep ∉ p) : tokens sep (terminated sep ps) = ps := by
  induction ps with
  | nil => exact absurd rfl hne
  | cons p ps ih =>
    have hp : sep ∉ p := h p (by simp)
    rw [terminated_cons, tokens_append_sep hp]
    by_cases hps : ps = []
    · simp [hps]
    · have ht : terminated sep ps ≠ [] := fun he => hps (terminated_eq_nil_iff.mp he)
      rw [if_neg ht, ih hps fun q hq => h q (List.mem_cons_of_mem p hq)]

theorem tokens_preceded {sep : α} {ps : List (List α)} (h : ∀ p ∈ ps, sep ∉ p)
    (hlast : ps.getLast? ≠ some []) : tokens sep (preceded sep ps) = [] :: ps := by
  induction ps with
  | nil => simp
  | cons p ps ih =>
    have hp : sep ∉ p := h p (by simp)
    rw [preceded_cons, tokens_cons_sep]
    cases ps with
    | nil =>
      have hne : p ≠ [] := by simpa using hlast
      simp [hne, tokens_of_sep_not_mem hp]
    | cons q qs =>
      have ih := ih (fun r hr => h r (List.mem_cons_of_mem p hr)) (by simpa using hlast)
      rw [preceded_cons, tokens_cons_sep] at ih
      have hrest : q ++ preceded sep qs ≠ [] := by
        intro he
        simp [he] at ih
      rw [if_neg hrest] at ih
      rw [preceded_cons, if_neg (by simp), tokens_append_sep hp, if_neg hrest,
        (List.cons.inj ih).2]

theorem tokens_preceded_empty {sep : α} {ps : List (List α)} (hne : ps ≠ [])
    (h : ∀ p ∈ ps, sep ∉ p) : tokens sep (preceded sep (ps ++ [[]])) = [] :: ps := by
  have hterm : preceded sep (ps ++ [[]]) = sep :: terminated sep ps := by
    clear h hne
    induction ps with
    | nil => simp
    | cons p ps ih => simp [ih]
  have hne' : terminated sep ps ≠ [] := fun he => hne (terminated_eq_nil_iff.mp he)
  rw [hterm, tokens_cons_sep, if_neg hne', tokens_terminated hne h]

theorem terminated_tokens (sep : α) (s : List α) :
    terminated sep (tokens sep s) = closed sep s := by
  induction s with
  | nil => simp [closed]
  | cons x xs ih =>
    have hlast : xs ≠ [] → closed sep (x :: xs) = x :: closed sep xs := by
      intro hxs
      obtain ⟨y, ys, rfl⟩ := List.exists_cons_of_ne_nil hxs
      simp only [closed, List.getLast?_cons_cons]
      split_ifs <;> rfl
    by_cases hx : x = sep
    · subst x
      by_cases hxs : xs = []
      · simp [hxs, tokens_cons_sep, closed]
      · simp only [tokens_cons_sep, hxs, if_false, terminated_cons, List.nil_append]
        rw [ih, hlast hxs]
    · obtain ⟨p, ps, hp, hps⟩ := tokens_cons_ne_exists hx xs
      rw [hps, terminated_cons, List.cons_append, ← terminated_cons, ← hp, ih]
      by_cases hxs : xs = []
      · simp [hxs, closed, hx]
      · rw [hlast hxs]

theorem not_mem_tokens_iff {sep x : α} (hx : x ≠ sep) {s : List α} :
    (∀ p ∈ tokens sep s, x ∉ p) ↔ x ∉ s := by
  constructor
  · intro h hmem
    have hclosed : x ∈ closed sep s := by
      unfold closed
      split_ifs <;> simp [hmem]
    rw [← terminated_tokens] at hclosed
    obtain ⟨p, hp, hxp⟩ := List.mem_flatMap.mp hclosed
    exact h p hp (by simpa [hx] using hxp)
  · exact fun h p hp hxp => h (mem_of_mem_token hp hxp)

theorem tokens_closed (sep : α) (s : List α) : tokens sep (closed sep s) = tokens sep s := by
  rw [← terminated_tokens]
  exact tokens_terminated (tokens_ne_nil sep s) fun p hp => sep_not_mem_token hp

/-- Which texts split into given pieces: the closed ones and, unless the last
piece is the empty one, those that lack the final separator. -/
theorem tokens_eq_iff {sep : α} {s : List α} {ps : List (List α)} (hne : ps ≠ [])
    (h : ∀ p ∈ ps, sep ∉ p) : tokens sep s = ps ↔ closed sep s = terminated sep ps := by
  constructor
  · intro heq
    subst heq
    exact (terminated_tokens sep s).symm
  · intro hs
    rw [← tokens_closed, hs, tokens_terminated hne h]

theorem closed_eq_iff {sep : α} {s t : List α} :
    closed sep s = t ++ [sep] ↔ s = t ++ [sep] ∨ (s = t ∧ t.getLast? ≠ some sep) := by
  unfold closed
  split_ifs with hs
  · constructor
    · exact Or.inl
    · intro h
      obtain h | ⟨rfl, h⟩ := h
      · exact h
      · exact absurd hs h
  · rw [List.append_left_inj]
    constructor
    · intro heq
      subst heq
      exact Or.inr ⟨rfl, hs⟩
    · intro h
      obtain rfl | ⟨h, -⟩ := h
      · simp at hs
      · exact h

/-- `tokens` through `splitOn`: one final separator is dropped before splitting. -/
theorem tokens_eq_splitOn (sep : α) (s : List α) :
    tokens sep s = (if s.getLast? = some sep then s.dropLast else s).splitOn sep := by
  induction s with
  | nil => simp
  | cons x xs ih =>
    by_cases hxs : xs = []
    · subst xs
      by_cases hx : x = sep
      · simp [hx, tokens_cons_sep]
      · simp [hx, tokens_cons_ne hx, List.splitOn_cons_eq_if_modifyHead]
    · obtain ⟨y, ys, rfl⟩ := List.exists_cons_of_ne_nil hxs
      have hcons : (if (x :: y :: ys).getLast? = some sep then (x :: y :: ys).dropLast
            else x :: y :: ys) =
          x :: (if (y :: ys).getLast? = some sep then (y :: ys).dropLast else y :: ys) := by
        rw [List.getLast?_cons_cons]
        split_ifs <;> rfl
      rw [hcons, List.splitOn_cons_eq_if_modifyHead, ← ih]
      by_cases hx : x = sep
      · simp [hx, tokens_cons_sep]
      · simp [hx, tokens_cons_ne hx]

theorem head?_tokens (sep : α) (s : List α) :
    (tokens sep s).head? = some (s.takeWhile (· ≠ sep)) := by
  induction s with
  | nil => simp
  | cons x xs ih =>
    by_cases hx : x = sep
    · subst x
      simp [tokens_cons_sep]
    · obtain ⟨p, ps, hp, hps⟩ := tokens_cons_ne_exists hx xs
      have hpx : p = xs.takeWhile (· ≠ sep) := by simpa [hp] using ih
      simp [hps, hpx, hx]

theorem exists_first_token (sep : α) (s : List α) :
    ∃ first rest, tokens sep s = first :: rest ∧ first = s.takeWhile (· ≠ sep) := by
  obtain ⟨first, rest, h⟩ := List.exists_cons_of_ne_nil (tokens_ne_nil sep s)
  exact ⟨first, rest, h, by simpa [h] using head?_tokens sep s⟩

def shown : Nat → List (List α) → List (List α)
  | _, [] => []
  | n, line :: lines => line.take n :: shown (n - (line.length + 1)) lines

omit [DecidableEq α] in
theorem shown_zero {lines : List (List α)} {row : List α} (h : row ∈ shown 0 lines) : row = [] := by
  induction lines with
  | nil => simp [shown] at h
  | cons line lines ih =>
    simp only [shown, List.take_zero, Nat.zero_sub, List.mem_cons] at h
    exact h.elim id ih

omit [DecidableEq α] in
theorem forall_shown_append_iff {lines tail : List (List α)} {P : List α → Prop}
    (htail : ∀ row ∈ tail, row = []) {n : Nat} :
    (∀ row ∈ shown n (lines ++ tail), row ≠ [] → P row) ↔
      ∀ row ∈ shown n lines, row ≠ [] → P row := by
  induction lines generalizing n with
  | nil =>
    refine iff_of_true ?_ (by simp [shown])
    induction tail generalizing n with
    | nil => simp [shown]
    | cons row rows ih =>
      obtain ⟨rfl, hrows⟩ := List.forall_mem_cons.mp htail
      simpa [shown] using ih hrows
  | cons line lines ih => simp only [List.cons_append, shown, List.forall_mem_cons, ih]

theorem forall_tokens_take_terminated {sep : α} {lines : List (List α)} {P : List α → Prop}
    (hlines : ∀ line ∈ lines, sep ∉ line) (n : Nat) :
    (∀ row ∈ tokens sep ((terminated sep lines).take n), row ≠ [] → P row) ↔
      ∀ row ∈ shown n lines, row ≠ [] → P row := by
  induction lines generalizing n with
  | nil => simp [shown]
  | cons line lines ih =>
    obtain ⟨hline, hrest⟩ := List.forall_mem_cons.mp hlines
    rw [terminated_cons, shown]
    by_cases hn : n ≤ line.length
    · -- the text is cut within the first line
      have hplain : sep ∉ line.take n := fun h => hline (List.mem_of_mem_take h)
      have htokens : tokens sep (line.take n) = [line.take n] := by
        simpa using tokens_append_of_sep_not_mem hplain []
      rw [List.take_append_of_le_length hn, htokens, Nat.sub_eq_zero_of_le (by omega)]
      simp only [List.forall_mem_cons, List.not_mem_nil, false_implies, implies_true, and_true]
      exact (and_iff_left fun row hrow hne => absurd (shown_zero hrow) hne).symm
    · obtain ⟨k, rfl⟩ := Nat.exists_eq_add_of_lt (Nat.lt_of_not_le hn)
      have htake : (line ++ sep :: terminated sep lines).take (line.length + k + 1) =
          line ++ sep :: (terminated sep lines).take k := by
        rw [Nat.add_assoc, List.take_length_add_append, List.take_succ_cons]
      have hwhole : line.take (line.length + k + 1) = line := List.take_of_length_le (by omega)
      have hleft : line.length + k + 1 - (line.length + 1) = k := by omega
      rw [htake, tokens_append_sep hline, hwhole, hleft, List.forall_mem_cons,
        List.forall_mem_cons, ← ih hrest]
      refine and_congr_right fun _ => ?_
      by_cases hempty : (terminated sep lines).take k = []
      · simp [hempty]
      · rw [if_neg hempty]

section Count

def pieceCount (sep : α) (s : List α) : Nat :=
  s.count sep + if s.getLast? = some sep then 0 else 1

theorem length_tokens (sep : α) (s : List α) : (tokens sep s).length = pieceCount sep s := by
  induction s with
  | nil => simp [pieceCount]
  | cons x xs ih =>
    by_cases hx : x = sep
    · subst x
      by_cases hxs : xs = []
      · simp [hxs, tokens_cons_sep, pieceCount]
      · obtain ⟨y, ys, rfl⟩ := List.exists_cons_of_ne_nil hxs
        simp only [tokens_cons_sep, hxs, if_false, List.length_cons, ih, pieceCount,
          List.count_cons_self, List.getLast?_cons_cons]
        omega
    · rw [tokens_cons_ne hx, List.length_modifyHead, ih]
      cases xs with
      | nil => simp [pieceCount, hx]
      | cons y ys => simp only [pieceCount, List.count_cons_of_ne hx, List.getLast?_cons_cons]

theorem pieceCount_append (sep : α) (a : List α) {b : List α} (hne : b ≠ []) :
    pieceCount sep (a ++ b) = a.count sep + pieceCount sep b := by
  rw [pieceCount, pieceCount, List.count_append, List.getLast?_append_of_ne_nil a hne]
  omega

theorem count_terminated (sep : α) (ps : List (List α)) :
    (terminated sep ps).count sep = ps.length + ps.flatten.count sep := by
  induction ps with
  | nil => rfl
  | cons p ps ih =>
    simp only [terminated_cons, List.count_append, List.count_cons_self, ih, List.length_cons,
      List.flatten_cons]
    omega

theorem pieceCount_terminated (sep : α) {ps : List (List α)} (hne : ps ≠ []) :
    pieceCount sep (terminated sep ps) = ps.length + ps.flatten.count sep := by
  rw [pieceCount, getLast?_terminated sep hne, count_terminated, if_pos rfl, Nat.add_zero]

end Count

section Framing
omit [DecidableEq α]

def EndsEmpty (sep : α) (s : List α) : Prop := s = [sep] ∨ [sep, sep] <:+ s

/-- The list ends where its first empty piece does. -/
def SelfDelimiting (sep : α) (s : List α) : Prop :=
  EndsEmpty sep s ∧ ∀ earlier, earlier <+: s → EndsEmpty sep earlier → earlier = s

theorem EndsEmpty.sep_mem {sep : α} {s : List α} (h : EndsEmpty sep s) : sep ∈ s := by
  cases h with
  | inl heq => simp [heq]
  | inr hend => exact hend.subset (by simp)

theorem not_endsEmpty_nil (sep : α) : ¬ EndsEmpty sep [] := fun h => by simpa using h.sep_mem

theorem endsEmpty_append_sep_iff {sep : α} {p : List α} (hne : p ≠ []) (hp : sep ∉ p)
    (s : List α) : EndsEmpty sep (p ++ sep :: s) ↔ EndsEmpty sep s := by
  have hdrop : [sep, sep] <:+ p ++ sep :: s ↔ [sep, sep] <:+ sep :: s := by
    clear hne
    induction p with
    | nil => rfl
    | cons x xs ih =>
      have hx : sep ≠ x := fun he => hp (by simp [he])
      have hxs : sep ∉ xs := fun hm => hp (List.mem_cons_of_mem x hm)
      simp [List.suffix_cons_iff, hx, ← ih hxs]
  have hwhole : p ++ sep :: s ≠ [sep] := by simp [List.append_eq_singleton_iff, hne]
  rw [EndsEmpty, or_iff_right hwhole, hdrop, List.suffix_cons_iff]
  simp [EndsEmpty, eq_comm]

theorem not_selfDelimiting_piece {sep : α} {p : List α} (hne : p ≠ []) (hp : sep ∉ p) :
    ¬ SelfDelimiting sep (p ++ [sep]) :=
  fun h => not_endsEmpty_nil sep ((endsEmpty_append_sep_iff hne hp []).mp h.1)

theorem SelfDelimiting.append_sep {sep : α} {p s : List α} (hne : p ≠ []) (hp : sep ∉ p)
    (h : SelfDelimiting sep s) : SelfDelimiting sep (p ++ sep :: s) := by
  refine ⟨(endsEmpty_append_sep_iff hne hp s).mpr h.1, fun earlier hpre hend => ?_⟩
  cases List.prefix_or_prefix_of_prefix hpre (List.prefix_append p (sep :: s)) with
  | inl hin => exact absurd (hin.subset hend.sep_mem) hp
  | inr hout =>
    obtain ⟨t, rfl⟩ := hout
    cases List.prefix_cons_iff.mp ((List.prefix_append_right_inj p).mp hpre) with
    | inl heq =>
      subst heq
      exact absurd hend.sep_mem (by simpa using hp)
    | inr hrest =>
      obtain ⟨rest, rfl, hrest⟩ := hrest
      rw [h.2 rest hrest ((endsEmpty_append_sep_iff hne hp rest).mp hend)]

theorem selfDelimiting_terminated {sep : α} {ps : List (List α)}
    (h : ∀ p ∈ ps, p ≠ [] ∧ sep ∉ p) : SelfDelimiting sep (terminated sep ps ++ [sep]) := by
  induction ps with
  | nil =>
    refine ⟨Or.inl rfl, fun earlier hpre hend => ?_⟩
    cases List.prefix_cons_iff.mp hpre with
    | inl heq =>
      subst heq
      exact absurd hend (not_endsEmpty_nil sep)
    | inr hrest =>
      obtain ⟨t, rfl, ht⟩ := hrest
      simpa using ht
  | cons p ps ih =>
    obtain ⟨hne, hp⟩ := h p (by simp)
    have ih := ih fun q hq => h q (List.mem_cons_of_mem p hq)
    rw [terminated_cons, List.append_assoc, List.cons_append]
    exact ih.append_sep hne hp

end Framing

end Delimited
