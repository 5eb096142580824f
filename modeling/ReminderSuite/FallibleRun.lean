import Mathlib.Data.List.Basic
import Mathlib.Data.List.Induction

/-! Runs of a machine whose steps can fault. The first fault ends the run and
leaves the state it found. -/
namespace FallibleRun

section Except
variable {α β ε : Type*}

@[simp] theorem pure_eq_ok (a : α) : (pure a : Except ε α) = .ok a := rfl
@[simp] theorem ok_bind {α β : Type _} (a : α) (f : α → Except ε β) :
    (Except.ok a >>= f) = f a := rfl
@[simp] theorem error_bind {α β : Type _} (e : ε) (f : α → Except ε β) :
    (Except.error e >>= f) = .error e := rfl
@[simp] theorem map_ok (a : α) (f : α → β) : (Except.ok a : Except ε α).map f = .ok (f a) := rfl
@[simp] theorem map_error (e : ε) (f : α → β) : (Except.error e).map f = .error e := rfl

theorem map_eq_ok_iff {x : Except ε α} {f : α → β} {b : β} :
    x.map f = .ok b ↔ ∃ a, x = .ok a ∧ f a = b := by
  cases x <;> simp

end Except

variable {σ ι ε : Type*}

def serve (step : σ → ι → Except ε σ) (s : σ) : List ι → σ
  | [] => s
  | i :: is =>
    match step s i with
    | .ok s' => serve step s' is
    | .error _ => s

/-- Every step of the run that is reached meets the condition, which may depend
on the state before the step. -/
def Guarded (step : σ → ι → Except ε σ) (guard : σ → ι → Prop) (s : σ) : List ι → Prop
  | [] => True
  | i :: is => guard s i ∧ ∀ s', step s i = .ok s' → Guarded step guard s' is

variable {step : σ → ι → Except ε σ} {guard : σ → ι → Prop}

@[simp] theorem serve_nil (s : σ) : serve step s [] = s := rfl

theorem serve_cons_ok {s s' : σ} {i : ι} (h : step s i = .ok s') (is : List ι) :
    serve step s (i :: is) = serve step s' is := by
  simp [serve, h]

theorem serve_cons_error {s : σ} {i : ι} {e : ε} (h : step s i = .error e) (is : List ι) :
    serve step s (i :: is) = s := by
  simp [serve, h]

theorem guarded_of_forall_mem {is : List ι} (h : ∀ s, ∀ i ∈ is, guard s i) (s : σ) :
    Guarded step guard s is := by
  induction is generalizing s with
  | nil => trivial
  | cons i is ih =>
    exact ⟨h s i (by simp), fun s' _ => ih (fun t j hj => h t j (List.mem_cons_of_mem i hj)) s'⟩

theorem guarded_congr {guard' : σ → ι → Prop} (h : ∀ s i, guard s i ↔ guard' s i) (s : σ)
    (is : List ι) : Guarded step guard s is ↔ Guarded step guard' s is := by
  induction is generalizing s with
  | nil => exact Iff.rfl
  | cons i is ih => exact and_congr (h s i) (forall_congr' fun s' => imp_congr Iff.rfl (ih s'))

theorem guarded_of_invariant {I : σ → Prop} {s : σ} {is : List ι}
    (hguard : ∀ s, ∀ i ∈ is, I s → guard s i)
    (hstep : ∀ s, ∀ i ∈ is, ∀ s', I s → step s i = .ok s' → I s') (hI : I s) :
    Guarded step guard s is := by
  induction is generalizing s with
  | nil => trivial
  | cons i is ih =>
    refine ⟨hguard s i (by simp) hI, fun s' hs => ?_⟩
    exact ih (fun t j hj => hguard t j (List.mem_cons_of_mem i hj))
      (fun t j hj => hstep t j (List.mem_cons_of_mem i hj)) (hstep s i (by simp) s' hI hs)

/-- What every guarded step preserves holds wherever a guarded run ends. -/
theorem serve_invariant {P : σ → Prop} {s : σ} {is : List ι} (hg : Guarded step guard s is)
    (hstep : ∀ s i s', P s → guard s i → step s i = .ok s' → P s') (hs : P s) :
    P (serve step s is) := by
  induction is generalizing s with
  | nil => exact hs
  | cons i is ih =>
    cases hi : step s i with
    | error e => rwa [serve_cons_error hi]
    | ok s' =>
      rw [serve_cons_ok hi]
      exact ih (hg.2 s' hi) (hstep s i s' hs hg.1 hi)

theorem serve_invariant' {P : σ → Prop} (s : σ) (is : List ι)
    (hstep : ∀ s i s', P s → step s i = .ok s' → P s') (hs : P s) : P (serve step s is) :=
  have hg : Guarded step (fun _ _ => True) s is := guarded_of_forall_mem (fun _ _ _ => trivial) s
  serve_invariant hg (fun s i s' hP _ => hstep s i s' hP) hs

section Ghost
variable {γ : Type*}

/-- The machine with a ghost value that is updated from the state after a step. -/
def ghostStep (step : σ → ι → Except ε σ) (update : ι → σ → γ → γ) (s : σ × γ) (i : ι) :
    Except ε (σ × γ) :=
  match step s.1 i with
  | .ok s' => .ok (s', update i s' s.2)
  | .error e => .error e

theorem ghostStep_ok {update : ι → σ → γ → γ} {s s' : σ × γ} {i : ι}
    (h : ghostStep step update s i = .ok s') :
    step s.1 i = .ok s'.1 ∧ s'.2 = update i s'.1 s.2 := by
  unfold ghostStep at h
  cases hi : step s.1 i with
  | error e => simp [hi] at h
  | ok t =>
    simp only [hi, Except.ok.injEq] at h
    subst h
    exact ⟨rfl, rfl⟩

theorem serve_ghost_fst (update : ι → σ → γ → γ) (s : σ × γ) (is : List ι) :
    (serve (ghostStep step update) s is).1 = serve step s.1 is := by
  induction is generalizing s with
  | nil => rfl
  | cons i is ih =>
    cases hi : step s.1 i with
    | error e =>
      rw [serve_cons_error hi, serve_cons_error (e := e) (by simp [ghostStep, hi])]
    | ok t =>
      have hg : ghostStep step update s i = .ok (t, update i t s.2) := by simp [ghostStep, hi]
      rw [serve_cons_ok hi, serve_cons_ok hg]
      exact ih _

theorem guarded_ghost (update : ι → σ → γ → γ) {s : σ × γ} {is : List ι}
    (h : Guarded step guard s.1 is) :
    Guarded (ghostStep step update) (fun s i => guard s.1 i) s is := by
  induction is generalizing s with
  | nil => trivial
  | cons i is ih =>
    refine ⟨h.1, fun s' hs' => ih (h.2 s'.1 ?_)⟩
    exact (ghostStep_ok hs').1

end Ghost

theorem Guarded.and_of_forall_mem {P : ι → Prop} {s : σ} {is : List ι}
    (hg : Guarded step guard s is) (hP : ∀ i ∈ is, P i) :
    Guarded step (fun s i => guard s i ∧ P i) s is := by
  induction is generalizing s with
  | nil => trivial
  | cons i is ih =>
    exact ⟨⟨hg.1, hP i (by simp)⟩,
      fun s' hs' => ih (hg.2 s' hs') fun j hj => hP j (List.mem_cons_of_mem i hj)⟩

/-- Two runs side by side: the inputs kept step both machines or stop both, the
others step only the first, and every step keeps the relation. -/
theorem serve_filter_related {τ : Type*} {step' : τ → ι → Except ε τ} {R : σ → τ → Prop}
    {keep : ι → Bool} {s : σ} {t : τ} {is : List ι} (hg : Guarded step guard s is)
    (kept : ∀ s t i, keep i = true → guard s i → R s t →
      (∃ s' t', step s i = .ok s' ∧ step' t i = .ok t' ∧ R s' t') ∨
        ∃ e e', step s i = .error e ∧ step' t i = .error e')
    (dropped : ∀ s t i, keep i = false → guard s i → R s t → ∃ s', step s i = .ok s' ∧ R s' t)
    (hR : R s t) : R (serve step s is) (serve step' t (is.filter keep)) := by
  induction is generalizing s t with
  | nil => exact hR
  | cons i is ih =>
    cases hi : keep i with
    | true =>
      rw [List.filter_cons_of_pos hi]
      cases kept s t i hi hg.1 hR with
      | inl hgo =>
        obtain ⟨s', t', hs, ht, hR'⟩ := hgo
        rw [serve_cons_ok hs, serve_cons_ok ht]
        exact ih (hg.2 s' hs) hR'
      | inr hstop =>
        obtain ⟨e, e', hs, ht⟩ := hstop
        rwa [serve_cons_error hs, serve_cons_error ht]
    | false =>
      obtain ⟨s', hs, hR'⟩ := dropped s t i hi hg.1 hR
      rw [List.filter_cons_of_neg (by simp [hi]), serve_cons_ok hs]
      exact ih (hg.2 s' hs) hR'

section Trace
variable {ο ο' τ : Type*}

def trace (step : σ → ι → ο × σ) (s : σ) : List ι → List ο × σ
  | [] => ([], s)
  | i :: is => ((step s i).1 :: (trace step (step s i).2 is).1, (trace step (step s i).2 is).2)

def Admitted (step : σ → ι → ο × σ) (guard : σ → ι → Prop) (s : σ) : List ι → Prop
  | [] => True
  | i :: is => guard s i ∧ Admitted step guard (step s i).2 is

instance Admitted.decidable (step : σ → ι → ο × σ) (guard : σ → ι → Prop)
    [∀ s i, Decidable (guard s i)] (s : σ) (is : List ι) : Decidable (Admitted step guard s is) :=
  match is with
  | [] => isTrue trivial
  | i :: is =>
    have := Admitted.decidable step guard (step s i).2 is
    inferInstanceAs (Decidable (guard s i ∧ _))

theorem admitted_of_forall_mem {step : σ → ι → ο × σ} {guard : σ → ι → Prop} {is : List ι}
    (h : ∀ i ∈ is, ∀ s, guard s i) (s : σ) : Admitted step guard s is := by
  induction is generalizing s with
  | nil => trivial
  | cons i is ih => exact ⟨h i (by simp) s, ih (fun j hj => h j (List.mem_cons_of_mem i hj)) _⟩

theorem Admitted.and_of_forall_mem {step : σ → ι → ο × σ} {guard : σ → ι → Prop} {P : ι → Prop}
    {s : σ} {is : List ι} (hg : Admitted step guard s is) (hP : ∀ i ∈ is, P i) :
    Admitted step (fun s i => P i ∧ guard s i) s is := by
  induction is generalizing s with
  | nil => trivial
  | cons i is ih =>
    exact ⟨⟨hP i (by simp), hg.1⟩, ih hg.2 fun j hj => hP j (List.mem_cons_of_mem i hj)⟩

/-- Machines that agree on every admitted step up to a relation agree on admitted runs. -/
theorem trace_related_of_admitted {step : σ → ι → ο × σ} {step' : τ → ι → ο' × τ}
    {guard : σ → ι → Prop} {R : σ → τ → Prop} {view : ο → ο'} {s : σ} {t : τ} {is : List ι}
    (hstep : ∀ s t i, guard s i → R s t →
      view (step s i).1 = (step' t i).1 ∧ R (step s i).2 (step' t i).2)
    (hg : Admitted step guard s is) (hR : R s t) :
    (trace step s is).1.map view = (trace step' t is).1 ∧
      R (trace step s is).2 (trace step' t is).2 := by
  induction is generalizing s t with
  | nil => exact ⟨rfl, hR⟩
  | cons i is ih =>
    obtain ⟨hout, hnext⟩ := hstep s t i hg.1 hR
    obtain ⟨houts, hend⟩ := ih hg.2 hnext
    exact ⟨by simp only [trace, List.map_cons, hout, houts], hend⟩

theorem trace_related {step : σ → ι → ο × σ} {step' : τ → ι → ο' × τ} {R : σ → τ → Prop}
    {view : ο → ο'} {s : σ} {t : τ} {is : List ι}
    (hstep : ∀ i ∈ is, ∀ s t, R s t →
      view (step s i).1 = (step' t i).1 ∧ R (step s i).2 (step' t i).2)
    (hR : R s t) : (trace step s is).1.map view = (trace step' t is).1 ∧
      R (trace step s is).2 (trace step' t is).2 :=
  have hg : Admitted step (fun _ i => i ∈ is) s is := admitted_of_forall_mem (fun _ hi _ => hi) s
  trace_related_of_admitted (fun s t i hi => hstep i hi s t) hg hR

end Trace

section Reaches
variable {τ κ : Type*} {step' : τ → κ → Except ε τ} {s s' : σ} {is : List ι}

def Reaches (step : σ → ι → Except ε σ) (guard : σ → ι → Prop) (s : σ) : List ι → σ → Prop
  | [], s' => s' = s
  | i :: is, s' => guard s i ∧ ∃ t, step s i = .ok t ∧ Reaches step guard t is s'

theorem Reaches.serve_eq (h : Reaches step guard s is s') : serve step s is = s' := by
  induction is generalizing s with
  | nil => exact h.symm
  | cons i is ih =>
    obtain ⟨-, t, ht, hrest⟩ := h
    rw [serve_cons_ok ht]
    exact ih hrest

/-- The state that the inputs lead to, where they all meet the guard and none faults -/
def play (step : σ → ι → Except ε σ) (guard : σ → ι → Prop) [∀ s i, Decidable (guard s i)] (s : σ) :
    List ι → Option σ
  | [] => some s
  | i :: is =>
    if guard s i then
      match step s i with
      | .ok t => play step guard t is
      | .error _ => none
    else none

theorem play_eq_some_iff [∀ s i, Decidable (guard s i)] :
    play step guard s is = some s' ↔ Reaches step guard s is s' := by
  induction is generalizing s with
  | nil => simp [play, Reaches, eq_comm]
  | cons i is ih =>
    by_cases hi : guard s i
    · cases hstep : step s i with
      | error fault => simp [play, Reaches, hi, hstep]
      | ok t => simp [play, Reaches, hi, hstep, ih]
    · simp [play, Reaches, hi]

theorem Reaches.of_guarded (h : Reaches step (fun _ _ => True) s is s')
    (hg : Guarded step guard s is) :
    Reaches step guard s is s' := by
  induction is generalizing s with
  | nil => exact h
  | cons i is ih =>
    obtain ⟨-, t, ht, hrest⟩ := h
    exact ⟨hg.1, t, ht, ih hrest (hg.2 t ht)⟩

theorem reaches_append_iff {js : List ι} :
    Reaches step guard s (is ++ js) s' ↔
    ∃ t, Reaches step guard s is t ∧ Reaches step guard t js s' := by
  induction is generalizing s with
  | nil => simp [Reaches]
  | cons i is ih =>
    simp only [List.cons_append, Reaches, ih]
    constructor
    · intro h
      obtain ⟨hi, t, ht, u, hu, hrest⟩ := h
      exact ⟨u, ⟨hi, t, ht, hu⟩, hrest⟩
    · intro h
      obtain ⟨u, ⟨hi, t, ht, hu⟩, hrest⟩ := h
      exact ⟨hi, t, ht, u, hu, hrest⟩

theorem Reaches.invariant {I : σ → Prop} (h : Reaches step guard s is s')
    (hstep : ∀ s i s', I s → guard s i → step s i = .ok s' → I s') (hI : I s) : I s' := by
  induction is generalizing s with
  | nil => exact h ▸ hI
  | cons i is ih =>
    obtain ⟨hi, t, ht, hrest⟩ := h
    exact ih hrest (hstep s i t hI hi ht)

theorem Reaches.history {P : List ι → σ → Prop} (h : Reaches step guard s is s') (hnil : P [] s)
    (hsnoc : ∀ is t i t', P is t → guard t i → step t i = .ok t' → P (is ++ [i]) t') : P is s' := by
  induction is using List.reverseRecOn generalizing s' with
  | nil => exact h ▸ hnil
  | append_singleton is i ih =>
    obtain ⟨t, ht, hi, u, hu, hend⟩ := reaches_append_iff.mp h
    obtain rfl : s' = u := hend
    exact hsnoc is t i s' (ih ht) hi hu

theorem Reaches.length_add_le {I : σ → Prop} {μ : σ → Nat} (h : Reaches step guard s is s')
    (hstep : ∀ s i s', I s → guard s i → step s i = .ok s' → I s' ∧ μ s' < μ s) (hI : I s) :
    is.length + μ s' ≤ μ s := by
  induction is generalizing s with
  | nil => simp [h.symm]
  | cons i is ih =>
    obtain ⟨hi, t, ht, hrest⟩ := h
    obtain ⟨hI', hlt⟩ := hstep s i t hI hi ht
    have := ih hrest hI'
    simp only [List.length_cons]
    omega

/-- A run simulates another machine on what that one sees of the inputs: each step is matched by
a step of it on the input it sees, or by none where it sees nothing. -/
theorem Reaches.simulates {R : σ → τ → Prop} {view : ι → Option κ} {t : τ}
    (h : Reaches step guard s is s')
    (hstep : ∀ s t i s', R s t → guard s i → step s i = .ok s' →
      (view i = none ∧ R s' t) ∨ ∃ k t', view i = some k ∧ step' t k = .ok t' ∧ R s' t')
    (hR : R s t) : ∃ t', Reaches step' (fun _ _ => True) t (is.filterMap view) t' ∧ R s' t' := by
  induction is generalizing s t with
  | nil => exact ⟨t, rfl, h ▸ hR⟩
  | cons i is ih =>
    obtain ⟨hi, u, hu, hrest⟩ := h
    cases hstep s t i u hR hi hu with
    | inl hstutter =>
      rw [List.filterMap_cons_none hstutter.1]
      exact ih hrest hstutter.2
    | inr hmatch =>
      obtain ⟨k, t', hview, ht', hR'⟩ := hmatch
      obtain ⟨v, hv, hRv⟩ := ih hrest hR'
      rw [List.filterMap_cons_some hview]
      exact ⟨v, ⟨trivial, t', ht', hv⟩, hRv⟩

end Reaches

end FallibleRun
