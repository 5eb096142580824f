import Mathlib.Data.List.Basic

/-! Machines that read one symbol at a time and put out any number of symbols for each,
and once more at the end of the input. -/
namespace Transducer
variable {σ ι ο : Type*}

def run (step : σ → ι → List ο × σ) (s : σ) : List ι → List ο × σ
  | [] => ([], s)
  | i :: is => ((step s i).1 ++ (run step (step s i).2 is).1, (run step (step s i).2 is).2)

def output (step : σ → ι → List ο × σ) (flush : σ → List ο) (s : σ) (is : List ι) : List ο :=
  (run step s is).1 ++ flush (run step s is).2

def weigh (w : ο → Nat) : List ο → Nat
  | [] => 0
  | o :: os => w o + weigh w os

theorem weigh_append (w : ο → Nat) (a b : List ο) : weigh w (a ++ b) = weigh w a + weigh w b := by
  induction a with
  | nil => simp [weigh]
  | cons o os ih =>
    rw [List.cons_append, weigh, weigh, ih]
    omega

theorem weigh_map {κ : Type*} (w : ο → Nat) (f : κ → ο) (l : List κ) :
    weigh w (l.map f) = weigh (fun k => w (f k)) l := by
  induction l with
  | nil => rfl
  | cons k ks ih => rw [List.map_cons, weigh, weigh, ih]

theorem weigh_eq_zero_iff {w : ο → Nat} {l : List ο} : weigh w l = 0 ↔ ∀ o ∈ l, w o = 0 := by
  induction l with
  | nil => simp [weigh]
  | cons o os ih => simp [weigh, ih]

variable {step : σ → ι → List ο × σ} {flush : σ → List ο}

@[simp] theorem output_nil (s : σ) : output step flush s [] = flush s := rfl

theorem output_cons (s : σ) (i : ι) (is : List ι) :
    output step flush s (i :: is) = (step s i).1 ++ output step flush (step s i).2 is := by
  simp [output, run]

theorem run_append (s : σ) (a b : List ι) :
    run step s (a ++ b) =
      ((run step s a).1 ++ (run step (run step s a).2 b).1, (run step (run step s a).2 b).2) := by
  induction a generalizing s with
  | nil => rfl
  | cons i is ih => simp [run, ih]

theorem output_append (s : σ) (a b : List ι) :
    output step flush s (a ++ b) = (run step s a).1 ++ output step flush (run step s a).2 b := by
  simp [output, run_append]

theorem run_collect {f : List ι → σ} {p : ι → Prop}
    (h : ∀ acc i, p i → step (f acc) i = ([], f (acc ++ [i]))) (acc : List ι) {is : List ι}
    (hp : ∀ i ∈ is, p i) : run step (f acc) is = ([], f (acc ++ is)) := by
  induction is generalizing acc with
  | nil => simp [run]
  | cons i is ih =>
    have hi := h acc i (hp i (by simp))
    have hrest := ih (acc ++ [i]) fun j hj => hp j (List.mem_cons_of_mem i hj)
    simp [run, hi, hrest]

theorem run_silent {C : σ → Prop} {p : ι → Prop}
    (h : ∀ s i, C s → p i → (step s i).1 = [] ∧ C (step s i).2) {s : σ} (hs : C s) {is : List ι}
    (hp : ∀ i ∈ is, p i) : (run step s is).1 = [] ∧ C (run step s is).2 := by
  induction is generalizing s with
  | nil => exact ⟨rfl, hs⟩
  | cons i is ih =>
    obtain ⟨hout, hstay⟩ := h s i hs (hp i (by simp))
    obtain ⟨hrest, hend⟩ := ih hstay fun j hj => hp j (List.mem_cons_of_mem i hj)
    exact ⟨by rw [run, hout, hrest]; rfl, hend⟩

/-- A potential that no step raises by more than its symbol costs, what it puts out
included, bounds the output of a run. -/
theorem weigh_run_le {w : ο → Nat} {pot : σ → Nat} {cost : ι → Nat}
    (hstep : ∀ s i, weigh w (step s i).1 + pot (step s i).2 ≤ pot s + cost i) (s : σ)
    (is : List ι) : weigh w (run step s is).1 + pot (run step s is).2 ≤ pot s + weigh cost is := by
  induction is generalizing s with
  | nil => simp [run, weigh]
  | cons i is ih =>
    have hone := hstep s i
    have hrest := ih (step s i).2
    simp only [run, weigh, weigh_append]
    omega

theorem weigh_output_le {w : ο → Nat} {pot : σ → Nat} {cost : ι → Nat}
    (hstep : ∀ s i, weigh w (step s i).1 + pot (step s i).2 ≤ pot s + cost i)
    (hflush : ∀ s, weigh w (flush s) ≤ pot s) (s : σ) (is : List ι) :
    weigh w (output step flush s is) ≤ pot s + weigh cost is := by
  have hrun := weigh_run_le hstep s is
  have hend := hflush (run step s is).2
  rw [output, weigh_append]
  omega

/-- A set of states that the machine only leaves by putting out a symbol of some kind -/
theorem head?_output {C : σ → Prop} {Q : ο → Prop}
    (hstep : ∀ s i, C s → (∀ o ∈ (step s i).1.head?, Q o) ∧ ((step s i).1 = [] → C (step s i).2))
    (hflush : ∀ s, C s → ∀ o ∈ (flush s).head?, Q o) {s : σ} (hs : C s) (is : List ι) :
    ∀ o ∈ (output step flush s is).head?, Q o := by
  induction is generalizing s with
  | nil => exact hflush s hs
  | cons i is ih =>
    obtain ⟨hout, hstay⟩ := hstep s i hs
    rw [output_cons]
    cases hd : (step s i).1 with
    | nil => exact ih (hstay hd)
    | cons o os =>
      rw [hd] at hout
      exact hout

end Transducer
