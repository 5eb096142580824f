import Mathlib.Data.List.Induction
import Mathlib.Logic.Function.Basic

/-! Logs of handles that are opened, used and closed, and which of them use a handle that
has been closed. A closed handle may be given out again. -/
namespace HandleLog
variable {η : Type*}

inductive Op (η : Type*) where
  | opened (h : η)
  | used (h : η)
  | closed (h : η)
deriving DecidableEq

inductive Status where
  | unknown
  | live
  | dead
deriving DecidableEq

/-- What is done with a pointer that may be null: a null pointer is no handle. -/
def uses (p : Option η) : List (Op η) := (p.map Op.used).toList

def closes (p : Option η) : List (Op η) := (p.map Op.closed).toList

theorem not_opened_uses (p : Option η) (g : η) : Op.opened g ∉ uses p := by
  cases p <;> simp [uses]

theorem not_opened_closes (p : Option η) (g : η) : Op.opened g ∉ closes p := by
  cases p <;> simp [closes]

variable [DecidableEq η]

def step (t : η → Status) : Op η → η → Status
  | .opened h => Function.update t h .live
  | .used _ => t
  | .closed h => Function.update t h .dead

def after (t : η → Status) : List (Op η) → η → Status
  | [] => t
  | op :: ops => after (step t op) ops

def Along (P : (η → Status) → Op η → Prop) (t : η → Status) : List (Op η) → Prop
  | [] => True
  | op :: ops => P t op ∧ Along P (step t op) ops

instance Along.decidable (P : (η → Status) → Op η → Prop) [∀ t op, Decidable (P t op)]
    (t : η → Status) (log : List (Op η)) : Decidable (Along P t log) :=
  match log with
  | [] => isTrue trivial
  | op :: ops =>
    have := Along.decidable P (step t op) ops
    inferInstanceAs (Decidable (P t op ∧ _))

def initial : η → Status := fun _ => .unknown

def Op.Safe (t : η → Status) : Op η → Prop
  | .opened _ => True
  | .used h | .closed h => t h ≠ .dead

def Op.Fresh (t : η → Status) : Op η → Prop
  | .opened h => t h ≠ .live
  | .used _ | .closed _ => True

instance (t : η → Status) : DecidablePred (Op.Fresh t)
  | .opened h => inferInstanceAs (Decidable (t h ≠ .live))
  | .used _ | .closed _ => inferInstanceAs (Decidable True)

def Fresh (log : List (Op η)) : Prop := Along Op.Fresh initial log

instance : DecidablePred (Fresh (η := η)) := fun log => inferInstanceAs (Decidable (Along _ _ log))

omit [DecidableEq η] in
def ClosedOnce (log : List (Op η)) : Prop :=
  ∀ before op rest h, log = before ++ op :: rest → op = .used h ∨ op = .closed h →
    ∀ earlier later, before = earlier ++ .closed h :: later → .opened h ∈ later

variable {P : (η → Status) → Op η → Prop} {t : η → Status} {a b log : List (Op η)} {h : η}

theorem after_append (t : η → Status) (a b : List (Op η)) :
    after t (a ++ b) = after (after t a) b := by
  induction a generalizing t with
  | nil => rfl
  | cons op ops ih => exact ih (step t op)

theorem along_append : Along P t (a ++ b) ↔ Along P t a ∧ Along P (after t a) b := by
  induction a generalizing t with
  | nil => simp [Along, after]
  | cons op ops ih => simp [Along, after, ih, and_assoc]

theorem Along.of_prefix (h : Along P t b) (hpre : a <+: b) : Along P t a := by
  obtain ⟨c, rfl⟩ := hpre
  exact (along_append.mp h).1

theorem along_iff :
    Along P t log ↔ ∀ before op rest, log = before ++ op :: rest → P (after t before) op := by
  induction log generalizing t with
  | nil => simp [Along]
  | cons op ops ih =>
    rw [Along, ih]
    constructor
    · intro h before other rest heq
      cases before with
      | nil =>
        obtain ⟨rfl, -⟩ := List.cons.inj heq
        exact h.1
      | cons first before =>
        obtain ⟨rfl, htail⟩ := List.cons.inj heq
        exact h.2 before other rest htail
    · intro h
      refine ⟨h [] op ops rfl, fun before other rest heq => ?_⟩
      exact h (op :: before) other rest (by rw [heq]; rfl)

@[simp] theorem after_uses (t : η → Status) (p : Option η) : after t (uses p) = t := by
  cases p <;> rfl

theorem after_closes {p : Option η} (hp : p ≠ some h) : after t (closes p) h = t h := by
  cases p with
  | none => rfl
  | some g =>
    have hne : h ≠ g := fun heq => hp (by rw [heq])
    simp [closes, after, step, Function.update_of_ne hne]

theorem safe_uses_iff {p : Option η} :
    Along Op.Safe t (uses p) ↔ ∀ g, p = some g → t g ≠ .dead := by
  cases p <;> simp [uses, Along, Op.Safe]

theorem safe_closes_iff {p : Option η} :
    Along Op.Safe t (closes p) ↔ ∀ g, p = some g → t g ≠ .dead := by
  cases p <;> simp [closes, Along, Op.Safe]

theorem after_of_not_opened (ht : t h = .dead) (hlog : Op.opened h ∉ log) :
    after t log h = .dead := by
  induction log generalizing t with
  | nil => exact ht
  | cons op ops ih =>
    rw [List.mem_cons, not_or] at hlog
    refine ih ?_ hlog.2
    cases op with
    | opened g =>
      have hne : h ≠ g := fun heq => hlog.1 (by rw [heq])
      simpa [step, Function.update_of_ne hne] using ht
    | used g => exact ht
    | closed g => by_cases heq : h = g <;> simp [step, heq, ht]

/-- A handle is dead once it has been closed and not opened again. -/
theorem after_eq_dead_iff (log : List (Op η)) :
    after initial log h = .dead ↔
      ∃ earlier later, log = earlier ++ .closed h :: later ∧ Op.opened h ∉ later := by
  constructor
  · intro hdead
    induction log using List.reverseRecOn with
    | nil => simp [after, initial] at hdead
    | append_singleton log op ih =>
      -- whatever leaves the handle dead or makes it so goes to the end of what is known
      have hkeep (hold : after initial log h = .dead) (hop : op ≠ .opened h) :
          ∃ earlier later, log ++ [op] = earlier ++ .closed h :: later ∧ Op.opened h ∉ later := by
        obtain ⟨earlier, later, rfl, hlater⟩ := ih hold
        exact ⟨earlier, later ++ [op], by simp, by simp [hlater, hop.symm]⟩
      rw [after_append] at hdead
      cases op with
      | opened g =>
        by_cases heq : h = g
        · subst heq
          simp [after, step] at hdead
        · refine hkeep ?_ (by simp [Ne.symm heq])
          simpa [after, step, Function.update_of_ne heq] using hdead
      | used g => exact hkeep hdead (by simp)
      | closed g =>
        by_cases heq : h = g
        · subst heq
          exact ⟨log, [], rfl, by simp⟩
        · refine hkeep ?_ (by simp)
          simpa [after, step, Function.update_of_ne heq] using hdead
  · intro h
    obtain ⟨earlier, later, rfl, hlater⟩ := h
    have hclosed : step (after initial earlier) (.closed h) h = .dead := by simp [step]
    rw [after_append, after]
    exact after_of_not_opened hclosed hlater

theorem closedOnce_iff : ClosedOnce log ↔ Along Op.Safe initial log := by
  have hop (before : List (Op η)) (op : Op η) : op.Safe (after initial before) ↔
      ∀ h, op = .used h ∨ op = .closed h → ∀ earlier later,
        before = earlier ++ .closed h :: later → Op.opened h ∈ later := by
    have hdead (h : η) : after initial before h ≠ .dead ↔ ∀ earlier later,
        before = earlier ++ .closed h :: later → Op.opened h ∈ later := by
      simp [after_eq_dead_iff]
    cases op with
    | opened g => simp [Op.Safe]
    | used g => simp [Op.Safe, hdead]
    | closed g => simp [Op.Safe, hdead]
  simp only [along_iff, hop]
  constructor
  · exact fun hlog before op rest heq h => hlog before op rest h heq
  · exact fun hlog before op rest h heq => hlog before op rest heq h

end HandleLog
