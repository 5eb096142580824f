import ReminderSuite.HandleLog

/-! The database handles that the SQLite backend owns, from its first `read` over any number
of saves to its end. -/
namespace ReminderSuite
open HandleLog
variable {η : Type}

structure DBHandles (η : Type) where
  db_ : Option η
  worker_ : Option η
  log : List (Op η)
deriving DecidableEq

/-- How the calls in a `read` come out: the handles that the two `sqlite3_open` give, if they
succeed, and whether `sqlite3_errcode` reports an error of the backup. -/
structure ReadCalls (η : Type) where
  source : Option η
  memory : Option η
  backupFailed : Bool

structure SaveCalls (η : Type) where
  target : Option η
  backupFailed : Bool

namespace DBHandles

def start : DBHandles η := ⟨none, none, []⟩

def call (s : DBHandles η) (ops : List (Op η)) : DBHandles η := { s with log := s.log ++ ops }

/-- `db_.reset(p)`: the deleter closes what the pointer held before. -/
def resetDb (s : DBHandles η) (p : η) : DBHandles η := { s with db_ := some p }.call (closes s.db_)

def resetWorker (s : DBHandles η) (p : η) : DBHandles η :=
  { s with worker_ := some p }.call (closes s.worker_)

def openDB (opened : Option η) (s : DBHandles η) : Bool × DBHandles η :=
  match opened with
  | none => (false, s)
  | some db => (true, (s.call [.opened db]).resetDb db)

/-- The last step closes the handle and leaves it with its owner. What is done with the backup
object in between concerns no handle. -/
def read (calls : ReadCalls η) (s : DBHandles η) : Bool × DBHandles η :=
  match s.openDB calls.source with
  | (false, s) => (false, s)
  | (true, s) =>
    match calls.memory with
    | none => (false, s)
    | some inMemory =>
      let s := (s.call [.opened inMemory]).resetWorker inMemory
      let s := s.call (uses s.worker_ ++ uses s.db_)
      let s := s.call (uses s.worker_)
      if calls.backupFailed then (false, s) else (true, s.call (closes s.db_))

def save (calls : SaveCalls η) (s : DBHandles η) : Bool × DBHandles η :=
  match s.openDB calls.target with
  | (false, s) => (false, s)
  | (true, s) =>
    let s := s.call (uses s.db_ ++ uses s.worker_)
    let s := s.call (uses s.db_)
    if calls.backupFailed then (false, s) else (true, s)

/-- The destructor: members go in the reverse order of their declaration. -/
def destroy (s : DBHandles η) : DBHandles η := s.call (closes s.worker_ ++ closes s.db_)

def lifetime (first : ReadCalls η) (saves : List (SaveCalls η)) : DBHandles η :=
  (saves.foldl (fun s calls => (s.save calls).2) (start.read first).2).destroy

variable {s : DBHandles η}

theorem save_of_target_none {calls : SaveCalls η} (h : calls.target = none) :
    (s.save calls).2 = s := by
  simp [save, h, openDB]

theorem save_of_target {calls : SaveCalls η} {g : η} (h : calls.target = some g) :
    (s.save calls).2 = (((s.openDB (some g)).2.call (uses (some g))).call (uses s.worker_)).call
      (uses (some g)) := by
  cases hfailed : calls.backupFailed <;>
    simp [save, h, hfailed, openDB, call, resetDb]

theorem log_prefix_save (s : DBHandles η) (calls : SaveCalls η) :
    s.log <+: (s.save calls).2.log := by
  cases htarget : calls.target with
  | none => simp [save_of_target_none htarget]
  | some g =>
    rw [save_of_target htarget]
    simp [openDB, resetDb, call]

theorem log_prefix_saves (s : DBHandles η) (saves : List (SaveCalls η)) :
    s.log <+: (saves.foldl (fun s calls => (s.save calls).2) s).log := by
  induction saves generalizing s with
  | nil => exact List.prefix_refl _
  | cons calls saves ih => exact (log_prefix_save s calls).trans (ih _)

variable [DecidableEq η]

def status (s : DBHandles η) : η → Status := after initial s.log

structure Holding (s : DBHandles η) : Prop where
  safe : Along Op.Safe initial s.log
  db_live : ∀ h, s.db_ = some h → s.status h = .live
  worker_live : ∀ h, s.worker_ = some h → s.status h = .live
  distinct : ∀ h, s.db_ = some h → s.worker_ ≠ some h

/-- Something has gone wrong, or the owner of the file's handle holds one that is closed. -/
def Doomed (s : DBHandles η) : Prop :=
  ¬ Along Op.Safe initial s.log ∨ ∃ h, s.db_ = some h ∧ s.status h = .dead

theorem status_call (s : DBHandles η) (ops : List (Op η)) :
    (s.call ops).status = after s.status ops :=
  after_append _ _ _

theorem safe_call (s : DBHandles η) (ops : List (Op η)) :
    Along Op.Safe initial (s.call ops).log ↔
      Along Op.Safe initial s.log ∧ Along Op.Safe s.status ops :=
  along_append

theorem fresh_call (s : DBHandles η) (ops : List (Op η)) :
    Fresh (s.call ops).log ↔ Fresh s.log ∧ Along Op.Fresh s.status ops :=
  along_append

theorem Holding.call_uses (h : Holding s) {p : Option η}
    (hp : ∀ g, p = some g → s.status g = .live) :
    Holding (s.call (uses p)) := by
  have hstatus : (s.call (uses p)).status = s.status := by
    rw [status_call, after_uses]
  refine ⟨(safe_call s _).mpr ⟨h.safe, safe_uses_iff.mpr fun g hg => ?_⟩, ?_, ?_, h.distinct⟩
  · simp [hp g hg]
  · rw [hstatus]
    exact h.db_live
  · rw [hstatus]
    exact h.worker_live

theorem status_openDB (s : DBHandles η) (g : η) :
    (s.openDB (some g)).2.status = after (Function.update s.status g .live) (closes s.db_) := by
  have hopened : (s.call [.opened g]).status = Function.update s.status g .live := status_call s _
  rw [← hopened]
  exact status_call _ _

theorem safe_openDB (s : DBHandles η) (g : η) :
    Along Op.Safe initial (s.openDB (some g)).2.log ↔ Along Op.Safe initial s.log ∧
      Along Op.Safe (Function.update s.status g .live) (closes s.db_) := by
  have hopened : (s.call [.opened g]).status = Function.update s.status g .live := status_call s _
  have hboth := safe_call { s.call [.opened g] with db_ := some g } (closes s.db_)
  have hfirst := safe_call s [.opened g]
  simp only [Along, Op.Safe, and_true] at hfirst
  rw [← hopened, ← hfirst]
  exact hboth

theorem Holding.openDB (h : Holding s) {opened : Option η}
    (hfresh : Fresh (s.openDB opened).2.log) :
    Holding (s.openDB opened).2 := by
  cases opened with
  | none => exact h
  | some g =>
    have hnew : s.status g ≠ .live := by
      have hlog := ((fresh_call _ _).mp hfresh).1
      exact ((fresh_call s _).mp hlog).2.1
    have hdb : s.db_ ≠ some g := fun heq => hnew (h.db_live g heq)
    have hworker : s.worker_ ≠ some g := fun heq => hnew (h.worker_live g heq)
    have hlive (x : η) (hx : Function.update s.status g .live x = .live) (hne : s.db_ ≠ some x) :
        (s.openDB (some g)).2.status x = .live := by
      rw [status_openDB, after_closes hne]
      exact hx
    refine ⟨(safe_openDB s g).mpr ⟨h.safe, safe_closes_iff.mpr fun d hold => ?_⟩, fun x hx => ?_,
      fun x hx => ?_, fun x hx => ?_⟩
    · have hd : d ≠ g := fun heq => hdb (by rw [hold, heq])
      simp [Function.update_of_ne hd, h.db_live d hold]
    · obtain rfl : g = x := Option.some.inj hx
      exact hlive g (by simp) hdb
    · have hxg : x ≠ g := fun heq => hworker (heq ▸ hx)
      refine hlive x ?_ fun hd => h.distinct x hd hx
      rw [Function.update_of_ne hxg]
      exact h.worker_live x hx
    · obtain rfl : g = x := Option.some.inj hx
      exact hworker

theorem Holding.save (h : Holding s) {calls : SaveCalls η} (hfresh : Fresh (s.save calls).2.log) :
    Holding (s.save calls).2 := by
  cases htarget : calls.target with
  | none =>
    rw [save_of_target_none htarget]
    exact h
  | some g =>
    rw [save_of_target htarget] at hfresh ⊢
    have hopened : Holding (s.openDB (some g)).2 :=
      h.openDB ((fresh_call _ _).mp ((fresh_call _ _).mp ((fresh_call _ _).mp hfresh).1).1).1
    have hfirst := hopened.call_uses hopened.db_live
    have hsecond := hfirst.call_uses hfirst.worker_live
    exact hsecond.call_uses hsecond.db_live

theorem Holding.destroy (h : Holding s) : Along Op.Safe initial s.destroy.log := by
  refine (safe_call s _).mpr ⟨h.safe, along_append.mpr ⟨?_, ?_⟩⟩
  · exact safe_closes_iff.mpr fun w hw => by simp [h.worker_live w hw]
  · refine safe_closes_iff.mpr fun d hd => ?_
    rw [after_closes (h.distinct d hd), h.db_live d hd]
    decide

theorem Doomed.call (h : Doomed s) {ops : List (Op η)} (hops : ∀ g, Op.opened g ∉ ops) :
    Doomed (s.call ops) := by
  cases h with
  | inl hunsafe => exact Or.inl fun hsafe => hunsafe ((safe_call s ops).mp hsafe).1
  | inr hdead =>
    obtain ⟨d, hd, hstatus⟩ := hdead
    refine Or.inr ⟨d, hd, ?_⟩
    rw [status_call]
    exact after_of_not_opened hstatus (hops d)

/-- The next file either gets the closed handle, which the owner then closes again, or its
owner closes what is closed. -/
theorem Doomed.openDB (h : Doomed s) (opened : Option η) : Doomed (s.openDB opened).2 := by
  cases opened with
  | none => exact h
  | some g =>
    cases h with
    | inl hunsafe => exact Or.inl fun hsafe => hunsafe ((safe_openDB s g).mp hsafe).1
    | inr hdead =>
      obtain ⟨d, hd, hstatus⟩ := hdead
      by_cases hdg : d = g
      · subst hdg
        refine Or.inr ⟨d, rfl, ?_⟩
        rw [status_openDB, hd]
        simp [closes, after, step]
      · refine Or.inl fun hsafe => ?_
        have hclose := safe_closes_iff.mp ((safe_openDB s g).mp hsafe).2
        exact hclose d hd (by rw [Function.update_of_ne hdg, hstatus])

theorem Doomed.save (h : Doomed s) (calls : SaveCalls η) : Doomed (s.save calls).2 := by
  cases htarget : calls.target with
  | none =>
    rw [save_of_target_none htarget]
    exact h
  | some g =>
    rw [save_of_target htarget]
    exact (((h.openDB (some g)).call (not_opened_uses _)).call (not_opened_uses _)).call
      (not_opened_uses _)

theorem Doomed.destroy (h : Doomed s) : ¬ Along Op.Safe initial s.destroy.log := by
  intro hsafe
  obtain ⟨hbefore, hcloses⟩ := (safe_call s _).mp hsafe
  cases h with
  | inl hunsafe => exact hunsafe hbefore
  | inr hdead =>
    obtain ⟨d, hd, hstatus⟩ := hdead
    have hlast := safe_closes_iff.mp (along_append.mp hcloses).2
    exact hlast d hd (after_of_not_opened hstatus (not_opened_closes _ d))

theorem Holding.saves (h : Holding s) {saves : List (SaveCalls η)}
    (hfresh : Fresh (saves.foldl (fun s calls => (s.save calls).2) s).log) :
    Holding (saves.foldl (fun s calls => (s.save calls).2) s) := by
  induction saves generalizing s with
  | nil => exact h
  | cons calls saves ih =>
    have hnext : Fresh (s.save calls).2.log := hfresh.of_prefix (log_prefix_saves _ saves)
    exact ih (h.save hnext) hfresh

theorem Doomed.saves (h : Doomed s) (saves : List (SaveCalls η)) :
    Doomed (saves.foldl (fun s calls => (s.save calls).2) s) := by
  induction saves generalizing s with
  | nil => exact h
  | cons calls saves ih => exact ih (h.save calls)

/-- A `read` that fails leaves every handle with its owner. -/
theorem holding_read {calls : ReadCalls η}
    (hfails : calls.source = none ∨ calls.memory = none ∨ calls.backupFailed = true)
    (hfresh : Fresh (start.read calls).2.log) : Holding (start.read calls).2 := by
  obtain ⟨source, memory, failed⟩ := calls
  cases source with
  | none =>
    have hread : (start.read ⟨none, memory, failed⟩).2 = start := rfl
    rw [hread]
    exact ⟨trivial, by simp [start], by simp [start], by simp [start]⟩
  | some d =>
    cases memory with
    | none =>
      have hread : (start.read ⟨some d, none, failed⟩).2 = ⟨some d, none, [.opened d]⟩ := rfl
      rw [hread]
      refine ⟨⟨trivial, trivial⟩, ?_, by simp, by simp⟩
      simp [status, after, step]
    | some m =>
      obtain rfl : failed = true := by simpa using hfails
      have hread : (start.read ⟨some d, some m, true⟩).2 =
          ⟨some d, some m, [.opened d, .opened m, .used m, .used d, .used m]⟩ := rfl
      rw [hread] at hfresh ⊢
      have hne : d ≠ m := by
        intro heq
        subst heq
        exact hfresh.2.1 (by simp [step])
      refine ⟨?_, ?_, ?_, ?_⟩
      · simp [Along, Op.Safe, step, Function.update_of_ne hne]
      · simp [status, after, step, Function.update_of_ne hne]
      · simp [status, after, step]
      · simpa using hne.symm

/-- A `read` that succeeds closes the file's handle, which stays where it was. -/
theorem doomed_read {calls : ReadCalls η} (hsource : calls.source ≠ none)
    (hmemory : calls.memory ≠ none) (hbackup : calls.backupFailed = false) :
    Doomed (start.read calls).2 := by
  obtain ⟨d, hd⟩ := Option.ne_none_iff_exists'.mp hsource
  obtain ⟨m, hm⟩ := Option.ne_none_iff_exists'.mp hmemory
  have hread : (start.read calls).2 =
      call ⟨some d, some m, [.opened d, .opened m, .used m, .used d, .used m]⟩ [.closed d] := by
    simp [read, openDB, resetDb, resetWorker, call, start, uses, closes, hd, hm, hbackup]
  rw [hread]
  refine Or.inr ⟨d, rfl, ?_⟩
  rw [status_call]
  simp [after, step]

/-- For every outcome of the calls in a first `read` and any number of saves, as long as an
open gives no handle that is in use: up to the end of the object no handle is passed to the
library once it has been closed exactly when the `read` fails. -/
theorem handles_closed_once_iff (first : ReadCalls η) (saves : List (SaveCalls η))
    (hfresh : Fresh (lifetime first saves).log) :
    ClosedOnce (lifetime first saves).log ↔
      first.source = none ∨ first.memory = none ∨ first.backupFailed = true := by
  rw [closedOnce_iff]
  by_cases hfails : first.source = none ∨ first.memory = none ∨ first.backupFailed = true
  · refine iff_of_true ?_ hfails
    have hsaves := ((fresh_call _ _).mp hfresh).1
    have hread := hsaves.of_prefix (log_prefix_saves (start.read first).2 saves)
    exact ((holding_read hfails hread).saves hsaves).destroy
  · refine iff_of_false ?_ hfails
    rw [not_or, not_or, Bool.not_eq_true] at hfails
    exact ((doomed_read hfails.1 hfails.2.1 hfails.2.2).saves saves).destroy

/-- A file whose backup fails, and two saves, of which the second cannot open it -/
theorem handles_closed_once_iff_sample :
    ClosedOnce (lifetime ⟨some 0, some 1, true⟩ [⟨some 2, false⟩, ⟨none, false⟩]).log :=
  (handles_closed_once_iff ⟨some 0, some 1, true⟩ [⟨some 2, false⟩, ⟨none, false⟩]
    (by decide)).mpr (by decide)

/-- The handle of the file that was read is closed once more when the object goes. -/
theorem file_handle_closed_twice :
    (lifetime ⟨some 0, some 1, false⟩ []).log = [.opened 0, .opened 1, .used 1, .used 0, .used 1,
      .closed 0, .closed 1, .closed 0] ∧
    ¬ ClosedOnce (lifetime ⟨some 0, some 1, false⟩ []).log := by
  refine ⟨rfl, fun h => ?_⟩
  have hreopened := h [.opened 0, .opened 1, .used 1, .used 0, .used 1, .closed 0, .closed 1]
    (.closed 0) [] 0 rfl (Or.inr rfl) [.opened 0, .opened 1, .used 1, .used 0, .used 1]
    [.closed 1] rfl
  exact absurd hreopened (by decide)

end DBHandles
end ReminderSuite
