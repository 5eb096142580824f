import ReminderSuite.TextStore
import ReminderSuite.TextFileCodec

/-! What the mutating calls of the text backend report, against what they did to the
records in memory and to the file. -/
namespace ReminderSuite
open FirstMatch

def Call.Mutates : Call → Prop
  | .set _ _ | .setField _ _ _ | .erase _ | .save => True
  | .fields | .getAll | .get _ _ => False

/-- The effect that a mutating call is asked for, between two states: the record stored
under its name or behind all others, the cell given its value, the first entry of the
name removed, the file holding the records as `save` writes them. -/
def TookPlace (s s' : TextStore) : Call → Prop
  | .set name record =>
    (s.db.findName name = none ∧ s'.db.entries_ = s.db.entries_ ++ [Entry.ofLine record]) ∨
    ∃ it, s.db.Found name it ∧ s'.db.entries_ = it.write (Entry.ofLine record)
  | .setField name field value =>
    ∃ it idx, s.db.Found name it ∧ s.db.findField field = some idx ∧ idx < it.here.values.length ∧
      s'.db.entries_ = it.write (it.here.put idx value)
  | .erase name => ∃ it, s.db.Found name it ∧ s'.db.entries_ = it.erase
  | .save => s'.file.contents = s.db.serialise
  | .fields | .getAll | .get _ _ => False

/-- The call returns true exactly when its effect took place, and false only when
neither the records nor the file have changed. -/
def Truthful (c : Call) (s : TextStore) : Prop :=
  ∃ done, textLibrary.invoke c s = .ok (.flag done, c.effect s) ∧
    (done = true ↔ TookPlace s (c.effect s) c) ∧ (done = false → c.effect s = s)

theorem truthful_of_cases {c : Call} {s : TextStore} {done : Bool}
    (hi : textLibrary.invoke c s = .ok (.flag done, c.effect s))
    (h : (done = true ∧ TookPlace s (c.effect s) c) ∨
      (done = false ∧ c.effect s = s ∧ ¬ TookPlace s s c)) : Truthful c s := by
  refine ⟨done, hi, ?_⟩
  cases h with
  | inl hdone => simp [hdone.1, hdone.2]
  | inr hfailed =>
    obtain ⟨hdone, hsame, hnot⟩ := hfailed
    rw [hsame]
    simp [hdone, hnot]

theorem truthful_set (s : TextStore) (name record : Bytes) : Truthful (.set name record) s := by
  refine truthful_of_cases (invoke_text _ s) (Or.inl ?_)
  cases DBTextFile.set_cases s.db name record with
  | inl habsent =>
    obtain ⟨hn, hs⟩ := habsent
    exact ⟨by rw [hs], Or.inl ⟨hn, by simp [effect_eq, hs]⟩⟩
  | inr hfound =>
    obtain ⟨it, hit, hs⟩ := hfound
    exact ⟨by rw [hs], Or.inr ⟨it, hit, by simp [effect_eq, hs]⟩⟩

theorem truthful_setField (s : TextStore) (name field value : Bytes) :
    Truthful (.setField name field value) s := by
  refine truthful_of_cases (invoke_text _ s) ?_
  cases DBTextFile.setField_cases s.db name field value with
  | inl habsent =>
    obtain ⟨hc, hs⟩ := habsent
    refine Or.inr ⟨by rw [hs], by simp [effect_eq, hs], ?_⟩
    intro h
    obtain ⟨it, idx, hit, hidx, hlt, -⟩ := h
    simp [DBTextFile.cell?, DBTextFile.findName_of_found hit, hidx, hlt] at hc
  | inr hfound =>
    obtain ⟨it, idx, hit, hidx, hlt, -, hs⟩ := hfound
    exact Or.inl ⟨by rw [hs], it, idx, hit, hidx, hlt, by simp [effect_eq, hs]⟩

theorem truthful_erase (s : TextStore) (name : Bytes) : Truthful (.erase name) s := by
  refine truthful_of_cases (invoke_text _ s) ?_
  cases DBTextFile.erase_cases s.db name with
  | inl habsent =>
    obtain ⟨hn, hs⟩ := habsent
    refine Or.inr ⟨by rw [hs], by simp [effect_eq, hs], ?_⟩
    intro h
    obtain ⟨it, hit, -⟩ := h
    exact absurd (DBTextFile.findName_of_found hit) (by simp [hn])
  | inr hfound =>
    obtain ⟨it, hit, hs⟩ := hfound
    exact Or.inl ⟨by rw [hs], it, hit, by simp [effect_eq, hs]⟩

/-- A save reports failure whether it wrote the file or not. -/
theorem truthful_save_iff (s : TextStore) :
    Truthful .save s ↔ s.file.overwrites = false ∧ s.file.contents ≠ s.db.serialise := by
  have hi : textLibrary.invoke .save s = .ok (.flag false, Call.save.effect s) := by
    rw [invoke_text]
    cases hw : s.file.overwrites <;> simp [DBTextFile.save, effect_eq, hw]
  cases hw : s.file.overwrites with
  | true =>
    refine iff_of_false ?_ (by simp)
    intro h
    obtain ⟨done, hcall, htook, -⟩ := h
    have hdone : done = false := by simpa [hi, eq_comm] using hcall
    have hwritten : TookPlace s (Call.save.effect s) .save := by
      simp [TookPlace, effect_eq, DBTextFile.save, hw]
    simp [htook.mpr hwritten] at hdone
  | false =>
    have hsame : Call.save.effect s = s := by simp [effect_eq, DBTextFile.save, hw]
    constructor
    · intro h
      obtain ⟨done, hcall, htook, -⟩ := h
      have hdone : done = false := by simpa [hi, eq_comm] using hcall
      refine ⟨rfl, fun heq => ?_⟩
      rw [hsame] at htook
      simp [htook.mpr heq] at hdone
    · intro h
      obtain ⟨-, hne⟩ := h
      exact truthful_of_cases hi (Or.inr ⟨rfl, hsame, hne⟩)

/-- For every state of the records and of the file: a mutating call reports exactly
whether its effect took place and fails without one, unless it is a save. A save does
so exactly when the file cannot be opened and does not hold the records already. -/
theorem truthful_iff (c : Call) (s : TextStore) (hc : c.Mutates) :
    Truthful c s ↔
      (c = .save → s.file.overwrites = false ∧ s.file.contents ≠ s.db.serialise) := by
  cases c with
  | set name record => simpa using truthful_set s name record
  | setField name field value => simpa using truthful_setField s name field value
  | erase name => simpa using truthful_erase s name
  | save => simpa using truthful_save_iff s
  | fields => exact hc.elim
  | getAll => exact hc.elim
  | get name field => exact hc.elim

/-- A field update that fails, on a record without a value for the field -/
theorem truthful_iff_sample :
    let s : TextStore := ⟨load (ascii "name:note\nmilk\n"), ⟨ascii "name:note\nmilk\n", true, true⟩⟩
    Truthful (.setField (ascii "milk") (ascii "note") (ascii "two")) s ∧
    textLibrary.invoke (.setField (ascii "milk") (ascii "note") (ascii "two")) s =
      .ok (.flag false, s) := by
  intro s
  exact ⟨(truthful_iff (.setField (ascii "milk") (ascii "note") (ascii "two")) s trivial).mpr nofun,
    by decide⟩

/-- A save that writes the file returns false. -/
theorem save_reports_failure :
    let s : TextStore :=
      ⟨load (ascii "name:note\nmilk:x\n"), ⟨ascii "name:note\nmilk:x\n", true, true⟩⟩
    let written := ascii "name:note:\nmilk:x:\n"
    textLibrary.invoke .save s = .ok (.flag false, ⟨s.db, ⟨written, true, true⟩⟩) ∧
    s.db.serialise = written ∧ s.file.contents ≠ written ∧ ¬ Truthful .save s := by
  intro s written
  refine ⟨by decide, by decide, by decide, fun h => ?_⟩
  exact absurd ((truthful_save_iff s).mp h).1 (by decide)

end ReminderSuite
