import ReminderSuite.TextFile

/-! The file format of the text backend: what `read` makes of any bytes, what
`save` writes for any store, and how far the two undo each other. -/
namespace ReminderSuite
open Delimited

def Plain (v : Bytes) : Prop := colon ∉ v ∧ lf ∉ v

instance (v : Bytes) : Decidable (Plain v) := inferInstanceAs (Decidable (_ ∧ _))

structure Representable (db : DBTextFile) : Prop where
  fields_ne : db.fields_ ≠ []
  fields_plain : ∀ f ∈ db.fields_, Plain f
  values_plain : ∀ e ∈ db.entries_, ∀ v ∈ e.values, Plain v

def load (contents : Bytes) : DBTextFile := (DBTextFile.fresh.read ⟨contents, true, true⟩).2

/-- The lines of a file: a single final line feed opens no further line, and the
empty file is one empty line. -/
def lines (contents : Bytes) : List Bytes :=
  (if contents.getLast? = some lf then contents.dropLast else contents).splitOn lf

theorem lines_eq_tokens (contents : Bytes) : lines contents = tokens lf contents :=
  (tokens_eq_splitOn lf contents).symm

/-- Each line, its last value terminated, followed by a line feed. -/
def canonical (contents : Bytes) : Bytes :=
  (lines contents).flatMap fun line =>
    (if line.getLast? = some colon then line else line ++ [colon]) ++ [lf]

theorem read_fresh {file : DiskFile} (h : file.opens = true) :
    DBTextFile.fresh.read file = (true, load file.contents) := by
  simp [load, DBTextFile.read, DBTextFile.fresh, h]

theorem load_of_tokens {contents first : Bytes} {rest : List Bytes}
    (h : tokens lf contents = first :: rest) :
    load contents = ⟨tokens colon first, rest.map Entry.ofLine⟩ := by
  simp [load, DBTextFile.read, DBTextFile.fresh, Entry.ofLine, h]

theorem serialise_eq (db : DBTextFile) :
    db.serialise = terminated lf
      (terminated colon db.fields_ :: db.entries_.map Entry.asString) := by
  simp [DBTextFile.serialise]

theorem asString_ofLine (line : Bytes) : (Entry.ofLine line).asString = closed colon line :=
  terminated_tokens colon line

theorem ofLine_asString {e : Entry} (h : ∀ v ∈ e.values, colon ∉ v) :
    Entry.ofLine e.asString = e :=
  Entry.ext_values (tokens_terminated e.values_ne h)

theorem plain_of_mem_token {line v : Bytes} (hl : lf ∉ line) (hv : v ∈ tokens colon line) :
    Plain v :=
  ⟨sep_not_mem_token hv, fun h => hl (mem_of_mem_token hv h)⟩

theorem load_representable (contents : Bytes) : Representable (load contents) := by
  obtain ⟨first, rest, h⟩ := List.exists_cons_of_ne_nil (tokens_ne_nil lf contents)
  have hlf : ∀ l ∈ first :: rest, lf ∉ l := fun l hl => sep_not_mem_token (h ▸ hl)
  rw [load_of_tokens h]
  refine ⟨tokens_ne_nil _ _, fun f hf => plain_of_mem_token (hlf first (by simp)) hf, ?_⟩
  intro e he v hv
  obtain ⟨line, hline, rfl⟩ := List.mem_map.mp he
  exact plain_of_mem_token (hlf line (List.mem_cons_of_mem first hline)) hv

theorem terminated_plain {ps : List Bytes} (h : ∀ p ∈ ps, Plain p) :
    lf ∉ terminated colon ps := by
  induction ps with
  | nil => simp
  | cons p ps ih =>
    have hp := (h p (by simp)).2
    have hps := ih fun q hq => h q (List.mem_cons_of_mem p hq)
    have hne : lf ≠ colon := by decide
    simp [hp, hps, hne]

/-- Reading what was saved gives the store back. -/
theorem load_serialise {db : DBTextFile} (h : Representable db) : load db.serialise = db := by
  have hlf : ∀ l ∈ terminated colon db.fields_ :: db.entries_.map Entry.asString, lf ∉ l := by
    intro l hl
    cases List.mem_cons.mp hl with
    | inl heq =>
      subst heq
      exact terminated_plain h.fields_plain
    | inr hl =>
      obtain ⟨e, he, rfl⟩ := List.mem_map.mp hl
      exact terminated_plain (h.values_plain e he)
  have htok := tokens_terminated (List.cons_ne_nil _ _) hlf
  rw [serialise_eq, load_of_tokens htok,
    tokens_terminated h.fields_ne fun f hf => (h.fields_plain f hf).1, List.map_map]
  have hent : db.entries_.map (Entry.ofLine ∘ Entry.asString) = db.entries_ := by
    conv_rhs => rw [← List.map_id db.entries_]
    apply List.map_congr_left
    intro e he
    exact ofLine_asString fun v hv => (h.values_plain e he v hv).1
  rw [hent]

theorem canonical_eq (contents : Bytes) :
    canonical contents = terminated lf ((tokens lf contents).map (closed colon)) := by
  simp only [canonical, lines_eq_tokens, terminated, closed, List.flatMap_map]

theorem serialise_load (contents : Bytes) : (load contents).serialise = canonical contents := by
  obtain ⟨first, rest, h⟩ := List.exists_cons_of_ne_nil (tokens_ne_nil lf contents)
  rw [serialise_eq, load_of_tokens h, canonical_eq, h, terminated_tokens, List.map_map,
    List.map_cons]
  congr 2
  apply List.map_congr_left
  intro line _
  exact asString_ofLine line

theorem load_canonical (contents : Bytes) : load (canonical contents) = load contents := by
  rw [← serialise_load, load_serialise (load_representable contents)]

/-- The codec of the file as a whole. Saving after reading writes the canonical
form of the bytes read, whatever they are; the canonical form reads like the
original and is written again unchanged; and every store with a field, whose
fields and values are free of ':' and line feeds, is read back as it was saved. -/
theorem file_codec :
    (∀ contents : Bytes,
      let file : DiskFile := ⟨contents, true, true⟩
      let db := (DBTextFile.fresh.read file).2
      let saved := (db.save file).2
      saved.contents = canonical contents ∧
      (DBTextFile.fresh.read saved).2 = db ∧
      ((DBTextFile.fresh.read saved).2.save saved).2 = saved) ∧
    ∀ (db : DBTextFile) (old : Bytes), db.fields_ ≠ [] →
      (∀ f ∈ db.fields_, colon ∉ f ∧ lf ∉ f) →
      (∀ e ∈ db.entries_, ∀ v ∈ e.values, colon ∉ v ∧ lf ∉ v) →
      DBTextFile.fresh.read (db.save ⟨old, true, true⟩).2 = (true, db) := by
  constructor
  · intro contents
    have hsaved : ((load contents).save ⟨contents, true, true⟩).2 =
        ⟨canonical contents, true, true⟩ := by
      simp [DBTextFile.save, serialise_load]
    have hagain : ((load contents).save ⟨canonical contents, true, true⟩).2 =
        ⟨canonical contents, true, true⟩ := by
      simp [DBTextFile.save, serialise_load]
    simp only [read_fresh, hsaved, load_canonical, hagain, and_self]
  · intro db old hne hf hv
    have hsave : (db.save ⟨old, true, true⟩).2 = ⟨db.serialise, true, true⟩ := by
      simp [DBTextFile.save]
    rw [hsave, read_fresh rfl, load_serialise ⟨hne, hf, hv⟩]

/-- A store with an empty last value and an empty record survives. -/
theorem file_codec_sample :
    let db : DBTextFile := ⟨[ascii "name", ascii "type"],
      [⟨[ascii "milk", []], by simp⟩, ⟨[[]], by simp⟩]⟩
    DBTextFile.fresh.read (db.save ⟨[], true, true⟩).2 = (true, db) :=
  file_codec.2 _ [] (by decide) (by decide) (by decide)

end ReminderSuite
