import ReminderSuite.SqlStatement

/-! The texts that the SQLite backend builds as statements, and which of its arguments they
hold. -/
namespace ReminderSuite
open Delimited FallibleRun SqlLexer Statement DBSQLite

theorem eraseLastTwo_append (s : Bytes) {t : Bytes} (h : t.length = 2) :
    eraseLastTwo (s ++ t) = s := by
  simp [eraseLastTwo, h]

theorem foldl_addValue (values : List Bytes) (init : Bytes) :
    values.foldl addValue init = init ++ values.flatMap fun v => literalText v ++ ascii ", " := by
  induction values generalizing init with
  | nil => simp
  | cons v vs ih =>
    simp [ih, addValue, literalText, show ascii "', " = ascii "'" ++ ascii ", " by decide]

theorem foldlM_addAssignment {fields : List Bytes} (before : List Bytes) {after : List Bytes}
    (h : after.length = fields.length) (init : Bytes) :
    fields.foldlM (addAssignment (before ++ after)) (init, before.length) =
      .ok (init ++ (fields.zip after).flatMap fun a => assignmentText a ++ ascii ", ",
        before.length + after.length) := by
  induction fields generalizing before after init with
  | nil =>
    simp at h
    simp [h]
  | cons f fs ih =>
    cases after with
    | nil => simp at h
    | cons v vs =>
      have hone : addAssignment (before ++ v :: vs) (init, before.length) f =
          .ok (init ++ (assignmentText (f, v) ++ ascii ", "), (before ++ [v]).length) := by
        simp [addAssignment, assignmentText, literalText,
          show ascii " = '" = ascii " = " ++ ascii "'" by decide,
          show ascii "', " = ascii "'" ++ ascii ", " by decide]
      have hrest := ih (before ++ [v]) (Nat.succ.inj h)
        (init ++ (assignmentText (f, v) ++ ascii ", "))
      rw [List.append_assoc, List.singleton_append] at hrest
      rw [List.foldlM_cons, hone, ok_bind, hrest]
      simp
      omega

theorem zip_ne_nil {fields fieldValues : List Bytes} (hne : fields ≠ [])
    (h : fieldValues.length = fields.length) : fields.zip fieldValues ≠ [] := by
  rw [← List.length_pos_iff, List.length_zip, h, Nat.min_self]
  exact List.length_pos_of_ne_nil hne

theorem updateSQL_eq {fields fieldValues : List Bytes} (hne : fields ≠ [])
    (h : fieldValues.length = fields.length) (name : Bytes) :
    updateSQL fields fieldValues name =
      .ok (text (.update (fields.zip fieldValues) name) ++ ascii ";") := by
  have hfold := foldlM_addAssignment [] h (ascii "update reminders set ")
  rw [List.nil_append, List.length_nil,
    flatMap_append_eq_intercalate _ _ (zip_ne_nil hne h), ← List.append_assoc] at hfold
  rw [updateSQL, hfold, ok_bind, eraseLastTwo_append _ rfl]
  simp [text, whereText, show ascii "';" = ascii "'" ++ ascii ";" by decide]

theorem insertSQL_eq {fieldValues : List Bytes} (hne : fieldValues ≠ []) :
    insertSQL fieldValues = text (.insert fieldValues) ++ ascii ";" := by
  rw [insertSQL, foldl_addValue, flatMap_append_eq_intercalate _ _ hne, ← List.append_assoc,
    eraseLastTwo_append _ rfl]
  simp [text, show ascii ");" = ascii ")" ++ ascii ";" by decide]

theorem getSQL_eq (name field : Bytes) :
    getSQL name field =
      text (.select (if field = [] then none else some field) name) ++ ascii ";" := by
  have hfixed : ascii " from reminders where name='" =
      ascii " from reminders" ++ ascii " where name='" := by decide
  by_cases hf : field = [] <;>
    simp [getSQL, text, whereText, hf, hfixed, show ascii "';" = ascii "'" ++ ascii ";" by decide]

theorem countSQL_eq (name : Bytes) : countSQL name = text (.count name) ++ ascii ";'" := by
  have hfixed : ascii "select count(name) from reminders where name='" =
      ascii "select count(name) from reminders" ++ ascii " where name='" := by decide
  simp [countSQL, text, whereText, hfixed, show ascii "';'" = ascii "'" ++ ascii ";'" by decide]

inductive SqlRequest where
  | get (name field : Bytes)
  | alreadyExists (name : Bytes)
  | set (name csvValues : Bytes) (existing : Bool)
deriving DecidableEq

namespace SqlRequest

/-- The text that is built, that of `alreadyExists` without its final terminator -/
def sql (fields : List Bytes) : SqlRequest → Except Fault Bytes
  | get name field => .ok (DBSQLite.getSQL name field)
  | alreadyExists name => .ok (eraseLastTwo (DBSQLite.countSQL name))
  | set name csvValues existing => DBSQLite.setSQL fields (tokens colon csvValues) name existing

def asked (fields : List Bytes) : SqlRequest → Statement
  | get name field => .select (if field = [] then none else some field) name
  | alreadyExists name => .count name
  | set name csvValues true => .update (fields.zip (tokens colon csvValues)) name
  | set _ csvValues false => .insert (tokens colon csvValues)

def Matching (fields : List Bytes) : SqlRequest → Prop
  | set _ csvValues _ => (tokens colon csvValues).length = fields.length
  | get _ _ | alreadyExists _ => True

/-- No argument that ends up in a literal holds a quote or a NUL, and no column name in the
text needs quotes. -/
def Harmless (reserved : Bytes → Bool) (fields : List Bytes) : SqlRequest → Prop
  | get name field => Quotable name ∧ (field = [] ∨ Bare reserved field)
  | alreadyExists name => Quotable name
  | set name csvValues true =>
    Quotable name ∧ Quotable csvValues ∧ ∀ field ∈ fields, Bare reserved field
  | set _ csvValues false => Quotable csvValues

instance (fields : List Bytes) : DecidablePred (Matching fields)
  | set _ csvValues _ => inferInstanceAs (Decidable ((tokens colon csvValues).length = _))
  | get _ _ | alreadyExists _ => inferInstanceAs (Decidable True)

instance (reserved : Bytes → Bool) (fields : List Bytes) : DecidablePred (Harmless reserved fields)
  | get name field => inferInstanceAs (Decidable (Quotable name ∧ (field = [] ∨ Bare _ field)))
  | alreadyExists name => inferInstanceAs (Decidable (Quotable name))
  | set name csvValues true =>
    inferInstanceAs (Decidable (Quotable name ∧ Quotable csvValues ∧ ∀ f ∈ fields, Bare _ f))
  | set _ csvValues false => inferInstanceAs (Decidable (Quotable csvValues))

theorem quotable_pieces_iff (csvValues : Bytes) :
    (∀ value ∈ tokens colon csvValues, Quotable value) ↔ Quotable csvValues := by
  unfold Quotable
  rw [forall₂_and, not_mem_tokens_iff (by decide), not_mem_tokens_iff (by decide)]

theorem safe_asked_iff {reserved : Bytes → Bool} {fields : List Bytes} {request : SqlRequest}
    (h : request.Matching fields) :
    Safe reserved (request.asked fields) ↔ request.Harmless reserved fields := by
  rw [safe_iff]
  cases request with
  | get name field => by_cases hf : field = [] <;> simp [asked, literals, columns, Harmless, hf]
  | alreadyExists name => simp [asked, literals, columns, Harmless]
  | set name csvValues existing =>
    have hpieces := quotable_pieces_iff csvValues
    cases existing with
    | false => simpa [asked, literals, columns, Harmless] using hpieces
    | true =>
      have hlength : (tokens colon csvValues).length = fields.length := h
      rw [asked, literals, columns, List.map_snd_zip (Nat.le_of_eq hlength),
        List.map_fst_zip (Nat.le_of_eq hlength.symm), List.forall_mem_append, hpieces,
        List.forall_mem_singleton, and_comm (a := Quotable csvValues), and_assoc]
      rfl

theorem listed_asked {fields : List Bytes} (hne : fields ≠ []) {request : SqlRequest}
    (h : request.Matching fields) : (request.asked fields).Listed := by
  cases request with
  | get _ _ | alreadyExists _ => trivial
  | set name csvValues existing =>
    cases existing with
    | false => exact tokens_ne_nil colon csvValues
    | true => exact zip_ne_nil hne h

theorem setSQL_eq {fields : List Bytes} (hne : fields ≠ []) {name csvValues : Bytes}
    {existing : Bool} (h : (set name csvValues existing).Matching fields) :
    setSQL fields (tokens colon csvValues) name existing =
      .ok (((set name csvValues existing).asked fields).text ++ ascii ";") := by
  cases existing with
  | false => exact congrArg Except.ok (insertSQL_eq (tokens_ne_nil _ _))
  | true => exact updateSQL_eq hne h name

theorem sql_eq {fields : List Bytes} (hne : fields ≠ []) {request : SqlRequest}
    (h : request.Matching fields) : ∃ rest ending, Ends rest ending ∧
      request.sql fields = .ok ((request.asked fields).text ++ rest) := by
  have hsemicolon : Ends (ascii ";") [.sym 59] := Or.inr ⟨rfl, rfl⟩
  cases request with
  | get name field => exact ⟨_, _, hsemicolon, congrArg Except.ok (getSQL_eq name field)⟩
  | alreadyExists name =>
    refine ⟨[], [], Or.inl ⟨rfl, rfl⟩, congrArg Except.ok ?_⟩
    rw [countSQL_eq, eraseLastTwo_append _ rfl, List.append_nil]
    rfl
  | set name csvValues existing => exact ⟨_, _, hsemicolon, setSQL_eq hne h⟩

/-- The text that is built is one statement that asks for what the caller has asked for
exactly where the arguments are harmless. -/
theorem sql_means_asked_iff {reserved : Bytes → Bool} (hwords : SqlWords reserved)
    {fields : List Bytes} (hne : fields ≠ []) {request : SqlRequest}
    (hmatch : request.Matching fields) :
    (∃ sql, request.sql fields = .ok sql ∧ Means reserved sql (request.asked fields)) ↔
      request.Harmless reserved fields := by
  obtain ⟨rest, ending, he, hsql⟩ := sql_eq hne hmatch
  have hmeans := means_text_iff hwords (listed_asked hne hmatch) he
  rw [← safe_asked_iff hmatch, ← hmeans, hsql]
  simp

/-- An update of a table of two columns -/
theorem sql_means_asked_update :
    ∃ sql, (set (ascii "bob") (ascii "bob:noon") true).sql [ascii "name", ascii "time"] = .ok sql ∧
      Means sqliteReserved sql (.update [(ascii "name", ascii "bob"), (ascii "time", ascii "noon")]
        (ascii "bob")) := by
  have hasked : (set (ascii "bob") (ascii "bob:noon") true).asked [ascii "name", ascii "time"] =
      .update [(ascii "name", ascii "bob"), (ascii "time", ascii "noon")] (ascii "bob") := by
    decide
  rw [← hasked]
  exact (sql_means_asked_iff sqlWords_sqlite (by simp) (by decide)).mpr
    (by decide)

/-- A name with a quote ends the literal and adds a statement. -/
theorem sql_of_quoted_name :
    ¬ ∀ reserved, SqlWords reserved → ∀ fields ≠ [], ∀ request : SqlRequest,
      request.Matching fields →
        ∃ sql, request.sql fields = .ok sql ∧ Means reserved sql (request.asked fields) := by
  intro h
  obtain ⟨sql, hsql, ending, hending, hlex⟩ := h sqliteReserved sqlWords_sqlite [ascii "name"]
    (by simp) (.get (ascii "x';vacuum;--") []) trivial
  cases hsql
  cases hending with
  | inl heq =>
    subst heq
    exact absurd hlex (by decide)
  | inr heq =>
    subst heq
    exact absurd hlex (by decide)

end SqlRequest
end ReminderSuite
