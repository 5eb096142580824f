import ReminderSuite.SqlStatement
import ReminderSuite.DBSQLite

/-! What the statements of the backend do to a table, and a library that does it. -/
namespace ReminderSuite
open Delimited SqlLexer

/-- A table whose columns all hold text, with its rows in the order of their insertion -/
structure Table where
  columns : List Bytes
  rows : List (List Bytes)
deriving DecidableEq

namespace Table

def cell (t : Table) (column : Bytes) (row : List Bytes) : Bytes :=
  (row[t.columns.idxOf column]?).getD []

def named (t : Table) (name : Bytes) : List (List Bytes) :=
  t.rows.filter fun row => t.cell (ascii "name") row == name

def assign (t : Table) (row : List Bytes) (a : Bytes × Bytes) : List Bytes :=
  row.set (t.columns.idxOf a.1) a.2

def Fits (t : Table) (stmt : Statement) : Prop :=
  (∀ column ∈ ascii "name" :: stmt.columns, column ∈ t.columns) ∧
    match stmt with
    | .insert values => values.length = t.columns.length
    | .select _ _ | .count _ | .update _ _ => True

def answer (t : Table) : Statement → List (List Bytes)
  | .select none name => t.named name
  | .select (some column) name => (t.named name).map fun row => [t.cell column row]
  | .count name => [[ascii (toString (t.named name).length)]]
  | .update _ _ | .insert _ => []

def effect (t : Table) : Statement → Table
  | .update assignments name =>
    { t with rows := t.rows.map fun row =>
        if t.cell (ascii "name") row = name then assignments.foldl t.assign row else row }
  | .insert values => { t with rows := t.rows ++ [values] }
  | .select _ _ | .count _ => t

theorem cell_name {t : Table} (h : t.columns.head? = some (ascii "name")) {row : List Bytes}
    (hrow : row ≠ []) : t.cell (ascii "name") row = row.head hrow := by
  obtain ⟨cs, hcs⟩ : ∃ cs, t.columns = ascii "name" :: cs := List.head?_eq_some_iff.mp h
  obtain ⟨v, vs, rfl⟩ := List.exists_cons_of_ne_nil hrow
  simp [cell, hcs]

theorem foldl_assign_append (t : Table) (before done : List Bytes) {cs values row : List Bytes}
    (hcs : t.columns = before ++ cs) (hnodup : t.columns.Nodup)
    (hdone : done.length = before.length) (hvalues : values.length = cs.length)
    (hrow : row.length = cs.length) :
    (cs.zip values).foldl t.assign (done ++ row) = done ++ values := by
  induction cs generalizing before done values row with
  | nil => simp_all
  | cons c cs ih =>
    obtain ⟨v, vs, rfl⟩ := List.exists_cons_of_length_pos (l := values) (by simp_all)
    obtain ⟨r, rs, rfl⟩ := List.exists_cons_of_length_pos (l := row) (by simp_all)
    have hidx : t.columns.idxOf c = done.length := by
      rw [hcs] at hnodup ⊢
      have hc : c ∉ before := fun hmem => (List.nodup_append.mp hnodup).2.2 c hmem c (by simp) rfl
      rw [List.idxOf_append_of_notMem hc, List.idxOf_cons_self, hdone, Nat.add_zero]
    have hone : t.assign (done ++ r :: rs) (c, v) = (done ++ [v]) ++ rs := by
      simp [assign, hidx]
    have hrest := ih (before ++ [c]) (done ++ [v]) (by simp [hcs]) (by simp [hdone])
      (Nat.succ.inj hvalues) (Nat.succ.inj hrow)
    rw [List.zip_cons_cons, List.foldl_cons, hone, hrest]
    simp

theorem foldl_assign {t : Table} (hnodup : t.columns.Nodup) {values row : List Bytes}
    (hvalues : values.length = t.columns.length) (hrow : row.length = t.columns.length) :
    (t.columns.zip values).foldl t.assign row = values :=
  t.foldl_assign_append [] [] rfl hnodup rfl hvalues hrow

end Table

namespace Statement

def isQuery : Statement → Bool
  | select _ _ | count _ => true
  | update _ _ | insert _ => false

def allTokens : List Token := [keyword "select", .sym 42, keyword "from", ident "reminders"]

theorem lex_getAllSQL {reserved : Bytes → Bool} (hwords : SqlWords reserved) :
    lex reserved DBSQLite.getAllSQL = allTokens := by
  have htext : DBSQLite.getAllSQL =
      ascii "select" ++ 32 :: 42 :: 32 :: (ascii "from" ++ 32 :: ascii "reminders") := by
    decide
  have hnul : 0 ∉ DBSQLite.getAllSQL := by decide
  have hbare : Bare reserved (ascii "reminders") :=
    ⟨by decide, (congrArg reserved (by decide)).trans (hwords.name "reminders" (by simp))⟩
  rw [lex, visible_of_nul_not_mem hnul, htext, scan_start_keyword hwords (by simp),
    scan_single (by decide), scan_start (by decide), scan_space, scan_keyword hwords (by simp),
    scan_word_end hbare.1, wordToken_of_bare hbare]
  rfl

/-- What may stand behind a query without hiding its rows: nothing, a `;`, or a `;` and a
statement that is none -/
def Behind (rest : List Token) : Prop := rest = [] ∨ rest = [.sym 59] ∨ rest = [.sym 59, .other]

end Statement
open Statement

def shown (rows : List (List Bytes)) : List (List Bytes) := rows.map (List.map cString)

/-- What is assumed of the SQLite library on databases with one table: it reads a text by the
lexical rules, and does what the statements mean. -/
structure SqliteMeaning {τ : Type} (reserved : Bytes → Bool) (lib : SQLite τ)
    (table : τ → Table) : Prop where
  all : ∀ text db, lex reserved text = allTokens →
    (lib.exec text db).1 = shown (table db).rows ∧ table (lib.exec text db).2 = table db
  query : ∀ text db stmt rest, stmt.isQuery = true → (table db).Fits stmt →
    lex reserved text = stmt.tokens ++ rest → Behind rest →
      (lib.exec text db).1 = shown ((table db).answer stmt) ∧
        table (lib.exec text db).2 = table db
  write : ∀ text db stmt, stmt.isQuery = false → (table db).Fits stmt →
    Means reserved text stmt →
      lib.prepare text db = true ∧ (lib.step text db).1 = .done ∧
        table (lib.step text db).2 = (table db).effect stmt

namespace Statement

def stringOf : Token → Option Bytes
  | .str v => some v
  | .keyword _ | .ident _ | .sym _ | .other => none

def nameOf : Token → Option Bytes
  | .ident n => some n
  | .keyword _ | .str _ | .sym _ | .other => none

/-- The only statement that tokens can be those of -/
def guess (toks : List Token) : Statement :=
  let strings := toks.filterMap stringOf
  let name := strings.getLast?.getD []
  match toks with
  | .keyword _ :: .ident _ :: .sym _ :: _ => .count name
  | .keyword w :: .ident column :: _ =>
    if w = ascii "update"
    then .update ((toks.filterMap nameOf).tail.dropLast.zip strings.dropLast) name
    else .select (some column) name
  | .keyword w :: _ => if w = ascii "insert" then .insert strings else .select none name
  | _ => .select none name

def read (toks : List Token) : Option Statement :=
  if (guess toks).tokens = toks then some (guess toks) else none

theorem filterMap_separated {α : Type} {f : Token → Option Bytes} (hcomma : f (.sym 44) = none)
    (item : α → List Token) (as : List α) :
    ([.sym 44].intercalate (as.map item)).filterMap f = as.flatMap fun a =>
      (item a).filterMap f := by
  induction as with
  | nil => rfl
  | cons a as ih =>
    cases as with
    | nil => simp
    | cons b bs =>
      simp only [List.map_cons, List.intercalate_cons_cons, List.filterMap_append] at ih ⊢
      simp [ih, hcomma]

theorem guess_tokens (stmt : Statement) : guess stmt.tokens = stmt := by
  cases stmt with
  | select column name => cases column <;> rfl
  | count name => rfl
  | update assignments name =>
    have hstrings : (tokens (.update assignments name)).filterMap stringOf =
        assignments.map Prod.snd ++ [name] := by
      rw [tokens, List.filterMap_append, List.filterMap_append, filterMap_separated rfl,
        List.map_eq_flatMap]
      rfl
    have hnames : ((tokens (.update assignments name)).filterMap nameOf).tail.dropLast =
        assignments.map Prod.fst := by
      have hwhere : (whereTokens name).filterMap nameOf = [ascii "name"] := rfl
      rw [tokens, List.filterMap_append, List.filterMap_append, filterMap_separated rfl,
        List.map_eq_flatMap, hwhere]
      exact List.dropLast_concat
    have hguess : guess (tokens (.update assignments name)) = .update
        (((tokens (.update assignments name)).filterMap nameOf).tail.dropLast.zip
          ((tokens (.update assignments name)).filterMap stringOf).dropLast)
        (((tokens (.update assignments name)).filterMap stringOf).getLast?.getD []) := rfl
    rw [hguess, hstrings, hnames, List.dropLast_concat, List.getLast?_concat, List.zip_map']
    simp
  | insert values =>
    have hstrings : (tokens (.insert values)).filterMap stringOf = values := by
      rw [tokens, List.filterMap_append, List.filterMap_append, filterMap_separated rfl]
      simp [stringOf, keyword, ident, List.filterMap_cons]
    have hguess : guess (tokens (.insert values)) =
        .insert ((tokens (.insert values)).filterMap stringOf) := rfl
    rw [hguess, hstrings]

theorem semicolon_not_mem_tokens (stmt : Statement) : Token.sym 59 ∉ stmt.tokens := by
  have hcomma : Token.sym 59 ∉ [Token.sym 44] := by decide
  cases stmt with
  | select column name => cases column <;> simp [tokens, whereTokens, keyword, ident]
  | count name => simp [tokens, whereTokens, keyword, ident]
  | update assignments name =>
    simp [tokens, whereTokens, not_mem_intercalate_iff _ hcomma, assignmentTokens, keyword, ident]
  | insert values => simp [tokens, not_mem_intercalate_iff _ hcomma, keyword, ident]

theorem tokens_ne (stmt : Statement) : stmt.tokens ≠ [] ∧ stmt.tokens ≠ allTokens := by
  have hwords : ascii "update" ≠ ascii "select" ∧ ascii "insert" ≠ ascii "select" := by
    decide
  cases stmt with
  | select column name => simp [tokens, allTokens, whereTokens]
  | count name => simp [tokens, allTokens]
  | update assignments name => simp [tokens, allTokens, keyword, hwords.1]
  | insert values => simp [tokens, allTokens, keyword, hwords.2]

theorem read_tokens (stmt : Statement) : read stmt.tokens = some stmt := by
  simp [read, guess_tokens]

end Statement

namespace Table

instance (t : Table) : DecidablePred t.Fits
  | .insert values => inferInstanceAs (Decidable (_ ∧ values.length = t.columns.length))
  | .select _ _ | .count _ | .update _ _ => inferInstanceAs (Decidable (_ ∧ True))

def perform (t : Table) (toks : List Token) : Option (List (List Bytes) × Table) :=
  if toks = [] then some ([], t)
  else if toks = allTokens then some (t.rows, t)
  else match Statement.read toks with
    | some stmt => if t.Fits stmt then some (t.answer stmt, t.effect stmt) else none
    | none => none

def performAll : List (List Token) → Table → List (List Bytes) × Table
  | [], t => ([], t)
  | toks :: rest, t =>
    match t.perform toks with
    | some (rows, t') => (rows ++ (performAll rest t').1, (performAll rest t').2)
    | none => ([], t)

def statements (text : Bytes) : List (List Token) :=
  Delimited.tokens (.sym 59) (lex sqliteReserved text)

def first (text : Bytes) : List Token := (statements text).headD []

theorem perform_tokens {t : Table} {stmt : Statement} (h : t.Fits stmt) :
    t.perform stmt.tokens = some (t.answer stmt, t.effect stmt) := by
  simp [perform, stmt.tokens_ne, read_tokens, h]

theorem statements_of_lex {text : Bytes} {toks rest : List Token} (h : Token.sym 59 ∉ toks)
    (hlex : lex sqliteReserved text = toks ++ rest) (hrest : Behind rest) :
    statements text = [toks] ∨ statements text = [toks, [.other]] := by
  rw [statements, hlex]
  obtain rfl | rfl | rfl := hrest
  · exact Or.inl (by rw [List.append_nil, tokens_of_sep_not_mem h])
  · exact Or.inl (by rw [tokens_append_sep h]; rfl)
  · refine Or.inr ?_
    rw [tokens_append_sep h]
    rfl

theorem perform_other (t : Table) : t.perform [.other] = none := rfl

end Table

/-- A library that does no more than these statements -/
def tableSQLite : SQLite Table where
  exec text t :=
    (shown (Table.performAll (Table.statements text) t).1,
      (Table.performAll (Table.statements text) t).2)
  prepare text t := (t.perform (Table.first text)).isSome
  step text t :=
    match t.perform (Table.first text) with
    | some (rows, t') =>
      if Table.first text = [] then (.misuse, t)
      else (if rows = [] then .done else .other, t')
    | none => (.misuse, t)

theorem exec_of_statements {text : Bytes} {t : Table} {toks : List Token}
    {rows : List (List Bytes)} (h : t.perform toks = some (rows, t))
    (hs : Table.statements text = [toks] ∨ Table.statements text = [toks, [.other]]) :
    tableSQLite.exec text t = (shown rows, t) := by
  cases hs with
  | inl hone => simp [tableSQLite, hone, Table.performAll, h]
  | inr htwo => simp [tableSQLite, htwo, Table.performAll, h, Table.perform_other]

theorem tableSQLite_meaning : SqliteMeaning sqliteReserved tableSQLite id where
  all := by
    intro text t hlex
    have hsemicolon : Token.sym 59 ∉ allTokens := by simp [allTokens, keyword, ident]
    have hs := Table.statements_of_lex hsemicolon (hlex.trans (List.append_nil _).symm) (Or.inl rfl)
    have hperform : t.perform allTokens = some (t.rows, t) := by
      simp [Table.perform, show allTokens ≠ [] by simp [allTokens]]
    rw [exec_of_statements hperform hs]
    exact ⟨rfl, rfl⟩
  query := by
    intro text t stmt rest hquery hfits hlex hrest
    have hs := Table.statements_of_lex stmt.semicolon_not_mem_tokens hlex hrest
    have heffect : t.effect stmt = t := by cases stmt <;> first | rfl | simp [isQuery] at hquery
    have hperform := Table.perform_tokens hfits
    rw [id, heffect] at hperform
    rw [exec_of_statements hperform hs]
    exact ⟨rfl, rfl⟩
  write := by
    intro text t stmt hquery hfits hmeans
    obtain ⟨ending, hending, hlex⟩ := hmeans
    have hs := Table.statements_of_lex stmt.semicolon_not_mem_tokens hlex (hending.imp_right Or.inl)
    have hfirst : Table.first text = stmt.tokens := by
      cases hs <;> simp_all [Table.first]
    have hanswer : t.answer stmt = [] := by cases stmt <;> first | rfl | simp [isQuery] at hquery
    have hperform := Table.perform_tokens hfits
    rw [id, hanswer] at hperform
    simp [tableSQLite, hfirst, hperform, stmt.tokens_ne]

end ReminderSuite
