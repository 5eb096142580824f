import ReminderSuite.DBSQLite
import ReminderSuite.SqlLexer

/-! What the texts that the SQLite backend builds mean under the lexical rules of SQLite. -/
namespace ReminderSuite
open Delimited SqlLexer Transducer

inductive Statement where
  /-- of all columns, or of one -/
  | select (column : Option Bytes) (name : Bytes)
  | count (name : Bytes)
  | update (assignments : List (Bytes × Bytes)) (name : Bytes)
  | insert (values : List Bytes)
deriving DecidableEq

namespace Statement

def keyword (s : String) : Token := .keyword (ascii s)
def ident (s : String) : Token := .ident (ascii s)

def whereTokens (name : Bytes) : List Token :=
  [keyword "where", ident "name", .sym 61, .str name]

def assignmentTokens (a : Bytes × Bytes) : List Token := [.ident a.1, .sym 61, .str a.2]

def tokens : Statement → List Token
  | select column name =>
    keyword "select" :: column.elim (.sym 42) .ident :: keyword "from" :: ident "reminders" ::
      whereTokens name
  | count name =>
    [keyword "select", ident "count", .sym 40, ident "name", .sym 41, keyword "from",
      ident "reminders"] ++ whereTokens name
  | update assignments name =>
    [keyword "update", ident "reminders", keyword "set"] ++
      [.sym 44].intercalate (assignments.map assignmentTokens) ++ whereTokens name
  | insert values =>
    [keyword "insert", keyword "into", ident "reminders", keyword "values", .sym 40] ++
      [.sym 44].intercalate (values.map fun v => [.str v]) ++ [.sym 41]

/-- A text that is one statement and nothing else, with or without its `;` -/
def Means (reserved : Bytes → Bool) (text : Bytes) (stmt : Statement) : Prop :=
  ∃ ending, (ending = [] ∨ ending = [.sym 59]) ∧ lex reserved text = stmt.tokens ++ ending

def whereText (name : Bytes) : Bytes := ascii " where name='" ++ name ++ ascii "'"

def literalText (value : Bytes) : Bytes := ascii "'" ++ value ++ ascii "'"

def assignmentText (a : Bytes × Bytes) : Bytes := a.1 ++ ascii " = " ++ literalText a.2

def text : Statement → Bytes
  | select column name =>
    ascii "select " ++ column.getD (ascii "*") ++ ascii " from reminders" ++ whereText name
  | count name => ascii "select count(name) from reminders" ++ whereText name
  | update assignments name =>
    ascii "update reminders set " ++
      (ascii ", ").intercalate (assignments.map assignmentText) ++ whereText name
  | insert values =>
    ascii "insert into reminders values (" ++
      (ascii ", ").intercalate (values.map literalText) ++ ascii ")"

def literals : Statement → List Bytes
  | select _ name | count name => [name]
  | update assignments name => assignments.map Prod.snd ++ [name]
  | insert values => values

def columns : Statement → List Bytes
  | select column _ => column.toList
  | update assignments _ => assignments.map Prod.fst
  | count _ | insert _ => []

def Listed : Statement → Prop
  | update assignments _ => assignments ≠ []
  | insert values => values ≠ []
  | select _ _ | count _ => True

/-- A literal between quotes that is read as what it was written for -/
def Quotable (value : Bytes) : Prop := 39 ∉ value ∧ 0 ∉ value

instance : DecidablePred Quotable := fun _ => inferInstanceAs (Decidable (_ ∧ _))

structure Safe (reserved : Bytes → Bool) (stmt : Statement) : Prop where
  literals : ∀ value ∈ stmt.literals, Quotable value
  columns : ∀ column ∈ stmt.columns, Bare reserved column

theorem safe_iff {reserved : Bytes → Bool} {stmt : Statement} : Safe reserved stmt ↔
    (∀ value ∈ stmt.literals, Quotable value) ∧ ∀ column ∈ stmt.columns, Bare reserved column :=
  ⟨fun h => ⟨h.literals, h.columns⟩, fun h => ⟨h.1, h.2⟩⟩

end Statement

/-- The words of the statements that SQLite reads as keywords, and those that it does not -/
structure SqlWords (reserved : Bytes → Bool) : Prop where
  keyword : ∀ w ∈ ["select", "from", "where", "update", "set", "insert", "into", "values"],
    reserved (ascii w) = true
  name : ∀ w ∈ ["reminders", "name", "count"], reserved (ascii w) = false

/-- The keywords that SQLite takes for a name nowhere -/
def sqliteKeywords : List Bytes :=
  ["add", "all", "alter", "and", "as", "autoincrement", "between", "case", "check", "collate",
    "commit", "constraint", "create", "default", "deferrable", "delete", "distinct", "drop",
    "else", "escape", "except", "exists", "foreign", "from", "group", "having", "in", "index",
    "insert", "intersect", "into", "is", "isnull", "join", "limit", "not", "nothing", "notnull",
    "null", "on", "or", "order", "primary", "references", "returning", "select", "set", "table",
    "then", "to", "transaction", "union", "unique", "update", "using", "values", "when",
    "where"].map ascii

def sqliteReserved (w : Bytes) : Bool := w ∈ sqliteKeywords

theorem sqlWords_sqlite : SqlWords sqliteReserved := ⟨by decide, by decide⟩

namespace Statement
theorem whereText_append (name rest : Bytes) : whereText name ++ rest =
    32 :: (ascii "where" ++ 32 :: (ascii "name" ++ 61 :: 39 :: (name ++ 39 :: rest))) := by
  have hfixed : ascii " where name='" =
      32 :: (ascii "where" ++ 32 :: (ascii "name" ++ [61, 39])) := by decide
  simp [whereText, hfixed, show ascii "'" = [39] by decide]

theorem fromText_append (name rest : Bytes) : ascii " from reminders" ++ whereText name ++ rest =
    32 :: (ascii "from" ++ 32 :: (ascii "reminders" ++ (whereText name ++ rest))) := by
  have hfixed : ascii " from reminders" = 32 :: (ascii "from" ++ 32 :: ascii "reminders") := by
    decide
  simp [hfixed]

theorem fromText_eq (name rest : Bytes) : ascii " from reminders" ++ whereText name ++ rest =
    32 :: (ascii "from reminders where name=" ++ 39 :: (name ++ 39 :: rest)) := by
  have hfixed : ascii "from reminders where name=" =
      ascii "from" ++ 32 :: (ascii "reminders" ++ 32 :: (ascii "where" ++ 32 ::
        (ascii "name" ++ [61]))) := by decide
  rw [fromText_append, whereText_append, hfixed]
  simp

def Ends (rest : Bytes) (ending : List Token) : Prop :=
  rest = [] ∧ ending = [] ∨ rest = [59] ∧ ending = [.sym 59]

theorem Ends.scan_strEnd {reserved : Bytes → Bool} {rest : Bytes} {ending : List Token}
    (h : Ends rest ending) (v : Bytes) :
    scan reserved (.strEnd v) rest = .str v :: ending := by
  obtain ⟨rfl, rfl⟩ | ⟨rfl, rfl⟩ := h
  · rfl
  · rw [SqlLexer.scan_strEnd (by decide)]
    rfl

theorem Ends.scan_start {reserved : Bytes → Bool} {rest : Bytes} {ending : List Token}
    (h : Ends rest ending) : scan reserved .start rest = ending := by
  obtain ⟨rfl, rfl⟩ | ⟨rfl, rfl⟩ := h <;> rfl

theorem Ends.count_eq_zero {rest : Bytes} {ending : List Token} (h : Ends rest ending) :
    rest.count 39 = 0 := by
  obtain ⟨rfl, -⟩ | ⟨rfl, -⟩ := h <;> rfl

theorem Ends.nul_not_mem {rest : Bytes} {ending : List Token} (h : Ends rest ending) :
    0 ∉ rest := by
  obtain ⟨rfl, -⟩ | ⟨rfl, -⟩ := h <;> decide

section Reading
variable {reserved : Bytes → Bool} (hwords : SqlWords reserved) {rest : Bytes}
include hwords

theorem wordToken_keyword {w : String}
    (h : w ∈ ["select", "from", "where", "update", "set", "insert", "into", "values"]) :
    isWord (ascii w) = true ∧ wordToken reserved (ascii w) = keyword w := by
  have hword : ∀ w ∈ ["select", "from", "where", "update", "set", "insert", "into", "values"],
      isWord (ascii w) = true ∧ (ascii w).map toLower = ascii w := by decide
  obtain ⟨hw, hlower⟩ := hword w h
  exact ⟨hw, by simp [wordToken, hlower, hwords.keyword w h, keyword]⟩

theorem scan_keyword {w : String}
    (h : w ∈ ["select", "from", "where", "update", "set", "insert", "into", "values"])
    (rest : Bytes) :
    scan reserved .space (ascii w ++ 32 :: rest) = keyword w :: scan reserved .space rest := by
  obtain ⟨hw, htoken⟩ := wordToken_keyword hwords h
  rw [scan_word hw (by decide) (by decide), scan_start (by decide), scan_space, htoken]

theorem scan_ident {w : String} (h : w ∈ ["reminders", "name", "count"]) {c : UInt8}
    (hc : idChar c = false) (hq : c ≠ 39) (hv : c ≠ 11) (rest : Bytes) :
    scan reserved .space (ascii w ++ c :: rest) =
      ident w :: scan reserved .space (c :: rest) := by
  have hword : ∀ w ∈ ["reminders", "name", "count"],
      isWord (ascii w) = true ∧ (ascii w).map toLower = ascii w := by decide
  obtain ⟨hw, hlower⟩ := hword w h
  have hbare : Bare reserved (ascii w) := ⟨hw, by rw [hlower, hwords.name w h]⟩
  rw [scan_word hw hc hq, scan_start hv, wordToken_of_bare hbare, ident]

theorem scan_start_keyword {w : String}
    (h : w ∈ ["select", "from", "where", "update", "set", "insert", "into", "values"])
    (rest : Bytes) :
    scan reserved .start (ascii w ++ 32 :: rest) = keyword w :: scan reserved .space rest := by
  rw [scan_start_word (wordToken_keyword hwords h).1, scan_keyword hwords h]

theorem scan_where {name : Bytes} (hq : 39 ∉ name) {rest : Bytes} {ending : List Token}
    (he : scan reserved (.strEnd name) rest = .str name :: ending) :
    scan reserved .space (whereText name ++ rest) = whereTokens name ++ ending := by
  rw [whereText_append, scan_space, scan_keyword hwords (by simp), scan_ident hwords (by simp)
    (by decide) (by decide) (by decide), scan_equals (by decide), scan_start (by decide),
    scan_literal hq, he]
  rfl

theorem scan_from {name : Bytes} (hq : 39 ∉ name) {rest : Bytes} {ending : List Token}
    (he : scan reserved (.strEnd name) rest = .str name :: ending) :
    scan reserved .space (ascii " from reminders" ++ whereText name ++ rest) =
      keyword "from" :: ident "reminders" :: whereTokens name ++ ending := by
  have hwhere := scan_where hwords hq he
  rw [whereText_append] at hwhere
  rw [fromText_append, scan_space, scan_keyword hwords (by simp), whereText_append,
    scan_ident hwords (by simp) (by decide) (by decide) (by decide), hwhere]
  rfl

omit hwords

theorem scan_strEnd_comma (v rest : Bytes) :
    scan reserved (.strEnd v) (ascii ", " ++ rest) =
      .str v :: .sym 44 :: scan reserved .space rest := by
  have hcomma : ascii ", " ++ rest = 44 :: 32 :: rest := rfl
  rw [hcomma, scan_strEnd (by decide), scan_start (by decide), scan_single (by decide),
    scan_start (by decide), scan_space]

theorem assignmentText_append (a : Bytes × Bytes) (rest : Bytes) :
    assignmentText a ++ rest = a.1 ++ 32 :: ([61, 32] ++ 39 :: (a.2 ++ 39 :: rest)) := by
  have hfixed : ascii " = " = [32, 61, 32] ∧ ascii "'" = [39] := by decide
  simp [assignmentText, literalText, hfixed]

theorem scan_value {v : Bytes} (hq : 39 ∉ v) (rest : Bytes) :
    scan reserved .space ([61, 32] ++ 39 :: (v ++ 39 :: rest)) =
      .sym 61 :: scan reserved (.strEnd v) rest := by
  rw [List.cons_append, List.cons_append, List.nil_append, scan_equals (by decide),
    scan_start (by decide), scan_space, scan_literal hq]

theorem scan_assignment {a : Bytes × Bytes} (hq : 39 ∉ a.2) (hb : Bare reserved a.1)
    (rest : Bytes) :
    scan reserved .space (assignmentText a ++ rest) =
      .ident a.1 :: .sym 61 :: scan reserved (.strEnd a.2) rest := by
  rw [assignmentText_append, scan_word hb.1 (by decide) (by decide), scan_start (by decide),
    scan_space, scan_value hq, wordToken_of_bare hb]

theorem scan_literalText {v : Bytes} (hq : 39 ∉ v) (rest : Bytes) :
    scan reserved .space (literalText v ++ rest) = scan reserved (.strEnd v) rest := by
  have hquote : literalText v ++ rest = 39 :: (v ++ 39 :: rest) := by
    simp [literalText, show ascii "'" = [39] by decide]
  rw [hquote, scan_literal hq]

theorem scan_separated {α : Type} (item : α → Bytes) (itemTokens : α → List Token)
    (value : α → Bytes) {as : List α} {R : List Token} (hne : as ≠ [])
    (hitem : ∀ a ∈ as, ∀ rest R, scan reserved (.strEnd (value a)) rest = .str (value a) :: R →
      scan reserved .space (item a ++ rest) = itemTokens a ++ R)
    (hrest : ∀ v, scan reserved (.strEnd v) rest = .str v :: R) :
    scan reserved .space ((ascii ", ").intercalate (as.map item) ++ rest) =
      [.sym 44].intercalate (as.map itemTokens) ++ R := by
  induction as with
  | nil => exact absurd rfl hne
  | cons a as ih =>
    rw [List.forall_mem_cons] at hitem
    cases as with
    | nil => simpa using hitem.1 rest R (hrest (value a))
    | cons b bs =>
      have htail := ih (by simp) hitem.2
      simp only [List.map_cons, List.intercalate_cons_cons, List.append_assoc] at htail ⊢
      exact hitem.1 _ _ (by rw [scan_strEnd_comma, htail]; rfl)

theorem count_separated {α : Type} {item : α → Bytes} {itemTokens : α → List Token}
    {extra : α → Nat}
    (hitem : ∀ a, (item a).count 39 + extra a = weigh quotes.token (itemTokens a)) (as : List α) :
    ((ascii ", ").intercalate (as.map item)).count 39 + weigh extra as =
      weigh quotes.token ([.sym 44].intercalate (as.map itemTokens)) := by
  have hcomma : (ascii ", ").count 39 = 0 := by decide
  induction as with
  | nil => rfl
  | cons a as ih =>
    have hhead := hitem a
    cases as with
    | nil => simpa [weigh] using hhead
    | cons b bs =>
      simp only [List.map_cons, List.intercalate_cons_cons, List.count_append, weigh_append, weigh,
        quotes_sym, hcomma] at ih ⊢
      omega

theorem count_literalText (v : Bytes) : (literalText v).count 39 = 2 + v.count 39 := by
  simp [literalText, show (ascii "'").count 39 = 1 by decide]
  omega

theorem count_assignmentText (a : Bytes × Bytes) :
    (assignmentText a).count 39 + a.2.count 39 = weigh quotes.token (assignmentTokens a) := by
  simp [assignmentText, count_literalText, assignmentTokens, weigh,
    show (ascii " = ").count 39 = 0 by decide]
  omega

theorem count_whereText (name : Bytes) : (whereText name).count 39 = 2 + name.count 39 := by
  have hfixed : (ascii " where name='").count 39 = 1 ∧ (ascii "'").count 39 = 1 := by
    decide
  simp [whereText, hfixed]
  omega

theorem weigh_whereTokens (name : Bytes) :
    weigh quotes.token (whereTokens name) = 2 + 2 * name.count 39 := by
  simp [whereTokens, weigh, keyword, ident, show (ascii "name").count 39 = 0 by decide]

theorem bare_of_assignment {a : Bytes × Bytes} (hq : 39 ∉ a.2) {rest : Bytes} {R : List Token}
    (hrest : rest.count 39 ≤ weigh quotes.token R)
    (h : scan reserved .space (assignmentText a ++ rest) = assignmentTokens a ++ R) :
    Bare reserved a.1 ∧ scan reserved (.strEnd a.2) rest = .str a.2 :: R := by
  have hnext (name : Bytes) (L : List Token) :
      scan reserved .space ([61, 32] ++ 39 :: (a.2 ++ 39 :: rest)) ≠ .ident name :: L := by
    rw [scan_value hq]
    simp
  have hvalue : a.2.count 39 = 0 := List.count_eq_zero.mpr hq
  have hbare : Bare reserved a.1 := by
    rw [assignmentText_append] at h
    refine bare_of_scan (by decide) hnext h ?_
    simp [weigh, hvalue]
    omega
  rw [scan_assignment hq hbare] at h
  exact ⟨hbare, by simpa [assignmentTokens] using h⟩

theorem bare_of_assignments {as : List (Bytes × Bytes)} (hq : ∀ a ∈ as, 39 ∉ a.2)
    {rest : Bytes} {R : List Token} (hrest : rest.count 39 ≤ weigh quotes.token R)
    (h : scan reserved .space ((ascii ", ").intercalate (as.map assignmentText) ++ 32 :: rest) =
      [.sym 44].intercalate (as.map assignmentTokens) ++ R) :
    ∀ a ∈ as, Bare reserved a.1 := by
  induction as with
  | nil => simp
  | cons a as ih =>
    rw [List.forall_mem_cons] at hq ⊢
    cases as with
    | nil =>
      have hspace : (32 :: rest).count 39 ≤ weigh quotes.token R := by simpa using hrest
      have hone := bare_of_assignment hq.1 hspace (by simpa using h)
      exact ⟨hone.1, by simp⟩
    | cons b bs =>
      have hcount := count_separated count_assignmentText (b :: bs)
      have hcomma : (ascii ", ").count 39 = 0 := by decide
      simp only [List.map_cons, List.intercalate_cons_cons, List.append_assoc] at h hcount
      obtain ⟨hbare, htail⟩ := bare_of_assignment hq.1 (by
        simp [weigh_append, weigh, hcomma]
        omega) h
      rw [scan_strEnd_comma] at htail
      exact ⟨hbare, ih hq.2 (by simpa using htail)⟩

theorem scan_strEnd_where (hwords : SqlWords reserved) {name : Bytes} (hq : 39 ∉ name)
    {rest : Bytes} {ending : List Token} (he : Ends rest ending) (v : Bytes) :
    scan reserved (.strEnd v) (whereText name ++ rest) =
      .str v :: (whereTokens name ++ ending) := by
  have hwhere := scan_where hwords hq (he.scan_strEnd name)
  rw [whereText_append] at hwhere ⊢
  rw [scan_strEnd (by decide), scan_start (by decide), hwhere]

theorem scan_strEnd_close {rest : Bytes} {ending : List Token} (he : Ends rest ending)
    (v : Bytes) :
    scan reserved (.strEnd v) (ascii ")" ++ rest) = .str v :: .sym 41 :: ending := by
  have hclose : ascii ")" ++ rest = 41 :: rest := rfl
  rw [hclose, scan_strEnd (by decide), scan_start (by decide), scan_single (by decide),
    he.scan_start]

theorem scan_select (hwords : SqlWords reserved) (column : Option Bytes) (name rest : Bytes) :
    scan reserved .start (text (.select column name) ++ rest) = keyword "select" ::
      scan reserved .space
        (column.getD (ascii "*") ++ (ascii " from reminders" ++ whereText name ++ rest)) := by
  have htext : text (.select column name) ++ rest = ascii "select" ++
      32 :: (column.getD (ascii "*") ++ (ascii " from reminders" ++ whereText name ++ rest)) := by
    simp [text, show ascii "select " = ascii "select" ++ [32] by decide]
  rw [htext, scan_start_keyword hwords (by simp)]

theorem scan_count (hwords : SqlWords reserved) (name rest : Bytes) :
    scan reserved .start (text (.count name) ++ rest) =
      keyword "select" :: ident "count" :: .sym 40 :: ident "name" :: .sym 41 ::
        scan reserved .space (ascii " from reminders" ++ whereText name ++ rest) := by
  have hfixed : ascii "select count(name) from reminders" = ascii "select" ++ 32 ::
      (ascii "count" ++ 40 :: (ascii "name" ++ 41 :: ascii " from reminders")) := by
    decide
  have htext : text (.count name) ++ rest = ascii "select" ++ 32 :: (ascii "count" ++
      40 :: (ascii "name" ++ 41 :: (ascii " from reminders" ++ whereText name ++ rest))) := by
    simp [text, hfixed]
  have hname (rest : Bytes) : scan reserved .start (ascii "name" ++ rest) =
      scan reserved .space (ascii "name" ++ rest) := scan_start_word (by decide) rest
  rw [htext, scan_start_keyword hwords (by simp), scan_ident hwords (by simp) (by decide)
    (by decide) (by decide), scan_single (by decide), hname, scan_ident hwords (by simp)
    (by decide) (by decide) (by decide), scan_single (by decide), fromText_append,
    scan_start (by decide)]

theorem scan_update (hwords : SqlWords reserved) (as : List (Bytes × Bytes))
    (name rest : Bytes) :
    scan reserved .start (text (.update as name) ++ rest) =
      keyword "update" :: ident "reminders" :: keyword "set" :: scan reserved .space
        ((ascii ", ").intercalate (as.map assignmentText) ++ (whereText name ++ rest)) := by
  have hfixed : ascii "update reminders set " = ascii "update" ++ 32 :: (ascii "reminders" ++
      32 :: (ascii "set" ++ [32])) := by decide
  have htext : text (.update as name) ++ rest = ascii "update" ++ 32 :: (ascii "reminders" ++
      32 :: (ascii "set" ++ 32 :: ((ascii ", ").intercalate (as.map assignmentText) ++
        (whereText name ++ rest)))) := by
    simp [text, hfixed]
  rw [htext, scan_start_keyword hwords (by simp), scan_ident hwords (by simp) (by decide)
    (by decide) (by decide), scan_space, scan_keyword hwords (by simp)]

theorem scan_insert (hwords : SqlWords reserved) {values : List Bytes} (hne : values ≠ [])
    (rest : Bytes) :
    scan reserved .start (text (.insert values) ++ rest) =
      keyword "insert" :: keyword "into" :: ident "reminders" :: keyword "values" :: .sym 40 ::
        scan reserved .space
          ((ascii ", ").intercalate (values.map literalText) ++ (ascii ")" ++ rest)) := by
  have hfixed : ascii "insert into reminders values (" = ascii "insert" ++ 32 :: (ascii "into" ++
      32 :: (ascii "reminders" ++ 32 :: (ascii "values" ++ 32 :: [40]))) := by decide
  have htext : text (.insert values) ++ rest = ascii "insert" ++ 32 :: (ascii "into" ++ 32 ::
      (ascii "reminders" ++ 32 :: (ascii "values" ++ 32 :: 40 ::
        ((ascii ", ").intercalate (values.map literalText) ++ (ascii ")" ++ rest))))) := by
    simp [text, hfixed]
  -- behind the parenthesis stands the quote of the first value
  have hquote : ∃ r, (ascii ", ").intercalate (values.map literalText) ++ (ascii ")" ++ rest) =
      39 :: r := by
    obtain ⟨v, vs, rfl⟩ := List.exists_cons_of_ne_nil hne
    cases vs <;> simp [literalText, show ascii "'" = [39] by decide]
  obtain ⟨r, hr⟩ := hquote
  rw [htext, scan_start_keyword hwords (by simp), scan_keyword hwords (by simp),
    scan_ident hwords (by simp) (by decide) (by decide) (by decide), scan_space,
    scan_keyword hwords (by simp), scan_single (by decide), hr, scan_start (by decide)]

/-- A text whose literals hold no quote and whose columns are bare is read as it was
written. -/
theorem scan_text (hwords : SqlWords reserved) {stmt : Statement} (hlist : stmt.Listed)
    (hq : ∀ value ∈ stmt.literals, 39 ∉ value) (hb : ∀ column ∈ stmt.columns, Bare reserved column)
    {rest : Bytes} {ending : List Token} (he : Ends rest ending) :
    scan reserved .start (stmt.text ++ rest) = stmt.tokens ++ ending := by
  cases stmt with
  | select column name =>
    have hfrom := scan_from hwords (hq name (by simp [literals])) (he.scan_strEnd name)
    rw [scan_select hwords]
    cases column with
    | none =>
      rw [fromText_append] at hfrom ⊢
      rw [Option.getD_none, show ascii "*" = [42] by decide, List.singleton_append,
        scan_single (by decide), scan_start (by decide), hfrom]
      rfl
    | some column =>
      have hbare : Bare reserved column := hb column (by simp [columns])
      rw [fromText_append] at hfrom ⊢
      rw [Option.getD_some, scan_word hbare.1 (by decide) (by decide),
        scan_start (by decide), hfrom, wordToken_of_bare hbare]
      rfl
  | count name =>
    rw [scan_count hwords, scan_from hwords (hq name (by simp [literals])) (he.scan_strEnd name)]
    rfl
  | update assignments name =>
    rw [literals, List.forall_mem_append, List.forall_mem_map] at hq
    rw [columns, List.forall_mem_map] at hb
    have hend := scan_strEnd_where hwords (hq.2 name (by simp)) he
    have hlisted := scan_separated assignmentText assignmentTokens Prod.snd hlist
      (fun a ha rest R hv => by
        rw [scan_assignment (hq.1 a ha) (hb a ha), hv]
        rfl) hend
    simp [scan_update hwords, hlisted, tokens]
  | insert values =>
    have hend (v : Bytes) : scan reserved (.strEnd v) (ascii ")" ++ rest) =
        .str v :: .sym 41 :: ending := scan_strEnd_close he v
    have hlisted := scan_separated literalText (fun v => [.str v]) id hlist
      (fun v hv rest R hend => by
        rw [scan_literalText (hq v hv)]
        exact hend) hend
    simp [scan_insert hwords hlist, hlisted, tokens]

/-- A text that is read as it was written has bare columns, where its literals hold no
quote. -/
theorem bare_of_scan_text (hwords : SqlWords reserved) {stmt : Statement}
    (hq : ∀ value ∈ stmt.literals, 39 ∉ value) {rest : Bytes} {ending ending' : List Token}
    (he : Ends rest ending')
    (h : scan reserved .start (stmt.text ++ rest) = stmt.tokens ++ ending) :
    ∀ column ∈ stmt.columns, Bare reserved column := by
  have hrest := he.count_eq_zero
  cases stmt with
  | count _ => simp [columns]
  | insert _ => simp [columns]
  | select column name =>
    have hname : 39 ∉ name := hq name (by simp [literals])
    cases column with
    | none => simp [columns]
    | some column =>
      have hpre : (ascii "from reminders where name=").all inert = true := by decide
      have hnext (name' : Bytes) (L : List Token) : scan reserved .space
          (ascii "from reminders where name=" ++ 39 :: (name ++ 39 :: rest)) ≠
            .ident name' :: L := by
        rw [← scan_space, ← fromText_eq, scan_from hwords hname (he.scan_strEnd name)]
        simp [keyword]
      rw [scan_select hwords, fromText_eq] at h
      have hbare := bare_of_scan hpre hnext (List.cons.inj h).2 (by
        simp [whereTokens, weigh, keyword, ident, hrest]
        omega)
      simpa [columns] using hbare
  | update assignments name =>
    rw [literals, List.forall_mem_append, List.forall_mem_map] at hq
    have hname : 39 ∉ name := hq.2 name (by simp)
    rw [scan_update hwords, whereText_append] at h
    have htail := (List.cons.inj (List.cons.inj (List.cons.inj h).2).2).2
    have hcount := congrArg (List.count 39) (whereText_append name rest)
    rw [List.count_append, count_whereText, List.count_cons_of_ne (by decide)] at hcount
    have hbare := bare_of_assignments hq.1 (by
      rw [← hcount, weigh_append, weigh_whereTokens]
      omega) (htail.trans (List.append_assoc _ _ _))
    simpa [columns] using hbare

theorem count_text (stmt : Statement) :
    stmt.text.count 39 + weigh (fun v => v.count 39) stmt.literals =
      weigh quotes.token stmt.tokens := by
  cases stmt with
  | select column name =>
    have hfixed : (ascii "select ").count 39 = 0 ∧ (ascii " from reminders").count 39 = 0 ∧
        (ascii "*").count 39 = 0 ∧ (ascii "reminders").count 39 = 0 := by decide
    cases column <;> simp [text, literals, tokens, weigh, count_whereText,
      weigh_whereTokens, keyword, ident, hfixed]
    all_goals omega
  | count name =>
    have hfixed : (ascii "select count(name) from reminders").count 39 = 0 ∧
      (ascii "count").count 39 = 0 ∧ (ascii "name").count 39 = 0 ∧
        (ascii "reminders").count 39 = 0 := by decide
    simp [text, literals, tokens, weigh, count_whereText, weigh_whereTokens, keyword, ident, hfixed]
    omega
  | update assignments name =>
    have hfixed : (ascii "update reminders set ").count 39 = 0 ∧
        (ascii "reminders").count 39 = 0 := by decide
    have hcount := count_separated count_assignmentText assignments
    simp [text, literals, tokens, weigh, weigh_append, weigh_map, count_whereText,
      weigh_whereTokens, keyword, ident, hfixed]
    omega
  | insert values =>
    have hfixed : (ascii "insert into reminders values (").count 39 = 0 ∧
        (ascii ")").count 39 = 0 ∧ (ascii "reminders").count 39 = 0 := by decide
    have hitem (v : Bytes) : (literalText v).count 39 + v.count 39 =
        weigh quotes.token [.str v] := by
      rw [count_literalText, weigh, weigh, quotes_str]
      omega
    have hcount := count_separated hitem values
    simp [text, literals, tokens, weigh, weigh_append, keyword, ident, hfixed]
    omega

theorem nul_not_mem_text_iff (stmt : Statement) : 0 ∉ stmt.text ↔
    (∀ value ∈ stmt.literals, 0 ∉ value) ∧ ∀ column ∈ stmt.columns, 0 ∉ column := by
  have hquote : 0 ∉ ascii "'" ∧ 0 ∉ ascii " where name='" := by decide
  have hcomma : 0 ∉ ascii ", " := by decide
  cases stmt with
  | select column name =>
    have hfixed : 0 ∉ ascii "select " ∧ 0 ∉ ascii " from reminders" ∧ 0 ∉ ascii "*" := by
      decide
    cases column <;> simp [text, whereText, literals, columns, hquote, hfixed, and_comm]
  | count name =>
    have hfixed : 0 ∉ ascii "select count(name) from reminders" := by decide
    simp [text, whereText, literals, columns, hquote, hfixed]
  | update assignments name =>
    have hfixed : 0 ∉ ascii "update reminders set " ∧ 0 ∉ ascii " = " := by decide
    rw [literals, columns, List.forall_mem_append, List.forall_mem_map, List.forall_mem_map,
      List.forall_mem_singleton]
    simp only [text, whereText, List.mem_append, not_or, not_mem_intercalate_iff _ hcomma,
      assignmentText, literalText, hquote, hfixed, not_false_eq_true, true_and,
      and_true, forall₂_and]
    exact ⟨fun ⟨⟨hc, hv⟩, hn⟩ => ⟨⟨hv, hn⟩, hc⟩, fun ⟨⟨hv, hn⟩, hc⟩ => ⟨⟨hc, hv⟩, hn⟩⟩
  | insert values =>
    have hfixed : 0 ∉ ascii "insert into reminders values (" ∧ 0 ∉ ascii ")" := by decide
    simp only [text, literals, columns, List.mem_append, not_or, not_mem_intercalate_iff _ hcomma,
      literalText]
    simp [hquote, hfixed]

theorem text_eq_append {stmt : Statement} (hlist : stmt.Listed) :
    ∃ X Y, stmt.text = X ++ 39 :: Y ∧ 0 ∉ Y := by
  have hwhere (before : Bytes) (name : Bytes) :
      ∃ X Y, before ++ whereText name = X ++ 39 :: Y ∧ 0 ∉ Y :=
    ⟨before ++ ascii " where name='" ++ name, [],
      by simp [whereText, show ascii "'" = [39] by decide], by simp⟩
  have hseparated (values : List Bytes) (hne : values ≠ []) :
      ∃ X, (ascii ", ").intercalate (values.map literalText) = X ++ [39] := by
    induction values with
    | nil => exact absurd rfl hne
    | cons v vs ih =>
      cases vs with
      | nil => exact ⟨39 :: v, by simp [literalText, show ascii "'" = [39] by decide]⟩
      | cons u us =>
        obtain ⟨X, hX⟩ := ih (by simp)
        refine ⟨literalText v ++ ascii ", " ++ X, ?_⟩
        simp only [List.map_cons, List.intercalate_cons_cons, List.append_assoc] at hX ⊢
        rw [hX]
  cases stmt with
  | select column name => exact hwhere _ name
  | count name => exact hwhere _ name
  | update assignments name => exact hwhere _ name
  | insert values =>
    obtain ⟨X, hX⟩ := hseparated values hlist
    exact ⟨ascii "insert into reminders values (" ++ X, ascii ")", by simp [text, hX], by decide⟩

/-- A statement is written so that it is read as that statement exactly where its literals
hold neither a quote nor a NUL and its columns need no quotes. -/
theorem means_text_iff (hwords : SqlWords reserved) {stmt : Statement} (hlist : stmt.Listed)
    {rest : Bytes} {ending : List Token} (he : Ends rest ending) :
    Means reserved (stmt.text ++ rest) stmt ↔ Safe reserved stmt := by
  have hrest : 0 ∉ rest := he.nul_not_mem
  have hread (h : 0 ∉ stmt.text) :
      lex reserved (stmt.text ++ rest) = scan reserved .start (stmt.text ++ rest) := by
    rw [lex, visible_of_nul_not_mem]
    simp [h, hrest]
  constructor
  · intro hmeans
    obtain ⟨ending', hending, hlex⟩ := hmeans
    obtain ⟨X, Y, htext, hY⟩ := text_eq_append hlist
    have hsplit : stmt.text ++ rest = X ++ 39 :: (Y ++ rest) := by simp [htext]
    have hcount : (X ++ 39 :: (Y ++ rest)).count 39 + weigh (fun v => v.count 39) stmt.literals ≤
        weigh quotes.token (lex reserved (X ++ 39 :: (Y ++ rest))) := by
      have htokens := count_text stmt
      rw [← hsplit, hlex, List.count_append, he.count_eq_zero, weigh_append]
      omega
    obtain ⟨hextra, hX⟩ := quotes_lex hcount
    have hnul : 0 ∉ stmt.text := by simp [htext, hX, hY]
    have hquote : ∀ value ∈ stmt.literals, 39 ∉ value := fun value hv =>
      List.count_eq_zero.mp (weigh_eq_zero_iff.mp hextra value hv)
    have hliteral := (nul_not_mem_text_iff stmt).mp hnul
    exact ⟨fun value hv => ⟨hquote value hv, hliteral.1 value hv⟩,
      bare_of_scan_text hwords hquote he ((hread hnul).symm.trans hlex)⟩
  · intro hsafe
    have hnul : 0 ∉ stmt.text := (nul_not_mem_text_iff stmt).mpr
      ⟨fun value hv => (hsafe.literals value hv).2,
        fun column hc => nul_not_mem_of_isWord (hsafe.columns column hc).1⟩
    have hscan := scan_text hwords hlist (fun value hv => (hsafe.literals value hv).1)
      hsafe.columns he
    exact ⟨ending, he.imp And.right And.right, (hread hnul).trans hscan⟩

theorem lex_count_quote (hwords : SqlWords reserved) {name : Bytes} (h : Quotable name) :
    lex reserved (text (.count name) ++ ascii ";'") =
      tokens (.count name) ++ [.sym 59, .other] := by
  have hfixed : ascii ";'" = [59, 39] := by decide
  have hend : scan reserved (.strEnd name) [59, 39] = .str name :: [.sym 59, .other] := by
    rw [scan_strEnd (by decide)]
    rfl
  have hnul : 0 ∉ text (.count name) ++ [59, 39] := by
    have htext := (nul_not_mem_text_iff (.count name)).mpr
      ⟨by simpa [literals] using h.2, by simp [columns]⟩
    simp [htext]
  rw [hfixed, lex, visible_of_nul_not_mem hnul, scan_count hwords, scan_from hwords h.1 hend]
  rfl

end Reading
end Statement
end ReminderSuite
