import ReminderSuite.NameUniqueness
import ReminderSuite.SqlTable
import ReminderSuite.SqlText

/-! The text backend and the SQLite backend side by side, on the calls that both implement. -/
namespace ReminderSuite
open Delimited FallibleRun FirstMatch SqlLexer Statement

/-- A call that both backends implement; a record goes in under its own name. -/
inductive SharedCall where
  | fields
  | getAll
  | get (name field : Bytes)
  | set (record : Bytes)
deriving DecidableEq

def DBTextFile.perform (db : DBTextFile) : SharedCall → Except Fault Result × DBTextFile
  | .fields => (.ok (.text db.fields), db)
  | .getAll => (.ok (.lines db.getAll), db)
  | .get name field => ((db.get name field).map Result.text, db)
  | .set record =>
    let (done, db) := db.set (recordName record) record
    (.ok (.flag done), db)

def DBSQLite.perform {τ : Type} (lib : SQLite τ) (db : DBSQLite τ) :
    SharedCall → Except Fault Result × DBSQLite τ
  | .fields => (.ok (.text db.fields), db)
  | .getAll =>
    let (reply, db) := db.getAll lib
    (.ok (.lines reply), db)
  | .get name field =>
    let (reply, db) := db.get lib name field
    (.ok (.text reply), db)
  | .set record =>
    match db.set lib (recordName record) record with
    | .ok (done, db) => (.ok (.flag done), db)
    | .error fault => (.error fault, db)

/-- Columns of a table that need no quotes, the first of which holds the names -/
structure Columns (reserved : Bytes → Bool) (columns : List Bytes) : Prop where
  bare : ∀ column ∈ columns, Bare reserved column
  nodup : columns.Nodup
  name : columns.head? = some (ascii "name")

structure Held {τ : Type} (table : τ → Table) (columns : List Bytes) (text : DBTextFile)
    (db : DBSQLite τ) : Prop where
  text_fields : text.fields_ = columns
  loaded : db.fieldsReady_ = true
  fields : db.fields_ = columns
  rows : table db.worker_ = ⟨columns, text.entries_.map Entry.values⟩
  distinct : text.NamesDistinct
  width : ∀ e ∈ text.entries_, e.values.length = columns.length
  /-- which a C string would cut short -/
  nul : ∀ e ∈ text.entries_, ∀ v ∈ e.values, 0 ∉ v

namespace SharedCall

/-- The calls on such a table: a field is one of its columns, and a record is text without
quotes and newlines. -/
def Allowed (columns : List Bytes) : SharedCall → Prop
  | get _ field => field = [] ∨ field ∈ columns
  | set record => 39 ∉ record ∧ lf ∉ record
  | fields | getAll => True

/-- A single field is only asked of a name that no record has, no name to look up holds a
quote or a NUL, and a record holds no NUL and has as many values as there are fields. -/
def Agrees (db : DBTextFile) : SharedCall → Prop
  | get name field => Quotable name ∧ (field = [] ∨ db.findName name = none)
  | set record => 0 ∉ record ∧ (tokens colon record).length = db.fields_.length
  | fields | getAll => True

instance (columns : List Bytes) : DecidablePred (Allowed columns)
  | get _ field => inferInstanceAs (Decidable (field = [] ∨ field ∈ columns))
  | set record => inferInstanceAs (Decidable (39 ∉ record ∧ lf ∉ record))
  | fields | getAll => inferInstanceAs (Decidable True)

instance (db : DBTextFile) : DecidablePred (Agrees db)
  | get name field =>
    inferInstanceAs (Decidable (Quotable name ∧ (field = [] ∨ db.findName name = none)))
  | set record =>
    inferInstanceAs (Decidable (0 ∉ record ∧ (tokens colon record).length = db.fields_.length))
  | fields | getAll => inferInstanceAs (Decidable True)

end SharedCall

section Calls
variable {τ : Type} {lib : SQLite τ} {table : τ → Table} {reserved : Bytes → Bool}
  {columns : List Bytes} {text : DBTextFile} {db : DBSQLite τ}

theorem shown_of_nul_not_mem {rows : List (List Bytes)} (h : ∀ row ∈ rows, ∀ v ∈ row, 0 ∉ v) :
    shown rows = rows := by
  have hrow (row : List Bytes) (hr : row ∈ rows) : row.map cString = row :=
    (List.map_congr_left fun v hv => visible_of_nul_not_mem (h row hr v hv)).trans (List.map_id row)
  exact (List.map_congr_left hrow).trans (List.map_id rows)

theorem quotable_recordName {record : Bytes} (h : Quotable record) :
    Quotable (recordName record) :=
  (SqlRequest.quotable_pieces_iff record).mpr h _ (List.mem_of_head? (head?_tokens colon record))

namespace Columns
variable {record : Bytes}

theorem harmless_set (h : Columns reserved columns) (hrecord : Quotable record) (existing : Bool) :
    (SqlRequest.set (recordName record) record existing).Harmless reserved columns := by
  cases existing with
  | false => exact hrecord
  | true => exact ⟨quotable_recordName hrecord, hrecord, h.bare⟩

theorem fits_set (h : Columns reserved columns)
    (hlength : (tokens colon record).length = columns.length) (rows : List (List Bytes))
    (existing : Bool) :
    Table.Fits ⟨columns, rows⟩
      ((SqlRequest.set (recordName record) record existing).asked columns) := by
  have hmem := List.mem_of_head? h.name
  cases existing with
  | false => exact ⟨by simpa [SqlRequest.asked, Statement.columns] using hmem, hlength⟩
  | true =>
    refine ⟨?_, trivial⟩
    rw [List.forall_mem_cons, SqlRequest.asked, Statement.columns,
      List.map_fst_zip (Nat.le_of_eq hlength.symm)]
    exact ⟨hmem, fun _ hc => hc⟩

end Columns

theorem SqliteMeaning.write_text (hlib : SqliteMeaning reserved lib table)
    (hwords : SqlWords reserved) {worker : τ} {stmt : Statement} (hquery : stmt.isQuery = false)
    (hlisted : stmt.Listed) (hsafe : Safe reserved stmt) (hfits : (table worker).Fits stmt) :
    lib.prepare (stmt.text ++ ascii ";") worker = true ∧
      (lib.step (stmt.text ++ ascii ";") worker).1 = .done ∧
        table (lib.step (stmt.text ++ ascii ";") worker).2 =
          (table worker).effect stmt :=
  have hends : Ends (ascii ";") [.sym 59] := Or.inr ⟨rfl, rfl⟩
  hlib.write _ worker stmt hquery hfits ((means_text_iff hwords hlisted hends).mpr hsafe)

namespace Held

theorem head?_fields (h : Held table columns text db) (hcols : Columns reserved columns) :
    (table db.worker_).columns.head? = some (ascii "name") := by
  rw [h.rows]
  exact hcols.name

theorem named (h : Held table columns text db) (hcols : Columns reserved columns) (name : Bytes) :
    (table db.worker_).named name = (text.entries_.filter (Entry.named name)).map Entry.values := by
  have hcell (e : Entry) : ((table db.worker_).cell (ascii "name") e.values == name) =
      Entry.named name e := by
    rw [Table.cell_name (h.head?_fields hcols) e.values_ne, Entry.named_eq]
    exact beq_eq_decide _ _
  rw [Table.named, show (table db.worker_).rows = text.entries_.map Entry.values by rw [h.rows],
    List.filter_map]
  exact congrArg (List.map Entry.values) (List.filter_congr fun e _ => hcell e)

theorem named_of_absent (h : Held table columns text db) (hcols : Columns reserved columns)
    {name : Bytes} (hn : text.findName name = none) : (table db.worker_).named name = [] := by
  have hfilter : text.entries_.filter (Entry.named name) = [] :=
    List.filter_eq_nil_iff.mpr fun e he => by
      simpa using DBTextFile.findName_eq_none_iff.mp hn e he
  rw [h.named hcols, hfilter, List.map_nil]

theorem named_of_found (h : Held table columns text db) (hcols : Columns reserved columns)
    {name : Bytes} {it : Cursor Entry} (hit : text.Found name it) :
    (table db.worker_).named name = [it.here.values] := by
  have hothers := h.distinct.others hit
  rw [List.forall_mem_append] at hothers
  have hnone (es : List Entry) (hes : ∀ e ∈ es, e.name ≠ name) :
      es.filter (Entry.named name) = [] :=
    List.filter_eq_nil_iff.mpr fun e he => by simpa using hes e he
  have hhere : Entry.named name it.here = true := Entry.named_iff.mpr hit.name_eq
  rw [h.named hcols, ← hit.list_eq, Cursor.list, List.filter_append, hnone _ hothers.1,
    List.filter_cons_of_pos hhere, hnone _ hothers.2]
  rfl

theorem getAll (h : Held table columns text db) (hwords : SqlWords reserved)
    (hlib : SqliteMeaning reserved lib table) :
    (db.getAll lib).1 = text.getAll ∧ Held table columns text (db.getAll lib).2 := by
  obtain ⟨hrows, htable⟩ := hlib.all DBSQLite.getAllSQL db.worker_ (lex_getAllSQL hwords)
  have hshown : shown (table db.worker_).rows = text.entries_.map Entry.values := by
    rw [h.rows, shown_of_nul_not_mem]
    simpa using h.nul
  constructor
  · simp only [DBSQLite.getAll, hrows, hshown, DBTextFile.getAll, List.map_map]
    rfl
  · exact { h with rows := htable.trans h.rows }

theorem select (h : Held table columns text db) (hwords : SqlWords reserved)
    (hlib : SqliteMeaning reserved lib table) (hcols : Columns reserved columns)
    {name : Bytes} (hname : Quotable name) {column : Option Bytes}
    (hcolumn : ∀ c ∈ column.toList, c ∈ columns) :
    (lib.exec (Statement.text (.select column name) ++ ascii ";") db.worker_).1 =
        shown ((table db.worker_).answer (.select column name)) ∧
      table (lib.exec (Statement.text (.select column name) ++ ascii ";") db.worker_).2 =
        table db.worker_ := by
  have hsafe : Safe reserved (.select column name) :=
    ⟨by simpa [literals] using hname, fun c hc => hcols.bare c (hcolumn c hc)⟩
  have hfits : (table db.worker_).Fits (.select column name) := by
    refine ⟨?_, trivial⟩
    rw [List.forall_mem_cons, show (table db.worker_).columns = columns by rw [h.rows]]
    exact ⟨List.mem_of_head? hcols.name, hcolumn⟩
  have hends : Ends (ascii ";") [.sym 59] := Or.inr ⟨rfl, rfl⟩
  have hlisted : (Statement.select column name).Listed := trivial
  obtain ⟨ending, hending, hlex⟩ := (means_text_iff hwords hlisted hends).mpr hsafe
  exact hlib.query _ db.worker_ _ ending rfl hfits hlex (hending.imp_right Or.inl)

theorem get (h : Held table columns text db) (hwords : SqlWords reserved)
    (hlib : SqliteMeaning reserved lib table) (hcols : Columns reserved columns)
    {name field : Bytes} (hname : Quotable name) (hfield : field = [] ∨ field ∈ columns)
    (hagrees : field = [] ∨ text.findName name = none) :
    text.get name field = .ok (db.get lib name field).1 ∧
      Held table columns text (db.get lib name field).2 := by
  have hcolumn : ∀ c ∈ (if field = [] then none else some field : Option Bytes).toList,
      c ∈ columns := by
    cases hfield with
    | inl hf => simp [hf]
    | inr hf =>
      split_ifs
      · simp
      · simpa using hf
  obtain ⟨hrows, htable⟩ := h.select hwords hlib hcols hname hcolumn
  rw [← getSQL_eq] at hrows htable
  refine ⟨?_, { h with rows := htable.trans h.rows }⟩
  have hreply : (db.get lib name field).1 =
      (lib.exec (DBSQLite.getSQL name field) db.worker_).1.flatMap (terminated colon) := rfl
  rw [hreply, hrows]
  cases hn : text.findName name with
  | none =>
    have hnamed := h.named_of_absent hcols hn
    have hanswer : (table db.worker_).answer
        (.select (if field = [] then none else some field) name) = [] := by
      split_ifs <;> simp [Table.answer, hnamed]
    rw [hanswer]
    simp [DBTextFile.get, hn, shown]
  | some it =>
    have hit := DBTextFile.found_of_findName hn
    obtain rfl : field = [] := hagrees.resolve_right (by simp [hn])
    have hnul : ∀ row ∈ [it.here.values], ∀ v ∈ row, 0 ∉ v := by
      simpa using h.nul it.here hit.mem
    rw [if_pos rfl, Table.answer, h.named_of_found hcols hit, shown_of_nul_not_mem hnul]
    simp [DBTextFile.get, hn, Entry.asString]

theorem alreadyExists (h : Held table columns text db) (hwords : SqlWords reserved)
    (hlib : SqliteMeaning reserved lib table) (hcols : Columns reserved columns)
    {name : Bytes} (hname : Quotable name) :
    (db.alreadyExists lib name).1 = (text.findName name).isSome ∧
      Held table columns text (db.alreadyExists lib name).2 := by
  have hfits : (table db.worker_).Fits (.count name) := by
    refine ⟨?_, trivial⟩
    simpa [Statement.columns] using List.mem_of_head? (h.head?_fields hcols)
  have hlex := lex_count_quote hwords hname
  rw [← countSQL_eq] at hlex
  obtain ⟨hrows, htable⟩ := hlib.query _ db.worker_ _ _ rfl hfits hlex (Or.inr (Or.inr rfl))
  refine ⟨?_, { h with rows := htable.trans h.rows }⟩
  have hreply : (db.alreadyExists lib name).1 =
      ((lib.exec (DBSQLite.countSQL name) db.worker_).1.flatMap (·.headD []) != ascii "0") := rfl
  rw [hreply, hrows]
  cases hn : text.findName name with
  | none =>
    rw [Table.answer, h.named_of_absent hcols hn]
    rfl
  | some it =>
    rw [Table.answer, h.named_of_found hcols (DBTextFile.found_of_findName hn),
      List.length_singleton, Option.isSome_some]
    decide

theorem of_set (h : Held table columns text db) {record : Bytes} (hrecord : Quotable record)
    (hlength : (tokens colon record).length = columns.length) {entries : List Entry}
    (hset : (text.set (recordName record) record).2 = { text with entries_ := entries })
    (hentries : ∀ e ∈ entries, e = Entry.ofLine record ∨ e ∈ text.entries_) {worker : τ}
    (htable : table worker = ⟨columns, entries.map Entry.values⟩) :
    Held table columns (text.set (recordName record) record).2 { db with worker_ := worker } where
  text_fields := by
    rw [hset]
    exact h.text_fields
  loaded := h.loaded
  fields := h.fields
  rows := by
    rw [hset]
    exact htable
  distinct := h.distinct.set record
  width := by
    rw [hset]
    intro e he
    cases hentries e he with
    | inl heq =>
      subst heq
      exact hlength
    | inr hold => exact h.width e hold
  nul := by
    rw [hset]
    intro e he
    cases hentries e he with
    | inl heq =>
      subst heq
      exact fun v hv => ((SqlRequest.quotable_pieces_iff record).mpr hrecord v hv).2
    | inr hold => exact h.nul e hold

/-- A record is stored by the effect of the statement that is asked for. -/
theorem set_effect (h : Held table columns text db) (hwords : SqlWords reserved)
    (hlib : SqliteMeaning reserved lib table) (hcols : Columns reserved columns)
    {record : Bytes} (hrecord : Quotable record)
    (hlength : (tokens colon record).length = columns.length) {existing : Bool}
    (hexisting : (text.findName (recordName record)).isSome = existing) :
    ∃ worker, db.set lib (recordName record) record = .ok (true, { db with worker_ := worker }) ∧
      table worker = Table.effect ⟨columns, text.entries_.map Entry.values⟩
        ((SqlRequest.set (recordName record) record existing).asked columns) := by
  have hname := quotable_recordName hrecord
  have hmatch : (SqlRequest.set (recordName record) record existing).Matching columns := hlength
  have hne := List.ne_nil_of_mem (List.mem_of_head? hcols.name)
  have hsafe := (SqlRequest.safe_asked_iff hmatch).mpr (hcols.harmless_set hrecord existing)
  have hlisted := SqlRequest.listed_asked hne hmatch
  have hquery : ((SqlRequest.set (recordName record) record existing).asked columns).isQuery =
      false := by cases existing <;> rfl
  obtain ⟨hexists, hheld⟩ := h.alreadyExists hwords hlib hcols hname
  have hcounts : DBSQLite.countsMatch db.fields_ (tokens colon record) = true := by
    simp [DBSQLite.countsMatch, h.fields, hlength]
  have hsql : DBSQLite.setSQL db.fields_ (tokens colon record) (recordName record)
      (db.alreadyExists lib (recordName record)).1 =
        .ok (((SqlRequest.set (recordName record) record existing).asked columns).text ++
          ascii ";") := by
    rw [h.fields, hexists, hexisting]
    exact SqlRequest.setSQL_eq hne hmatch
  have hfits := hcols.fits_set hlength (text.entries_.map Entry.values) existing
  rw [← hheld.rows] at hfits
  obtain ⟨hprepare, hcode, htable⟩ := hlib.write_text hwords hquery hlisted hsafe hfits
  rw [hheld.rows] at htable
  exact ⟨_, DBSQLite.set_of_prepare hcounts hsql hprepare hcode, htable⟩

/-- The update of all columns of the one row of a name writes through the cursor. -/
theorem rows_update (h : Held table columns text db) (hcols : Columns reserved columns)
    {record : Bytes} (hlength : (tokens colon record).length = columns.length)
    {it : Cursor Entry} (hit : text.Found (recordName record) it) {t : Table}
    (ht : t = ⟨columns, text.entries_.map Entry.values⟩) :
    (t.effect (.update (columns.zip (tokens colon record)) (recordName record))).rows =
      (it.write (Entry.ofLine record)).map Entry.values := by
  have hcolumns : t.columns = columns := by rw [ht]
  have hrows : t.rows = text.entries_.map Entry.values := by rw [ht]
  have hothers := h.distinct.others hit
  rw [List.forall_mem_append] at hothers
  have hrow (e : Entry) (he : e ∈ text.entries_) :
      (if t.cell (ascii "name") e.values = recordName record
        then (columns.zip (tokens colon record)).foldl t.assign e.values
        else e.values) = if e.name = recordName record then tokens colon record else e.values := by
    rw [← hcolumns] at hcols hlength ⊢
    rw [Table.cell_name hcols.name e.values_ne,
      Table.foldl_assign hcols.nodup hlength ((h.width e he).trans (by rw [hcolumns]))]
    rfl
  have hsame (es : List Entry) (hes : ∀ e ∈ es, e.name ≠ recordName record) :
      es.map (fun e => if e.name = recordName record then tokens colon record else e.values) =
        es.map Entry.values :=
    List.map_congr_left fun e he => if_neg (hes e he)
  have hmap := List.map_congr_left hrow
  rw [Table.effect, hrows, List.map_map]
  refine hmap.trans ?_
  rw [← hit.list_eq, Cursor.list, Cursor.write, List.map_append, List.map_cons, List.map_append,
    List.map_cons, hsame _ hothers.1, hsame _ hothers.2, if_pos hit.name_eq]
  rfl

theorem set (h : Held table columns text db) (hwords : SqlWords reserved)
    (hlib : SqliteMeaning reserved lib table) (hcols : Columns reserved columns)
    {record : Bytes} (hrecord : Quotable record)
    (hlength : (tokens colon record).length = columns.length) :
    ∃ db', db.set lib (recordName record) record = .ok (true, db') ∧
      Held table columns (text.set (recordName record) record).2 db' := by
  cases DBTextFile.set_cases text (recordName record) record with
  | inl habsent =>
    obtain ⟨hn, hset⟩ := habsent
    have hexisting : (text.findName (recordName record)).isSome = false := by simp [hn]
    obtain ⟨worker, hdb, htable⟩ := h.set_effect hwords hlib hcols hrecord hlength hexisting
    refine ⟨_, hdb, h.of_set hrecord hlength (congrArg Prod.snd hset) ?_ ?_⟩
    · intro e he
      exact (List.mem_append.mp he).symm.imp_left List.mem_singleton.mp
    · rw [htable, List.map_append]
      rfl
  | inr hfound =>
    obtain ⟨it, hit, hset⟩ := hfound
    have hexisting : (text.findName (recordName record)).isSome = true := by
      simp [DBTextFile.findName_of_found hit]
    obtain ⟨worker, hdb, htable⟩ := h.set_effect hwords hlib hcols hrecord hlength hexisting
    refine ⟨_, hdb, h.of_set hrecord hlength (congrArg Prod.snd hset) ?_ ?_⟩
    · intro e he
      rw [← hit.list_eq]
      exact Cursor.mem_write he
    · rw [htable]
      exact congrArg (Table.mk columns) (h.rows_update hcols hlength hit rfl)

end Held

theorem perform_agrees (hwords : SqlWords reserved) (hlib : SqliteMeaning reserved lib table)
    (hcols : Columns reserved columns) (text : DBTextFile) (db : DBSQLite τ) (call : SharedCall)
    (hcall : call.Allowed columns ∧ call.Agrees text) (h : Held table columns text db) :
    (text.perform call).1 = (db.perform lib call).1 ∧
      Held table columns (text.perform call).2 (db.perform lib call).2 := by
  obtain ⟨hallowed, hagrees⟩ := hcall
  cases call with
  | fields =>
    refine ⟨?_, h⟩
    simp [DBTextFile.perform, DBSQLite.perform, DBTextFile.fields, DBSQLite.fields, h.loaded,
      h.text_fields, h.fields]
  | getAll =>
    obtain ⟨hreply, hheld⟩ := h.getAll hwords hlib
    exact ⟨congrArg (fun reply => Except.ok (Result.lines reply)) hreply.symm, hheld⟩
  | get name field =>
    obtain ⟨hreply, hheld⟩ := h.get hwords hlib hcols hagrees.1 hallowed hagrees.2
    refine ⟨?_, hheld⟩
    rw [DBTextFile.perform, hreply]
    rfl
  | set record =>
    have hlength := hagrees.2.trans (congrArg List.length h.text_fields)
    obtain ⟨db', hset, hheld⟩ := h.set hwords hlib hcols ⟨hallowed.1, hagrees.1⟩ hlength
    simp only [DBSQLite.perform, hset]
    refine ⟨?_, hheld⟩
    simp [DBTextFile.perform]

/-- In every run whose calls agree, every reply of one backend is that of the other, and the
tables stay equal. -/
theorem backends_agree (hwords : SqlWords reserved) (hlib : SqliteMeaning reserved lib table)
    (hcols : Columns reserved columns) (h : Held table columns text db) {calls : List SharedCall}
    (hallowed : ∀ call ∈ calls, call.Allowed columns)
    (hg : Admitted DBTextFile.perform (fun text call => call.Agrees text) text calls) :
    (trace DBTextFile.perform text calls).1 = (trace (DBSQLite.perform lib) db calls).1 ∧
      Held table columns (trace DBTextFile.perform text calls).2
        (trace (DBSQLite.perform lib) db calls).2 := by
  have hstep (text : DBTextFile) (db : DBSQLite τ) (call : SharedCall)
      (hcall : call.Allowed columns ∧ call.Agrees text) (h : Held table columns text db) :
      id (text.perform call).1 = (db.perform lib call).1 ∧
        Held table columns (text.perform call).2 (db.perform lib call).2 :=
    perform_agrees hwords hlib hcols text db call hcall h
  have hrun := trace_related_of_admitted hstep (hg.and_of_forall_mem hallowed) h
  rwa [List.map_id] at hrun

end Calls

section Sample

def sampleColumns : List Bytes := [ascii "name", ascii "time"]

def sampleText : DBTextFile := ⟨sampleColumns, [Entry.ofLine (ascii "bob:noon")]⟩

def sampleSQLite : DBSQLite Table :=
  ⟨true, sampleColumns, ⟨sampleColumns, [[ascii "bob", ascii "noon"]]⟩⟩

theorem sample_columns : Columns sqliteReserved sampleColumns :=
  ⟨by decide, by decide, rfl⟩

theorem sample_held : Held id sampleColumns sampleText sampleSQLite where
  text_fields := rfl
  loaded := rfl
  fields := rfl
  rows := by decide
  distinct := List.nodup_singleton _
  width := by decide
  nul := by decide

/-- A run that asks, inserts, updates and asks again -/
theorem backends_agree_sample :
    (trace DBTextFile.perform sampleText
      [.fields, .get (ascii "bob") [], .set (ascii "eve:dawn"), .set (ascii "bob:dusk"),
        .get (ascii "zoe") (ascii "time"), .getAll]).1 =
    (trace (DBSQLite.perform tableSQLite) sampleSQLite
      [.fields, .get (ascii "bob") [], .set (ascii "eve:dawn"), .set (ascii "bob:dusk"),
        .get (ascii "zoe") (ascii "time"), .getAll]).1 :=
  (backends_agree sqlWords_sqlite tableSQLite_meaning sample_columns sample_held
    (by decide) (by decide)).1

/-- A field of an existing record comes with a ':' from one backend only. -/
theorem field_reply_differs :
    ¬ ∀ (τ : Type) (lib : SQLite τ) (table : τ → Table) (reserved : Bytes → Bool)
      (columns : List Bytes) (text : DBTextFile) (db : DBSQLite τ), SqlWords reserved →
      SqliteMeaning reserved lib table → Columns reserved columns →
      Held table columns text db → ∀ calls : List SharedCall,
      (∀ call ∈ calls, call.Allowed columns) →
      (trace DBTextFile.perform text calls).1 = (trace (DBSQLite.perform lib) db calls).1 := by
  intro h
  have hsame := h Table tableSQLite id sqliteReserved sampleColumns sampleText sampleSQLite
    sqlWords_sqlite tableSQLite_meaning sample_columns sample_held
    [.get (ascii "bob") (ascii "time")] (by decide)
  exact absurd hsame (by decide)

end Sample
end ReminderSuite
