import ReminderSuite.Backends
import ReminderSuite.TextFileCodec

/-! The SQLite backend behind the provider interface, and the sessions over it beside those over
the text backend. -/
namespace ReminderSuite
open Delimited FallibleRun FirstMatch SqlLexer Statement

/-- What the SQLite library does with whole databases: whether the file opens, the database that
`:memory:` opens, whether a backup of one onto another reports no error and what it leaves, and
the columns that the question for them shows before it ends or fails -/
structure SQLiteFiles (τ : Type) where
  opens : τ → Bool
  memory : Option τ
  backup : τ → τ → Bool × τ
  columns : τ → Bool × List Bytes
  /-- whether an open gives a handle where the one closed before was, so that closing that again
  closes the new one; otherwise the second close is refused -/
  reuses : Bool

structure SqliteStore (τ : Type) where
  db : DBSQLite τ
  file : τ
  /-- whether `db_` owns a handle that has been closed -/
  closed : Bool

/-- `getFields` adds to the columns it finds. -/
def DBSQLite.getFields {τ : Type} (files : SQLiteFiles τ) (db : DBSQLite τ) : DBSQLite τ :=
  let (ready, columns) := files.columns db.worker_
  { db with fieldsReady_ := ready, fields_ := db.fields_ ++ columns }

namespace SqliteStore
variable {τ : Type} (files : SQLiteFiles τ)

/-- The first `read`, which closes the file's handle and leaves it with `db_`. The fields are taken
to have come before the next call. -/
def read (s : SqliteStore τ) : Bool × SqliteStore τ :=
  if !files.opens s.file then (false, s)
  else
    match files.memory with
    | none => (false, s)
    | some inMemory =>
      let (done, worker) := files.backup s.file inMemory
      let db := { s.db with worker_ := worker }
      if done then (true, { s with db := db.getFields files, closed := true })
      else (false, { s with db := db })

def save (s : SqliteStore τ) : Bool × SqliteStore τ :=
  if !files.opens s.file then (false, s)
  -- `db_` closes its old handle and with that the new one, on which the backup then fails
  else if s.closed && files.reuses then (false, s)
  else
    let (done, file) := files.backup s.db.worker_ s.file
    (done, { s with file := file, closed := false })

theorem save_of_closed {files : SQLiteFiles τ} {s : SqliteStore τ} (hclosed : s.closed = true)
    (hreuses : files.reuses = true) : s.save files = (false, s) := by
  simp [save, hclosed, hreuses]

theorem save_db (s : SqliteStore τ) : (s.save files).2.db = s.db := by
  unfold save
  split
  · rfl
  · split <;> rfl

end SqliteStore

/-- A field is not written alone and no record is erased. -/
def sqliteLibrary {τ : Type} (lib : SQLite τ) (files : SQLiteFiles τ) :
    DBLibrary (SqliteStore τ) where
  fields s := .ok (s.db.fields, s)
  getAll s :=
    let (reply, db) := s.db.getAll lib
    .ok (reply, { s with db := db })
  get name field s :=
    let (reply, db) := s.db.get lib name field
    .ok (reply, { s with db := db })
  set name csvValues s := (s.db.set lib name csvValues).map fun (done, db) =>
    (done, { s with db := db })
  setField _ _ _ s := .ok (false, s)
  erase _ s := .ok (false, s)
  read s := .ok (s.read files)
  save s := .ok (s.save files)

def SharedCall.call : SharedCall → Call
  | fields => .fields
  | getAll => .getAll
  | get name field => .get name field
  | set record => .set (recordName record) record

section Invoke
variable {τ : Type} {lib : SQLite τ} {files : SQLiteFiles τ} {result : Result}

theorem invoke_text_of_perform {s : TextStore} {call : SharedCall} {db : DBTextFile}
    (h : s.db.perform call = (.ok result, db)) :
    textLibrary.invoke call.call s = .ok (result, { s with db := db }) := by
  cases call with
  | get name field =>
    simp only [DBTextFile.perform, Prod.mk.injEq] at h
    obtain ⟨hget, rfl⟩ := h
    obtain ⟨reply, hreply, rfl⟩ := map_eq_ok_iff.mp hget
    simp [SharedCall.call, invoke_text, hreply]
  | fields | getAll | set record =>
    obtain ⟨hresult, rfl⟩ := Prod.mk.inj h
    obtain rfl := Except.ok.inj hresult
    rfl

theorem invoke_sqlite_of_perform {s : SqliteStore τ} {call : SharedCall} {db : DBSQLite τ}
    (h : s.db.perform lib call = (.ok result, db)) :
    (sqliteLibrary lib files).invoke call.call s = .ok (result, { s with db := db }) := by
  cases call with
  | set record =>
    rw [DBSQLite.perform] at h
    cases hset : s.db.set lib (recordName record) record with
    | error fault => simp [hset] at h
    | ok r =>
      obtain ⟨done, db'⟩ := r
      obtain ⟨rfl, rfl⟩ : Result.flag done = result ∧ db' = db := by simpa [hset] using h
      simp [SharedCall.call, DBLibrary.invoke, sqliteLibrary, hset]
  | fields | getAll | get name field =>
    obtain ⟨hresult, rfl⟩ := Prod.mk.inj h
    obtain rfl := Except.ok.inj hresult
    rfl

theorem exists_perform_ok {text : DBTextFile} {db : DBSQLite τ} {call : SharedCall}
    (h : (text.perform call).1 = (db.perform lib call).1) : ∃ result, (text.perform call).1 =
      .ok result := by
  cases call with
  | get name field => exact ⟨_, h⟩
  | fields | getAll | set record => exact ⟨_, rfl⟩

end Invoke

structure SQLiteFiles.Sound {τ : Type} (files : SQLiteFiles τ) (table : τ → Table) (file : τ) :
    Prop where
  opens : files.opens file = true
  loads : ∃ inMemory, files.memory = some inMemory ∧ (files.backup file inMemory).1 = true ∧
    table (files.backup file inMemory).2 = table file
  columns : ∀ db, files.columns db = (true, (table db).columns)

def Filed {τ : Type} (table : τ → Table) (columns : List Bytes) (contents : Bytes)
    (file : τ) : Prop :=
  Held table columns (load contents) ⟨true, columns, file⟩

/-- The same, but that a commit, which the text backend always reports to have failed, can succeed
in the SQLite backend, where the handle that `read` has closed does not get in its way -/
inductive SameReply (reuses : Bool) : Bytes → Bytes → Prop
  | same (reply : Bytes) : SameReply reuses reply reply
  | commit (h : reuses = false) :
      SameReply reuses (ascii "Failed to preserve DB: " ++ [lf])
        (buildError (ascii "SUCCESS") ++ [lf])

structure Twins {τ : Type} (files : SQLiteFiles τ) (table : τ → Table) (columns : List Bytes)
    (file : τ)
    (srv : Server TextStore) (sq : Server (SqliteStore τ)) : Prop where
  held : Held table columns srv.store.db sq.store.db
  replies : ∀ i, List.Forall₂ (SameReply files.reuses) (srv.repliesTo i) (sq.repliesTo i)
  kept : files.reuses = true → sq.store.closed = true ∧ sq.store.file = file

def Common (columns : List Bytes) (db : DBTextFile) (chunk : Bytes) : Prop :=
  plan (segments chunk) = .ok none ∨ plan (segments chunk) = .ok (some .save) ∨
    ∃ call : SharedCall, plan (segments chunk) = .ok (some call.call) ∧ call.Allowed columns ∧
      call.Agrees db

theorem parseRequest_refused {σ : Type} {lib : DBLibrary σ} {chunk : Bytes} {session : Session}
    {store : σ} (hplan : plan (segments chunk) = .ok none) :
    parseRequest lib chunk session store = .ok (Session.doWrite
      { session with response_ := refusal (stripCRLF chunk) (segments chunk) }, store) := by
  rw [parseRequest_eq, serveRequest]
  simp [hplan]

section Twins
variable {τ : Type} {lib : SQLite τ} {files : SQLiteFiles τ} {table : τ → Table}
  {reserved : Bytes → Bool} {columns : List Bytes} {text : TextStore} {sq : SqliteStore τ}
  {file : τ} {srv : Server TextStore} {twin : Server (SqliteStore τ)} {e : Event}

theorem boot_twins {contents : Bytes} (h : Filed table columns contents file)
    (hfiles : files.Sound table file) (worker : τ) :
    ∃ twin, Server.boot (sqliteLibrary lib files) ⟨⟨false, [], worker⟩, file, false⟩ =
      .ok (some twin) ∧
      Twins files table columns file (Server.ofFile contents) twin := by
  obtain ⟨inMemory, hmemory, hdone, htable⟩ := hfiles.loads
  let db : DBSQLite τ := ⟨true, columns, (files.backup file inMemory).2⟩
  have hcolumns : files.columns (files.backup file inMemory).2 = (true, columns) := by
    rw [hfiles.columns, htable, h.rows]
  have hread : SqliteStore.read files ⟨⟨false, [], worker⟩, file, false⟩ =
      (true, ⟨db, file, true⟩) := by
    simp [SqliteStore.read, DBSQLite.getFields, hfiles.opens, hmemory, hdone, hcolumns, db]
  refine ⟨⟨fun _ => Session.start, ⟨db, file, true⟩⟩, ?_, ?_⟩
  · simp [Server.boot, sqliteLibrary, hread]
  · exact ⟨{ h with rows := htable.trans h.rows }, fun _ => .nil, fun _ => ⟨rfl, rfl⟩⟩

theorem repliesTo_update {σ : Type} {srv : Server σ} {i : Nat} {response : Bytes} {store : σ}
    (j : Nat) :
    Server.repliesTo ⟨Function.update srv.sessions i
      (Session.doWrite { srv.sessions i with response_ := response }), store⟩ j =
        srv.repliesTo j ++ if j = i then [response ++ [lf]] else [] := by
  by_cases hj : j = i
  · subst hj
    simp [Server.repliesTo, Session.doWrite]
  · simp [Server.repliesTo, hj]

theorem held_invoke (h : Held table columns text.db sq.db) (files : SQLiteFiles τ)
    (hwords : SqlWords reserved) (hlib : SqliteMeaning reserved lib table)
    (hcols : Columns reserved columns) {call : SharedCall}
    (hcall : call.Allowed columns ∧ call.Agrees text.db) :
    ∃ result text' sq', textLibrary.invoke call.call text = .ok (result, text') ∧
      (sqliteLibrary lib files).invoke call.call sq = .ok (result, sq') ∧
        Held table columns text'.db sq'.db ∧ sq'.closed = sq.closed ∧ sq'.file = sq.file := by
  obtain ⟨hsame, hheld⟩ := perform_agrees hwords hlib hcols text.db sq.db call hcall h
  obtain ⟨result, hresult⟩ := exists_perform_ok hsame
  have htext := invoke_text_of_perform (s := text) (Prod.ext hresult rfl)
  have hsq : (sqliteLibrary lib files).invoke call.call sq = _ :=
    invoke_sqlite_of_perform (Prod.ext (hsame.symm.trans hresult) rfl)
  exact ⟨result, _, _, htext, hsq, hheld, rfl, rfl⟩

theorem Twins.reply (h : Twins files table columns file srv twin) {i : Nat}
    {chunk response response' : Bytes}
    (htext : parseRequest textLibrary chunk (srv.sessions i) srv.store =
      .ok (Session.doWrite { srv.sessions i with response_ := response }, text))
    (hsq : parseRequest (sqliteLibrary lib files) chunk (twin.sessions i) twin.store =
      .ok (Session.doWrite { twin.sessions i with response_ := response' }, sq))
    (hsame : SameReply files.reuses (response ++ [lf]) (response' ++ [lf]))
    (hheld : Held table columns text.db sq.db)
    (hkept : files.reuses = true → sq.closed = true ∧ sq.file = file) :
    ∃ srv' twin', srv.receive textLibrary (i, chunk) = .ok srv' ∧
      twin.receive (sqliteLibrary lib files) (i, chunk) = .ok twin' ∧
      Twins files table columns file srv' twin' := by
  have hsrv : srv.receive textLibrary (i, chunk) = .ok ⟨Function.update srv.sessions i
      (Session.doWrite { srv.sessions i with response_ := response }), text⟩ := by
    simp only [Server.receive, htext, map_ok]
  have htwin : twin.receive (sqliteLibrary lib files) (i, chunk) =
      .ok ⟨Function.update twin.sessions i
      (Session.doWrite { twin.sessions i with response_ := response' }), sq⟩ := by
    simp only [Server.receive, hsq, map_ok]
  refine ⟨_, _, hsrv, htwin, hheld, fun j => ?_, hkept⟩
  rw [repliesTo_update, repliesTo_update]
  refine List.rel_append (h.replies j) ?_
  split_ifs
  · exact .cons hsame .nil
  · exact .nil

/-- One request more -/
theorem Twins.receive (h : Twins files table columns file srv twin) (hwords : SqlWords reserved)
    (hlib : SqliteMeaning reserved lib table) (hcols : Columns reserved columns)
    (hcommon : Common columns srv.store.db e.2) :
    ∃ srv' twin', srv.receive textLibrary e = .ok srv' ∧
      twin.receive (sqliteLibrary lib files) e = .ok twin' ∧
      Twins files table columns file srv' twin' := by
  obtain hplan | hplan | hcall := hcommon
  · exact h.reply (parseRequest_refused hplan) (parseRequest_refused hplan) (.same _) h.held h.kept
  · have hfailed : (srv.store.db.save srv.store.file).1 = false := by
      unfold DBTextFile.save
      split <;> rfl
    have htext : textLibrary.invoke .save srv.store =
        .ok (.flag false, { srv.store with file := (srv.store.db.save srv.store.file).2 }) := by
      rw [invoke_text, hfailed]
    have hsq : (sqliteLibrary lib files).invoke .save twin.store =
        .ok (.flag (twin.store.save files).1, (twin.store.save files).2) := rfl
    have hheld : Held table columns srv.store.db (twin.store.save files).2.db := by
      rw [SqliteStore.save_db]
      exact h.held
    have hfails (hreuses : files.reuses = true) : twin.store.save files = (false, twin.store) :=
      SqliteStore.save_of_closed (h.kept hreuses).1 hreuses
    refine h.reply (parseRequest_call hplan htext) (parseRequest_call hplan hsq) ?_ hheld
      fun hreuses => ?_
    · cases hreuses : files.reuses with
      | true =>
        rw [hfails hreuses]
        exact .same _
      | false =>
        cases (twin.store.save files).1 with
        | false => exact .same _
        | true => exact .commit rfl
    · rw [hfails hreuses]
      exact h.kept hreuses
  · obtain ⟨call, hplan, hcall⟩ := hcall
    obtain ⟨result, text, sq, htext, hsq, hheld, hclosed, hfile⟩ :=
      held_invoke h.held files hwords hlib hcols hcall
    refine h.reply (parseRequest_call hplan htext) (parseRequest_call hplan hsq) (.same _) hheld ?_
    rw [hclosed, hfile]
    exact h.kept

theorem Twins.reaches (h : Twins files table columns file srv twin) (hwords : SqlWords reserved)
    (hlib : SqliteMeaning reserved lib table) (hcols : Columns reserved columns)
    {events : List Event}
    (hg : Guarded (Server.receive textLibrary) (fun srv e => Common columns srv.store.db e.2)
      srv events) :
    ∃ srv' twin', Reaches (Server.receive textLibrary) (fun _ _ => True) srv events srv' ∧
      Reaches (Server.receive (sqliteLibrary lib files)) (fun _ _ => True) twin events twin' ∧
        Twins files table columns file srv' twin' := by
  induction events generalizing srv twin with
  | nil => exact ⟨srv, twin, rfl, rfl, h⟩
  | cons e events ih =>
    obtain ⟨srv1, twin1, hsrv, htwin, h1⟩ := h.receive hwords hlib hcols hg.1
    obtain ⟨srv', twin', hsrv', htwin', h'⟩ := ih h1 (hg.2 srv1 hsrv)
    exact ⟨srv', twin', ⟨trivial, srv1, hsrv, hsrv'⟩, ⟨trivial, twin1, htwin, htwin'⟩, h'⟩

/-- Servers over the two backends that start from files with one table give the same replies to
requests on which the backends agree, and hold one table in memory. To a commit the text backend
always replies that it has failed; so does the SQLite backend, whose file then stays as it was,
where closing the handle that `read` has closed once more closes the new one. -/
theorem providers_interchangeable (hwords : SqlWords reserved)
    (hlib : SqliteMeaning reserved lib table)
    (hcols : Columns reserved columns) {contents : Bytes} (hfiles : files.Sound table file)
    (hfiled : Filed table columns contents file) (worker : τ) {events : List Event}
    (hg : Guarded (Server.receive textLibrary) (fun srv e => Common columns srv.store.db e.2)
      (Server.ofFile contents) events) :
    ∃ twin srv' twin',
      Server.boot textLibrary ⟨DBTextFile.fresh, ⟨contents, true, true⟩⟩ =
        .ok (some (Server.ofFile contents)) ∧
      Server.boot (sqliteLibrary lib files) ⟨⟨false, [], worker⟩, file, false⟩ = .ok (some twin) ∧
      Reaches (Server.receive textLibrary) (fun _ _ => True) (Server.ofFile contents) events srv' ∧
      Reaches (Server.receive (sqliteLibrary lib files)) (fun _ _ => True) twin events twin' ∧
      Twins files table columns file srv' twin' := by
  obtain ⟨twin, hboot, htwins⟩ := boot_twins hfiled hfiles worker
  obtain ⟨srv', twin', hsrv, htwin, h⟩ := htwins.reaches hwords hlib hcols hg
  exact ⟨twin, srv', twin', Server.boot_text contents, hboot, hsrv, htwin, h⟩

end Twins

section Sample

def tableFiles : SQLiteFiles Table where
  opens _ := true
  memory := some ⟨[], []⟩
  backup source _ := (true, source)
  columns t := (true, t.columns)
  reuses := true

theorem tableFiles_sound (file : Table) : tableFiles.Sound id file :=
  ⟨rfl, ⟨⟨[], []⟩, rfl, rfl, rfl⟩, fun _ => rfl⟩

def sampleRequests : List Event :=
  [(0, ascii "/set/eve:dawn"), (1, ascii "/get/eve"), (0, ascii "/commit"), (1, ascii "/help")]

theorem sampleRequests_common {db : DBTextFile} (hdb : db.fields_ = sampleColumns) :
    ∀ e ∈ sampleRequests, Common sampleColumns db e.2 := by
  have hset : SharedCall.Agrees db (.set (ascii "eve:dawn")) := by
    rw [SharedCall.Agrees, hdb]
    decide
  have hget : SharedCall.Agrees db (.get (ascii "eve") []) :=
    ⟨by unfold Quotable; decide, Or.inl rfl⟩
  intro e he
  simp only [sampleRequests, List.mem_cons, List.not_mem_nil, or_false] at he
  obtain rfl | rfl | rfl | rfl := he
  · exact Or.inr (Or.inr ⟨.set (ascii "eve:dawn"), by decide, by decide, hset⟩)
  · exact Or.inr (Or.inr ⟨.get (ascii "eve") [], by decide, by decide, hget⟩)
  · exact Or.inr (Or.inl (by decide))
  · exact Or.inl (by decide)

/-- Two clients, a record more and a commit, which neither provider says to have made -/
theorem providers_interchangeable_sample :
    ∃ (twin : Server (SqliteStore Table)) (srv' : Server TextStore)
      (twin' : Server (SqliteStore Table)),
      Server.boot textLibrary ⟨DBTextFile.fresh, ⟨ascii "name:time\nbob:noon", true, true⟩⟩ =
        .ok (some (Server.ofFile (ascii "name:time\nbob:noon"))) ∧
      Server.boot (sqliteLibrary tableSQLite tableFiles)
          ⟨⟨false, [], ⟨[], []⟩⟩, ⟨sampleColumns, [[ascii "bob", ascii "noon"]]⟩, false⟩ =
        .ok (some twin) ∧
      Reaches (Server.receive textLibrary) (fun _ _ => True)
        (Server.ofFile (ascii "name:time\nbob:noon")) sampleRequests srv' ∧
      Reaches (Server.receive (sqliteLibrary tableSQLite tableFiles)) (fun _ _ => True) twin
        sampleRequests twin' ∧
      Twins tableFiles id sampleColumns ⟨sampleColumns, [[ascii "bob", ascii "noon"]]⟩ srv'
        twin' := by
  have hload : load (ascii "name:time\nbob:noon") = sampleText := by decide
  have hfiled : Filed id sampleColumns (ascii "name:time\nbob:noon")
      ⟨sampleColumns, [[ascii "bob", ascii "noon"]]⟩ := by
    rw [Filed, hload]
    exact sample_held
  have hg : Guarded (Server.receive textLibrary)
      (fun srv e => Common sampleColumns srv.store.db e.2)
      (Server.ofFile (ascii "name:time\nbob:noon")) sampleRequests :=
    guarded_of_invariant (I := fun srv => srv.store.db.fields_ = sampleColumns)
      (fun _ e he hdb => sampleRequests_common hdb e he)
      (fun _ _ _ _ hdb hs => (receive_text_fields hs).trans hdb) (congrArg DBTextFile.fields_ hload)
  exact providers_interchangeable sqlWords_sqlite tableSQLite_meaning sample_columns
    (tableFiles_sound _) hfiled _ hg

end Sample
end ReminderSuite
