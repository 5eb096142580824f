import ReminderSuite.Server
import ReminderSuite.TextFileCodec

/-! What a restart of the text server finds: the store as it was in memory at the
last commit, as long as no value with a ':' has been stored through a field. -/
namespace ReminderSuite
open Delimited FallibleRun FirstMatch

/-- The ghost kept beside a run: the store in memory at the last commit command. -/
def noteCommit (e : Event) (srv : Server TextStore) (committed : DBTextFile) : DBTextFile :=
  if (segments e.2).head? = some (ascii "commit") then srv.store.db else committed

/-- The store in memory at the last commit of a run, the loaded one before any. -/
def committed (contents : Bytes) (events : List Event) : DBTextFile :=
  (serve (ghostStep (Server.receive textLibrary) noteCommit)
    (Server.ofFile contents, load contents) events).2

def served (contents : Bytes) (events : List Event) : Server TextStore :=
  serve (Server.receive textLibrary) (Server.ofFile contents) events

/-- The request does not store a value with a ':' into an existing cell. -/
def SetsPlain (srv : Server TextStore) (e : Event) : Prop :=
  ∀ name field value, segments e.2 = [ascii "set", name, field, value] →
    srv.store.db.cell? name field ≠ none → colon ∉ value

structure LineSafe (db : DBTextFile) : Prop where
  fields_ne : db.fields_ ≠ []
  fields_plain : ∀ f ∈ db.fields_, Plain f
  values_safe : db.All fun e => ∀ v ∈ e.values, lf ∉ v

theorem LineSafe.representable_iff {db : DBTextFile} (h : LineSafe db) :
    Representable db ↔ ∀ e ∈ db.entries_, ∀ v ∈ e.values, colon ∉ v := by
  constructor
  · exact fun hr e he v hv => (hr.values_plain e he v hv).1
  · exact fun hc => ⟨h.fields_ne, h.fields_plain,
      fun e he v hv => ⟨hc e he v hv, h.values_safe e he v hv⟩⟩

theorem Representable.lineSafe {db : DBTextFile} (h : Representable db) : LineSafe db :=
  ⟨h.fields_ne, h.fields_plain, fun e he v hv => (h.values_plain e he v hv).2⟩

theorem lf_not_mem_ofLine {record : Bytes} (h : lf ∉ record) :
    ∀ v ∈ (Entry.ofLine record).values, lf ∉ v :=
  fun _ hv hb => h (mem_of_mem_token hv hb)

theorem LineSafe.effect {s : TextStore} {chunk : Bytes} {c : Call} (h : LineSafe s.db)
    (hplan : plan (segments chunk) = .ok (some c)) : LineSafe (c.effect s).db := by
  have hseg := spelledBy_of_plan hplan
  rw [effect_eq]
  cases c with
  | set name record =>
    have hmem : record ∈ segments chunk := by simp [hseg.1]
    have hr : lf ∉ record := (clean_segment hmem).1
    exact ⟨by simpa using h.fields_ne, by simpa using h.fields_plain,
      h.values_safe.set name (lf_not_mem_ofLine hr)⟩
  | setField name field value =>
    have hmem : value ∈ segments chunk := by simp [show segments chunk = _ from hseg]
    have hv : lf ∉ value := (clean_segment hmem).1
    exact ⟨by simpa using h.fields_ne, by simpa using h.fields_plain,
      h.values_safe.setField fun _ e idx he => Entry.forall_put he hv⟩
  | erase name =>
    exact ⟨by simpa using h.fields_ne, by simpa using h.fields_plain,
      h.values_safe.erase name⟩
  | _ => exact h

/-- Under the condition on field updates the store stays one that a file can hold. -/
theorem Representable.effect {srv : Server TextStore} {e : Event} {c : Call}
    (h : Representable srv.store.db) (hp : SetsPlain srv e)
    (hplan : plan (segments e.2) = .ok (some c)) : Representable (c.effect srv.store).db := by
  have hsafe := h.lineSafe.effect hplan
  rw [hsafe.representable_iff]
  have hold : srv.store.db.All fun e => ∀ v ∈ e.values, colon ∉ v :=
    fun e he v hv => (h.values_plain e he v hv).1
  have hseg := spelledBy_of_plan hplan
  rw [effect_eq]
  cases c with
  | set name record => exact hold.set name fun v hv => sep_not_mem_token hv
  | setField name field value =>
    refine hold.setField fun hc e idx he => Entry.forall_put he ?_
    exact hp name field value hseg (Option.isSome_iff_ne_none.mp hc)
  | erase name => exact hold.erase name
  | _ => exact hold

/-- What holds between the server, its file and the ghost in every reachable state. -/
structure Durable (s : Server TextStore × DBTextFile) : Prop where
  opens : s.1.store.file.opens = true
  overwrites : s.1.store.file.overwrites = true
  memory_safe : LineSafe s.1.store.db
  committed_safe : LineSafe s.2
  restart : Representable s.2 → load s.1.store.file.contents = s.2

theorem durable_start (contents : Bytes) : Durable (Server.ofFile contents, load contents) where
  opens := rfl
  overwrites := rfl
  memory_safe := (load_representable contents).lineSafe
  committed_safe := (load_representable contents).lineSafe
  restart _ := rfl

theorem head?_commit_iff {segs : List Bytes} :
    segs.head? = some (ascii "commit") ↔ plan segs = .ok (some .save) := by
  constructor
  · cases segs with
    | nil => simp
    | cons command args =>
      intro h
      obtain rfl : command = ascii "commit" := by simpa using h
      rfl
  · intro h
    obtain ⟨rest, hr⟩ := spelledBy_of_plan h
    simp [hr]

theorem receive_file_eq {srv srv' : Server TextStore} {e : Event}
    (h : srv.receive textLibrary e = .ok srv')
    (hplan : plan (segments e.2) ≠ .ok (some .save)) : srv'.store.file = srv.store.file := by
  cases receive_ok h with
  | inl hquiet => rw [hquiet.2]
  | inr hcall =>
    obtain ⟨c, result, hc, hi⟩ := hcall
    rw [invoke_text_effect hi, effect_eq]
    cases c with
    | save => exact absurd hc hplan
    | _ => rfl

theorem receive_commit {srv srv' : Server TextStore} {e : Event}
    (h : srv.receive textLibrary e = .ok srv')
    (hplan : plan (segments e.2) = .ok (some .save)) :
    srv'.store = { srv.store with file := (srv.store.db.save srv.store.file).2 } := by
  cases receive_ok h with
  | inl hquiet => simp [hplan] at hquiet
  | inr hcall =>
    obtain ⟨c, result, hc, hi⟩ := hcall
    obtain rfl : c = .save := by simpa [hplan] using hc.symm
    exact invoke_text_effect hi

theorem Durable.step {s s' : Server TextStore × DBTextFile} {e : Event} (h : Durable s)
    (hs : ghostStep (Server.receive textLibrary) noteCommit s e = .ok s') : Durable s' := by
  obtain ⟨hr, hg⟩ := ghostStep_ok hs
  have hmem : LineSafe s'.1.store.db :=
    receive_text_invariant (P := fun t => LineSafe t.db) hr h.memory_safe
      fun c hc => h.memory_safe.effect hc
  by_cases hplan : plan (segments e.2) = .ok (some .save)
  · have hst := receive_commit hr hplan
    have hdb : s'.1.store.db = s.1.store.db := by rw [hst]
    have hfile : s'.1.store.file = { s.1.store.file with contents := s.1.store.db.serialise } := by
      rw [hst]
      simp [DBTextFile.save, h.overwrites]
    rw [noteCommit, if_pos (head?_commit_iff.mpr hplan)] at hg
    refine ⟨by rw [hfile]; exact h.opens, by rw [hfile]; exact h.overwrites, hmem, hg ▸ hmem, ?_⟩
    rw [hg, hfile, hdb]
    exact load_serialise
  · have hfile := receive_file_eq hr hplan
    rw [noteCommit, if_neg (mt head?_commit_iff.mp hplan)] at hg
    exact ⟨by rw [hfile]; exact h.opens, by rw [hfile]; exact h.overwrites, hmem,
      hg ▸ h.committed_safe, by rw [hfile, hg]; exact h.restart⟩

theorem durable_run (contents : Bytes) (events : List Event) :
    Durable (served contents events, committed contents events) := by
  have h : Durable (serve (ghostStep (Server.receive textLibrary) noteCommit)
      (Server.ofFile contents, load contents) events) :=
    serve_invariant' _ events (fun _ _ _ hs => hs.step) (durable_start contents)
  have hpair : serve (ghostStep (Server.receive textLibrary) noteCommit)
      (Server.ofFile contents, load contents) events =
        (served contents events, committed contents events) :=
    Prod.ext (serve_ghost_fst noteCommit _ events) rfl
  rwa [hpair] at h

theorem Representable.step {s s' : Server TextStore × DBTextFile} {e : Event}
    (h : Representable s.1.store.db ∧ Representable s.2) (hp : SetsPlain s.1 e)
    (hs : ghostStep (Server.receive textLibrary) noteCommit s e = .ok s') :
    Representable s'.1.store.db ∧ Representable s'.2 := by
  obtain ⟨hr, hg⟩ := ghostStep_ok hs
  have hmem : Representable s'.1.store.db :=
    receive_text_invariant (P := fun t => Representable t.db) hr h.1 fun c hc => h.1.effect hp hc
  refine ⟨hmem, ?_⟩
  rw [hg, noteCommit]
  split_ifs
  · exact hmem
  · exact h.2

theorem committed_representable {contents : Bytes} {events : List Event}
    (hg : Guarded (Server.receive textLibrary) SetsPlain (Server.ofFile contents) events) :
    Representable (committed contents events) := by
  have hload := load_representable contents
  exact (serve_invariant
    (guarded_ghost (s := (Server.ofFile contents, load contents)) noteCommit hg)
    (P := fun s => Representable s.1.store.db ∧ Representable s.2)
    (fun _ _ _ hP hp hs => Representable.step hP hp hs) ⟨hload, hload⟩).2

theorem restart_iff_representable (contents : Bytes) (events : List Event) :
    DBTextFile.fresh.read (served contents events).store.file = (true, committed contents events) ↔
      Representable (committed contents events) := by
  have h := durable_run contents events
  rw [read_fresh h.opens]
  constructor
  · intro he
    rw [← (Prod.mk.inj he).2]
    exact load_representable _
  · intro hr
    rw [h.restart hr]

/-- Durability over whole runs, for any number of clients and whatever way the
run ends. If no request of the run stores a value with a ':' through a field, a
restart finds the store that was in memory at the last commit; and in any run it
does so exactly when no value in memory at that commit has a ':'. -/
theorem restart_finds_last_commit (contents : Bytes) (events : List Event) :
    (Guarded (Server.receive textLibrary) SetsPlain (Server.ofFile contents) events →
      DBTextFile.fresh.read (served contents events).store.file =
        (true, committed contents events)) ∧
    (DBTextFile.fresh.read (served contents events).store.file =
        (true, committed contents events) ↔
      ∀ e ∈ (committed contents events).entries_, ∀ v ∈ e.values, colon ∉ v) := by
  have h := durable_run contents events
  refine ⟨fun hg => ?_, ?_⟩
  · exact (restart_iff_representable contents events).mpr (committed_representable hg)
  · rw [restart_iff_representable]
    exact h.committed_safe.representable_iff

/-- A record set, a field set and a commit by two clients survive a restart. -/
theorem restart_finds_last_commit_sample :
    let contents := ascii "name:note\nmilk:x\n"
    let events := [(0, ascii "/set/eggs:six"), (1, ascii "/set/milk/note/two"),
      (0, ascii "/commit")]
    DBTextFile.fresh.read (served contents events).store.file =
      (true, committed contents events) := by
  refine (restart_finds_last_commit _ _).1 (guarded_of_forall_mem (fun srv e he => ?_) _)
  intro name field value hseg _
  have hplain : ∀ e ∈ [((0 : Nat), ascii "/set/eggs:six"), (1, ascii "/set/milk/note/two"),
      (0, ascii "/commit")], ∀ v ∈ (segments e.2).drop 3, colon ∉ v := by decide
  exact hplain e he value (by simp [hseg])

/-- A committed value with a ':' comes back as two values. -/
theorem restart_splits_field_value :
    let contents := ascii "name:note\nmilk:x\n"
    let events := [(0, ascii "/set/milk/note/a:b"), (0, ascii "/commit")]
    DBTextFile.fresh.read (served contents events).store.file ≠
      (true, committed contents events) ∧
    (committed contents events).entries_.map Entry.values = [[ascii "milk", ascii "a:b"]] ∧
    (DBTextFile.fresh.read (served contents events).store.file).2.entries_.map Entry.values =
      [[ascii "milk", ascii "a", ascii "b"]] := by
  decide

end ReminderSuite
