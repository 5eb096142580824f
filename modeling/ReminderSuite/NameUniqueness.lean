import ReminderSuite.Server

/-! The names of the stored records over whole runs: every operation keeps them
pairwise distinct but a rename through the first field. -/
namespace ReminderSuite
open Delimited FallibleRun FirstMatch

namespace DBTextFile

def NamesDistinct (db : DBTextFile) : Prop := (db.entries_.map Entry.name).Nodup

variable {db : DBTextFile} {name field value : Bytes}

theorem NamesDistinct.of_found (h : db.NamesDistinct) {it : Cursor Entry}
    (hit : db.Found name it) : (it.list.map Entry.name).Nodup := by
  rw [hit.list_eq]
  exact h

theorem NamesDistinct.others (h : db.NamesDistinct) {it : Cursor Entry}
    (hit : db.Found name it) : ∀ e ∈ it.before ++ it.after, e.name ≠ name := by
  have hne := ne_of_nodup Entry.name (h.of_found hit)
  rwa [hit.name_eq] at hne

theorem NamesDistinct.found (h : db.NamesDistinct) {a b : List Entry} {e : Entry}
    (hsplit : db.entries_ = a ++ e :: b) : db.Found e.name ⟨a, e, b⟩ := by
  refine ⟨hsplit.symm, rfl, fun d hd => ?_⟩
  have hn : (Cursor.list ⟨a, e, b⟩ |>.map Entry.name).Nodup := by
    rw [Cursor.list, ← hsplit]
    exact h
  exact ne_of_nodup Entry.name hn d (List.mem_append_left b hd)

theorem NamesDistinct.set (h : db.NamesDistinct) (record : Bytes) :
    (db.set (recordName record) record).2.NamesDistinct := by
  have hname : (Entry.ofLine record).name = recordName record := Entry.name_ofLine record
  cases set_cases db (recordName record) record with
  | inl habsent =>
    obtain ⟨hn, hs⟩ := habsent
    rw [hs, NamesDistinct, List.map_append, List.map_singleton, hname]
    refine List.nodup_append.mpr ⟨h, by simp, ?_⟩
    intro x hx y hy hxy
    obtain ⟨e, he, rfl⟩ := List.mem_map.mp hx
    obtain rfl : y = recordName record := by simpa using hy
    exact findName_eq_none_iff.mp hn e he hxy
  | inr hfound =>
    obtain ⟨it, hit, hs⟩ := hfound
    rw [hs, NamesDistinct]
    refine (nodup_write_iff Entry.name (h.of_found hit) _).mpr ?_
    rw [hname]
    exact h.others hit

theorem NamesDistinct.erase (h : db.NamesDistinct) (name : Bytes) :
    (db.erase name).2.NamesDistinct := by
  cases erase_cases db name with
  | inl habsent => rwa [habsent.2]
  | inr hfound =>
    obtain ⟨it, hit, hs⟩ := hfound
    rw [hs, NamesDistinct]
    exact (h.of_found hit).sublist (((List.sublist_cons_self _ _).append_left _).map Entry.name)

/-- An update through the field that holds the names brings in no name that
another record has. -/
def RenamesFreshly (db : DBTextFile) (name field value : Bytes) : Prop :=
  db.fields_.head? = some field → (db.findName name).isSome = true →
    value = name ∨ ∀ e ∈ db.entries_, e.name ≠ value

/-- The exact condition under which a field update keeps the names apart. -/
theorem NamesDistinct.setField_iff (h : db.NamesDistinct) (name field value : Bytes) :
    (db.setField name field value).2.NamesDistinct ↔ db.RenamesFreshly name field value := by
  cases setField_cases db name field value with
  | inl habsent =>
    obtain ⟨hc, hs⟩ := habsent
    rw [hs]
    refine iff_of_true h fun hhead hsome => ?_
    obtain ⟨it, hn⟩ := Option.isSome_iff_exists.mp hsome
    simp [cell?, hn, findField_eq_zero_iff.mpr hhead, it.here.values_ne] at hc
  | inr hfound =>
    obtain ⟨it, idx, hit, hf, hlt, -, hs⟩ := hfound
    rw [hs, NamesDistinct]
    refine (nodup_write_iff Entry.name (h.of_found hit) _).trans ?_
    have hothers := h.others hit
    by_cases hidx : idx = 0
    · subst hidx
      have hhead := findField_eq_zero_iff.mp hf
      have hsome : (db.findName name).isSome = true := by simp [findName_of_found hit]
      rw [Entry.name_put_zero]
      by_cases hv : value = name
      · rw [hv]
        exact iff_of_true hothers fun _ _ => Or.inl rfl
      · have hhere : value ≠ it.here.name := by rwa [hit.name_eq]
        rw [forall_around_ne_iff Entry.name hhere, hit.list_eq]
        constructor
        · exact fun hfresh _ _ => Or.inr hfresh
        · exact fun hr => (hr hhead hsome).resolve_left hv
    · rw [Entry.name_put_pos _ hidx, hit.name_eq]
      refine iff_of_true hothers fun hhead _ => ?_
      rw [findField_eq_zero_iff.mpr hhead] at hf
      exact absurd (Option.some.inj hf).symm hidx

theorem NamesDistinct.get (h : db.NamesDistinct) {a b : List Entry} {e : Entry}
    (hsplit : db.entries_ = a ++ e :: b) : db.get e.name [] = .ok e.asString := by
  simp [DBTextFile.get, findName_of_found (h.found hsplit)]

theorem NamesDistinct.erase_eq (h : db.NamesDistinct) {a b : List Entry} {e : Entry}
    (hsplit : db.entries_ = a ++ e :: b) :
    db.erase e.name = (true, { db with entries_ := a ++ b }) := by
  simp [DBTextFile.erase, findName_of_found (h.found hsplit), Cursor.erase]

end DBTextFile

/-- The request is no rename of one record to the name of another. -/
def RenamesFreshly (srv : Server TextStore) (e : Event) : Prop :=
  ∀ name field value, segments e.2 = [ascii "set", name, field, value] →
    srv.store.db.RenamesFreshly name field value

theorem namesDistinct_receive_iff {srv srv' : Server TextStore} {e : Event}
    (h : srv.store.db.NamesDistinct) (hr : srv.receive textLibrary e = .ok srv') :
    srv'.store.db.NamesDistinct ↔ RenamesFreshly srv e := by
  cases receive_ok hr with
  | inl hquiet =>
    obtain ⟨hplan, hst⟩ := hquiet
    rw [hst]
    refine iff_of_true h fun name field value hseg => ?_
    rw [hseg, plan_setField] at hplan
    exact absurd hplan (by simp)
  | inr hcall =>
    obtain ⟨c, result, hplan, hi⟩ := hcall
    rw [invoke_text_effect hi, effect_eq]
    have hseg := spelledBy_of_plan hplan
    have hother : (∀ name field value, c ≠ .setField name field value) → RenamesFreshly srv e := by
      intro hne name field value hs
      rw [hs, plan_setField] at hplan
      exact absurd (Option.some.inj (Except.ok.inj hplan)).symm (hne name field value)
    cases c with
    | set name record =>
      obtain rfl := hseg.2
      exact iff_of_true (h.set record) (hother nofun)
    | setField name field value =>
      refine (h.setField_iff name field value).trans ⟨fun hf n f v hs => ?_, fun hf => ?_⟩
      · rw [hs, plan_setField] at hplan
        obtain ⟨rfl, rfl, rfl⟩ := Call.setField.inj (Option.some.inj (Except.ok.inj hplan))
        exact hf
      · exact hf name field value hseg
    | erase name => exact iff_of_true (h.erase name) (hother nofun)
    | _ => exact iff_of_true h (hother nofun)

section Answers
variable {s : TextStore} {a b : List Entry} {e : Entry}

theorem answer_get (h : s.db.NamesDistinct) (hsplit : s.db.entries_ = a ++ e :: b)
    (hclean : Clean e.name) (hne : e.name ≠ []) (session : Session) :
    parseRequest textLibrary (spell [ascii "get", e.name]) session s =
      .ok (Session.doWrite { session with response_ := e.asString }, s) := by
  have hi : textLibrary.invoke (.get e.name []) s = .ok (.text e.asString, s) := by
    simp [invoke_text, h.get hsplit]
  rw [parseRequest_call (plan_get_name hclean hne) hi]
  simp [answer, e.asString_ne_nil]

theorem answer_delete (h : s.db.NamesDistinct) (hsplit : s.db.entries_ = a ++ e :: b)
    (hclean : Clean e.name) (hne : e.name ≠ []) (session : Session) :
    parseRequest textLibrary (spell [ascii "delete", e.name]) session s =
      .ok (Session.doWrite { session with response_ := buildError (ascii "SUCCESS") },
        { s with db := { s.db with entries_ := a ++ b } }) := by
  have hi : textLibrary.invoke (.erase e.name) s =
      .ok (.flag true, { s with db := { s.db with entries_ := a ++ b } }) := by
    simp [invoke_text, h.erase_eq hsplit]
  rw [parseRequest_call (plan_delete_name hclean hne) hi]
  rfl

end Answers

/-- Along every run in which no request renames a record to the name of another,
the names stay pairwise distinct; every record is then the one that its name looks
up and the only one that a removal of its name takes away, in the store and, where
a command can spell the name, in what a session answers. -/
theorem names_stay_distinct (srv : Server TextStore) (events : List Event)
    (h : (srv.store.db.entries_.map Entry.name).Nodup)
    (hg : Guarded (Server.receive textLibrary) RenamesFreshly srv events) :
    let s := (serve (Server.receive textLibrary) srv events).store
    (s.db.entries_.map Entry.name).Nodup ∧
    ∀ a e b, s.db.entries_ = a ++ e :: b →
      s.db.get e.name [] = .ok e.asString ∧
      s.db.erase e.name = (true, { s.db with entries_ := a ++ b }) ∧
      (Clean e.name → e.name ≠ [] → ∀ session,
        parseRequest textLibrary (spell [ascii "get", e.name]) session s =
          .ok (Session.doWrite { session with response_ := e.asString }, s) ∧
        parseRequest textLibrary (spell [ascii "delete", e.name]) session s =
          .ok (Session.doWrite { session with response_ := buildError (ascii "SUCCESS") },
            { s with db := { s.db with entries_ := a ++ b } })) := by
  intro s
  have hs : s.db.NamesDistinct :=
    serve_invariant (P := fun t => t.store.db.NamesDistinct) hg
      (fun _ _ _ ht hf hr => (namesDistinct_receive_iff ht hr).mpr hf) h
  refine ⟨hs, fun a e b hsplit => ⟨hs.get hsplit, hs.erase_eq hsplit, ?_⟩⟩
  intro hclean hne session
  exact ⟨answer_get hs hsplit hclean hne session, answer_delete hs hsplit hclean hne session⟩

/-- A rename to a new name and a new record under the old one -/
theorem names_stay_distinct_sample :
    let srv := Server.ofFile (ascii "name:note\na:x\nb:y\n")
    let s := (serve (Server.receive textLibrary) srv
      [(0, ascii "/set/a/name/c"), (1, ascii "/set/a:z")]).store
    s.db.entries_.map Entry.name = [ascii "c", ascii "b", ascii "a"] ∧
    s.db.get (ascii "a") [] = .ok (ascii "a:z:") := by
  intro srv s
  have hg : Guarded (Server.receive textLibrary) RenamesFreshly srv
      [(0, ascii "/set/a/name/c"), (1, ascii "/set/a:z")] := by
    refine ⟨fun name field value hseg _ _ => ?_, fun s' _ => ⟨fun name field value hseg => ?_, ?_⟩⟩
    · have hsegs : segments (ascii "/set/a/name/c") =
          [ascii "set", ascii "a", ascii "name", ascii "c"] := by decide
      obtain ⟨-, -, rfl⟩ : ascii "a" = name ∧ ascii "name" = field ∧ ascii "c" = value := by
        simpa using hsegs.symm.trans hseg
      exact Or.inr (by decide)
    · have hsegs : (segments (ascii "/set/a:z")).length = 2 := by decide
      simp [hseg] at hsegs
    · exact fun _ _ => trivial
  have hsplit : s.db.entries_ =
      [⟨[ascii "c", ascii "x"], by simp⟩, ⟨[ascii "b", ascii "y"], by simp⟩] ++
        ⟨[ascii "a", ascii "z"], by simp⟩ :: [] := by decide
  have hstay := names_stay_distinct srv _ (by decide) hg
  exact ⟨by decide, (hstay.2 _ _ _ hsplit).1⟩

/-- Renaming `a` to the present name `b` leaves two records named `b`. The removal
of `b` takes the renamed one and its lookup then still finds the other. -/
theorem rename_duplicates_name :
    let srv := Server.ofFile (ascii "name:note\na:x\nb:y\n")
    let renamed := (serve (Server.receive textLibrary) srv [(0, ascii "/set/a/name/b")]).store
    (srv.store.db.entries_.map Entry.name).Nodup ∧
    ¬ (renamed.db.entries_.map Entry.name).Nodup ∧
    renamed.db.getAll = [ascii "b:x:", ascii "b:y:"] ∧
    renamed.db.get (ascii "b") [] = .ok (ascii "b:x:") ∧
    (renamed.db.erase (ascii "b")).2.get (ascii "b") [] = .ok (ascii "b:y:") := by
  decide

end ReminderSuite
