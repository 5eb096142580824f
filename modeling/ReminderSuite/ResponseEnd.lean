import ReminderSuite.Durability

/-! Where a response ends: the requests whose response stops at its first empty line,
as the comment in `do_write` asks of all of them. -/
namespace ReminderSuite
open Delimited FallibleRun

/-- The requests that are answered in whole lines: the list of all records, a removal, a
field update of an existing cell, and a set with a wrong number of arguments. -/
def AnsweredInLines (db : DBTextFile) (segs : List Bytes) : Prop :=
  segs = [ascii "get"] ∨
  (∃ name rest, segs = ascii "delete" :: name :: rest) ∨
  (∃ name field value, segs = [ascii "set", name, field, value] ∧
    (db.cell? name field).isSome) ∨
  ∃ args, segs = ascii "set" :: args ∧ args.length ≠ 1 ∧ args.length ≠ 3

theorem selfDelimiting_line {line : Bytes} (hne : line ≠ []) (hlf : lf ∉ line) :
    SelfDelimiting lf (line ++ [lf] ++ [lf]) := by
  have h : SelfDelimiting lf (terminated lf [line] ++ [lf]) :=
    selfDelimiting_terminated (by simpa using ⟨hne, hlf⟩)
  simpa using h

theorem lf_not_mem_ascii_append {prompt : String} {text : Bytes} (hprompt : lf ∉ ascii prompt)
    (htext : lf ∉ text) : lf ∉ ascii prompt ++ text := by
  simp [hprompt, htext]

theorem lf_not_mem_strip (chunk : Bytes) : lf ∉ stripCRLF chunk := by
  intro h
  simpa [stripCRLF] using (List.mem_filter.mp h).2

theorem lf_not_mem_cString {text : Bytes} (h : lf ∉ text) : lf ∉ cString text :=
  fun hm => h ((List.takeWhile_sublist _).subset hm)

theorem lf_not_mem_asString {db : DBTextFile} (h : LineSafe db) {e : Entry}
    (he : e ∈ db.entries_) : lf ∉ e.asString := by
  intro hm
  obtain ⟨v, hv, hb⟩ := List.mem_flatMap.mp hm
  have hne : lf ≠ colon := by decide
  simp [hne, h.values_safe e he v hv] at hb

theorem lf_not_mem_fields {db : DBTextFile} (h : LineSafe db) : lf ∉ db.fields :=
  terminated_plain h.fields_plain

theorem lf_not_mem_get {db : DBTextFile} (h : LineSafe db) {name field reply : Bytes}
    (hget : db.get name field = .ok reply) : lf ∉ reply := by
  cases DBTextFile.get_ok hget with
  | inl habsent => simp [habsent.1]
  | inr hfound =>
    obtain ⟨it, hit, hreply⟩ := hfound
    cases hreply with
    | inl hrecord =>
      rw [hrecord.2]
      exact lf_not_mem_asString h hit.mem
    | inr hvalue => exact h.values_safe _ hit.mem _ hvalue.2.2

theorem answeredInLines_none_iff {db : DBTextFile} {segs : List Bytes}
    (hplan : plan segs = .ok none) :
    AnsweredInLines db segs ↔ segs.head? = some (ascii "set") := by
  constructor
  · intro h
    obtain rfl | ⟨name, rest, rfl⟩ | ⟨name, field, value, rfl, -⟩ | ⟨args, rfl, -⟩ := h
    · simp [plan] at hplan
    · simp [plan_delete] at hplan
    · rfl
    · rfl
  · intro hhead
    obtain ⟨args, rfl⟩ := List.head?_eq_some_iff.mp hhead
    exact Or.inr (Or.inr (Or.inr ⟨args, rfl, plan_set_none_iff.mp hplan⟩))

def Call.AnsweredInLines (db : DBTextFile) : Call → Prop
  | .getAll | .erase _ => True
  | .setField name field _ => (db.cell? name field).isSome
  | .get _ _ | .set _ _ | .fields | .save => False

theorem answeredInLines_some_iff {db : DBTextFile} {segs : List Bytes} {c : Call}
    (hplan : plan segs = .ok (some c)) : AnsweredInLines db segs ↔ c.AnsweredInLines db := by
  constructor
  · intro h
    obtain rfl | ⟨name, rest, rfl⟩ | ⟨name, field, value, rfl, hcell⟩ | ⟨args, rfl, hlen⟩ := h
    · obtain rfl : c = .getAll := by simpa [plan, eq_comm] using hplan
      trivial
    · obtain rfl : c = .erase name := by simpa [plan_delete, eq_comm] using hplan
      trivial
    · obtain rfl : c = .setField name field value := by simpa [plan_setField, eq_comm] using hplan
      exact hcell
    · simp [plan_set_none_iff.mpr hlen] at hplan
  · intro h
    have hseg := spelledBy_of_plan hplan
    cases c with
    | getAll => exact Or.inl hseg
    | erase name => exact Or.inr (Or.inl ⟨name, hseg⟩)
    | setField name field value => exact Or.inr (Or.inr (Or.inl ⟨name, field, value, hseg, h⟩))
    | _ => exact h.elim

theorem refusal_selfDelimiting_iff {chunk : Bytes} {db : DBTextFile}
    (hplan : plan (segments chunk) = .ok none) :
    SelfDelimiting lf (refusal (stripCRLF chunk) (segments chunk) ++ [lf]) ↔
      AnsweredInLines db (segments chunk) := by
  rw [answeredInLines_none_iff hplan]
  have hcmd := lf_not_mem_strip chunk
  cases hseg : segments chunk with
  | nil =>
    refine iff_of_false ?_ (by simp)
    exact not_selfDelimiting_piece (by simp [refusal, ascii])
      (lf_not_mem_ascii_append (by decide) hcmd)
  | cons command args =>
    simp only [refusal, List.head?_cons, Option.some.injEq]
    split_ifs with hset
    · refine iff_of_true ?_ hset
      exact selfDelimiting_line (by decide) (by decide)
    · refine iff_of_false ?_ hset
      exact not_selfDelimiting_piece (by simp [ascii])
        (lf_not_mem_ascii_append (by decide) hcmd)

theorem answer_selfDelimiting_iff {chunk : Bytes} {s s' : TextStore} {c : Call} {result : Result}
    (hsafe : LineSafe s.db) (hplan : plan (segments chunk) = .ok (some c))
    (hi : textLibrary.invoke c s = .ok (result, s')) :
    SelfDelimiting lf (answer (stripCRLF chunk) c result ++ [lf]) ↔
      AnsweredInLines s.db (segments chunk) := by
  rw [answeredInLines_some_iff hplan]
  have hcmd := lf_not_mem_strip chunk
  cases c with
  | fields =>
    obtain rfl := result_of_invoke (invoke_text .fields s) hi
    refine iff_of_false ?_ id
    exact not_selfDelimiting_piece (mt terminated_eq_nil_iff.mp hsafe.fields_ne)
      (lf_not_mem_fields hsafe)
  | getAll =>
    obtain rfl := result_of_invoke (invoke_text .getAll s) hi
    refine iff_of_true ?_ trivial
    refine selfDelimiting_terminated fun line hline => ?_
    obtain ⟨e, he, rfl⟩ := List.mem_map.mp hline
    exact ⟨e.asString_ne_nil, lf_not_mem_asString hsafe he⟩
  | get name field =>
    obtain ⟨reply, hget, rfl, -⟩ := invoke_get_ok hi
    refine iff_of_false ?_ id
    cases reply with
    | nil =>
      exact not_selfDelimiting_piece (by simp [answer, ascii])
        (lf_not_mem_ascii_append (by decide) hcmd)
    | cons b bs => exact not_selfDelimiting_piece (by simp [answer]) (lf_not_mem_get hsafe hget)
  | set name record =>
    obtain rfl := result_of_invoke (invoke_text (.set name record) s) hi
    refine iff_of_false ?_ id
    simp only [answer, DBTextFile.set_fst, if_true]
    exact not_selfDelimiting_piece (by decide) (by decide)
  | setField name field value =>
    obtain rfl := result_of_invoke (invoke_text (.setField name field value) s) hi
    cases DBTextFile.setField_cases s.db name field value with
    | inl habsent =>
      obtain ⟨hcell, hs⟩ := habsent
      refine iff_of_false ?_ (by simp [Call.AnsweredInLines, hcell])
      simp only [answer, hs]
      exact not_selfDelimiting_piece (by decide) (by decide)
    | inr hfound =>
      obtain ⟨it, idx, -, -, hlt, hcell, hs⟩ := hfound
      refine iff_of_true ?_ (by simp [Call.AnsweredInLines, hcell, hlt])
      simp only [answer, hs]
      exact selfDelimiting_line (by decide) (by decide)
  | erase name =>
    obtain rfl := result_of_invoke (invoke_text (.erase name) s) hi
    refine iff_of_true ?_ trivial
    obtain ⟨rest, hseg⟩ := spelledBy_of_plan hplan
    have hmem : name ∈ segments chunk := by simp [hseg]
    have hname : lf ∉ name := (clean_segment hmem).1
    simp only [answer]
    split_ifs
    · exact selfDelimiting_line (by decide) (by decide)
    · refine selfDelimiting_line (by simp [ascii, cString, ch]) (lf_not_mem_cString ?_)
      have hprompt : lf ∉ ascii "ERROR: Failed to delete " ∧ lf ∉ ascii "; " := by decide
      simp [hprompt, hname]
  | save =>
    obtain rfl := result_of_invoke (invoke_text .save s) hi
    refine iff_of_false ?_ id
    simp only [answer, DBTextFile.save_fst]
    exact not_selfDelimiting_piece (by decide) (by decide)

/-- For every store that a run reaches and every request that is answered: the response
ends with an empty line and has none before it exactly when the request is answered in
whole lines. -/
theorem responses_end_iff (contents : Bytes) (events : List Event) (chunk : Bytes)
    (session session' : Session) (store' : TextStore)
    (h : parseRequest textLibrary chunk session (served contents events).store =
      .ok (session', store')) :
    SelfDelimiting lf session'.response_ ↔
      AnsweredInLines (served contents events).store.db (segments chunk) := by
  have hsafe := (durable_run contents events).memory_safe
  cases parseRequest_ok h with
  | inl hrefused =>
    obtain ⟨hplan, -, rfl⟩ := hrefused
    exact refusal_selfDelimiting_iff hplan
  | inr hcall =>
    obtain ⟨c, result, hplan, hi, rfl⟩ := hcall
    exact answer_selfDelimiting_iff hsafe hplan hi

/-- A removal and the list of the records left, one of them empty -/
theorem responses_end_iff_sample :
    let events := [(0, ascii "/set/:"), (1, ascii "/delete/milk")]
    let store := (served (ascii "name:note\nmilk:x\n") events).store
    ∃ session' store', parseRequest textLibrary (ascii "/get") Session.start store =
        .ok (session', store') ∧
      session'.response_ = ascii ":\n\n" ∧ SelfDelimiting lf session'.response_ := by
  intro events store
  have hsent : parseRequest textLibrary (ascii "/get") Session.start store =
      .ok (⟨ascii ":\n\n", [ascii ":\n\n"]⟩, store) := by decide
  refine ⟨_, _, hsent, rfl, ?_⟩
  exact (responses_end_iff _ events _ _ _ _ hsent).mpr (Or.inl (by decide))

/-- The response to a lookup stops at the end of its line, without an empty one. -/
theorem lookup_without_empty_line :
    let store := (served (ascii "name:note\nmilk:x\n") []).store
    let response := ascii "milk:x:\n"
    parseRequest textLibrary (ascii "/get/milk") Session.start store =
      .ok (⟨response, [response]⟩, store) ∧
    ¬ EndsEmpty lf response ∧ ¬ SelfDelimiting lf response := by
  intro store response
  have hend : ¬ EndsEmpty lf response := by
    unfold EndsEmpty
    decide
  exact ⟨by decide, hend, fun h => hend h.1⟩

end ReminderSuite
