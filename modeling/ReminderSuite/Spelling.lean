import ReminderSuite.Session

/-! Which commands reach the provider as they were written: the words of a command
against the one call that a session makes for it. -/
namespace ReminderSuite
open Delimited FallibleRun

/-- Handling the chunk is this one call of the provider and the answer to it, for
every provider, whatever the call returns. -/
def MakesCall (chunk : Bytes) (c : Call) : Prop :=
  ∀ (σ : Type) (lib : DBLibrary σ) (session : Session) (store : σ),
    parseRequest lib chunk session store =
      (lib.invoke c store).map fun (result, store') =>
        (Session.doWrite { session with response_ := answer (stripCRLF chunk) c result }, store')

def recorder : DBLibrary (Unit × List Call) :=
  DBLibrary.logged
    { fields := fun s => .ok ([], s)
      getAll := fun s => .ok ([], s)
      get := fun _ _ s => .ok ([], s)
      set := fun _ _ s => .ok (true, s)
      setField := fun _ _ _ s => .ok (true, s)
      erase := fun _ s => .ok (true, s)
      read := fun s => .ok (true, s)
      save := fun s => .ok (true, s) }

theorem recorder_invoke (c : Call) (log : List Call) :
    ∃ result, recorder.invoke c ((), log) = .ok (result, (), log ++ [c]) := by
  cases c <;> exact ⟨_, rfl⟩

theorem makesCall_iff {chunk : Bytes} {c : Call} :
    MakesCall chunk c ↔ plan (segments chunk) = .ok (some c) := by
  constructor
  · intro h
    have hrec := h _ recorder Session.start ((), [])
    obtain ⟨result, hc⟩ := recorder_invoke c []
    rw [hc, parseRequest_eq, serveRequest] at hrec
    cases hplan : plan (segments chunk) with
    | error fault => simp [hplan] at hrec
    | ok planned =>
      cases planned with
      | none => simp [hplan] at hrec
      | some c' =>
        obtain ⟨result', hc'⟩ := recorder_invoke c' []
        have hsame : c' = c := by
          simp only [hplan, execute, hc', map_ok, Except.ok.injEq, Prod.mk.injEq] at hrec
          simpa using hrec.2
        rw [hsame]
  · intro hplan σ lib session store
    rw [parseRequest_eq, serveRequest]
    cases hi : lib.invoke c store <;> simp [hplan, execute, hi]

theorem ascii_set_clean : Clean (ascii "set") := by
  unfold Clean
  decide

theorem segments_command {chunk command last : Bytes} (args : List Bytes)
    (hcommand : Clean command) (hargs : ∀ a ∈ args, Clean a) (hlast : Clean last)
    (hstrip : stripCRLF chunk = spell ((command :: args) ++ [last])) :
    segments chunk = command :: if last = [] then args else args ++ [last] := by
  have hwords : ∀ w ∈ command :: args, Clean w := List.forall_mem_cons.mpr ⟨hcommand, hargs⟩
  split_ifs with hempty
  · subst hempty
    exact segments_of_strip_empty hwords (by simp) hstrip
  · have hall : ∀ w ∈ (command :: args) ++ [last], Clean w := by
      intro w hw
      cases List.mem_append.mp hw with
      | inl hw => exact hwords w hw
      | inr hw =>
        obtain rfl := List.mem_singleton.mp hw
        exact hlast
    have hend : ((command :: args) ++ [last]).getLast? ≠ some [] := by
      rw [List.getLast?_concat]
      simpa using hempty
    exact segments_of_strip hall hend hstrip

/-- Commands read back: with line ends added anywhere, each command makes the call
that its words spell, for all words but an empty last one. That one is lost, which
only the lookup of a field survives. -/
theorem commands_spelled_iff (n f v r chunk : Bytes) (hn : Clean n) (hf : Clean f) (hv : Clean v)
    (hr : Clean r) :
    (stripCRLF chunk = ascii "/get/" ++ n → (MakesCall chunk (.get n []) ↔ n ≠ [])) ∧
    (stripCRLF chunk = ascii "/get/" ++ n ++ ascii "/" ++ f → MakesCall chunk (.get n f)) ∧
    (stripCRLF chunk = ascii "/set/" ++ r →
      (MakesCall chunk (.set (recordName r) r) ↔ r ≠ [])) ∧
    (stripCRLF chunk = ascii "/set/" ++ n ++ ascii "/" ++ f ++ ascii "/" ++ v →
      (MakesCall chunk (.setField n f v) ↔ v ≠ [])) ∧
    (stripCRLF chunk = ascii "/delete/" ++ n → (MakesCall chunk (.erase n) ↔ n ≠ [])) := by
  have hset : ascii "set" ≠ ascii "get" := by decide
  have hdelete : ascii "delete" ≠ ascii "get" ∧ ascii "delete" ≠ ascii "set" := by decide
  simp only [makesCall_iff]
  refine ⟨fun h => ?_, fun h => ?_, fun h => ?_, fun h => ?_, fun h => ?_⟩
  · rw [segments_command [] ascii_get_clean (by simp) hn
      (by simp [h, spell, ascii, ch, slash])]
    split_ifs with hempty <;> simp [plan, hempty]
  · rw [segments_command [n] ascii_get_clean (by simpa using hn) hf
      (by simp [h, spell, ascii, ch, slash])]
    split_ifs with hempty <;> simp [plan, hempty]
  · rw [segments_command [] ascii_set_clean (by simp) hr
      (by simp [h, spell, ascii, ch, slash])]
    split_ifs with hempty <;> simp [plan, hempty, hset]
  · rw [segments_command [n, f] ascii_set_clean (by simp [hn, hf]) hv
      (by simp [h, spell, ascii, ch, slash])]
    split_ifs with hempty <;> simp [plan, hempty, hset]
  · rw [segments_command [] ascii_delete_clean (by simp) hn
      (by simp [h, spell, ascii, ch, slash])]
    split_ifs with hempty <;> simp [plan, hempty, hdelete]

/-- Line ends inside the words and an empty name with a field -/
theorem commands_spelled_iff_sample :
    MakesCall (ascii "/set/mi\r\nlk/note/two\r\n") (.setField (ascii "milk") (ascii "note")
      (ascii "two")) ∧
    MakesCall (ascii "/get//note") (.get [] (ascii "note")) := by
  have hclean : Clean (ascii "milk") ∧ Clean (ascii "note") ∧ Clean (ascii "two") := by
    unfold Clean
    decide
  have hempty : Clean [] := by simp [Clean]
  refine ⟨?_, ?_⟩
  · exact ((commands_spelled_iff (ascii "milk") (ascii "note") (ascii "two") []
      (ascii "/set/mi\r\nlk/note/two\r\n") hclean.1 hclean.2.1 hclean.2.2 hempty).2.2.2.1
      (by decide)).mpr (by decide)
  · exact (commands_spelled_iff [] (ascii "note") [] [] (ascii "/get//note") hempty hclean.2.1
      hempty hempty).2.1 (by decide)

/-- A field cannot be cleared: the update to the empty value calls nothing. -/
theorem empty_value_refused :
    ¬ MakesCall (ascii "/set/milk/note/") (.setField (ascii "milk") (ascii "note") []) ∧
    (∀ session store, parseRequest textLibrary (ascii "/set/milk/note/") session store =
      .ok (Session.doWrite { session with
        response_ := ascii "ERROR: set requires either 2 or 4 parameters\n" }, store)) ∧
    ¬ MakesCall (ascii "/get/") (.get [] []) ∧ MakesCall (ascii "/get/") .getAll ∧
    ¬ MakesCall (ascii "/set/") (.set [] []) ∧ ¬ MakesCall (ascii "/delete/") (.erase []) := by
  have hrefused : plan (segments (ascii "/set/milk/note/")) = .ok none := by decide
  simp only [makesCall_iff]
  refine ⟨by decide, fun session store => ?_, by decide, by decide,
    by decide, by decide⟩
  have hreply : refusal (stripCRLF (ascii "/set/milk/note/")) (segments (ascii "/set/milk/note/")) =
      ascii "ERROR: set requires either 2 or 4 parameters\n" := by decide
  rw [parseRequest_eq, serveRequest, hrefused]
  simp only [hreply]

end ReminderSuite
