import ReminderSuite.Forwarding
import ReminderSuite.Spelling

/-! The two recognisers of the command language side by side: the gateway's test of a
request path, and the dispatcher of a session. -/
namespace ReminderSuite
open Delimited FallibleRun RdbHandler

def Refused (chunk : Bytes) : Prop :=
  ∃ prompt ∈ ["ERROR: Not valid query: ", "ERROR: Unrecognized command: "],
    ∀ (σ : Type) (lib : DBLibrary σ) (session : Session) (store : σ),
      parseRequest lib chunk session store =
        .ok (Session.doWrite { session with response_ := ascii prompt ++ stripCRLF chunk }, store)

/-- The gateway decides about the path, and accepts it exactly when a session does not
refuse it. -/
def ValidationAgrees (path : Bytes) : Prop :=
  ∃ accepted, isValidCall path = .ok accepted ∧ (accepted = true ↔ ¬ Refused (path.drop 4))

def WholeCommands (param : Bytes) : Prop :=
  ∀ cmd ∈ commands_, ∀ c rest, param = cmd ++ c :: rest → c = slash

section Dispatch

theorem set_of_plan_none {command : Bytes} {args : List Bytes} (hmem : command ∈ commands_)
    (h : plan (command :: args) = .ok none) : command = ascii "set" := by
  simp only [commands_, List.mem_cons, List.not_mem_nil, or_false] at hmem
  obtain rfl | rfl | rfl | rfl | rfl := hmem
  · simp [plan, ascii, ch] at h
  · cases args <;> simp [plan, ascii, ch] at h
  · simp [plan, ascii, ch] at h
  · rcases args with _ | ⟨name, _ | ⟨field, rest⟩⟩ <;> simp [plan] at h
  · rfl

theorem plan_of_not_mem {command : Bytes} (args : List Bytes) (h : command ∉ commands_) :
    plan (command :: args) = .ok none ∧
      ∀ cmd, refusal cmd (command :: args) = ascii "ERROR: Unrecognized command: " ++ cmd := by
  simp only [commands_, List.mem_cons, List.not_mem_nil, or_false, not_or] at h
  obtain ⟨hcommit, hdelete, hfields, hget, hset⟩ := h
  exact ⟨by simp [plan, hcommit, hdelete, hfields, hget, hset], by simp [refusal, hset]⟩

theorem refusal_set_ne {prompt : String}
    (h : prompt ∈ ["ERROR: Not valid query: ", "ERROR: Unrecognized command: "])
    (cmd cmd' : Bytes) (args : List Bytes) :
    ascii prompt ++ cmd ≠ refusal cmd' (ascii "set" :: args) := by
  have hprompt : ∀ prompt ∈ ["ERROR: Not valid query: ", "ERROR: Unrecognized command: "],
      8 ≤ (ascii prompt).length ∧ (ascii prompt).take 8 ≠ ascii "ERROR: s" := by decide
  have htext : (refusal cmd' (ascii "set" :: args)).take 8 = ascii "ERROR: s" := by
    rw [refusal, if_pos rfl]
    decide
  obtain ⟨hlong, hother⟩ := hprompt prompt h
  intro heq
  rw [← heq, List.take_append_of_le_length hlong] at htext
  exact hother htext

/-- The chunks that select no command -/
theorem refused_iff {chunk : Bytes} :
    Refused chunk ↔ ∀ command args, segments chunk = command :: args → command ∉ commands_ := by
  constructor
  · intro h command args hseg hmem
    obtain ⟨prompt, hprompt, hreply⟩ := h
    cases parseRequest_ok (hreply _ recorder Session.start ((), [])) with
    | inl hrefused =>
      obtain ⟨hplan, -, hresponse⟩ := hrefused
      rw [hseg] at hplan hresponse
      obtain rfl := set_of_plan_none hmem hplan
      have htext := congrArg Session.response_ hresponse
      exact refusal_set_ne hprompt _ (stripCRLF chunk) args (List.append_cancel_right htext)
    | inr hcall =>
      -- a call is on the record, and a refusal leaves no trace there
      obtain ⟨c, result, -, hi, -⟩ := hcall
      obtain ⟨result', hc⟩ := recorder_invoke c []
      simp [hc] at hi
  · intro h
    cases hseg : segments chunk with
    | nil =>
      refine ⟨_, List.mem_cons_self, fun σ lib session store => ?_⟩
      rw [parseRequest_eq, serveRequest, hseg]
      rfl
    | cons command args =>
      obtain ⟨hplan, htext⟩ := plan_of_not_mem args (h command args hseg)
      refine ⟨_, List.mem_cons_of_mem _ List.mem_cons_self, fun σ lib session store => ?_⟩
      rw [parseRequest_eq, serveRequest, hseg, hplan]
      simp only [htext]

theorem refused_slash_iff {param : Bytes} (hlf : lf ∉ param) (hcr : cr ∉ param) :
    Refused (slash :: param) ↔ param.takeWhile (· ≠ slash) ∉ commands_ := by
  have hne : lf ≠ slash ∧ cr ≠ slash := by decide
  have hstrip : stripCRLF (slash :: param) = slash :: param :=
    stripCRLF_of_not_mem (by simp [hlf, hne.1]) (by simp [hcr, hne.2])
  rw [refused_iff]
  cases param with
  | nil =>
    have hseg : segments [slash] = [] := by decide
    simp [hseg, commands_, ascii]
  | cons b bs =>
    obtain ⟨first, args, htok, hfirst⟩ := exists_first_token slash (b :: bs)
    have hseg : segments (slash :: b :: bs) = first :: args := by
      rw [segments, hstrip, tokens_cons_sep, if_neg (by simp), htok]
    rw [← hfirst, hseg]
    constructor
    · exact fun h => h first args rfl
    · intro h command rest heq
      rwa [← (List.cons.inj heq).1]

end Dispatch

section Gateway

theorem command_prefix_free :
    ∀ cmd ∈ commands_, slash ∉ cmd ∧ ∀ other ∈ commands_, cmd <+: other → cmd = other := by
  decide

theorem wholeCommands_append_iff {cmd : Bytes} (hcmd : cmd ∈ commands_) (rest : Bytes) :
    WholeCommands (cmd ++ rest) ↔ (cmd ++ rest).takeWhile (· ≠ slash) ∈ commands_ := by
  obtain ⟨hslash, hfree⟩ := command_prefix_free cmd hcmd
  have htake : (cmd ++ rest).takeWhile (· ≠ slash) = cmd ++ rest.takeWhile (· ≠ slash) :=
    List.takeWhile_append_of_pos fun c hc => by simpa using ne_of_mem_of_not_mem hc hslash
  rw [htake]
  constructor
  · intro h
    cases rest with
    | nil => simpa using hcmd
    | cons c cs =>
      have hc : c = slash := h cmd hcmd c cs rfl
      simpa [hc] using hcmd
  · intro h other hother
    have hend : rest.takeWhile (· ≠ slash) = [] := by
      simpa using (hfree _ h (List.prefix_append _ _)).symm
    have hsame (hbegin : other <+: cmd ++ rest) : other = cmd := by
      cases List.prefix_or_prefix_of_prefix hbegin (List.prefix_append cmd rest) with
      | inl hpre => exact (command_prefix_free other hother).2 cmd hcmd hpre
      | inr hpre => exact (hfree other hother hpre).symm
    intro c cs heq
    obtain rfl := hsame (heq ▸ List.prefix_append other (c :: cs))
    obtain rfl : rest = c :: cs := List.append_cancel_left heq
    by_contra hc
    simp [hc] at hend

/-- For every path behind `/rdb/`: the gateway's test and the dispatcher agree exactly when a
command that the parameter begins with is a word of it. -/
theorem validation_agrees_iff (path : Bytes) (hpath : ascii "/rdb/" <+: path) (hlf : lf ∉ path)
    (hcr : cr ∉ path) : ValidationAgrees path ↔ WholeCommands (path.drop 5) := by
  obtain ⟨param, rfl⟩ := hpath
  have hparam : (ascii "/rdb/" ++ param).drop 5 = param := rfl
  have hchunk : (ascii "/rdb/" ++ param).drop 4 = slash :: param := rfl
  have hlf' : lf ∉ param := fun h => hlf (List.mem_append_right _ h)
  have hcr' : cr ∉ param := fun h => hcr (List.mem_append_right _ h)
  rw [ValidationAgrees, hparam, hchunk, refused_slash_iff hlf' hcr', not_not]
  by_cases hwhole : ∃ cmd ∈ commands_, cmd <+: param
  · rw [isValidCall_iff.mpr hwhole]
    obtain ⟨cmd, hcmd, rest, rfl⟩ := hwhole
    rw [wholeCommands_append_iff hcmd]
    simp
  · have hword : param.takeWhile (· ≠ slash) ∉ commands_ := fun h =>
      hwhole ⟨_, h, List.takeWhile_prefix _⟩
    have hvalid : isValidCall (ascii "/rdb/" ++ param) = .ok false := by
      rw [isValidCall_eq]
      simpa [equal_iff] using hwhole
    refine iff_of_true ⟨false, hvalid, by simpa using hword⟩ fun cmd hcmd c rest heq => ?_
    exact absurd ⟨cmd, hcmd, c :: rest, heq.symm⟩ hwhole

/-- A command with an argument -/
theorem validation_agrees_iff_sample : ValidationAgrees (ascii "/rdb/get/milk") := by
  have hparam : (ascii "/rdb/get/milk").drop 5 = ascii "get" ++ ascii "/milk" := by decide
  refine (validation_agrees_iff (ascii "/rdb/get/milk") ⟨ascii "get/milk", by decide⟩ (by decide)
    (by decide)).mpr ?_
  rw [hparam, wholeCommands_append_iff (by decide)]
  decide

/-- A word that only begins with a command is let through. -/
theorem longer_word_accepted :
    isValidCall (ascii "/rdb/getx") = .ok true ∧ Refused (ascii "/getx") ∧
    ¬ ValidationAgrees (ascii "/rdb/getx") := by
  have hparam : (ascii "/rdb/getx").drop 4 = slash :: ascii "getx" := by decide
  have haccepted : isValidCall (ascii "/rdb/getx") = .ok true := by decide
  have hrefused : Refused (slash :: ascii "getx") :=
    (refused_slash_iff (by decide) (by decide)).mpr (by decide)
  refine ⟨haccepted, hrefused, fun h => ?_⟩
  obtain ⟨accepted, hvalid, hagrees⟩ := h
  rw [hparam] at hagrees
  obtain rfl : true = accepted := Except.ok.inj (haccepted.symm.trans hvalid)
  exact hagrees.mp rfl hrefused

end Gateway
end ReminderSuite
