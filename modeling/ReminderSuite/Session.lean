import ReminderSuite.DBLibrary

/-! One client's session with the Data Provider: a chunk of received bytes is
parsed, at most one provider function is called and one response is queued. -/
namespace ReminderSuite
open Delimited FallibleRun

structure Session where
  response_ : Bytes
  /-- the responses handed to `async_write`, in order -/
  written : List Bytes
deriving DecidableEq

def requestBuf : Nat := 8192

namespace Session

def start : Session := ⟨[], []⟩

def doWrite (s : Session) : Session :=
  ⟨s.response_ ++ [lf], s.written ++ [s.response_ ++ [lf]]⟩

end Session

def buildError (errMsg : Bytes) : Bytes := cString errMsg ++ [lf]

def stripCRLF (chunk : Bytes) : Bytes := chunk.filter fun ch => ch ≠ cr ∧ ch ≠ lf

variable {σ : Type}

section Branches
variable (lib : DBLibrary σ) (cmd : Bytes) (request : List Bytes) (store : σ)

def getBranch : Except Fault (Bytes × σ) := do
  if request.length < 2 then
    let (response, store) ← lib.getAll store
    return (response.flatMap fun line => line ++ [lf], store)
  else
    let name ← vecAt request 1
    let field ← if request.length > 2 then vecAt request 2 else .ok []
    let (response, store) ← lib.get name field store
    if response.isEmpty then return (ascii "ERROR: Not found: " ++ cmd, store)
    else return (response, store)

/-- With one record segment the two outcomes of the provider are answered the
wrong way round. -/
def setBranch : Except Fault (Bytes × σ) := do
  if request.length = 2 then
    let entryStr ← vecAt request 1
    let name ← substr entryStr 0 (findFirstOf entryStr colon)
    let (done, store) ← lib.set name entryStr store
    if done then return (ascii "Filed to set Entry: ", store)
    else return (buildError (ascii "SUCCESS"), store)
  else if request.length = 4 then
    let name ← vecAt request 1
    let field ← vecAt request 2
    let value ← vecAt request 3
    let (done, store) ← lib.setField name field value store
    if done then return (buildError (ascii "SUCCESS"), store)
    else return (ascii "Failed to set value: ", store)
  else return (buildError (ascii "ERROR: set requires either 2 or 4 parameters"), store)

/-- The name is taken without a test of the number of segments. -/
def deleteBranch : Except Fault (Bytes × σ) := do
  let name ← vecAt request 1
  let (done, store) ← lib.erase name store
  if done then return (buildError (ascii "SUCCESS"), store)
  else return (buildError (ascii "ERROR: Failed to delete " ++ name ++ ascii "; "), store)

def fieldsBranch : Except Fault (Bytes × σ) := lib.fields store

def commitBranch : Except Fault (Bytes × σ) := do
  let (done, store) ← lib.save store
  if done then return (buildError (ascii "SUCCESS"), store)
  else return (ascii "Failed to preserve DB: ", store)

def dispatch : Except Fault (Bytes × σ) := do
  let command ← vecAt request 0
  if command = ascii "get" then getBranch lib cmd request store
  else if command = ascii "set" then setBranch lib request store
  else if command = ascii "delete" then deleteBranch lib request store
  else if command = ascii "fields" then fieldsBranch lib store
  else if command = ascii "commit" then commitBranch lib store
  else return (ascii "ERROR: Unrecognized command: " ++ cmd, store)

end Branches

def parseRequest (lib : DBLibrary σ) (chunk : Bytes) (session : Session) (store : σ) :
    Except Fault (Session × σ) := do
  let cmd := stripCRLF chunk
  let session := { session with response_ := [] }
  let request := tokens slash cmd
  if request.isEmpty then
    return (Session.doWrite { session with response_ := ascii "ERROR: Not valid query: " ++ cmd },
      store)
  let first ← vecAt request 0
  let request := if first.isEmpty then request.tail else request
  if request.isEmpty then
    return (Session.doWrite { session with response_ := ascii "ERROR: Not valid query: " ++ cmd },
      store)
  let (response, store) ← dispatch lib cmd request store
  return (Session.doWrite { session with response_ := response }, store)

/-! What a request amounts to: the one call it makes, if any, and the text that
answers the result of that call. -/

/-- The segments that select and feed a command: an empty first piece is the text
before the leading slash. -/
def segments (chunk : Bytes) : List Bytes :=
  match tokens slash (stripCRLF chunk) with
  | [] :: rest => rest
  | request => request

def spell (words : List Bytes) : Bytes := preceded slash words

def Clean (word : Bytes) : Prop := lf ∉ word ∧ cr ∉ word ∧ slash ∉ word

theorem stripCRLF_of_not_mem {cmd : Bytes} (hlf : lf ∉ cmd) (hcr : cr ∉ cmd) :
    stripCRLF cmd = cmd := by
  rw [stripCRLF, List.filter_eq_self]
  intro b hb
  have h1 : b ≠ cr := fun he => hcr (he ▸ hb)
  have h2 : b ≠ lf := fun he => hlf (he ▸ hb)
  simp [h1, h2]

theorem stripCRLF_spell {words : List Bytes} (h : ∀ w ∈ words, Clean w) :
    stripCRLF (spell words) = spell words := by
  apply stripCRLF_of_not_mem <;>
  · intro hm
    obtain ⟨w, hw, hb⟩ := List.mem_flatMap.mp hm
    cases List.mem_cons.mp hb with
    | inl he => exact absurd he (by decide)
    | inr hb => simp_all [Clean]

theorem segments_of_strip {chunk : Bytes} {words : List Bytes} (h : ∀ w ∈ words, Clean w)
    (hlast : words.getLast? ≠ some []) (hstrip : stripCRLF chunk = spell words) :
    segments chunk = words := by
  have hslash : ∀ w ∈ words, slash ∉ w := fun w hw => (h w hw).2.2
  have htok := tokens_preceded hslash hlast
  rw [segments, hstrip, spell, htok]

theorem segments_of_strip_empty {chunk : Bytes} {words : List Bytes} (h : ∀ w ∈ words, Clean w)
    (hne : words ≠ []) (hstrip : stripCRLF chunk = spell (words ++ [[]])) :
    segments chunk = words := by
  have hslash : ∀ w ∈ words, slash ∉ w := fun w hw => (h w hw).2.2
  have htok := tokens_preceded_empty hne hslash
  rw [segments, hstrip, spell, htok]

theorem segments_spell {words : List Bytes} (h : ∀ w ∈ words, Clean w)
    (hlast : words.getLast? ≠ some []) : segments (spell words) = words :=
  segments_of_strip h hlast (stripCRLF_spell h)

def recordName (record : Bytes) : Bytes := record.takeWhile (· ≠ colon)

theorem substr_firstColon (record : Bytes) :
    substr record 0 (findFirstOf record colon) = .ok (recordName record) :=
  substr_findFirstOf record colon

/-- The provider call that a list of segments asks for -/
def plan : List Bytes → Except Fault (Option Call)
  | [] => .ok none
  | command :: args =>
    if command = ascii "get" then
      match args with
      | [] => .ok (some .getAll)
      | [name] => .ok (some (.get name []))
      | name :: field :: _ => .ok (some (.get name field))
    else if command = ascii "set" then
      match args with
      | [record] => .ok (some (.set (recordName record) record))
      | [name, field, value] => .ok (some (.setField name field value))
      | _ => .ok none
    else if command = ascii "delete" then
      match args with
      | [] => .error .outOfRange
      | name :: _ => .ok (some (.erase name))
    else if command = ascii "fields" then .ok (some .fields)
    else if command = ascii "commit" then .ok (some .save)
    else .ok none

theorem plan_setField (name field value : Bytes) :
    plan [ascii "set", name, field, value] = .ok (some (.setField name field value)) := rfl

theorem plan_delete (name : Bytes) (rest : List Bytes) :
    plan (ascii "delete" :: name :: rest) = .ok (some (.erase name)) := rfl

theorem plan_set_none_iff {args : List Bytes} :
    plan (ascii "set" :: args) = .ok none ↔ args.length ≠ 1 ∧ args.length ≠ 3 := by
  have hset : ascii "set" ≠ ascii "get" := by decide
  rcases args with _ | ⟨a, _ | ⟨b, _ | ⟨d, _ | ⟨e, rest⟩⟩⟩⟩ <;> simp [plan, hset]

theorem ascii_get_clean : Clean (ascii "get") := by
  unfold Clean
  decide

theorem ascii_delete_clean : Clean (ascii "delete") := by
  unfold Clean
  decide

theorem segments_word_name {word name : Bytes} (hword : Clean word) (hname : Clean name)
    (hne : name ≠ []) : segments (spell [word, name]) = [word, name] := by
  apply segments_spell
  · simp only [List.forall_mem_cons, List.not_mem_nil, false_implies, implies_true, and_true]
    exact ⟨hword, hname⟩
  · simpa using hne

theorem plan_get_name {name : Bytes} (hname : Clean name) (hne : name ≠ []) :
    plan (segments (spell [ascii "get", name])) = .ok (some (.get name [])) := by
  rw [segments_word_name ascii_get_clean hname hne]
  rfl

theorem plan_delete_name {name : Bytes} (hname : Clean name) (hne : name ≠ []) :
    plan (segments (spell [ascii "delete", name])) = .ok (some (.erase name)) := by
  rw [segments_word_name ascii_delete_clean hname hne]
  rfl

def refusal (cmd : Bytes) : List Bytes → Bytes
  | [] => ascii "ERROR: Not valid query: " ++ cmd
  | command :: _ =>
    if command = ascii "set" then buildError (ascii "ERROR: set requires either 2 or 4 parameters")
    else ascii "ERROR: Unrecognized command: " ++ cmd

def answer (cmd : Bytes) : Call → Result → Bytes
  | .get _ _, .text reply => if reply.isEmpty then ascii "ERROR: Not found: " ++ cmd else reply
  | .set _ _, .flag done =>
    if done then ascii "Filed to set Entry: " else buildError (ascii "SUCCESS")
  | .setField _ _ _, .flag done =>
    if done then buildError (ascii "SUCCESS") else ascii "Failed to set value: "
  | .erase name, .flag done =>
    if done then buildError (ascii "SUCCESS")
    else buildError (ascii "ERROR: Failed to delete " ++ name ++ ascii "; ")
  | .save, .flag done =>
    if done then buildError (ascii "SUCCESS") else ascii "Failed to preserve DB: "
  | _, .text reply => reply
  | _, .lines reply => reply.flatMap fun line => line ++ [lf]
  | _, .flag _ => []

def execute (lib : DBLibrary σ) (cmd : Bytes) (c : Call) (store : σ) : Except Fault (Bytes × σ) :=
  (lib.invoke c store).map fun (result, store') => (answer cmd c result, store')

/-- A request as one plan, one call and one answer -/
def serveRequest (lib : DBLibrary σ) (chunk : Bytes) (session : Session) (store : σ) :
    Except Fault (Session × σ) :=
  let reply (response : Bytes) := Session.doWrite { session with response_ := response }
  match plan (segments chunk) with
  | .error fault => .error fault
  | .ok none => .ok (reply (refusal (stripCRLF chunk) (segments chunk)), store)
  | .ok (some c) =>
    (execute lib (stripCRLF chunk) c store).map fun (response, store') => (reply response, store')

section Branches
variable (lib : DBLibrary σ) (cmd command : Bytes) (store : σ)

theorem getBranch_all : getBranch lib cmd [command] store = execute lib cmd .getAll store := by
  cases h : lib.getAll store <;> simp [getBranch, execute, DBLibrary.invoke, answer, h]

theorem getBranch_name (name : Bytes) :
    getBranch lib cmd [command, name] store = execute lib cmd (.get name []) store := by
  cases h : lib.get name [] store with
  | error e => simp [getBranch, execute, DBLibrary.invoke, h]
  | ok r =>
    obtain ⟨reply, s⟩ := r
    cases reply <;> simp [getBranch, execute, DBLibrary.invoke, answer, h]

theorem getBranch_field (name field : Bytes) (rest : List Bytes) :
    getBranch lib cmd (command :: name :: field :: rest) store =
      execute lib cmd (.get name field) store := by
  have hlen : ¬ (command :: name :: field :: rest).length < 2 := by simp
  cases h : lib.get name field store with
  | error e =>
    simp only [getBranch, if_neg hlen]
    simp [execute, DBLibrary.invoke, h]
  | ok r =>
    obtain ⟨reply, s⟩ := r
    simp only [getBranch, if_neg hlen]
    cases reply <;> simp [execute, DBLibrary.invoke, answer, h]

theorem setBranch_record (record : Bytes) :
    setBranch lib [command, record] store =
      execute lib cmd (.set (recordName record) record) store := by
  cases h : lib.set (recordName record) record store with
  | error e => simp [setBranch, execute, DBLibrary.invoke, substr_firstColon, h]
  | ok r =>
    obtain ⟨done, s⟩ := r
    cases done <;>
      simp [setBranch, execute, DBLibrary.invoke, answer, substr_firstColon, h]

theorem setBranch_field (name field value : Bytes) :
    setBranch lib [command, name, field, value] store =
      execute lib cmd (.setField name field value) store := by
  cases h : lib.setField name field value store with
  | error e => simp [setBranch, execute, DBLibrary.invoke, h]
  | ok r =>
    obtain ⟨done, s⟩ := r
    cases done <;> simp [setBranch, execute, DBLibrary.invoke, answer, h]

theorem setBranch_other {args : List Bytes} (h1 : args.length ≠ 1) (h3 : args.length ≠ 3) :
    setBranch lib (command :: args) store =
      .ok (buildError (ascii "ERROR: set requires either 2 or 4 parameters"), store) := by
  simp [setBranch, h1, h3]

theorem deleteBranch_name (name : Bytes) (rest : List Bytes) :
    deleteBranch lib (command :: name :: rest) store = execute lib cmd (.erase name) store := by
  cases h : lib.erase name store with
  | error e => simp [deleteBranch, execute, DBLibrary.invoke, h]
  | ok r =>
    obtain ⟨done, s⟩ := r
    cases done <;> simp [deleteBranch, execute, DBLibrary.invoke, answer, h]

theorem fieldsBranch_eq : fieldsBranch lib store = execute lib cmd .fields store := by
  cases h : lib.fields store <;> simp [fieldsBranch, execute, DBLibrary.invoke, answer, h]

theorem commitBranch_eq : commitBranch lib store = execute lib cmd .save store := by
  cases h : lib.save store with
  | error e => simp [commitBranch, execute, DBLibrary.invoke, h]
  | ok r =>
    obtain ⟨done, s⟩ := r
    cases done <;> simp [commitBranch, execute, DBLibrary.invoke, answer, h]

end Branches

/-- The dispatcher makes the planned call and no other. -/
theorem dispatch_eq (lib : DBLibrary σ) (cmd command : Bytes) (args : List Bytes) (store : σ) :
    dispatch lib cmd (command :: args) store = match plan (command :: args) with
      | .error fault => .error fault
      | .ok none => .ok (refusal cmd (command :: args), store)
      | .ok (some c) => execute lib cmd c store := by
  simp only [dispatch, vecAt_zero, ok_bind, plan]
  split_ifs with hget hset hdelete hfields hcommit
  · match args with
    | [] => exact getBranch_all lib cmd command store
    | [name] => exact getBranch_name lib cmd command store name
    | name :: field :: rest => exact getBranch_field lib cmd command store name field rest
  · match args with
    | [record] => exact setBranch_record lib cmd command store record
    | [name, field, value] => exact setBranch_field lib cmd command store name field value
    | [] => simp [setBranch_other, refusal, hset]
    | [_, _] => simp [setBranch_other, refusal, hset]
    | _ :: _ :: _ :: _ :: _ => simp [setBranch_other, refusal, hset]
  · match args with
    | [] => rfl
    | name :: rest => exact deleteBranch_name lib cmd command store name rest
  · exact fieldsBranch_eq lib cmd store
  · exact commitBranch_eq lib cmd store
  · simp [refusal, hset]

/-- The handler of the source as a plan, a call and an answer. -/
theorem parseRequest_eq (lib : DBLibrary σ) (chunk : Bytes) (session : Session) (store : σ) :
    parseRequest lib chunk session store = serveRequest lib chunk session store := by
  obtain ⟨first, rest, h⟩ := List.exists_cons_of_ne_nil (tokens_ne_nil slash (stripCRLF chunk))
  have hrun : ∀ command args,
      (dispatch lib (stripCRLF chunk) (command :: args) store >>= fun p =>
        (Except.ok (Session.doWrite { session with response_ := p.1 }, p.2) :
          Except Fault (Session × σ))) =
      match plan (command :: args) with
      | .error fault => .error fault
      | .ok none => .ok (Session.doWrite
          { session with response_ := refusal (stripCRLF chunk) (command :: args) }, store)
      | .ok (some c) => (execute lib (stripCRLF chunk) c store).map fun (response, s) =>
          (Session.doWrite { session with response_ := response }, s) := by
    intro command args
    rw [dispatch_eq]
    cases plan (command :: args) with
    | error fault => rfl
    | ok planned =>
      cases planned with
      | none => rfl
      | some c => cases execute lib (stripCRLF chunk) c store <;> rfl
  cases first with
  | nil =>
    have hseg : segments chunk = rest := by simp [segments, h]
    cases rest with
    | nil => simp [parseRequest, serveRequest, h, hseg, plan, refusal]
    | cons command args => simpa [parseRequest, serveRequest, h, hseg] using hrun command args
  | cons b bs =>
    have hseg : segments chunk = (b :: bs) :: rest := by simp [segments, h]
    simpa [parseRequest, serveRequest, h, hseg] using hrun (b :: bs) rest

theorem parseRequest_ok {lib : DBLibrary σ} {chunk : Bytes} {session session' : Session}
    {store store' : σ} (h : parseRequest lib chunk session store = .ok (session', store')) :
    (plan (segments chunk) = .ok none ∧ store' = store ∧ session' =
      Session.doWrite { session with response_ := refusal (stripCRLF chunk) (segments chunk) }) ∨
    ∃ c result, plan (segments chunk) = .ok (some c) ∧ lib.invoke c store = .ok (result, store') ∧
      session' = Session.doWrite
        { session with response_ := answer (stripCRLF chunk) c result } := by
  rw [parseRequest_eq, serveRequest] at h
  cases hplan : plan (segments chunk) with
  | error fault => simp [hplan] at h
  | ok planned =>
    cases planned with
    | none =>
      simp only [hplan, Except.ok.injEq, Prod.mk.injEq] at h
      exact Or.inl ⟨rfl, h.2.symm, h.1.symm⟩
    | some c =>
      simp only [hplan] at h
      obtain ⟨⟨response, s⟩, hx, he⟩ := map_eq_ok_iff.mp h
      obtain ⟨⟨result, s'⟩, hi, hr⟩ := map_eq_ok_iff.mp hx
      simp only [Prod.mk.injEq] at he hr
      obtain ⟨hresponse, hstore⟩ := hr
      subst hresponse hstore
      exact Or.inr ⟨c, result, rfl, by rw [hi, he.2], he.1.symm⟩

theorem parseRequest_response {lib : DBLibrary σ} {chunk : Bytes} {session session' : Session}
    {store store' : σ} (h : parseRequest lib chunk session store = .ok (session', store')) :
    ∃ response, session' = Session.doWrite { session with response_ := response } := by
  cases parseRequest_ok h with
  | inl hrefused => exact ⟨_, hrefused.2.2⟩
  | inr hcall =>
    obtain ⟨c, result, -, -, hs⟩ := hcall
    exact ⟨_, hs⟩

theorem parseRequest_call {lib : DBLibrary σ} {chunk : Bytes} {session : Session} {store store' : σ}
    {c : Call} {result : Result} (hplan : plan (segments chunk) = .ok (some c))
    (hi : lib.invoke c store = .ok (result, store')) :
    parseRequest lib chunk session store =
      .ok (Session.doWrite { session with response_ := answer (stripCRLF chunk) c result },
        store') := by
  rw [parseRequest_eq, serveRequest]
  simp [hplan, execute, hi]

end ReminderSuite
