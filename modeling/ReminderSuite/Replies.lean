import ReminderSuite.Server

/-! What a client is told: which requests get a reply at all, and what the status
text of a reply says about the call behind it. -/
namespace ReminderSuite
open Delimited FallibleRun
variable {σ : Type}

theorem plan_eq_error_iff {segs : List Bytes} {fault : Fault} :
    plan segs = .error fault ↔ fault = .outOfRange ∧ segs = [ascii "delete"] := by
  cases segs with
  | nil => simp [plan]
  | cons command args =>
    simp only [plan]
    split_ifs with hget hset hdelete
    · have hne : command ≠ ascii "delete" := by
        rw [hget]
        decide
      rcases args with _ | ⟨name, _ | ⟨field, rest⟩⟩
      · simp [hne]
      · simp
      · simp
    · have hne : command ≠ ascii "delete" := by
        rw [hset]
        decide
      rcases args with _ | ⟨a, _ | ⟨b, _ | ⟨d, _ | ⟨e, rest⟩⟩⟩⟩
      · simp [hne]
      · simp
      · simp
      · simp
      · simp
    · cases args with
      | nil => simp [hdelete, eq_comm]
      | cons name rest => simp
    all_goals simp [hdelete]

def bareDeletes : List Bytes :=
  [ascii "/delete/", ascii "/delete", ascii "delete/", ascii "delete"]

theorem bare_delete_iff (chunk : Bytes) :
    segments chunk = [ascii "delete"] ↔ stripCRLF chunk ∈ bareDeletes := by
  have hclean : slash ∉ ascii "delete" := ascii_delete_clean.2.2
  have hword : tokens slash (stripCRLF chunk) = [ascii "delete"] ↔
      stripCRLF chunk = ascii "delete/" ∨ stripCRLF chunk = ascii "delete" := by
    have hterm : terminated slash [ascii "delete"] = ascii "delete" ++ [slash] := by simp
    have hclosed : ascii "delete/" = ascii "delete" ++ [slash] := by decide
    have hlast : (ascii "delete").getLast? ≠ some slash := by decide
    rw [tokens_eq_iff (by simp) (by simpa using hclean), hterm, closed_eq_iff, hclosed,
      and_iff_left hlast]
  have hslash : tokens slash (stripCRLF chunk) = [[], ascii "delete"] ↔
      stripCRLF chunk = ascii "/delete/" ∨ stripCRLF chunk = ascii "/delete" := by
    have hword : ascii "/delete" = slash :: ascii "delete" := by decide
    have hterm : terminated slash [[], ascii "delete"] = ascii "/delete" ++ [slash] := by
      simp [hword]
    have hclosed : ascii "/delete/" = ascii "/delete" ++ [slash] := by decide
    have hlast : (ascii "/delete").getLast? ≠ some slash := by decide
    rw [tokens_eq_iff (by simp) (by simpa using hclean), hterm, closed_eq_iff, hclosed,
      and_iff_left hlast]
  have hseg : segments chunk = [ascii "delete"] ↔
      tokens slash (stripCRLF chunk) = [[], ascii "delete"] ∨
        tokens slash (stripCRLF chunk) = [ascii "delete"] := by
    have hne : ascii "delete" ≠ [] := by decide
    unfold segments
    split
    · next rest ht => simp [ht, hne.symm]
    · next ht =>
      have hno : tokens slash (stripCRLF chunk) ≠ [[], ascii "delete"] := ht _
      simp [hno]
  rw [hseg, hword, hslash, or_assoc]
  simp only [bareDeletes, List.mem_cons, List.not_mem_nil, or_false]

def ReadsPastEnd (db : DBTextFile) (chunk : Bytes) : Prop :=
  ∃ name field, plan (segments chunk) = .ok (some (.get name field)) ∧
    db.readsPastEnd name field = true

def Answered (lib : DBLibrary σ) (chunk : Bytes) (session : Session) (store : σ) : Prop :=
  ∃ reply session' store', parseRequest lib chunk session store = .ok (session', store') ∧
    session'.written = session.written ++ [reply]

theorem answered_iff_ok {lib : DBLibrary σ} {chunk : Bytes} {session : Session} {store : σ} :
    Answered lib chunk session store ↔ ∃ r, parseRequest lib chunk session store = .ok r := by
  constructor
  · intro h
    obtain ⟨_, session', store', h, -⟩ := h
    exact ⟨_, h⟩
  · intro h
    obtain ⟨⟨session', store'⟩, h⟩ := h
    obtain ⟨response, rfl⟩ := parseRequest_response h
    exact ⟨_, _, store', h, rfl⟩

theorem invoke_text_error_iff {c : Call} {s : TextStore} {fault : Fault} :
    textLibrary.invoke c s = .error fault ↔ fault = .pastEnd ∧
      ∃ name field, c = .get name field ∧ s.db.readsPastEnd name field = true := by
  rw [invoke_text]
  cases c with
  | get name field =>
    have hiff := DBTextFile.get_error_iff s.db name field
    cases hg : s.db.get name field with
    | error e =>
      obtain rfl := DBTextFile.get_error_eq hg
      have hpast := hiff.mp ⟨_, hg⟩
      simp only [hg, map_error, Except.error.injEq, Call.get.injEq]
      exact ⟨fun h => ⟨h.symm, name, field, ⟨rfl, rfl⟩, hpast⟩, fun h => h.1.symm⟩
    | ok reply =>
      simp only [hg, map_ok, Call.get.injEq, reduceCtorEq, false_iff]
      intro h
      obtain ⟨-, n, f, ⟨rfl, rfl⟩, hpast⟩ := h
      obtain ⟨e, he⟩ := hiff.mpr hpast
      simp [hg] at he
  | _ => simp

theorem parseRequest_error_iff {lib : DBLibrary σ} {chunk : Bytes} {session : Session} {store : σ}
    {fault : Fault} :
    parseRequest lib chunk session store = .error fault ↔
      plan (segments chunk) = .error fault ∨
      ∃ c, plan (segments chunk) = .ok (some c) ∧ lib.invoke c store = .error fault := by
  rw [parseRequest_eq, serveRequest]
  cases plan (segments chunk) with
  | error e => simp
  | ok planned =>
    cases planned with
    | none => simp
    | some c => cases h : lib.invoke c store <;> simp [execute, h]

theorem parseRequest_text_error_iff {chunk : Bytes} {session : Session} {s : TextStore}
    {fault : Fault} :
    parseRequest textLibrary chunk session s = .error fault ↔
      fault = .outOfRange ∧ segments chunk = [ascii "delete"] ∨
        fault = .pastEnd ∧ ReadsPastEnd s.db chunk := by
  rw [parseRequest_error_iff, plan_eq_error_iff]
  refine or_congr Iff.rfl ?_
  simp only [invoke_text_error_iff, ReadsPastEnd]
  constructor
  · intro h
    obtain ⟨c, hplan, hfault, name, field, rfl, hpast⟩ := h
    exact ⟨hfault, name, field, hplan, hpast⟩
  · intro h
    obtain ⟨hfault, name, field, hplan, hpast⟩ := h
    exact ⟨_, hplan, hfault, name, field, rfl, hpast⟩

theorem answered_text_iff (chunk : Bytes) (session : Session) (s : TextStore) :
    Answered textLibrary chunk session s ↔
      stripCRLF chunk ∉ bareDeletes ∧ ¬ ReadsPastEnd s.db chunk := by
  rw [answered_iff_ok, ← bare_delete_iff]
  cases h : parseRequest textLibrary chunk session s with
  | ok r =>
    have hd : segments chunk ≠ [ascii "delete"] := fun hd => by
      simp [parseRequest_text_error_iff.mpr (Or.inl ⟨rfl, hd⟩)] at h
    have hp : ¬ ReadsPastEnd s.db chunk := fun hp => by
      simp [parseRequest_text_error_iff.mpr (Or.inr ⟨rfl, hp⟩)] at h
    simp [hd, hp]
  | error fault =>
    cases parseRequest_text_error_iff.mp h with
    | inl hbare => simp [hbare.2]
    | inr hread => simp [hread.2]

theorem receive_of_answered {lib : DBLibrary σ} {srv : Server σ} {e : Event}
    (h : Answered lib e.2 (srv.sessions e.1) srv.store) :
    ∃ srv', srv.receive lib e = .ok srv' ∧ ∀ client,
      (srv'.repliesTo client).length =
        (srv.repliesTo client).length + if e.1 = client then 1 else 0 := by
  obtain ⟨reply, session', store', hp, hw⟩ := h
  have hnext : srv.receive lib e = .ok ⟨Function.update srv.sessions e.1 session', store'⟩ := by
    rw [Server.receive, hp]
    rfl
  refine ⟨_, hnext, fun client => ?_⟩
  by_cases hc : e.1 = client
  · subst hc
    simp [Server.repliesTo, hw]
  · simp [Server.repliesTo, hc, Function.update_of_ne (Ne.symm hc)]

def Harmless (srv : Server TextStore) (e : Event) : Prop :=
  stripCRLF e.2 ∉ bareDeletes ∧ ¬ ReadsPastEnd srv.store.db e.2

theorem harmless_run_answered {srv : Server TextStore} {events : List Event}
    (h : Guarded (Server.receive textLibrary) Harmless srv events) :
    ∃ srv', events.foldlM (Server.receive textLibrary) srv = .ok srv' ∧ ∀ client,
      (srv'.repliesTo client).length =
        (srv.repliesTo client).length + events.countP fun e => e.1 = client := by
  induction events generalizing srv with
  | nil => exact ⟨srv, rfl, by simp⟩
  | cons e es ih =>
    have hanswered := (answered_text_iff e.2 (srv.sessions e.1) srv.store).mpr h.1
    obtain ⟨next, hnext, hone⟩ := receive_of_answered hanswered
    obtain ⟨srv', hrun, hall⟩ := ih (h.2 next hnext)
    refine ⟨srv', by simpa [List.foldlM_cons, hnext] using hrun, fun client => ?_⟩
    rw [hall, hone, List.countP_cons]
    simp only [decide_eq_true_eq]
    omega

/-- Whatever is received and whatever the store, a request is answered with one
response unless it is a bare delete, which alone throws, or a lookup past the end
of a record; and a run without either keeps the server up and answers every
request of every client once. -/
theorem requests_answered (chunk : Bytes) (session : Session) (s : TextStore) (contents : Bytes)
    (events : List Event) :
    (Answered textLibrary chunk session s ↔
      stripCRLF chunk ∉ bareDeletes ∧ ¬ ReadsPastEnd s.db chunk) ∧
    (parseRequest textLibrary chunk session s = .error .outOfRange ↔
      stripCRLF chunk ∈ bareDeletes) ∧
    (Guarded (Server.receive textLibrary) Harmless (Server.ofFile contents) events →
      ∃ srv, events.foldlM (Server.receive textLibrary) (Server.ofFile contents) = .ok srv ∧
        ∀ client, (srv.repliesTo client).length = events.countP fun e => e.1 = client) := by
  refine ⟨answered_text_iff chunk session s, ?_, fun hg => ?_⟩
  · rw [parseRequest_text_error_iff, ← bare_delete_iff]
    simp
  · obtain ⟨srv, hrun, hall⟩ := harmless_run_answered hg
    exact ⟨srv, hrun, fun client => by
      simpa [Server.ofFile, Server.repliesTo, Session.start] using hall client⟩

/-- Two clients, one of them looking up a cell that exists -/
theorem requests_answered_sample :
    let events := [(0, ascii "/get/milk/note"), (1, ascii "/delete/milk")]
    ∃ srv, events.foldlM (Server.receive textLibrary)
      (Server.ofFile (ascii "name:note\nmilk:x\n")) =
        .ok srv ∧
      ∀ client, (srv.repliesTo client).length = events.countP fun e => e.1 = client := by
  refine (requests_answered [] Session.start (Server.ofFile []).store _ _).2.2
    ⟨⟨by decide, ?_⟩, fun _ _ => ⟨⟨by decide, ?_⟩, ?_⟩⟩
  · intro h
    obtain ⟨name, field, hplan, hpast⟩ := h
    have hcall : plan (segments (ascii "/get/milk/note")) =
        .ok (some (.get (ascii "milk") (ascii "note"))) := by decide
    obtain ⟨rfl, rfl⟩ : ascii "milk" = name ∧ ascii "note" = field := by
      simpa using hcall.symm.trans hplan
    revert hpast
    decide
  · intro h
    obtain ⟨name, field, hplan, -⟩ := h
    have hcall : plan (segments (ascii "/delete/milk")) = .ok (some (.erase (ascii "milk"))) := by
      decide
    simp [hcall] at hplan
  · exact fun _ _ => trivial

/-- A client that asks to delete nothing ends the server for every other. -/
theorem bare_delete_throws :
    let srv := Server.ofFile (ascii "name:note\nmilk:x\n")
    parseRequest textLibrary (ascii "/delete") Session.start srv.store = .error .outOfRange ∧
    ¬ Answered textLibrary (ascii "/delete") Session.start srv.store ∧
    (serve (Server.receive textLibrary) srv [(0, ascii "/delete"),
      (1, ascii "/get/milk")]).repliesTo 1 =
      [] := by
  intro srv
  have hthrow : parseRequest textLibrary (ascii "/delete") Session.start srv.store =
      .error .outOfRange := by decide
  refine ⟨hthrow, ?_, by decide⟩
  rw [answered_iff_ok, hthrow]
  simp

section Status

def success : Bytes := ascii "SUCCESS"

theorem not_success_deleteFailed (name : Bytes) :
    ¬ success <+: buildError (ascii "ERROR: Failed to delete " ++ name ++ ascii "; ") ++ [lf] := by
  intro h
  obtain ⟨rest, h⟩ := h
  have hhead : some (83 : UInt8) = some 69 := congrArg List.head? h
  simp at hhead

/-- The text that answers a status is a success exactly when the status is one, for
every call but the replacement of a whole record, where it never is. -/
theorem success_answer_iff {cmd : Bytes} {c : Call} {done : Bool}
    (hc : c = .save ∨ (∃ name record, c = .set name record) ∨
      (∃ name field value, c = .setField name field value) ∨ ∃ name, c = .erase name) :
    (success <+: answer cmd c (.flag done) ++ [lf] ↔ done = true) ↔
      ∀ name record, c ≠ .set name record := by
  rcases hc with rfl | ⟨name, record, rfl⟩ | ⟨name, field, value, rfl⟩ | ⟨name, rfl⟩
  · have htext : success <+: answer cmd .save (.flag done) ++ [lf] ↔ done = true := by
      cases done <;> (simp only [answer]; decide)
    simp [htext]
  · have htext : ¬ (success <+: answer cmd (.set name record) (.flag done) ++ [lf] ↔
        done = true) := by
      cases done <;> (simp only [answer]; decide)
    simp [htext]
  · have htext : success <+: answer cmd (.setField name field value) (.flag done) ++ [lf] ↔
        done = true := by
      cases done <;> (simp only [answer]; decide)
    simp [htext]
  · have htext : success <+: answer cmd (.erase name) (.flag done) ++ [lf] ↔ done = true := by
      cases done with
      | false => simpa [answer] using not_success_deleteFailed name
      | true =>
        have hyes : success <+: buildError (ascii "SUCCESS") ++ [lf] := by decide
        simpa [answer] using hyes
    simp [htext]

theorem mutating_of_flag {lib : DBLibrary σ} {c : Call} {store store' : σ} {done : Bool}
    (h : lib.invoke c store = .ok (.flag done, store')) :
    c = .save ∨ (∃ name record, c = .set name record) ∨
      (∃ name field value, c = .setField name field value) ∨ ∃ name, c = .erase name := by
  cases c with
  | set name record => exact Or.inr (Or.inl ⟨name, record, rfl⟩)
  | setField name field value => exact Or.inr (Or.inr (Or.inl ⟨name, field, value, rfl⟩))
  | erase name => exact Or.inr (Or.inr (Or.inr ⟨name, rfl⟩))
  | save => exact Or.inl rfl
  | _ =>
    obtain ⟨r, -, hr⟩ := map_eq_ok_iff.mp h
    simp at hr

theorem plan_set_iff {segs : List Bytes} {c : Call} (hplan : plan segs = .ok (some c)) :
    (∀ name record, c ≠ .set name record) ↔ ∀ record, segs ≠ [ascii "set", record] := by
  constructor
  · rintro hc record rfl
    exact hc _ _ (Option.some.inj (Except.ok.inj hplan)).symm
  · rintro hsegs name record rfl
    exact hsegs record (spelledBy_of_plan hplan).1

/-- For every provider, state and request that reports a status: the reply begins
with SUCCESS exactly when the provider reported true, unless the request sets a
whole record, and then never. -/
theorem status_faithful_iff (lib : DBLibrary σ) (chunk : Bytes) (session : Session)
    (store store' : σ) (c : Call) (done : Bool)
    (hplan : plan (segments chunk) = .ok (some c))
    (hcall : lib.invoke c store = .ok (.flag done, store')) :
    ∃ reply, parseRequest lib chunk session store =
        .ok (⟨reply, session.written ++ [reply]⟩, store') ∧
      ((success <+: reply ↔ done = true) ↔ ∀ record, segments chunk ≠ [ascii "set", record]) := by
  refine ⟨_, parseRequest_call hplan hcall, ?_⟩
  rw [← plan_set_iff hplan]
  exact success_answer_iff (mutating_of_flag hcall)

/-- A field update of the text backend that fails -/
theorem status_faithful_iff_sample :
    let store := (Server.ofFile (ascii "name:note\nmilk:x\n")).store
    ∃ reply, parseRequest textLibrary (ascii "/set/eggs/note/six") Session.start store =
        .ok (⟨reply, [reply]⟩, store) ∧ ¬ success <+: reply := by
  intro store
  obtain ⟨reply, hreply, hiff⟩ := status_faithful_iff textLibrary (ascii "/set/eggs/note/six")
    Session.start store store (.setField (ascii "eggs") (ascii "note") (ascii "six")) false
    (by decide) (by decide)
  have hsegs : ∀ record, segments (ascii "/set/eggs/note/six") ≠ [ascii "set", record] := by
    intro record h
    have hlen : (segments (ascii "/set/eggs/note/six")).length = 4 := by decide
    simp [h] at hlen
  exact ⟨reply, hreply, fun hs => by simpa using (hiff.mpr hsegs).mp hs⟩

/-- The text backend stores the record and reports true, and the client reads a
failure. -/
theorem record_set_answered_as_failure :
    let store := (Server.ofFile (ascii "name:note\nmilk:x\n")).store
    let call := Call.set (ascii "eggs") (ascii "eggs:six")
    plan (segments (ascii "/set/eggs:six")) = .ok (some call) ∧
    (textLibrary.invoke call store).map Prod.fst = .ok (.flag true) ∧
    (parseRequest textLibrary (ascii "/set/eggs:six") Session.start store).map
      (fun r => r.1.written) = .ok [ascii "Filed to set Entry: \n"] ∧
    ¬ success <+: ascii "Filed to set Entry: \n" := by
  decide

end Status
end ReminderSuite
