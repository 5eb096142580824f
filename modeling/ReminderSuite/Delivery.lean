import ReminderSuite.Server

/-! How the bytes of commands become requests: a session reads whatever has arrived
and takes each read for one whole command. -/
namespace ReminderSuite
open Delimited FallibleRun
variable {σ : Type}

/-- One turn of `do_read`, `parseRequest` and `do_write` -/
def serveRead (lib : DBLibrary σ) (s : Session × σ) (read : Bytes) : Except Fault (Session × σ) :=
  parseRequest lib read s.1 s.2

/-- The calls that a sequence of reads performs when each is a command of its own,
up to the first that does not return -/
def performed (lib : DBLibrary σ) (store : σ) : List Bytes → List Call
  | [] => []
  | read :: reads =>
    match plan (segments read) with
    | .error _ => []
    | .ok none => performed lib store reads
    | .ok (some c) =>
      match lib.invoke c store with
      | .error _ => []
      | .ok (_, store') => c :: performed lib store' reads

/-- What one read does to the log of the calls. -/
theorem serveRead_cases (lib : DBLibrary σ) (session : Session) (store : σ) (log : List Call)
    (read : Bytes) :
    (∃ fault, serveRead lib.logged (session, store, log) read = .error fault ∧
      ∀ reads, performed lib store (read :: reads) = []) ∨
    (∃ session', serveRead lib.logged (session, store, log) read = .ok (session', store, log) ∧
      ∀ reads, performed lib store (read :: reads) = performed lib store reads) ∨
    ∃ c session' store',
      serveRead lib.logged (session, store, log) read = .ok (session', store', log ++ [c]) ∧
      ∀ reads, performed lib store (read :: reads) = c :: performed lib store' reads := by
  cases hplan : plan (segments read) with
  | error fault =>
    exact Or.inl ⟨fault, by simp [serveRead, parseRequest_eq, serveRequest, hplan],
      fun reads => by simp [performed, hplan]⟩
  | ok planned =>
    cases planned with
    | none =>
      exact Or.inr (Or.inl ⟨_, by simp [serveRead, parseRequest_eq, serveRequest, hplan]; rfl,
        fun reads => by simp [performed, hplan]⟩)
    | some c =>
      have hlogged := lib.invoke_logged c store log
      cases hi : lib.invoke c store with
      | error fault =>
        rw [hi, map_error] at hlogged
        exact Or.inl ⟨fault,
          by simp [serveRead, parseRequest_eq, serveRequest, hplan, execute, hlogged],
          fun reads => by simp [performed, hplan, hi]⟩
      | ok r =>
        rw [hi, map_ok] at hlogged
        exact Or.inr (Or.inr ⟨c, _, r.2, parseRequest_call hplan hlogged,
          fun reads => by simp [performed, hplan, hi]⟩)

/-- For every provider and every sequence of reads, however a command was cut into
them: the calls performed are those that each read asks for on its own, in order.
A command that arrives whole in one read performs its one call and no other. -/
theorem reads_are_requests (lib : DBLibrary σ) (session : Session) (store : σ) (log : List Call) :
    (∀ reads : List Bytes,
      (serve (serveRead lib.logged) (session, store, log) reads).2.2 =
        log ++ performed lib store reads) ∧
    ∀ (cmd : Bytes) (c : Call) (r : Result × σ), plan (segments cmd) = .ok (some c) →
      lib.invoke c store = .ok r →
      (serve (serveRead lib.logged) (session, store, log) [cmd]).2.2 = log ++ [c] := by
  have hreads : ∀ reads : List Bytes,
      (serve (serveRead lib.logged) (session, store, log) reads).2.2 =
        log ++ performed lib store reads := by
    intro reads
    induction reads generalizing session store log with
    | nil => simp [performed]
    | cons read reads ih =>
      obtain ⟨fault, hs, hp⟩ | ⟨session', hs, hp⟩ | ⟨c, session', store', hs, hp⟩ :=
        serveRead_cases lib session store log read
      · rw [serve_cons_error hs, hp]
        simp
      · rw [serve_cons_ok hs, ih, hp]
      · rw [serve_cons_ok hs, ih, hp]
        simp
  refine ⟨hreads, fun cmd c r hplan hi => ?_⟩
  rw [hreads]
  simp [performed, hplan, hi]

/-- A record set that arrives whole -/
theorem reads_are_requests_sample :
    let store := (Server.ofFile (ascii "name:note\nmilk:x\n")).store
    (serve (serveRead textLibrary.logged) (Session.start, store, []) [ascii "/set/eggs:six"]).2.2 =
      [Call.set (ascii "eggs") (ascii "eggs:six")] := by
  intro store
  exact (reads_are_requests textLibrary Session.start store []).2 _ _
    (.flag true, { store with db := (store.db.set (ascii "eggs") (ascii "eggs:six")).2 })
    (by decide) (by decide)

/-- The removal of `ab`, cut after its first letter, removes `a`. -/
theorem cut_delete_removes_prefix :
    let store := (Server.ofFile (ascii "name:note\na:x\nab:y\n")).store
    let cmd := ascii "/delete/ab"
    let reads := [ascii "/delete/a", ascii "b"]
    reads.flatten = cmd ∧ lf ∉ cmd ∧ cr ∉ cmd ∧
    plan (segments cmd) = .ok (some (.erase (ascii "ab"))) ∧
    (serve (serveRead textLibrary.logged) (Session.start, store, []) reads).2.2 =
      [Call.erase (ascii "a")] ∧
    (serve (serveRead textLibrary) (Session.start, store) reads).2.db.getAll = [ascii "ab:y:"] := by
  decide

end ReminderSuite
