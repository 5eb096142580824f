import ReminderSuite.RequestHandler

/-! One connection of the gateway: reads are parsed until a request is complete, then
one reply is written. -/
namespace ReminderSuite
open RequestParser
variable {ω : Type}

abbrev Handler (ω : Type) := Request → Reply → ω → Except Fault Reply × ω

structure Connection where
  state_ : State
  request_ : Request
  reply_ : Reply
  /-- whether a read is outstanding -/
  reading : Bool
  /-- the replies handed to `async_write` -/
  written : List Reply
deriving DecidableEq

namespace Connection

def start : Connection := ⟨.methodStart, Request.start, Reply.start, true, []⟩

def doWrite (conn : Connection) : Connection :=
  { conn with reading := false, written := conn.written ++ [conn.reply_] }

def doRead (handle : Handler ω) (conn : Connection) (chunk : Bytes) (world : ω) :
    Except Fault Connection × ω :=
  if !conn.reading then (.ok conn, world)
  else
    match parse conn.state_ conn.request_ chunk with
    | (.good, _, state, req) =>
      match handle req conn.reply_ world with
      | (.ok rep, world) =>
        (.ok (doWrite { conn with state_ := state, request_ := req, reply_ := rep }), world)
      | (.error fault, world) => (.error fault, world)
    | (.bad, _, state, req) =>
      (.ok (doWrite { conn with
        state_ := state, request_ := req, reply_ := stockReply .badRequest }), world)
    | (.indeterminate, _, state, req) =>
      (.ok { conn with state_ := state, request_ := req }, world)

def serve (handle : Handler ω) (conn : Connection) : List Bytes → ω → Except Fault Connection × ω
  | [], world => (.ok conn, world)
  | chunk :: chunks, world =>
    match conn.doRead handle chunk world with
    | (.ok conn, world) => serve handle conn chunks world
    | (.error fault, world) => (.error fault, world)

end Connection

def Handler.recorded (handle : Handler ω) : Handler (ω × List Request) := fun req rep w =>
  let (result, world) := handle req rep w.1
  (result, world, w.2 ++ [req])

namespace Connection
variable {handle : Handler ω} {conn : Connection} {world : ω}

theorem doRead_indeterminate {chunk rest : Bytes} {state : State} {req : Request}
    (hopen : conn.reading = true)
    (h : parse conn.state_ conn.request_ chunk = (.indeterminate, rest, state, req)) :
    conn.doRead handle chunk world =
      (.ok { conn with state_ := state, request_ := req }, world) := by
  simp [doRead, hopen, h]

theorem doRead_good {chunk rest : Bytes} {state : State} {req : Request}
    (hopen : conn.reading = true)
    (h : parse conn.state_ conn.request_ chunk = (.good, rest, state, req)) :
    (conn.doRead handle chunk world).2 = (handle req conn.reply_ world).2 := by
  rcases hh : handle req conn.reply_ world with ⟨_ | rep, w⟩ <;> simp [doRead, hopen, h, hh]

theorem serve_indeterminate {chunks : List Bytes} {state : State} {req : Request} {rest : Bytes}
    (hopen : conn.reading = true)
    (h : parse conn.state_ conn.request_ chunks.flatten = (.indeterminate, rest, state, req)) :
    conn.serve handle chunks world =
      (.ok { conn with state_ := state, request_ := req }, world) := by
  induction chunks generalizing conn with
  | nil =>
    obtain ⟨-, -, rfl, rfl⟩ : True ∧ [] = rest ∧ conn.state_ = state ∧ conn.request_ = req := by
      simpa [parse] using h
    rfl
  | cons chunk chunks ih =>
    rw [List.flatten_cons] at h
    rcases hc : parse conn.state_ conn.request_ chunk with ⟨r, left, next, nreq⟩
    by_cases hr : r = .indeterminate
    · subst hr
      rw [parse_append hc] at h
      rw [serve, doRead_indeterminate hopen hc]
      exact ih (by exact hopen) h
    · rw [parse_append_done hc hr] at h
      exact absurd (Prod.mk.inj h).1 hr

theorem serve_append {conn' : Connection} {world' : ω} {chunks : List Bytes}
    (h : conn.serve handle chunks world = (.ok conn', world')) (more : List Bytes) :
    conn.serve handle (chunks ++ more) world = conn'.serve handle more world' := by
  induction chunks generalizing conn world with
  | nil =>
    obtain ⟨rfl, rfl⟩ : conn = conn' ∧ world = world' := by simpa [serve] using h
    rfl
  | cons chunk chunks ih =>
    rw [List.cons_append, serve]
    rw [serve] at h
    rcases hd : conn.doRead handle chunk world with ⟨_ | next, w⟩
    · simp [hd] at h
    · simp only [hd] at h ⊢
      exact ih h

theorem serve_singleton (handle : Handler ω) (conn : Connection) (chunk : Bytes) (world : ω) :
    (conn.serve handle [chunk] world).2 = (conn.doRead handle chunk world).2 := by
  rcases hd : conn.doRead handle chunk world with ⟨_ | next, w⟩ <;> simp [serve, hd]

/-- However a request is cut into reads, it is handled once, when its last byte has
come, and before that nothing happens. -/
theorem request_handled_once (handle : Handler ω) {chunks : List Bytes} {req : Request}
    {state : State} (hne : ∀ chunk ∈ chunks, chunk ≠ [])
    (h : parse .methodStart Request.start chunks.flatten = (.good, [], state, req)) (world : ω) :
    (start.serve handle chunks.dropLast world).2 = world ∧
    (start.serve handle chunks world).2 = (handle req Reply.start world).2 := by
  have hchunks : chunks ≠ [] := by
    intro heq
    subst heq
    simp [parse] at h
  obtain ⟨front, last, rfl⟩ : ∃ front last, chunks = front ++ [last] :=
    ⟨_, _, (List.dropLast_append_getLast hchunks).symm⟩
  have hflat : (front ++ [last]).flatten = front.flatten ++ last := by simp
  rw [hflat] at h
  obtain ⟨next, nreq, hfront, hlast⟩ := parse_prefix_indeterminate h (hne last (by simp))
  have hserve : start.serve handle front world =
      (.ok { start with state_ := next, request_ := nreq }, world) :=
    serve_indeterminate rfl hfront
  refine ⟨by rw [List.dropLast_concat, hserve], ?_⟩
  rw [serve_append hserve, serve_singleton]
  exact doRead_good rfl hlast

end Connection
end ReminderSuite
