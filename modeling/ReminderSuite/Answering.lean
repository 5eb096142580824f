import ReminderSuite.ReplyWire

/-! What a connection of the gateway does with all that a client sends, in terms of the
messages of the grammar alone. -/
namespace ReminderSuite
open RequestParser
variable {ω : Type}

namespace Connection
variable {handle : Handler ω} {conn : Connection} {world : ω}

theorem serve_closed (hclosed : conn.reading = false) (chunks : List Bytes) :
    conn.serve handle chunks world = (.ok conn, world) := by
  induction chunks with
  | nil => rfl
  | cons chunk chunks ih =>
    have hsame : conn.doRead handle chunk world = (.ok conn, world) := by simp [doRead, hclosed]
    rw [serve, hsame]
    exact ih

/-- What a connection does once it has the result of its parser -/
def conclude (handle : Handler ω) (conn : Connection) (result : ResultType) (state : State)
    (req : Request) (world : ω) : Except Fault Connection × ω :=
  match result with
  | .good =>
    match handle req conn.reply_ world with
    | (.ok rep, world) =>
      (.ok (doWrite { conn with state_ := state, request_ := req, reply_ := rep }), world)
    | (.error fault, world) => (.error fault, world)
  | .bad =>
    (.ok (doWrite { conn with
      state_ := state, request_ := req, reply_ := stockReply .badRequest }), world)
  | .indeterminate => (.ok { conn with state_ := state, request_ := req }, world)

theorem doRead_eq_conclude {chunk rest : Bytes} {result : ResultType} {state : State}
    {req : Request} (hopen : conn.reading = true)
    (h : parse conn.state_ conn.request_ chunk = (result, rest, state, req)) :
    conn.doRead handle chunk world = conn.conclude handle result state req world := by
  rw [doRead, if_neg (by simp [hopen]), h]
  cases result <;> rfl

/-- The reads of a connection are parsed as one text, up to its result. -/
theorem serve_eq_conclude {chunks : List Bytes} {rest : Bytes} {result : ResultType} {state : State}
    {req : Request} (hopen : conn.reading = true)
    (h : parse conn.state_ conn.request_ chunks.flatten = (result, rest, state, req)) :
    conn.serve handle chunks world = conn.conclude handle result state req world := by
  by_cases hmore : result = .indeterminate
  · subst hmore
    exact serve_indeterminate hopen h
  induction chunks generalizing conn with
  | nil => exact absurd (Prod.mk.inj h).1.symm hmore
  | cons chunk chunks ih =>
    rw [List.flatten_cons] at h
    rcases hc : parse conn.state_ conn.request_ chunk with ⟨r, left, next, nreq⟩
    by_cases hr : r = .indeterminate
    · subst hr
      rw [parse_append hc] at h
      rw [serve, doRead_indeterminate hopen hc]
      exact ih hopen h
    · rw [parse_append_done hc hr] at h
      obtain ⟨rfl, -, rfl, rfl⟩ : r = result ∧ left ++ chunks.flatten = rest ∧ next = state ∧
        nreq = req := by simpa using h
      rw [serve, doRead_eq_conclude hopen hc]
      cases r with
      | good =>
        rcases hh : handle nreq conn.reply_ world with ⟨_ | rep, v⟩
        · simp only [conclude, hh]
        · simp only [conclude, hh]
          exact serve_closed rfl chunks
      | bad => exact serve_closed rfl chunks
      | indeterminate => exact absurd rfl hr

end Connection

/-- A connection that has had the request of a message handled -/
def answered (handle : Handler ω) (m : Message) (world : ω) : Except Fault Connection × ω :=
  match handle m.request Reply.start world with
  | (.ok rep, world) => (.ok ⟨.expectingNewline3, m.request, rep, false, [rep]⟩, world)
  | (.error fault, world) => (.error fault, world)

theorem serve_message {handle : Handler ω} {world : ω} {reads : List Bytes} {m : Message}
    (h : m.text <+: reads.flatten) :
    Connection.start.serve handle reads world = answered handle m world := by
  obtain ⟨rest, hrest⟩ := h
  have hparse := m.parse_text rest
  rw [hrest] at hparse
  have hstart : Connection.start.reply_ = Reply.start := rfl
  rw [Connection.serve_eq_conclude rfl hparse, answered, Connection.conclude, hstart]
  cases handle m.request Reply.start world with
  | mk result v => cases result <;> rfl

/-- For every handler and all bytes of a client in any reads: a connection has handled the
request of the message that the bytes begin with, and no other; it waits, having done nothing,
while they can still become a message; and otherwise it has refused them. -/
theorem connection_answers (handle : Handler ω) (reads : List Bytes) (world : ω) :
    (∀ m : Message, m.text <+: reads.flatten →
      Connection.start.serve handle reads world = answered handle m world) ∧
    (Begins reads.flatten → ∃ state req, Connection.start.serve handle reads world =
      (.ok { Connection.start with state_ := state, request_ := req }, world)) ∧
    ((∀ m : Message, ¬ m.text <+: reads.flatten) → ¬ Begins reads.flatten →
      ∃ state req, Connection.start.serve handle reads world =
        (.ok ⟨state, req, stockReply .badRequest, false, [stockReply .badRequest]⟩, world)) := by
  refine ⟨fun m hm => serve_message hm, fun hbegins => ?_, fun hnone hends => ?_⟩
  · rcases hp : parse .methodStart Request.start reads.flatten with ⟨result, rest, state, req⟩
    obtain rfl : result = .indeterminate := by
      have hmore := parse_indeterminate_iff.mpr hbegins
      rwa [hp] at hmore
    exact ⟨state, req, by rw [Connection.serve_eq_conclude rfl hp]; rfl⟩
  · rcases hp : parse .methodStart Request.start reads.flatten with ⟨result, rest, state, req⟩
    have hgood : result ≠ .good := by
      intro heq
      obtain ⟨m, hm⟩ := parse_good_iff.mp (by rw [hp, heq])
      exact hnone m hm
    have hmore : result ≠ .indeterminate :=
      fun heq => hends (parse_indeterminate_iff.mp (by rw [hp, heq]))
    obtain rfl : result = .bad := by cases result <;> simp_all
    exact ⟨state, req, by rw [Connection.serve_eq_conclude rfl hp]; rfl⟩

end ReminderSuite
