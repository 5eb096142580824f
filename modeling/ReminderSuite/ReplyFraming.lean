import ReminderSuite.Connection
import ReminderSuite.FallibleRun

/-! What a connection of the gateway sends: at most one reply, whose one length header
gives the size of its content. -/
namespace ReminderSuite
open RequestHandler RequestParser
variable {ν ω : Type}

def Reply.header (rep : Reply) (name : Bytes) : List Bytes :=
  (rep.headers.filter fun h => h.name == name).map Header.value

/-- There is one length header and its value is the decimal length of the content. -/
def Reply.Framed (rep : Reply) : Prop :=
  rep.header (ascii "Content-Length") = [sizeText rep.content.length]

theorem framed_of_headers {status : Option StatusType} {headers : List Header} {content : Bytes}
    (h : ∀ header ∈ headers, header.name ≠ ascii "Content-Length") :
    Reply.Framed ⟨status, ⟨ascii "Content-Length", sizeText content.length⟩ :: headers,
      content⟩ := by
  have hnone : headers.filter (fun h => h.name == ascii "Content-Length") = [] := by
    simpa [List.filter_eq_nil_iff] using h
  simp [Reply.Framed, Reply.header, hnone]

theorem stockReply_framed (status : StatusType) : (stockReply status).Framed :=
  framed_of_headers (by
    simp only [List.forall_mem_cons, List.not_mem_nil, false_implies, implies_true, and_true]
    decide)

namespace RequestHandler

theorem serveFile_framed (gw : Gateway ν) (path : Bytes) (rep : Reply) :
    (serveFile gw path rep).Framed := by
  simp only [serveFile]
  split
  · exact stockReply_framed .notFound
  · refine framed_of_headers ?_
    simp only [List.forall_mem_cons, List.not_mem_nil, false_implies, implies_true, and_true]
    decide

/-- The length is that of the text alone, so the content has to be empty before. -/
theorem serveRdb_framed {gw : Gateway ν} {path : Bytes} {rep rep' : Reply} {w w' : ν}
    (hempty : rep.content = []) (h : serveRdb gw path rep w = (.ok rep', w')) : rep'.Framed := by
  have hbad : ∀ {v : ν}, ((.ok (stockReply .badRequest), v) : Except Fault Reply × ν) =
      (.ok rep', w') →
      rep'.Framed := by
    intro v hv
    obtain rfl : stockReply .badRequest = rep' := by simpa using congrArg Prod.fst hv
    exact stockReply_framed .badRequest
  unfold serveRdb at h
  split at h
  · simp at h
  · exact hbad h
  · split at h
    · simp at h
    · exact hbad h
    · simp only [hempty, List.nil_append, Prod.mk.injEq, Except.ok.injEq] at h
      obtain ⟨hrep, -⟩ := h
      subst hrep
      refine framed_of_headers ?_
      simp only [List.forall_mem_cons, List.not_mem_nil, false_implies, implies_true, and_true]
      decide

theorem handleRequest_framed {gw : Gateway ν} {req : Request} {rep : Reply} {w w' : ν}
    (h : handleRequest gw req Reply.start w = (.ok rep, w')) : rep.Framed := by
  unfold handleRequest at h
  split at h
  · obtain rfl : stockReply .badRequest = rep := by simpa using congrArg Prod.fst h
    exact stockReply_framed .badRequest
  · next path _ =>
    split_ifs at h
    · obtain rfl : stockReply .badRequest = rep := by simpa using congrArg Prod.fst h
      exact stockReply_framed .badRequest
    · exact serveRdb_framed rfl h
    · obtain rfl : serveFile gw path Reply.start = rep := by simpa using congrArg Prod.fst h
      exact serveFile_framed gw path Reply.start

end RequestHandler

namespace Connection
variable {handle : Handler ω} {conn conn' : Connection} {w w' : ω}

def Sound (conn : Connection) : Prop :=
  (conn.reading = true ∧ conn.reply_ = Reply.start ∧ conn.written = []) ∨
  (conn.reading = false ∧ ∃ rep : Reply, rep.Framed ∧ conn.written = [rep])

theorem Sound.step (hhandle : ∀ req rep v v', handle req Reply.start v = (.ok rep, v') → rep.Framed)
    {chunk : Bytes} (hs : conn.Sound) (h : conn.doRead handle chunk w = (.ok conn', w')) :
    conn'.Sound := by
  cases hs with
  | inr hsent =>
    obtain rfl : conn = conn' := by simpa [doRead, hsent.1] using congrArg Prod.fst h
    exact Or.inr hsent
  | inl hopen =>
    obtain ⟨hreading, hrep, hnone⟩ := hopen
    rcases hp : parse conn.state_ conn.request_ chunk with ⟨result, rest, state, req⟩
    cases result with
    | good =>
      rcases hh : handle req Reply.start w with ⟨_ | rep, v⟩
      · simp [doRead, hreading, hp, hrep, hh] at h
      · simp only [doRead, hreading, hp, hrep, hh, hnone, doWrite] at h
        obtain ⟨hc, -⟩ : _ = conn' ∧ _ := by simpa using h
        subst hc
        exact Or.inr ⟨rfl, rep, hhandle req rep w v hh, rfl⟩
    | bad =>
      simp only [doRead, hreading, hp, hnone, doWrite] at h
      obtain ⟨hc, -⟩ : _ = conn' ∧ _ := by simpa using h
      subst hc
      exact Or.inr ⟨rfl, _, stockReply_framed .badRequest, rfl⟩
    | indeterminate =>
      rw [doRead_indeterminate hreading hp] at h
      obtain ⟨hc, -⟩ : _ = conn' ∧ _ := by simpa using h
      subst hc
      exact Or.inl ⟨hreading, hrep, hnone⟩

theorem Sound.run (hhandle : ∀ req rep v v', handle req Reply.start v = (.ok rep, v') → rep.Framed)
    {chunks : List Bytes} (hs : conn.Sound) (h : conn.serve handle chunks w = (.ok conn', w')) :
    conn'.Sound := by
  induction chunks generalizing conn w with
  | nil =>
    obtain rfl : conn = conn' := by simpa [serve] using congrArg Prod.fst h
    exact hs
  | cons chunk chunks ih =>
    rw [serve] at h
    rcases hd : conn.doRead handle chunk w with ⟨_ | next, v⟩
    · simp [hd] at h
    · simp only [hd] at h
      exact ih (hs.step hhandle hd) h

/-- A run that a fault ends has sent nothing before. -/
theorem Sound.fault
    (hhandle : ∀ req rep v v', handle req Reply.start v = (.ok rep, v') → rep.Framed)
    {chunks : List Bytes} {fault : Fault} (hs : conn.Sound)
    (h : conn.serve handle chunks w = (.error fault, w')) :
    ∃ front rest next v, chunks = front ++ rest ∧ rest ≠ [] ∧
      conn.serve handle front w = (.ok next, v) ∧ next.written = [] ∧
      next.serve handle (rest.take 1) v = (.error fault, w') := by
  induction chunks generalizing conn w with
  | nil => simp [serve] at h
  | cons chunk chunks ih =>
    rw [serve] at h
    rcases hd : conn.doRead handle chunk w with ⟨err | next, v⟩
    · simp only [hd] at h
      refine ⟨[], chunk :: chunks, conn, w, rfl, by simp, rfl, ?_, by simpa [serve, hd] using h⟩
      cases hs with
      | inl hopen => exact hopen.2.2
      | inr hsent => simp [doRead, hsent.1] at hd
    · simp only [hd] at h
      obtain ⟨front, rest, last, u, rfl, hne, hfront, hnone, hlast⟩ := ih (hs.step hhandle hd) h
      exact ⟨chunk :: front, rest, last, u, rfl, hne, by simpa [serve, hd] using hfront, hnone,
        hlast⟩

end Connection

/-- For every gateway, whatever its files, the Data Provider and the libraries return,
and all bytes of a client, however they are cut into reads: the connection has sent at
most one reply and each it has sent is framed; and where handling the request faults, it
has sent none. -/
theorem replies_framed (gw : Gateway ν) (reads : List Bytes) (w w' : ν) :
    (∀ conn, Connection.start.serve (handleRequest gw) reads w = (.ok conn, w') →
      conn.written.length ≤ 1 ∧ ∀ rep ∈ conn.written,
        rep.header (ascii "Content-Length") = [sizeText rep.content.length]) ∧
    (∀ fault, Connection.start.serve (handleRequest gw) reads w = (.error fault, w') →
      ∃ front rest conn v, reads = front ++ rest ∧ rest ≠ [] ∧
        Connection.start.serve (handleRequest gw) front w = (.ok conn, v) ∧ conn.written = [] ∧
        conn.serve (handleRequest gw) (rest.take 1) v = (.error fault, w')) := by
  have hstart : Connection.start.Sound := Or.inl ⟨rfl, rfl, rfl⟩
  refine ⟨fun conn h => ?_, fun fault h => hstart.fault (fun _ _ _ _ => handleRequest_framed) h⟩
  cases hstart.run (fun _ _ _ _ => handleRequest_framed) h with
  | inl hopen => simp [hopen.2.2]
  | inr hsent =>
    obtain ⟨-, rep, hframed, hw⟩ := hsent
    simp only [hw, List.length_singleton, le_refl, List.forall_mem_singleton, true_and]
    exact hframed

/-- A file of one block and a rest, asked for in two reads -/
theorem replies_framed_sample :
    let text := List.replicate 600 (ch 'x')
    let gw : Gateway Unit := ⟨ascii "/srv", fun path => if path = ascii "/srv/a.css" then some text
      else none, ⟨fun w => (false, w), fun _ result w => ((false, result), w)⟩,
        plainTree, fun _ => []⟩
    let reads := [ascii "GET /a.c", ascii "ss HTTP/1.0\r\n\r\n"]
    ∃ conn, Connection.start.serve (handleRequest gw) reads () = (.ok conn, ()) ∧
      conn.written = [⟨some .ok, [⟨ascii "Content-Length", ascii "600"⟩,
        ⟨ascii "Content-Type", ascii "text/css"⟩], text⟩] ∧
      ∀ rep ∈ conn.written, rep.header (ascii "Content-Length") =
        [sizeText rep.content.length] := by
  intro text gw reads
  have hsent : (Connection.start.serve (handleRequest gw) reads ()).1.map Connection.written =
      .ok [⟨some .ok, [⟨ascii "Content-Length", ascii "600"⟩,
        ⟨ascii "Content-Type", ascii "text/css"⟩], text⟩] := by decide +kernel
  obtain ⟨conn, hconn, hw⟩ := FallibleRun.map_eq_ok_iff.mp hsent
  have hrun : Connection.start.serve (handleRequest gw) reads () = (.ok conn, ()) :=
    Prod.ext hconn (Subsingleton.elim _ _)
  exact ⟨conn, hrun, hw, ((replies_framed gw reads () ()).1 conn hrun).2⟩

end ReminderSuite
