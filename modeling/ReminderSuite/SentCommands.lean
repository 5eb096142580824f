import ReminderSuite.Serving
import ReminderSuite.Validation

/-! What the gateway sends to the Data Provider in a run of its event loop: the commands of the
requests that came, each at most once. -/
namespace ReminderSuite
open Delimited FallibleRun RequestParser RequestHandler
variable {ν : Type}

/-- The commands that a call with this parameter takes: a lookup of the fields precedes a get, and
is all that the fields take. -/
def RdbHandler.commandsOf (param : Bytes) : List Bytes :=
  if param = ascii "/fields" then [param]
  else if isGet param then [ascii "/fields", param]
  else [param]

def commandsOf (req : Request) : List Bytes :=
  match urlDecode req.uri with
  | none => []
  | some path =>
    if path.head? ≠ some slash ∨ ascii ".." <:+: path then []
    else if RdbHandler.isRDBcall path = true ∧ RdbHandler.isValidCall path = .ok true then
      RdbHandler.commandsOf (path.drop 4)
    else []

def Sends (log cmds log' : List Bytes) (done : Prop) : Prop :=
  ∃ sent, log' = log ++ sent ∧ sent <+: cmds ∧ (done → sent = cmds)

theorem sends_nil (log : List Bytes) (done : Prop) : Sends log [] log done :=
  ⟨[], by simp, List.nil_prefix, fun _ => rfl⟩

theorem sends_all {log cmds log' : List Bytes} (sent : List Bytes) (hcmds : cmds = sent)
    (hlog : log' = log ++ sent)
    (done : Prop) : Sends log cmds log' done :=
  ⟨sent, hlog, hcmds ▸ List.prefix_refl _, fun _ => hcmds.symm⟩

theorem sends_part {log cmds sent log' : List Bytes} {done : Prop} (hsent : sent <+: cmds)
    (hlog : log' = log ++ sent) (hnot : ¬ done) : Sends log cmds log' done :=
  ⟨sent, hlog, hsent, fun hdone => absurd hdone hnot⟩

namespace RdbHandler

theorem parse_sends (ops : PTreeOps) (client : DataClient ν) (c : Bytes) (w : ν)
    (log : List Bytes) :
    Sends log (commandsOf (slash :: c))
      (parse ops client.recorded (ascii "/rdb/" ++ c) (w, log)).2.2
      (∃ reply, (parse ops client.recorded (ascii "/rdb/" ++ c) (w, log)).1 =
        .ok (some reply)) := by
  rcases hcreate : client.create w with ⟨created, w0⟩
  have hcreated : client.recorded.create (w, log) = (created, w0, log) := by
    simp [DataClient.recorded, hcreate]
  cases created with
  | false =>
    refine sends_part List.nil_prefix ?_ ?_ <;> simp [parse, hcreated]
  | true =>
    by_cases hlookup : slash :: c = ascii "/fields" ∨ isGet (slash :: c) = true
    · rcases hx : client.executeCmd (ascii "/fields") [] w0 with ⟨⟨done, result⟩, w1⟩
      have hexec : client.recorded.executeCmd (ascii "/fields") [] (w0, log) =
          ((done, result), w1, log ++ [ascii "/fields"]) := by
        simp [DataClient.recorded, hx]
      have hfirst : [ascii "/fields"] <+: commandsOf (slash :: c) := by
        rw [commandsOf]
        split
        · next heq => rw [heq]
        · next hne => simp [hlookup.resolve_left hne]
      cases done with
      | false =>
        refine sends_part hfirst ?_ ?_ <;> simp [parse, hcreated, substr_path, hlookup, hexec]
      | true =>
        cases result with
        | nil =>
          refine sends_part hfirst ?_ ?_ <;> simp [parse, hcreated, substr_path, hlookup, hexec]
        | cons front rest =>
          by_cases hfields : slash :: c = ascii "/fields"
          · refine sends_all [ascii "/fields"] ?_ ?_ _
            · rw [commandsOf, if_pos hfields, hfields]
            · simp [parse, hcreated, substr_path, hfields, hexec]
          · have hget := hlookup.resolve_left hfields
            refine sends_all [ascii "/fields", slash :: c] ?_ ?_ _
            · rw [commandsOf, if_neg hfields, if_pos hget]
            · simp [parse, hcreated, substr_path, hfields, hget, hexec, forward_recorded]
    · obtain ⟨hfields, hget⟩ := not_or.mp hlookup
      refine sends_all [slash :: c] ?_ ?_ _
      · rw [commandsOf, if_neg hfields, if_neg hget]
      · simp [parse, hcreated, substr_path, hlookup, forward_recorded]

end RdbHandler

/-- Handling a request sends a beginning of its commands, all of them where the reply is ok. -/
theorem handleRequest_sends (gw : Gateway ν) (req : Request) (rep : Reply) (w : ν)
    (log : List Bytes) :
    Sends log (commandsOf req) (handleRequest gw.recorded req rep (w, log)).2.2
      (∃ reply, (handleRequest gw.recorded req rep (w, log)).1 = .ok reply ∧
        reply.status = some .ok) := by
  rw [handleRequest, commandsOf]
  cases urlDecode req.uri with
  | none => exact sends_nil log _
  | some path =>
    by_cases hrefused : path.head? ≠ some slash ∨ ascii ".." <:+: path
    · have hmore : path.isEmpty ∨ path.head? ≠ some slash ∨ ascii ".." <:+: path := Or.inr hrefused
      simp only [if_pos hrefused, if_pos hmore]
      exact sends_nil log _
    · have hopen : ¬ (path.isEmpty ∨ path.head? ≠ some slash ∨ ascii ".." <:+: path) := by
        intro h
        refine hrefused (h.resolve_left fun hempty => hrefused (Or.inl ?_))
        simp [List.isEmpty_iff.mp hempty]
      simp only [if_neg hrefused, if_neg hopen]
      by_cases hrdb : RdbHandler.isRDBcall path = true
      · obtain ⟨c, rfl⟩ := RdbHandler.isRDBcall_iff.mp hrdb
        simp only [serveRdb, hrdb, true_and]
        cases hvalid : RdbHandler.isValidCall (ascii "/rdb/" ++ c) with
        | error fault => exact sends_nil log _
        | ok valid =>
          cases valid with
          | false => exact sends_nil log _
          | true =>
            have hparse := RdbHandler.parse_sends gw.ops gw.client c w log
            have hparam : (ascii "/rdb/" ++ c).drop 4 = slash :: c := rfl
            rw [if_pos rfl, hparam]
            rcases hp : RdbHandler.parse gw.ops gw.client.recorded (ascii "/rdb/" ++ c)
              (w, log) with
              ⟨_ | _ | reply, w'⟩ <;>
            · rw [hp] at hparse
              simpa [Gateway.recorded, hp, stockReply] using hparse
      · rw [if_neg hrdb, if_neg fun h => hrdb h.1]
        exact sends_nil log _

theorem commandsOf_known {req : Request} {c : Bytes} (hc : c ∈ commandsOf req) :
    ∃ cmd ∈ RdbHandler.commands_, slash :: cmd <+: c := by
  rw [commandsOf] at hc
  split at hc
  · simp at hc
  · next path hdecode =>
    split_ifs at hc with hrefused hcall
    · simp at hc
    · obtain ⟨hrdb, hvalid⟩ := hcall
      obtain ⟨param, rfl⟩ := RdbHandler.isRDBcall_iff.mp hrdb
      obtain ⟨cmd, hmem, hcmd⟩ := RdbHandler.isValidCall_iff.mp hvalid
      have hparam : (ascii "/rdb/" ++ param).drop 4 = slash :: param := rfl
      have hthis : slash :: cmd <+: slash :: param := List.cons_prefix_cons.mpr ⟨rfl, hcmd⟩
      have hfields : slash :: ascii "fields" <+: ascii "/fields" := by decide
      rw [hparam, RdbHandler.commandsOf] at hc
      split_ifs at hc with hlookup hget
      · rw [List.mem_singleton.mp hc]
        exact ⟨cmd, hmem, hthis⟩
      · cases List.mem_cons.mp hc with
        | inl hfirst => exact ⟨ascii "fields", by decide, hfirst ▸ hfields⟩
        | inr hrest => exact ⟨cmd, hmem, (List.mem_singleton.mp hrest) ▸ hthis⟩
      · rw [List.mem_singleton.mp hc]
        exact ⟨cmd, hmem, hthis⟩
    · simp at hc

theorem worldAfter_sends (gw : Gateway ν) (reqs : List Request) (w : ν) (log : List Bytes) :
    ∃ parts, List.Forall₂ (fun req part => part <+: commandsOf req) reqs parts ∧
      (HttpServer.worldAfter (handleRequest gw.recorded) (w, log) reqs).2 = log ++
        parts.flatten := by
  induction reqs generalizing w log with
  | nil => exact ⟨[], .nil, by simp⟩
  | cons req reqs ih =>
    obtain ⟨sent, hlog, hsent, -⟩ := handleRequest_sends gw req Reply.start w log
    rcases hw : (handleRequest gw.recorded req Reply.start (w, log)).2 with ⟨w', log'⟩
    obtain ⟨parts, hparts, hrest⟩ := ih w' log'
    obtain rfl : log' = log ++ sent := by rw [← hlog, hw]
    refine ⟨sent :: parts, .cons hsent hparts, ?_⟩
    rw [HttpServer.worldAfter_cons, hw, hrest]
    simp

theorem known_of_parts {reqs : List Request} {parts : List (List Bytes)}
    (h : List.Forall₂ (fun req part => part <+: commandsOf req) reqs parts) {c : Bytes}
    (hc : c ∈ parts.flatten) : ∃ cmd ∈ RdbHandler.commands_, slash :: cmd <+: c := by
  induction h with
  | nil => simp at hc
  | cons hpart hrest ih =>
    rw [List.flatten_cons] at hc
    cases List.mem_append.mp hc with
    | inl hfirst => exact commandsOf_known (hpart.subset hfirst)
    | inr hmore => exact ih hmore

namespace HttpServer

/-- For every gateway, whatever its client library returns, and every order of completions: the
commands handed to the library are those of the requests that the connections have received, one
request after the other, each request once and of its commands a beginning. All of them are
commands of the Data Provider, and those of a request whose reply is ok are all there, in one
piece. -/
theorem commands_sent (gw : Gateway ν) (w : ν) (es : List Completion)
    (s : HttpServer ((ν × List Bytes) × List Request))
    (h : Reaches (step (Handler.recorded (handleRequest gw.recorded))) Enabled
      (start ((w, []), [])) es s) :
    s.world.2.Perm ((List.range s.peers.length).filterMap fun i =>
      requestOf (readsOf i es).flatten) ∧
    (∃ parts, List.Forall₂ (fun req part => part <+: commandsOf req) s.world.2 parts ∧
      s.world.1.2 = parts.flatten) ∧
    (∀ c ∈ s.world.1.2, ∃ cmd ∈ RdbHandler.commands_, slash :: cmd <+: c) ∧
    ∀ i rep, (connAt s.peers i).written = [rep] → rep.status = some .ok →
      ∃ req log, requestOf (readsOf i es).flatten = some req ∧ log ++ commandsOf req <+:
        s.world.1.2 := by
  have H := history_reaches h
  obtain ⟨parts, hparts, hsent⟩ := worldAfter_sends gw s.world.2 w []
  rw [← H.world, List.nil_append] at hsent
  refine ⟨H.calls, ⟨parts, hparts, hsent⟩, fun c hc => ?_, fun i rep hrep hok => ?_⟩
  · exact known_of_parts hparts (hsent ▸ hc)
  · obtain ⟨req, hreq, before, ⟨after, hafter⟩, hreply⟩ := H.ok_reply hrep hok
    rcases hv : worldAfter (handleRequest gw.recorded) (w, []) before with ⟨v, log⟩
    rw [hv] at hreply
    obtain ⟨sent, hlog, -, hall⟩ := handleRequest_sends gw req Reply.start v log
    obtain rfl := hall ⟨rep, hreply, hok⟩
    obtain ⟨more, -, hmore⟩ := worldAfter_sends gw after
      (handleRequest gw.recorded req Reply.start (v, log)).2.1 (log ++ commandsOf req)
    refine ⟨req, log, hreq, more.flatten, ?_⟩
    rw [← hmore, ← hlog, H.world, ← hafter, List.append_assoc, worldAfter_append, hv]
    rfl

/-- A removal, whose reply is being written -/
theorem commands_sent_sample :
    let gw : Gateway Unit := ⟨ascii "/srv", fun _ => none, ⟨fun w => (true, w),
      fun _ result w => ((true, result ++ [ascii "SUCCESS"]), w)⟩, plainTree, fun _ => []⟩
    let es : List Completion :=
      [.accept none, .read 0 (.ok (ascii "GET /rdb/delete/milk HTTP/1.0\r\n\r\n"))]
    ∃ s, Reaches (step (Handler.recorded (handleRequest gw.recorded))) Enabled
      (start (((), []), [])) es s ∧
      s.world.1.2 = [ascii "/delete/milk"] ∧
      s.world.2.Perm ((List.range s.peers.length).filterMap fun i =>
        requestOf (readsOf i es).flatten) := by
  intro gw es
  let text := ascii "GET /rdb/delete/milk HTTP/1.0\r\n\r\n"
  let handle : Handler ((Unit × List Bytes) × List Request) :=
    Handler.recorded (handleRequest gw.recorded)
  have hlog : (Connection.start.doRead handle text (((), []), [])).2.1.2 =
      [ascii "/delete/milk"] := by
    decide +kernel
  have hdone : (Connection.start.doRead handle text (((), []), [])).1.map Connection.reading =
      .ok false := by
    decide +kernel
  obtain ⟨conn, hconn, -⟩ := map_eq_ok_iff.mp hdone
  cases hread : Connection.start.doRead handle text (((), []), []) with
  | mk result world =>
    rw [hread] at hlog hconn
    obtain rfl : result = .ok conn := hconn
    obtain ⟨s, hs, rfl, -⟩ := exists_first_read (by decide) hread
    exact ⟨s, hs, hlog, (commands_sent gw () es s hs).1⟩

end HttpServer
end ReminderSuite
