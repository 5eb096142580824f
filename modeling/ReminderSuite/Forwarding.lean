import ReminderSuite.Connection

/-! From the bytes of an HTTP request to the commands of the Data Provider: what the
gateway forwards is what the request target encodes. -/
namespace ReminderSuite
open Delimited RequestParser RequestHandler
variable {ν : Type}

def RequestHandler.Gateway.recorded (gw : Gateway ν) : Gateway (ν × List Bytes) where
  docRoot := gw.docRoot
  openFile := gw.openFile
  client := gw.client.recorded
  ops := gw.ops
  writeJson := gw.writeJson

namespace RdbHandler

theorem substr_path (param : Bytes) : substr (ascii "/rdb/" ++ param) 4 none =
    .ok (slash :: param) := by
  simp [substr, ascii, ch, slash]

theorem isGet_iff (c : Bytes) : isGet (slash :: c) = true ↔ ascii "get" <+: c := by
  have hsplit : isGet (slash :: c) = true ↔ c.take 3 = ascii "get" := by
    simp [isGet, ascii, ch, slash]
  rw [hsplit, List.prefix_iff_eq_take]
  exact eq_comm

theorem forward_recorded (ops : PTreeOps) (client : DataClient ν) (param : Bytes)
    (fields : List Bytes) (w : ν) (log : List Bytes) :
    (forward ops client.recorded param fields (w, log)).2.2 = log ++ [param] := by
  rcases hx : client.executeCmd param [] w with ⟨⟨_ | _, result⟩, w'⟩
  · simp [forward, DataClient.recorded, hx]
  · cases hg : isGet param <;> simp [forward, DataClient.recorded, hx, hg]

/-- The commands that a call of a reachable Data Provider makes -/
theorem parse_recorded {net : Network ν} (hnet : net.Reachable) (ops : PTreeOps) (c : Bytes) (w : ν)
    (log : List Bytes) :
    (parse ops (dataClient net).recorded (ascii "/rdb/" ++ c) (w, log)).2.2 =
      log ++ (if ascii "get" <+: c then [ascii "/fields"] else []) ++ [slash :: c] := by
  rcases hr : net.resolve w with ⟨b, w0⟩
  obtain rfl : b = true := by simpa [hr] using hnet.resolve w
  obtain ⟨rb, w1, hexec⟩ := executeCmd_of_reachable hnet (ascii "/fields") [] w0
  obtain ⟨front, rest, htok⟩ := List.exists_cons_of_ne_nil (tokens_ne_nil lf rb)
  have hcreate : (dataClient net).recorded.create (w, log) = (true, w0, log) := by
    simp [DataClient.recorded, dataClient, hr]
  have hlookup : (dataClient net).recorded.executeCmd (ascii "/fields") [] (w0, log) =
      ((true, front :: rest), w1, log ++ [ascii "/fields"]) := by
    simp [DataClient.recorded, dataClient, hexec, htok]
  by_cases hget : ascii "get" <+: c
  · have hg := (isGet_iff c).mpr hget
    have hne : slash :: c ≠ ascii "/fields" := by
      intro he
      rw [he] at hg
      exact absurd hg (by decide)
    simp [parse, hcreate, substr_path, hg, hne, hlookup, hget, forward_recorded]
  · have hg : isGet (slash :: c) = false := by
      rw [Bool.eq_false_iff, ne_eq, isGet_iff]
      exact hget
    by_cases hfields : slash :: c = ascii "/fields"
    · simp [parse, hcreate, substr_path, hfields, hlookup, hget]
    · simp [parse, hcreate, substr_path, hg, hfields, hget, forward_recorded]

end RdbHandler

theorem handleRequest_recorded {net : Network ν} (hnet : net.Reachable) {gw : Gateway ν}
    (hgw : gw.client = dataClient net) {req : Request} {c : Bytes}
    (hc : ∃ cmd ∈ RdbHandler.commands_, cmd <+: c)
    (hdots : ¬ ascii ".." <:+: ascii "/rdb/" ++ c)
    (henc : PercentEncodes req.uri (ascii "/rdb/" ++ c)) (rep : Reply) (w : ν) :
    (handleRequest gw.recorded req rep (w, [])).2.2 =
      (if ascii "get" <+: c then [ascii "/fields"] else []) ++ [slash :: c] := by
  have hvalid := RdbHandler.isValidCall_iff.mpr hc
  have hparse := RdbHandler.parse_recorded hnet gw.ops c w []
  rw [handleRequest_rdb (urlDecode_of_encodes henc) hdots]
  simp only [serveRdb, hvalid]
  rcases hp : RdbHandler.parse gw.ops (dataClient net).recorded (ascii "/rdb/" ++ c) (w, []) with
    ⟨_ | _ | reply, w'⟩ <;>
  · rw [hp] at hparse
    simpa [Gateway.recorded, hgw, hp] using hparse

def gatewayRun (gw : Gateway ν) (reads : List Bytes) (w : ν) : (ν × List Bytes) × List Request :=
  (Connection.start.serve (Handler.recorded (handleRequest gw.recorded)) reads ((w, []), [])).2

/-- However a GET request for `/rdb/` and a command is percent-encoded and cut into
reads, the connection handles it once, when its last byte has come, and the gateway
then sends exactly that command, after a lookup of the fields when it is a get. -/
theorem gateway_forwards_command (net : Network ν) (hnet : net.Reachable) (gw : Gateway ν)
    (hgw : gw.client = dataClient net) (c e : Bytes) (headers : List Header) (reads : List Bytes)
    (hc : ∃ cmd ∈ RdbHandler.commands_, cmd <+: c)
    (hdots : ¬ ascii ".." <:+: ascii "/rdb/" ++ c)
    (henc : PercentEncodes e (ascii "/rdb/" ++ c))
    (hheaders : ∀ h ∈ headers, WellFormedHeader h)
    (hreads : ∀ read ∈ reads, read ≠ []) (hflat : reads.flatten = requestText e headers) (w : ν) :
    gatewayRun gw reads.dropLast w = ((w, []), []) ∧
    (gatewayRun gw reads w).2 = [⟨ascii "GET", e, 1, 0, headers⟩] ∧
    (gatewayRun gw reads w).1.2 =
      (if ascii "get" <+: c then [ascii "/fields"] else []) ++ [slash :: c] := by
  have hparse := parse_requestText (uri_of_encodes henc) hheaders
  rw [← hflat] at hparse
  obtain ⟨hbefore, hafter⟩ := Connection.request_handled_once
    (Handler.recorded (handleRequest gw.recorded)) hreads hparse ((w, []), [])
  refine ⟨hbefore, ?_, ?_⟩
  · exact congrArg Prod.snd hafter
  · refine (congrArg (fun world => world.1.2) hafter).trans ?_
    exact handleRequest_recorded hnet hgw hc hdots henc Reply.start w

section Sample

def emptyProvider : Network Bytes where
  resolve w := (true, w)
  connect w := (true, w)
  send cmd _ := (true, cmd)
  readSome _ w := (some (if w = ascii "/fields" then ascii "name:note:\n" else ascii "\n"), w)
  close w := w

theorem emptyProvider_reachable : emptyProvider.Reachable where
  resolve _ := rfl
  connect _ := rfl
  send _ _ := rfl
  readSome _ _ := rfl

/-- A request with one escaped letter, cut in the middle of a line and of a line end -/
theorem gateway_forwards_command_sample :
    let gw : Gateway Bytes := ⟨[], fun _ => none, dataClient emptyProvider, plainTree,
      fun _ => ascii "\x7b\n    \"reminders\": \"\"\n\x7d\n"⟩
    let reads := [ascii "GET /r%64b/", ascii "get HTTP/1.0\r", ascii "\nHost: h\r\n\r\n"]
    gatewayRun gw reads.dropLast [] = (([], []), []) ∧
    (gatewayRun gw reads []).1.2 = [ascii "/fields", ascii "/get"] := by
  intro gw reads
  have henc : PercentEncodes (ascii "/r%64b/get") (ascii "/rdb/" ++ ascii "get") := by
    have htarget : ascii "/r%64b/get" = [47, 114, 37, 54, 52, 98, 47, 103, 101, 116] := by decide
    have hpath : ascii "/rdb/" ++ ascii "get" = [47, 114, 100, 98, 47, 103, 101, 116] := by decide
    rw [htarget, hpath]
    refine .literal (by decide) (by decide) (.literal (by decide) (by decide) ?_)
    refine .escaped (h := 6) (l := 4) (by decide) (by decide) (by decide) ?_
    refine .literal (by decide) (by decide) (.literal (by decide) (by decide) ?_)
    refine .literal (by decide) (by decide) (.literal (by decide) (by decide) ?_)
    exact .literal (by decide) (by decide) .nil
  have hheaders : ∀ h ∈ [(⟨ascii "Host", ascii "h"⟩ : Header)], WellFormedHeader h := by
    intro h hh
    obtain rfl := List.mem_singleton.mp hh
    exact ⟨by decide, by decide +kernel, by decide +kernel⟩
  have hcommands : (if ascii "get" <+: ascii "get" then [ascii "/fields"] else []) ++
      [slash :: ascii "get"] = [ascii "/fields", ascii "/get"] := by decide
  obtain ⟨hbefore, -, hafter⟩ := gateway_forwards_command emptyProvider emptyProvider_reachable gw
    rfl (ascii "get") (ascii "/r%64b/get") [⟨ascii "Host", ascii "h"⟩] reads
    ⟨ascii "get", by decide, List.prefix_refl _⟩ (by decide) henc hheaders
    (by decide) (by decide) []
  exact ⟨hbefore, hafter.trans hcommands⟩

end Sample
end ReminderSuite
