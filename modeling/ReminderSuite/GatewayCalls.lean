import ReminderSuite.Outcome
import ReminderSuite.ScheduledCalls
import ReminderSuite.SentCommands

/-! The gateway in front of a Data Provider that others call at the same time: what a reply that is
ok shows, and when the Data Provider said it. -/
namespace ReminderSuite
open Delimited FallibleRun Protocol RdbHandler RequestHandler
variable {σ : Type}

/-- What a reply that is ok shows for a parameter, from what was said of the fields and to the
command -/
inductive Shows {ν : Type} (gw : Gateway ν) (param : Bytes) (named said : Bytes → Prop) :
    Bytes → Prop
  | fields {part : Bytes} (hparam : param = ascii "/fields") (hpart : said part) :
      Shows gw param named said
        (gw.writeJson (fieldsOutput gw.ops (tokens colon (part.takeWhile (· ≠ lf)))))
  | listing {fieldsPart part : Bytes} {tree : PTree} (hget : isGet param = true)
      (hfields : named fieldsPart) (hpart : said part)
      (htree : listing gw.ops (tokens colon (fieldsPart.takeWhile (· ≠ lf))) (tokens lf part) =
        .ok tree) :
      Shows gw param named said (gw.writeJson tree)
  | lines {part : Bytes} (hparam : param ≠ ascii "/fields") (hget : isGet param = false)
      (hpart : said part) :
      Shows gw param named said ((tokens lf part).flatMap fun line => line ++ [cr, lf])

section Shows
variable {ν : Type} {gw : Gateway ν} {param content : Bytes}
    {named named' said said' : Bytes → Prop}

theorem Shows.mono (h : Shows gw param named said content)
    (hnamed : ∀ part, named part → named' part)
    (hsaid : ∀ part, said part → said' part) : Shows gw param named' said' content := by
  cases h with
  | fields hparam hpart => exact .fields hparam (hsaid _ hpart)
  | listing hget hfields hpart htree => exact .listing hget (hnamed _ hfields) (hsaid _ hpart) htree
  | lines hparam hget hpart => exact .lines hparam hget (hsaid _ hpart)

theorem Shows.exists_said (h : Shows gw param named said content) :
    ∃ part, said part ∧ Shows gw param named (· = part) content := by
  cases h with
  | fields hparam hpart => exact ⟨_, hpart, .fields hparam rfl⟩
  | listing hget hfields hpart htree => exact ⟨_, hpart, .listing hget hfields rfl htree⟩
  | lines hparam hget hpart => exact ⟨_, hpart, .lines hparam hget rfl⟩

end Shows

def ShowsBetween (lib : DBLibrary σ) (store : σ) (gw : Gateway (Protocol σ × Schedule))
    (s s' : Protocol σ)
    (param content : Bytes) : Prop :=
  ∃ s0, s.log <+: s0.log ∧ s0.log <+: s'.log ∧
    Shows gw param (Handled lib store s s0 (ascii "/fields"))
      (Handled lib store s0 s' param) content

section Commands
variable {lib : DBLibrary σ} {store : σ} {w : Protocol σ × Schedule}

/-- The command itself, whose result is rendered under the names that were looked up for it -/
theorem forward_shows (h : GoesOn lib (start store) w.1) (gw : Gateway (Protocol σ × Schedule))
    (param : Bytes) (names : List Bytes) :
    let outcome := forward gw.ops (scheduled lib) param names w
    GoesOn lib w.1 outcome.2.1 ∧
      ∀ reply, outcome.1 = .ok (some reply) → outcome.2.1.Whole →
        ∃ part, Handled lib store w.1 outcome.2.1 param part ∧
        (isGet param = true → ∃ tree, listing gw.ops names (tokens lf part) = .ok tree ∧
          reply = .json tree) ∧
        (isGet param = false →
          reply = .text ((tokens lf part).flatMap fun line => line ++ [cr, lf])) := by
  intro outcome
  obtain ⟨hgoes, hlines⟩ := scheduled_handled h param
  cases hexec : (scheduled lib).executeCmd param [] w with
  | mk result w' =>
    obtain ⟨done, lines⟩ := result
    rw [hexec] at hgoes hlines
    cases done with
    | false =>
      have houtcome : outcome = (.ok none, w') := by simp [outcome, forward, hexec]
      rw [houtcome]
      exact ⟨hgoes, by simp⟩
    | true =>
      have hworld : outcome.2 = w' := by
        simp only [outcome, forward, hexec]
        split <;> rfl
      rw [hworld]
      refine ⟨hgoes, fun reply hreply hwhole => ?_⟩
      obtain ⟨part, rfl, hpart⟩ := hlines lines rfl hwhole
      refine ⟨part, hpart, fun hget => ?_, fun hget => ?_⟩
      · have houtcome : outcome.1 =
            (listing gw.ops names (tokens lf part)).map fun tree => some (.json tree) := by
          simp [outcome, forward, hexec, hget]
        obtain ⟨tree, htree, heq⟩ := map_eq_ok_iff.mp (houtcome.symm.trans hreply)
        exact ⟨tree, htree, (Option.some.inj heq).symm⟩
      · have houtcome : outcome.1 =
            .ok (some (.text ((tokens lf part).flatMap fun line => line ++ [cr, lf]))) := by
          simp [outcome, forward, hexec, hget]
        exact (Option.some.inj (Except.ok.inj (houtcome.symm.trans hreply))).symm

/-- A call that asks for the names of the fields first -/
theorem parse_named (h : GoesOn lib (start store) w.1) (gw : Gateway (Protocol σ × Schedule))
    {c : Bytes}
    (hfirst : slash :: c = ascii "/fields" ∨ isGet (slash :: c) = true) {w0 : Protocol σ × Schedule}
    (hcreate : (scheduled lib).create w0 = (true, w)) :
    let outcome := parse gw.ops (scheduled lib) (ascii "/rdb/" ++ c) w0
    GoesOn lib w.1 outcome.2.1 ∧
      ∀ reply, outcome.1 = .ok (some reply) → outcome.2.1.Whole →
        ShowsBetween lib store gw w.1 outcome.2.1 (slash :: c)
          (reply.getResponse gw.writeJson) := by
  intro outcome
  obtain ⟨hgoes, hlines⟩ := scheduled_handled h (ascii "/fields")
  cases hexec : (scheduled lib).executeCmd (ascii "/fields") [] w with
  | mk result w1 =>
    obtain ⟨done, lines⟩ := result
    rw [hexec] at hgoes hlines
    cases done with
    | false =>
      have houtcome : outcome = (.ok none, w1) := by
        simp [outcome, parse, hcreate, substr_path, hfirst, hexec]
      rw [houtcome]
      exact ⟨hgoes, by simp⟩
    | true =>
      cases lines with
      | nil =>
        have houtcome : outcome = (.error .pastEnd, w1) := by
          simp [outcome, parse, hcreate, substr_path, hfirst, hexec]
        rw [houtcome]
        exact ⟨hgoes, by simp⟩
      | cons front rest =>
        have hnames {part : Bytes} (hpart : front :: rest = tokens lf part) :
            front = part.takeWhile (· ≠ lf) := by
          have hhead := head?_tokens lf part
          rw [← hpart] at hhead
          exact Option.some.inj hhead
        by_cases hfields : slash :: c = ascii "/fields"
        · have houtcome : outcome =
              (.ok (some (.json (fieldsOutput gw.ops (tokens colon front)))), w1) := by
            simp [outcome, parse, hcreate, substr_path, hfields, hexec]
          rw [houtcome]
          refine ⟨hgoes, fun reply hreply hwhole => ?_⟩
          obtain rfl : _ = reply := Option.some.inj (Except.ok.inj hreply)
          obtain ⟨part, hpart, hhandled⟩ := hlines _ rfl hwhole
          rw [hnames hpart, hfields]
          exact ⟨w.1, List.prefix_refl _, hgoes.grown.log, .fields rfl hhandled⟩
        · have hget := hfirst.resolve_left hfields
          have houtcome : outcome = forward gw.ops (scheduled lib) (slash :: c)
              (tokens colon front) w1 := by
            simp [outcome, parse, hcreate, substr_path, hfields, hget, hexec]
          obtain ⟨hmore, hshown⟩ :=
            forward_shows (h.trans hgoes) gw (slash :: c) (tokens colon front)
          rw [← houtcome] at hmore hshown
          refine ⟨hgoes.trans hmore, fun reply hreply hwhole => ?_⟩
          obtain ⟨part, hpart, hnamed⟩ := hlines _ rfl (hmore.grown.whole hwhole)
          obtain ⟨part', hhandled, htree, -⟩ := hshown reply hreply hwhole
          obtain ⟨tree, hlisting, rfl⟩ := htree hget
          rw [hnames hpart] at hlisting
          exact ⟨w1.1, hgoes.grown.log, hmore.grown.log, .listing hget hnamed hhandled hlisting⟩

theorem parse_shows (h : GoesOn lib (start store) w.1) (gw : Gateway (Protocol σ × Schedule))
    (c : Bytes) :
    let outcome := parse gw.ops (scheduled lib) (ascii "/rdb/" ++ c) w
    GoesOn lib w.1 outcome.2.1 ∧
      ∀ reply, outcome.1 = .ok (some reply) → outcome.2.1.Whole →
        ShowsBetween lib store gw w.1 outcome.2.1 (slash :: c)
          (reply.getResponse gw.writeJson) := by
  intro outcome
  cases hcreate : (scheduled lib).create w with
  | mk found w0 =>
    have hsame : w0.1 = w.1 := by
      have hlookup := scheduled_create lib w
      rwa [hcreate] at hlookup
    rw [← hsame] at h ⊢
    cases found with
    | false =>
      have houtcome : outcome = (.error .systemError, w0) := by simp [outcome, parse, hcreate]
      rw [houtcome]
      exact ⟨GoesOn.refl _, by simp⟩
    | true =>
      by_cases hfirst : slash :: c = ascii "/fields" ∨ isGet (slash :: c) = true
      · exact parse_named h gw hfirst hcreate
      · obtain ⟨hfields, hget⟩ := not_or.mp hfirst
        have houtcome : outcome = forward gw.ops (scheduled lib) (slash :: c) [] w0 := by
          simp [outcome, parse, hcreate, substr_path, hfirst]
        obtain ⟨hgoes, hshown⟩ := forward_shows h gw (slash :: c) []
        rw [← houtcome] at hgoes hshown
        refine ⟨hgoes, fun reply hreply hwhole => ?_⟩
        have hquiet : isGet (slash :: c) = false := by simpa using hget
        obtain ⟨part, hhandled, -, htext⟩ := hshown reply hreply hwhole
        rw [htext hquiet]
        exact ⟨w0.1, List.prefix_refl _, hgoes.grown.log, .lines hfields hquiet hhandled⟩

/-- Handling a request takes the two sides on, and a reply to it that is ok shows what was said
meanwhile. -/
def Serves (lib : DBLibrary σ) (store : σ) (gw : Gateway (Protocol σ × Schedule)) (req : Request)
    (w : Protocol σ × Schedule) (outcome : Except Fault Reply × Protocol σ × Schedule) : Prop :=
  GoesOn lib w.1 outcome.2.1 ∧
    ∀ rep path, outcome.1 = .ok rep → rep.status = some .ok → outcome.2.1.Whole →
      urlDecode req.uri = some path → isRDBcall path = true →
      ShowsBetween lib store gw w.1 outcome.2.1 (path.drop 4) rep.content

theorem serves_refused (gw : Gateway (Protocol σ × Schedule)) (req : Request)
    {result : Except Fault Reply}
    (hresult : ∀ rep, result = .ok rep → rep = stockReply .badRequest) :
    Serves lib store gw req w (result, w) := by
  refine ⟨GoesOn.refl _, fun rep path hrep hok => ?_⟩
  rw [hresult rep hrep] at hok
  simp [stockReply] at hok

theorem serveRdb_serves (h : GoesOn lib (start store) w.1) {gw : Gateway (Protocol σ × Schedule)}
    (hgw : gw.client = scheduled lib) {req : Request} {c : Bytes}
    (hdecode : urlDecode req.uri = some (ascii "/rdb/" ++ c)) :
    Serves lib store gw req w (serveRdb gw (ascii "/rdb/" ++ c) Reply.start w) := by
  cases hvalid : isValidCall (ascii "/rdb/" ++ c) with
  | error fault =>
    rw [serveRdb, hvalid]
    exact serves_refused gw req fun _ hrep => by simp at hrep
  | ok valid =>
    cases valid with
    | false =>
      rw [serveRdb, hvalid]
      exact serves_refused gw req fun _ hrep => (Except.ok.inj hrep).symm
    | true =>
      obtain ⟨hgoes, hreply⟩ := parse_shows h gw c
      rw [← hgw] at hgoes hreply
      rw [serveRdb, hvalid]
      cases hp : parse gw.ops gw.client (ascii "/rdb/" ++ c) w with
      | mk outcome w' =>
        rw [hp] at hgoes hreply
        cases outcome with
        | error fault => exact ⟨hgoes, by simp⟩
        | ok answered =>
          cases answered with
          | none =>
            refine ⟨hgoes, fun rep path hrep hok => ?_⟩
            obtain rfl := Except.ok.inj hrep
            simp [stockReply] at hok
          | some reply =>
            refine ⟨hgoes, fun rep path hrep _ hwhole hpath _ => ?_⟩
            obtain rfl := Except.ok.inj hrep
            obtain rfl : ascii "/rdb/" ++ c = path := Option.some.inj (hdecode.symm.trans hpath)
            exact hreply reply rfl hwhole

theorem handleRequest_serves (h : GoesOn lib (start store) w.1)
    {gw : Gateway (Protocol σ × Schedule)} (hgw : gw.client = scheduled lib) (req : Request) :
    Serves lib store gw req w (handleRequest gw req Reply.start w) := by
  cases hdecode : urlDecode req.uri with
  | none =>
    rw [handleRequest, hdecode]
    exact serves_refused gw req fun _ hrep => (Except.ok.inj hrep).symm
  | some path =>
    by_cases hinvalid : path.isEmpty ∨ path.head? ≠ some slash ∨ ascii ".." <:+: path
    · rw [handleRequest, hdecode]
      simp only [if_pos hinvalid]
      exact serves_refused gw req fun _ hrep => (Except.ok.inj hrep).symm
    · by_cases hrdb : isRDBcall path = true
      · obtain ⟨c, rfl⟩ := isRDBcall_iff.mp hrdb
        rw [handleRequest_rdb hdecode (not_or.mp (not_or.mp hinvalid).2).2]
        exact serveRdb_serves h hgw hdecode
      · rw [handleRequest, hdecode]
        simp only [if_neg hinvalid, if_neg hrdb]
        refine ⟨GoesOn.refl _, fun rep path' _ _ _ hpath hrdb' => ?_⟩
        obtain rfl : path = path' := Option.some.inj (hdecode.symm.trans hpath)
        exact absurd hrdb' hrdb

theorem worldAfter_goesOn (h : GoesOn lib (start store) w.1) {gw : Gateway (Protocol σ × Schedule)}
    (hgw : gw.client = scheduled lib) (reqs : List Request) :
    GoesOn lib w.1 (HttpServer.worldAfter (handleRequest gw) w reqs).1 := by
  induction reqs generalizing w with
  | nil => exact GoesOn.refl _
  | cons req reqs ih =>
    have hthis := (handleRequest_serves h hgw req).1
    exact hthis.trans (ih (h.trans hthis))

end Commands

namespace HttpServer
variable {lib : DBLibrary σ} {store : σ} {schedule : Schedule}
    {gw : Gateway (Protocol σ × Schedule)}
  {es : List Completion} {s : HttpServer ((Protocol σ × Schedule) × List Request)}

structure Handling (lib : DBLibrary σ) (gw : Gateway (Protocol σ × Schedule))
    (w : Protocol σ × Schedule)
    (s : HttpServer ((Protocol σ × Schedule) × List Request)) (req : Request) (t t' : Protocol σ) :
    Prop where
  goesOn : GoesOn lib t t'
  later : GoesOn lib t' s.world.1.1
  placed : ∃ before after, s.world.2 = before ++ req :: after ∧
    (worldAfter (handleRequest gw) w before).1 = t ∧
    (worldAfter (handleRequest gw) w (before ++ [req])).1 = t'

theorem sides_goesOn (hgw : gw.client = scheduled lib)
    (h : Reaches (step (Handler.recorded (handleRequest gw))) Enabled
      (start ((Protocol.start store, schedule), [])) es s) :
      GoesOn lib (Protocol.start store) s.world.1.1 := by
  rw [(history_reaches h).world]
  exact worldAfter_goesOn (w := (Protocol.start store, schedule)) (GoesOn.refl _) hgw _

theorem ok_reply_between (hgw : gw.client = scheduled lib)
    (h : Reaches (step (Handler.recorded (handleRequest gw))) Enabled
      (start ((Protocol.start store, schedule), [])) es s)
    (hwhole : s.world.1.1.Whole) {i : Nat} {rep : Reply} (hrep : (connAt s.peers i).written = [rep])
    (hok : rep.status = some .ok) :
    ∃ req t t', requestOf (readsOf i es).flatten = some req ∧
      Handling lib gw (Protocol.start store, schedule) s req t t' ∧
      ∀ path, urlDecode req.uri = some path → isRDBcall path = true →
        ShowsBetween lib store gw t t' (path.drop 4) rep.content := by
  let w := (Protocol.start store, schedule)
  have H := history_reaches h
  have hall (reqs : List Request) : GoesOn lib w.1 (worldAfter (handleRequest gw) w reqs).1 :=
    worldAfter_goesOn (GoesOn.refl _) hgw reqs
  obtain ⟨req, hreq, before, ⟨after, hafter⟩, hreply⟩ := H.ok_reply hrep hok
  have hserves := handleRequest_serves (hall before) hgw req
  have hthis : worldAfter (handleRequest gw) w (before ++ [req]) =
      (handleRequest gw req Reply.start (worldAfter (handleRequest gw) w before)).2 :=
    worldAfter_append (handleRequest gw) w before [req]
  rw [Serves, ← hthis] at hserves
  have hlater : GoesOn lib (worldAfter (handleRequest gw) w (before ++ [req])).1 s.world.1.1 := by
    rw [H.world, ← hafter, worldAfter_append _ _ (before ++ [req])]
    exact worldAfter_goesOn (hall _) hgw after
  have hplaced : s.world.2 = before ++ req :: after := by simp [← hafter]
  exact ⟨req, _, _, hreq, ⟨hserves.1, hlater, before, after, hplaced, rfl, rfl⟩,
    fun path hpath hrdb => hserves.2 rep path hreply hok (hlater.grown.whole hwhole) hpath hrdb⟩

/-- For every library, every schedule of what else goes on at the Data Provider, any number of HTTP
connections and every order of their completions, as long as no session reads a command in parts:
a reply that is ok to a call of the Data Provider shows the responses to the commands of the call,
which were handled while the gateway handled the request, over the store that all requests before
them had left. -/
theorem gateway_linearizes (lib : DBLibrary σ) (gw : Gateway (Protocol σ × Schedule))
    (hgw : gw.client = scheduled lib) (store : σ) (schedule : Schedule) (es : List Completion)
    (s : HttpServer ((Protocol σ × Schedule) × List Request))
    (h : Reaches (step (Handler.recorded (handleRequest gw))) Enabled
      (start ((Protocol.start store, schedule), [])) es s)
    (hwhole : s.world.1.1.Whole) :
    GoesOn lib (Protocol.start store) s.world.1.1 ∧
    ∀ i rep, (connAt s.peers i).written = [rep] → rep.status = some .ok →
      ∃ req t t', requestOf (readsOf i es).flatten = some req ∧
        Handling lib gw (Protocol.start store, schedule) s req t t' ∧
        ∀ path, urlDecode req.uri = some path → isRDBcall path = true →
          ShowsBetween lib store gw t t' (path.drop 4) rep.content :=
  ⟨sides_goesOn hgw h, fun _ _ hrep hok => ok_reply_between hgw h hwhole hrep hok⟩

def scheduledGateway : Gateway (Protocol TextStore × Schedule) :=
  ⟨ascii "/srv", fun _ => none, scheduled textLibrary, plainTree, fun _ => []⟩

/-- A removal through the gateway, before which another client has the record written -/
theorem gateway_linearizes_sample :
    let store := (Server.ofFile (ascii "name:note\nmilk:x\n")).store
    let update := ascii "/set/milk/note/two"
    let removal := ascii "/delete/milk"
    let schedule : Schedule :=
      ⟨[true], [([.invoke update, .connect 0 true, .arrive (some 0), .accept 0, .send 0 18 true,
        .serve (.read 0 (.ok update)), .flow 0 9, .receive 0 9],
      [.connect 1 true, .arrive (some 1), .accept 1, .send 1 12 true,
        .serve (.read 1 (.ok removal)), .flow 1 9, .receive 1 9])]⟩
    let es : List Completion :=
      [.accept none, .read 0 (.ok (ascii "GET /rdb/delete/milk HTTP/1.0\r\n\r\n"))]
    ∃ s t t', Reaches (step (Handler.recorded (handleRequest scheduledGateway))) Enabled
        (start ((Protocol.start store, schedule), [])) es s ∧
      s.world.1.1.log = [(0, update), (1, removal)] ∧ s.world.1.1.loop.store.db.entries_ = [] ∧
      ShowsBetween textLibrary store scheduledGateway t t' removal (ascii "SUCCESS\r\n\r\n") := by
  intro store update removal schedule es
  let text := ascii "GET /rdb/delete/milk HTTP/1.0\r\n\r\n"
  let handle : Handler ((Protocol TextStore × Schedule) × List Request) :=
    Handler.recorded (handleRequest scheduledGateway)
  have hwritten : ((Connection.start.doRead handle text
      ((Protocol.start store, schedule), [])).1.map
      fun conn => conn.written.map fun rep => (rep.status, rep.content)) =
      .ok [(some .ok, ascii "SUCCESS\r\n\r\n")] := by decide +kernel
  have hlog : (Connection.start.doRead handle text
      ((Protocol.start store, schedule), [])).2.1.1.log =
      [(0, update), (1, removal)] := by decide +kernel
  have hentries : (Connection.start.doRead handle text
      ((Protocol.start store, schedule), [])).2.1.1.loop.store.db.entries_ = [] := by decide +kernel
  have hwhole : (Connection.start.doRead handle text
      ((Protocol.start store, schedule), [])).2.1.1.Whole := by
    decide +kernel
  have htext : requestOf (readsOf 0 es).flatten =
      some ⟨ascii "GET", ascii "/rdb/delete/milk", 1, 0, []⟩ := by
    decide +kernel
  have hparam : (ascii "/rdb/delete/milk").drop 4 = removal := by decide
  obtain ⟨s, rep, hs, hworld, hrep, hok, hcontent⟩ := exists_first_reply (by decide) hwritten
  rw [← hworld] at hlog hentries hwhole
  obtain ⟨req, t, t', hreq, -, hshows⟩ :=
    (gateway_linearizes textLibrary scheduledGateway rfl store schedule es s hs hwhole).2 0
      rep hrep hok
  obtain rfl := Option.some.inj (hreq.symm.trans htext)
  have hthis := hshows (ascii "/rdb/delete/milk") (by decide +kernel) rfl
  rw [hparam, hcontent] at hthis
  exact ⟨s, t, t', hs, hlog, hentries, hthis⟩

end HttpServer
end ReminderSuite
