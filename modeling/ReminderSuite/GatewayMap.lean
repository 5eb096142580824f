import ReminderSuite.GatewayCalls

/-! The gateway in front of the text store, which others read and write as well: what its clients
see of the one map, and what becomes of what they commit. -/
namespace ReminderSuite
open Delimited FallibleRun Protocol RdbHandler RequestHandler

namespace Records

def response (fields : List Bytes) (m : Records) (chunk : Bytes) : Option Bytes :=
  match plan (segments chunk) with
  | .error _ => none
  | .ok none => some (refusal (stripCRLF chunk) (segments chunk))
  | .ok (some c) => (m.call fields c).1.map (answer (stripCRLF chunk) c)

def Replies (fields : List Bytes) (m : Records) (chunk part : Bytes) : Prop :=
  part ≠ [] ∧ ∃ text, m.response fields chunk = some text ∧ part <+: text ++ [lf]

theorem Replies.fields {fields : List Bytes} {m : Records} {part : Bytes}
    (h : m.Replies fields (ascii "/fields") part) (m' : Records) :
    m'.Replies fields (ascii "/fields") part := by
  have hplan : plan (segments (ascii "/fields")) = .ok (some .fields) := by decide
  have hsame : m'.response fields (ascii "/fields") = m.response fields (ascii "/fields") := by
    rw [response, response, hplan]
    rfl
  rwa [Replies, hsame]

end Records

section Answers
variable {fields : List Bytes} {m : Records} {store : TextStore}

theorem Refines.response {s s' : TextStore} {chunk : Bytes} {session session' : Session}
    (h : Refines fields s m) (hkeep : KeepsFirst fields [chunk])
    (hparse : parseRequest textLibrary chunk session s = .ok (session', s')) :
    ∃ text, m.response fields chunk = some text ∧ session'.response_ = text ++ [lf] := by
  cases parseRequest_ok hparse with
  | inl hquiet =>
    obtain ⟨hplan, -, rfl⟩ := hquiet
    exact ⟨_, by rw [Records.response, hplan], rfl⟩
  | inr hcall =>
    obtain ⟨c, result, hplan, hi, rfl⟩ := hcall
    have hsome : callOf chunk = some c := callOf_of_plan hplan
    have hfirst := hkeep chunk (by simp)
    simp only [hsome, Option.some.injEq] at hfirst
    have hmap := (h.invoke hsome hfirst hi).1
    exact ⟨_, by simp only [Records.response, hplan, hmap, Option.map_some], rfl⟩

theorem Protocol.Handled.replies (hstart : Refines fields store m) {s s' : Protocol TextStore}
    {cmd part : Bytes} (hkeep : KeepsFirst fields (s'.log.map Prod.snd))
    (h : Handled textLibrary store s s' cmd part) :
    ∃ past e, s.log <+: past ∧ past ++ [e] <+: s'.log ∧ e.2 = cmd ∧
      (m.after fields (past.map Prod.snd)).Replies fields cmd part := by
  obtain ⟨past, e, srv, session, store', hlate, hpast, rfl, hrun, hparse, hne, hpart⟩ := h
  have hbefore := hkeep.of_prefix ((List.prefix_append past [e]).trans hpast)
  have hthis : KeepsFirst fields [e.2] :=
    List.forall_mem_singleton.mpr (hkeep e.2 (List.mem_map_of_mem (hpast.subset (by simp))))
  let srv0 : Server TextStore := ⟨fun _ => Session.start, store⟩
  have hnow := Refines.reaches (show Refines fields srv0.store m from hstart) hbefore hrun
  obtain ⟨text, htext, hresponse⟩ := hnow.response hthis hparse
  exact ⟨past, e, hlate, hpast, rfl, hne, text, htext, hresponse ▸ hpart⟩

theorem ShowsBetween.map (hstart : Refines fields store m)
    {gw : Gateway (Protocol TextStore × Schedule)}
    {s s' : Protocol TextStore} {param content : Bytes}
    (hkeep : KeepsFirst fields (s'.log.map Prod.snd))
    (h : ShowsBetween textLibrary store gw s s' param content) :
    ∃ past e, s.log <+: past ∧ past ++ [e] <+: s'.log ∧ e.2 = param ∧
      Shows gw param ((m.after fields (past.map Prod.snd)).Replies fields (ascii "/fields"))
        ((m.after fields (past.map Prod.snd)).Replies fields param) content := by
  obtain ⟨s0, hfirst, hlast, hshows⟩ := h
  obtain ⟨part, hsaid, hshown⟩ := hshows.exists_said
  obtain ⟨past, e, hlate, hpast, hcmd, hreplies⟩ := hsaid.replies hstart hkeep
  refine ⟨past, e, hfirst.trans hlate, hpast, hcmd,
    hshown.mono (fun named hnamed => ?_) fun _ heq => heq ▸ hreplies⟩
  obtain ⟨_, _, -, -, -, hfields⟩ := hnamed.replies hstart (hkeep.of_prefix hlast)
  exact hfields.fields _

end Answers

namespace HttpServer

/-- For every text store with pairwise distinct names, every schedule of what else goes on at the
Data Provider, any number of HTTP connections and every order of their completions, as long as no
session reads a command in parts and no request writes through the first field: there is one map
that the store holds, changed by the requests of everyone. A reply that is ok to a call of the Data
Provider shows what the map answered to its command, which was handled while the gateway handled
the request. -/
theorem gateway_serves_map (gw : Gateway (Protocol TextStore × Schedule))
    (hgw : gw.client = scheduled textLibrary)
    (store : TextStore) (hnodup : (store.db.entries_.map Entry.name).Nodup) (schedule : Schedule)
    (es : List Completion) (s : HttpServer ((Protocol TextStore × Schedule) × List Request))
    (h : Reaches (step (Handler.recorded (handleRequest gw))) Enabled
      (start ((Protocol.start store, schedule), [])) es s)
    (hwhole : s.world.1.1.Whole)
    (hkeep : KeepsFirst store.db.fields_ (s.world.1.1.log.map Prod.snd)) :
    let fields := store.db.fields_
    ∃ m : Records, m.toList = store.db.entries_.map Entry.binding ∧
      s.world.1.1.loop.store.db.entries_.map Entry.binding =
        (m.after fields (s.world.1.1.log.map Prod.snd)).toList ∧
      ∀ i rep, (connAt s.peers i).written = [rep] → rep.status = some .ok →
        ∃ req t t', requestOf (readsOf i es).flatten = some req ∧
          Handling textLibrary gw (Protocol.start store, schedule) s req t t' ∧
          ∀ path, urlDecode req.uri = some path → isRDBcall path = true →
            ∃ past e, t.log <+: past ∧ past ++ [e] <+: t'.log ∧ e.2 = path.drop 4 ∧
              Shows gw (path.drop 4)
                ((m.after fields (past.map Prod.snd)).Replies fields (ascii "/fields"))
                ((m.after fields (past.map Prod.snd)).Replies fields (path.drop 4))
                  rep.content := by
  intro fields
  have hstart := Refines.ofList store hnodup
  let srv0 : Server TextStore := ⟨fun _ => Session.start, store⟩
  have hend := Refines.reaches (show Refines fields srv0.store _ from hstart) hkeep
    (sides_goesOn hgw h).inv.run
  refine ⟨_, hstart.bindings, hend.bindings.symm, fun i rep hrep hok => ?_⟩
  obtain ⟨req, t, t', hreq, hhandling, hshows⟩ := ok_reply_between hgw h hwhole hrep hok
  have hpast := hkeep.of_prefix hhandling.later.grown.log
  exact ⟨req, t, t', hreq, hhandling, fun path hpath hrdb =>
    (hshows path hpath hrdb).map hstart hpast⟩

/-- A lookup through the gateway, between whose two commands another client writes the record -/
theorem gateway_serves_map_sample :
    let store := (Server.ofFile (ascii "name:note\nmilk:x\n")).store
    let fields := ascii "/fields"
    let update := ascii "/set/milk/note/two"
    let lookup := ascii "/get/milk"
    let schedule : Schedule :=
      ⟨[true], [([], [.connect 0 true, .arrive (some 0), .accept 0, .send 0 7 true,
        .serve (.read 0 (.ok fields)), .flow 0 11, .receive 0 11]),
      ([.invoke update, .connect 1 true, .arrive (some 1), .accept 1, .send 1 18 true,
        .serve (.read 1 (.ok update))],
        [.connect 2 true, .arrive (some 2), .accept 2, .send 2 9 true,
          .serve (.read 2 (.ok lookup)), .flow 2 10, .receive 2 10])]⟩
    let es : List Completion :=
      [.accept none, .read 0 (.ok (ascii "GET /rdb/get/milk HTTP/1.0\r\n\r\n"))]
    ∃ (s : HttpServer ((Protocol TextStore × Schedule) × List Request)) (rep : Reply) (m : Records)
        (past : List Event) (e : Event),
      Reaches (step (Handler.recorded (handleRequest scheduledGateway))) Enabled
        (start ((Protocol.start store, schedule), [])) es s ∧
      s.world.1.1.log = [(0, fields), (1, update), (2, lookup)] ∧
      m.toList = store.db.entries_.map Entry.binding ∧ past ++ [e] <+: s.world.1.1.log ∧
      e.2 = lookup ∧
      Shows scheduledGateway lookup
        ((m.after store.db.fields_ (past.map Prod.snd)).Replies store.db.fields_ fields)
        ((m.after store.db.fields_ (past.map Prod.snd)).Replies store.db.fields_ lookup)
          rep.content := by
  intro store fields update lookup schedule es
  let text := ascii "GET /rdb/get/milk HTTP/1.0\r\n\r\n"
  let handle : Handler ((Protocol TextStore × Schedule) × List Request) :=
    Handler.recorded (handleRequest scheduledGateway)
  have hwritten : ((Connection.start.doRead handle text
      ((Protocol.start store, schedule), [])).1.map
      fun conn => conn.written.map fun rep => (rep.status, rep.content)) =
        .ok [(some .ok, [])] := by
    decide +kernel
  have hlog : (Connection.start.doRead handle text
      ((Protocol.start store, schedule), [])).2.1.1.log =
      [(0, fields), (1, update), (2, lookup)] := by decide +kernel
  have hwhole : (Connection.start.doRead handle text
      ((Protocol.start store, schedule), [])).2.1.1.Whole := by
    decide +kernel
  have htext : requestOf (readsOf 0 es).flatten =
      some ⟨ascii "GET", ascii "/rdb/get/milk", 1, 0, []⟩ := by
    decide +kernel
  have hparam : (ascii "/rdb/get/milk").drop 4 = lookup := by decide
  obtain ⟨s, rep, hs, hworld, hrep, hok, -⟩ := exists_first_reply (by decide) hwritten
  rw [← hworld] at hlog hwhole
  have hkeep : KeepsFirst store.db.fields_ (s.world.1.1.log.map Prod.snd) := by
    have hcall : callOf update = some (.setField (ascii "milk") (ascii "note") (ascii "two")) := by
      decide
    have hquiet : callOf fields = some .fields ∧ callOf lookup = some (.get (ascii "milk") []) := by
      decide
    rw [hlog]
    simp only [KeepsFirst, List.map_cons, List.map_nil, List.forall_mem_cons, hcall,
      hquiet.1, hquiet.2]
    simp only [Option.some.injEq, Call.setField.injEq, reduceCtorEq, false_implies,
      implies_true, true_and, List.not_mem_nil, and_true]
    intro name field value hset
    rw [← hset.2.1]
    decide
  obtain ⟨m, hm, -, hshows⟩ :=
    gateway_serves_map scheduledGateway rfl store (by decide) schedule es s hs hwhole hkeep
  obtain ⟨req, t, t', hreq, hhandling, hpath⟩ := hshows 0 rep hrep hok
  obtain rfl := Option.some.inj (hreq.symm.trans htext)
  obtain ⟨past, e, -, hpast, he, hthis⟩ := hpath (ascii "/rdb/get/milk") (by decide +kernel) rfl
  rw [hparam] at he hthis
  exact ⟨s, rep, m, past, e, hs, hlog, hm, hpast.trans hhandling.later.grown.log, he, hthis⟩

/-- For a file that can be opened and overwritten, every schedule of what else goes on at the Data
Provider, any number of HTTP connections and every order of their completions, as long as no session
reads a command in parts and no value with a ':' is stored through a field: whenever no request is
being handled, so that no commit is half written, a restart finds the store after some of the
requests, from the first one on. A reply that is ok to a commit tells that the commit is among them,
with all that had been handled when the gateway took it up. -/
theorem gateway_commits_survive (gw : Gateway (Protocol TextStore × Schedule))
    (hgw : gw.client = scheduled textLibrary) (contents : Bytes) (schedule : Schedule)
    (es : List Completion) (s : HttpServer ((Protocol TextStore × Schedule) × List Request))
    (h : Reaches (step (Handler.recorded (handleRequest gw))) Enabled
      (start ((Protocol.start (Server.ofFile contents).store, schedule), [])) es s)
    (hwhole : s.world.1.1.Whole)
    (hplain : Guarded (Server.receive textLibrary) SetsPlain (Server.ofFile contents)
      s.world.1.1.log) :
    ∃ past srv, past <+: s.world.1.1.log ∧
      Reaches (Server.receive textLibrary) (fun _ _ => True) (Server.ofFile contents) past srv ∧
      DBTextFile.fresh.read s.world.1.1.loop.store.file = (true, srv.store.db) ∧
      ∀ i rep, (connAt s.peers i).written = [rep] → rep.status = some .ok →
        ∃ req t t', requestOf (readsOf i es).flatten = some req ∧
          Handling textLibrary gw (Protocol.start (Server.ofFile contents).store, schedule)
            s req t t' ∧
          ∀ path, urlDecode req.uri = some path → isRDBcall path = true →
            callOf (path.drop 4) = some .save →
            ∃ before e, t.log <+: before ∧ e.2 = path.drop 4 ∧ before ++ [e] <+: past := by
  obtain ⟨past, srv, hpast, hrun, hread, hcommits⟩ := (sides_goesOn hgw h).inv.survivor hplain
  refine ⟨past, srv, hpast, hrun, hread, fun i rep hrep hok => ?_⟩
  obtain ⟨req, t, t', hreq, hhandling, hshows⟩ := ok_reply_between hgw h hwhole hrep hok
  refine ⟨req, t, t', hreq, hhandling, fun path hpath hrdb hsave => ?_⟩
  obtain ⟨s0, hfirst, -, hshown⟩ := hshows path hpath hrdb
  obtain ⟨part, ⟨before, e, srv', session, store', hlate, hhandled, hcmd, -⟩, -⟩ :=
    hshown.exists_said
  exact ⟨before, e, hfirst.trans hlate, hcmd,
    hcommits before e (hhandled.trans hhandling.later.grown.log) (hcmd ▸ hsave)⟩

/-- A commit through the gateway, before which another client has a record written -/
theorem gateway_commits_survive_sample :
    let contents := ascii "name:note\nmilk:x\n"
    let update := ascii "/set/milk/note/two"
    let commit := ascii "/commit"
    let schedule : Schedule :=
      ⟨[true], [([.invoke update, .connect 0 true, .arrive (some 0), .accept 0, .send 0 18 true,
        .serve (.read 0 (.ok update)), .flow 0 9, .receive 0 9],
      [.connect 1 true, .arrive (some 1), .accept 1, .send 1 7 true, .serve (.read 1 (.ok commit)),
        .flow 1 24, .receive 1 24])]⟩
    let es : List Completion :=
      [.accept none, .read 0 (.ok (ascii "GET /rdb/commit HTTP/1.0\r\n\r\n"))]
    ∃ s past srv before e, Reaches
      (step (Handler.recorded (handleRequest scheduledGateway))) Enabled
        (start ((Protocol.start (Server.ofFile contents).store, schedule), [])) es s ∧
      s.world.1.1.log = [(0, update), (1, commit)] ∧
      Reaches (Server.receive textLibrary) (fun _ _ => True) (Server.ofFile contents) past srv ∧
      DBTextFile.fresh.read s.world.1.1.loop.store.file = (true, srv.store.db) ∧
      before ++ [e] <+: past ∧ e.2 = commit := by
  intro contents update commit schedule es
  let text := ascii "GET /rdb/commit HTTP/1.0\r\n\r\n"
  let handle : Handler ((Protocol TextStore × Schedule) × List Request) :=
    Handler.recorded (handleRequest scheduledGateway)
  let w := ((Protocol.start (Server.ofFile contents).store, schedule), ([] : List Request))
  have hwritten : ((Connection.start.doRead handle text w).1.map
      fun conn => conn.written.map fun rep => (rep.status, rep.content)) =
      .ok [(some .ok, ascii "Failed to preserve DB: \r\n")] := by decide +kernel
  have hlog : (Connection.start.doRead handle text w).2.1.1.log = [(0, update), (1, commit)] := by
    decide +kernel
  have hwhole : (Connection.start.doRead handle text w).2.1.1.Whole := by decide +kernel
  have htext : requestOf (readsOf 0 es).flatten =
      some ⟨ascii "GET", ascii "/rdb/commit", 1, 0, []⟩ := by
    decide +kernel
  have hparam : (ascii "/rdb/commit").drop 4 = commit := by decide
  obtain ⟨s, rep, hs, hworld, hrep, hok, -⟩ := exists_first_reply (by decide) hwritten
  rw [← hworld] at hlog hwhole
  have hplain : Guarded (Server.receive textLibrary) SetsPlain (Server.ofFile contents)
      s.world.1.1.log := by
    refine guarded_of_forall_mem (fun srv e he name field value hseg _ => ?_) _
    have hplain : ∀ e ∈ [((0 : Nat), update), (1, commit)], ∀ v ∈ (segments e.2).drop 3,
        colon ∉ v := by
      decide
    exact hplain e (hlog ▸ he) value (by simp [hseg])
  obtain ⟨past, srv, -, hrun, hread, hsurvive⟩ :=
    gateway_commits_survive scheduledGateway rfl contents schedule es s hs hwhole hplain
  obtain ⟨req, t, t', hreq, -, hpath⟩ := hsurvive 0 rep hrep hok
  obtain rfl := Option.some.inj (hreq.symm.trans htext)
  obtain ⟨before, e, -, he, hin⟩ :=
    hpath (ascii "/rdb/commit") (by decide +kernel) rfl (hparam ▸ by decide)
  exact ⟨s, past, srv, before, e, hs, hlog, hrun, hread, hin, he.trans hparam⟩

end HttpServer
end ReminderSuite
