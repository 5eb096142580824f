import ReminderSuite.GatewayCalls

/-! What the gateway can do at any time: requests that come now can be served to their end, whatever
the other calls, sessions and clients of the Data Provider wait for. -/
namespace ReminderSuite
open Delimited FallibleRun Protocol RdbHandler RequestHandler
variable {σ : Type}

/-- The two sides have gone on, and the calls and sessions that were there have been left alone,
except that connections may have been accepted. -/
structure Passes (lib : DBLibrary σ) (s s' : Protocol σ) : Prop where
  goesOn : GoesOn lib s s'
  alone : s.LeavesAlone s'

section Turns
variable {lib : DBLibrary σ} {store : σ} {s s' s'' : Protocol σ}

theorem Passes.refl (s : Protocol σ) : Passes lib s s := ⟨GoesOn.refl s, LeavesAlone.refl s⟩

theorem Passes.trans (h : Passes lib s s') (h' : Passes lib s' s'') : Passes lib s s'' :=
  ⟨h.goesOn.trans h'.goesOn, h.alone.trans h'.alone⟩

/-- A turn in which nothing else moves but the acceptor takes a call to its return. -/
theorem exists_turn (h : GoesOn lib (Protocol.start store) s) (hopen : s.loop.acceptor_ = true)
    {cmd : Bytes} (hne : cmd ≠ []) (hlen : cmd.length ≤ requestBuf) {session : Session} {store' : σ}
    (hparse : parseRequest lib cmd Session.start s.loop.store = .ok (session, store')) :
    ∃ turn s', Passes lib s s' ∧ s'.loop.acceptor_ = true ∧ s'.loop.store = store' ∧
      ∀ lookups turns, (scheduled lib).executeCmd cmd [] (s, ⟨lookups, turn :: turns⟩) =
        ((true, tokens lf (session.response_.take streamBuf)), s', ⟨lookups, turns⟩) := by
  obtain ⟨drain, t0, hdrain, hempty, honly⟩ := reaches_drained h.inv h.waiting hopen
  rw [← honly.store] at hparse
  obtain ⟨rest, t, hrest, hstore, hstill, hqueue, hkept, -, hcalls⟩ :=
    reaches_answered (h.trans ⟨_, hdrain⟩).inv (honly.acceptor.trans hopen) hempty hne hlen hparse
  have hresponse : session.response_ ≠ [] := by
    obtain ⟨response, rfl⟩ := parseRequest_response hparse
    simp [Session.doWrite]
  obtain ⟨s', x, hread, hloop, -, hsame, hlast, -, hresult⟩ := reaches_returned lib hcalls hresponse
  let back : Move := .receive t0.calls.length (min streamBuf session.response_.length)
  have hrun : Reaches (step lib) Enabled t0 (.invoke cmd :: (rest ++ [back])) s' :=
    reaches_append_iff.mpr ⟨t, hrest, hread⟩
  have hx : s'.calls[t0.calls.length]? = some x := by
    rw [hlast]
    exact List.getElem?_concat_length
  have hcall : callAmid lib cmd (drain, rest ++ [back]) s =
      some ((true, tokens lf (session.response_.take streamBuf)), s') := by
    simp only [callAmid, Option.bind_eq_bind, play_eq_some_iff.mpr hdrain, Option.bind_some,
      play_eq_some_iff.mpr hrun, hx, hresult]
    rfl
  have hpasses : Passes lib s s' :=
    ⟨GoesOn.trans ⟨_, hdrain⟩ ⟨_, hrun⟩,
      honly.alone.trans (LeavesAlone.of_append hlast (hloop ▸ hkept) (hsame.trans hqueue))⟩
  refine ⟨(drain, rest ++ [back]), s', hpasses, hloop ▸ hstill, hloop ▸ hstore,
    fun lookups turns => ?_⟩
  simp [scheduled, hcall]

end Turns

/-- What a call of the Data Provider renders, and the store that it leaves, when its commands are
handled one right after the other; the client sees the first 8192 bytes of a response. -/
inductive RendersAlone (lib : DBLibrary σ) (gw : Gateway (Protocol σ × Schedule)) (store : σ)
    (param : Bytes) : Bytes → σ → Prop
  | fields {session : Session} {store' : σ} {tree : PTree} (hparam : param = ascii "/fields")
      (hparse : parseRequest lib param Session.start store = .ok (session, store'))
      (htree : tree = fieldsOutput gw.ops
        (tokens colon ((session.response_.take streamBuf).takeWhile (· ≠ lf))))
      (hjson : tree.Renderable) : RendersAlone lib gw store param (gw.writeJson tree) store'
  | listing {session0 session : Session} {store0 store' : σ} {tree : PTree}
      (hget : isGet param = true)
      (hfields : parseRequest lib (ascii "/fields") Session.start store = .ok (session0, store0))
      (hparse : parseRequest lib param Session.start store0 = .ok (session, store'))
      (htree : listing gw.ops
        (tokens colon ((session0.response_.take streamBuf).takeWhile (· ≠ lf)))
        (tokens lf (session.response_.take streamBuf)) = .ok tree)
      (hjson : tree.Renderable) : RendersAlone lib gw store param (gw.writeJson tree) store'
  | lines {session : Session} {store' : σ} (hparam : param ≠ ascii "/fields")
      (hget : isGet param = false)
      (hparse : parseRequest lib param Session.start store = .ok (session, store')) :
      RendersAlone lib gw store param
        ((tokens lf (session.response_.take streamBuf)).flatMap fun line => line ++ [cr, lf]) store'

/-- What the reply to a call of the Data Provider shows, and the store that the call leaves, when
the gateway is its only client; the command fits the buffer of a session. -/
def CallsAlone (lib : DBLibrary σ) (gw : Gateway (Protocol σ × Schedule)) (store : σ)
    (req : Request) (content : Bytes) (store' : σ) : Prop :=
  ∃ c, IsRdbRequest req (ascii "/rdb/" ++ c) ∧ isValidCall (ascii "/rdb/" ++ c) = .ok true ∧
    (slash :: c).length ≤ requestBuf ∧ RendersAlone lib gw store (slash :: c) content store'

inductive ServedAlone (lib : DBLibrary σ) (gw : Gateway (Protocol σ × Schedule)) :
    σ → List Bytes → List Bytes → σ → Prop
  | nil {store : σ} : ServedAlone lib gw store [] [] store
  | cons {store store1 store' : σ} {text content : Bytes} {texts contents : List Bytes}
      {req : Request} (hfits : ReadFits bufferSize (.ok text)) (hreq : requestOf text = some req)
      (hcall : CallsAlone lib gw store req content store1)
      (hrest : ServedAlone lib gw store1 texts contents store') :
      ServedAlone lib gw store (text :: texts) (content :: contents) store'

section Calls
variable {lib : DBLibrary σ} {store store' : σ} {s : Protocol σ}
    {gw : Gateway (Protocol σ × Schedule)}
  {content : Bytes}

theorem exists_parse (h : GoesOn lib (Protocol.start store) s) (hopen : s.loop.acceptor_ = true)
    {c : Bytes} (hlen : (slash :: c).length ≤ requestBuf)
    (halone : RendersAlone lib gw s.loop.store (slash :: c) content store') :
    ∃ turns reply s', Passes lib s s' ∧ s'.loop.acceptor_ = true ∧ s'.loop.store = store' ∧
      reply.getResponse gw.writeJson = content ∧
      ∀ lookups more,
        parse gw.ops (scheduled lib) (ascii "/rdb/" ++ c) (s, ⟨true :: lookups, turns ++ more⟩) =
          (.ok (some reply), s', ⟨lookups, more⟩) := by
  have hcreate (lookups : List Bool) (turns : List (List Move × List Move)) :
      (scheduled lib).create (s, ⟨true :: lookups, turns⟩) = (true, s, ⟨lookups, turns⟩) := rfl
  cases halone with
  | @fields session _ tree hparam hparse htree =>
    obtain ⟨turn, s', hpasses, hstill, hstore, hexec⟩ :=
      exists_turn h hopen (List.cons_ne_nil _ _) hlen hparse
    obtain ⟨front, rest, hnames, hfront⟩ := exists_first_token lf (session.response_.take streamBuf)
    rw [hparam, hnames] at hexec
    rw [← hfront] at htree
    subst htree
    refine ⟨[turn], .json (fieldsOutput gw.ops (tokens colon front)), s', hpasses, hstill,
      hstore, rfl, fun lookups more => ?_⟩
    simp [parse, hcreate, substr_path, hparam, hexec]
  | @listing session0 session _ _ tree hget hfields hparse htree =>
    -- the store between the two commands is the one that the call for the fields leaves
    obtain ⟨turn0, s0, hpasses0, hopen0, rfl, hexec0⟩ :=
      exists_turn h hopen (by decide) (by decide) hfields
    obtain ⟨turn, s', hpasses, hstill, hstore, hexec⟩ :=
      exists_turn (h.trans hpasses0.goesOn) hopen0 (List.cons_ne_nil _ _) hlen hparse
    obtain ⟨front, rest, hnames, hfront⟩ :=
      exists_first_token lf (session0.response_.take streamBuf)
    rw [hnames] at hexec0
    rw [← hfront] at htree
    have hne : slash :: c ≠ ascii "/fields" := by
      intro heq
      rw [heq] at hget
      exact absurd hget (by decide)
    refine ⟨[turn0, turn], .json tree, s', hpasses0.trans hpasses, hstill, hstore, rfl,
      fun lookups more => ?_⟩
    simp [parse, hcreate, substr_path, hget, hne, hexec0, forward, hexec, htree]
  | @lines session _ hparam hget hparse =>
    obtain ⟨turn, s', hpasses, hstill, hstore, hexec⟩ :=
      exists_turn h hopen (List.cons_ne_nil _ _) hlen hparse
    let lines := tokens lf (session.response_.take streamBuf)
    refine ⟨[turn], .text (lines.flatMap fun line => line ++ [cr, lf]), s', hpasses, hstill, hstore,
      rfl, fun lookups more => ?_⟩
    simp [parse, hcreate, substr_path, hparam, hget, forward, hexec, lines]

theorem exists_reply (hgw : gw.client = scheduled lib) (h : GoesOn lib (Protocol.start store) s)
    (hopen : s.loop.acceptor_ = true) {req : Request}
    (halone : CallsAlone lib gw s.loop.store req content store') :
    ∃ turns rep s', Passes lib s s' ∧ s'.loop.acceptor_ = true ∧ s'.loop.store = store' ∧
      rep.status = some .ok ∧ rep.content = content ∧
      ∀ lookups more, handleRequest gw req Reply.start (s, ⟨true :: lookups, turns ++ more⟩) =
        (.ok rep, s', ⟨lookups, more⟩) := by
  obtain ⟨c, hreq, hvalid, hlen, hrenders⟩ := halone
  obtain ⟨turns, reply, s', hpasses, hstill, hstore, hcontent, hparse⟩ :=
    exists_parse h hopen hlen hrenders
  let response := reply.getResponse gw.writeJson
  refine ⟨turns, ⟨some .ok, [⟨ascii "Content-Length", sizeText response.length⟩,
    ⟨ascii "Content-Type", ascii "application/json"⟩,
    ⟨ascii "Access-Control-Allow-Origin", ascii "*"⟩], response⟩, s', hpasses, hstill, hstore, rfl,
    hcontent, fun lookups more => ?_⟩
  rw [handleRequest_rdb hreq.decoded hreq.no_dots, serveRdb, hvalid, hgw, hparse]
  rfl

end Calls

namespace HttpServer
variable {lib : DBLibrary σ} {store : σ} {gw : Gateway (Protocol σ × Schedule)}
  {texts contents : List Bytes}

def arrivals : Nat → List Bytes → List Completion
  | _, [] => []
  | i, text :: texts => .accept none :: .read i (.ok text) :: arrivals (i + 1) texts

def Answered (peers : List Peer) (i : Nat) (contents : List Bytes) : Prop :=
  ∀ k content, contents[k]? = some content →
    ∃ rep, (connAt peers (i + k)).written = [rep] ∧ rep.status = some .ok ∧ rep.content = content

theorem exists_served (hgw : gw.client = scheduled lib) {begin store' : σ}
    (halone : ServedAlone lib gw begin texts contents store') {s : Protocol σ}
    (h : GoesOn lib (Protocol.start store) s) (hopen : s.loop.acceptor_ = true)
    (hbegin : s.loop.store = begin) :
    ∃ schedule, ∀ t : HttpServer (Protocol σ × Schedule), t.acceptor_ = true → t.accepting = true →
      t.world = (s, schedule) →
      ∃ t', Reaches (step (handleRequest gw)) Enabled t (arrivals t.peers.length texts) t' ∧
        Passes lib s t'.world.1 ∧ t'.world.1.loop.store = store' ∧
        (∀ i < t.peers.length, connAt t'.peers i = connAt t.peers i) ∧
        Answered t'.peers t.peers.length contents := by
  induction halone generalizing s with
  | nil =>
    refine ⟨⟨[], []⟩, fun t _ _ hworld =>
      ⟨t, rfl, ?_, ?_, fun _ _ => rfl, fun k content hk => by simp at hk⟩⟩
    · rw [hworld]
      exact Passes.refl s
    · rw [hworld]
      exact hbegin
  | cons hfits hreq hcall _ ih =>
    subst hbegin
    obtain ⟨turns, rep, s1, hpasses, hstill, hstore, hok, hcontent, hhandle⟩ :=
      exists_reply hgw h hopen hcall
    obtain ⟨⟨lookups, more⟩, hrest⟩ := ih (h.trans hpasses.goesOn) hstill hstore
    refine ⟨⟨true :: lookups, turns ++ more⟩, fun t hacceptor haccepting hworld => ?_⟩
    obtain ⟨conn, hread, hwritten⟩ := doRead_requestOf hreq (hhandle lookups more)
    rw [← hworld] at hread
    obtain ⟨t1, hfirst, hacceptor1, haccepting1, hworld1, hlength, hconn, hbefore⟩ :=
      exists_read hacceptor haccepting hfits hread
    obtain ⟨t', hreaches, hlater, hlast, hsame, hanswered⟩ :=
      hrest t1 hacceptor1 haccepting1 hworld1
    rw [hlength] at hreaches hsame hanswered
    refine ⟨t', reaches_append_iff.mpr ⟨t1, hfirst, hreaches⟩, hpasses.trans hlater, hlast,
      fun i hi => ?_, fun k content hk => ?_⟩
    · rw [hsame i (Nat.lt_succ_of_lt hi), hbefore i hi]
    · cases k with
      | zero =>
        obtain rfl := Option.some.inj hk
        refine ⟨rep, ?_, hok, hcontent⟩
        rw [Nat.add_zero, hsame _ (Nat.lt_succ_self _), hconn, hwritten]
      | succ k =>
        have hthis := hanswered k content hk
        rwa [Nat.add_right_comm] at hthis

/-- Whatever other calls, sessions and clients of the Data Provider wait for: requests that come now
can all be served to their end, with the replies of a Data Provider that has no other client, while
the other calls are left alone, except that the connections which wait to be accepted are. Each
request and its command take one read, a response is cut behind its first 8192 bytes, and
`write_json` renders the trees. -/
theorem requests_unobstructed (lib : DBLibrary σ) (gw : Gateway (Protocol σ × Schedule))
    (hgw : gw.client = scheduled lib) (store : σ) (s : Protocol σ)
    (h : GoesOn lib (Protocol.start store) s) (hopen : s.loop.acceptor_ = true)
    (texts contents : List Bytes) (store' : σ)
    (halone : ServedAlone lib gw s.loop.store texts contents store') :
    ∃ schedule t, Reaches (step (handleRequest gw)) Enabled (start (s, schedule))
      (arrivals 0 texts) t ∧
      Passes lib s t.world.1 ∧ t.world.1.loop.store = store' ∧ Answered t.peers 0 contents := by
  obtain ⟨schedule, hserved⟩ := exists_served hgw halone h hopen rfl
  obtain ⟨t, hreaches, hpasses, hstore, -, hanswered⟩ := hserved (start (s, schedule)) rfl rfl rfl
  exact ⟨schedule, t, hreaches, hpasses, hstore, hanswered⟩

/-- A removal, and the names of the fields, while the connection of another call waits to be
accepted -/
theorem requests_unobstructed_sample :
    let store := (Server.ofFile (ascii "name:note\nmilk:x\n")).store
    let moves : List Move := [.invoke (ascii "/fields"), .connect 0 true, .arrive (some 0)]
    let texts := [ascii "GET /rdb/delete/milk HTTP/1.0\r\n\r\n",
      ascii "GET /rdb/fields HTTP/1.0\r\n\r\n"]
    ∃ s, Reaches (Protocol.step textLibrary) Protocol.Enabled (Protocol.start store) moves s ∧
      ∃ schedule t, Reaches (step (handleRequest scheduledGateway)) Enabled (start (s, schedule))
          (arrivals 0 texts) t ∧ Passes textLibrary s t.world.1 ∧
        t.world.1.loop.store.db.entries_ = [] ∧
        Answered t.peers 0 [ascii "SUCCESS\r\n\r\n", []] := by
  intro store moves texts
  let removal := slash :: ascii "delete/milk"
  let fields := slash :: ascii "fields"
  have hplay : ∃ s ∈ play (Protocol.step textLibrary) Protocol.Enabled (Protocol.start store) moves,
      s.loop.acceptor_ = true ∧
      -- the names are asked for in the store that the removal leaves
      (parseRequest textLibrary removal Session.start s.loop.store).map (fun one =>
        ((tokens lf (one.1.response_.take streamBuf)).flatMap fun line => line ++ [cr, lf],
          (parseRequest textLibrary fields Session.start one.2).map fun two => two.2.db.entries_)) =
        .ok (ascii "SUCCESS\r\n\r\n", .ok []) := by decide +kernel
  obtain ⟨s, hs, hopen, hboth⟩ := hplay
  obtain ⟨⟨one, store1⟩, hone, hpair⟩ := map_eq_ok_iff.mp hboth
  obtain ⟨hsuccess, hmap⟩ := Prod.mk.inj hpair
  obtain ⟨⟨two, store2⟩, htwo, hentries⟩ := map_eq_ok_iff.mp hmap
  have hrun := play_eq_some_iff.mp hs
  have hremoval : CallsAlone textLibrary scheduledGateway s.loop.store
      ⟨ascii "GET", ascii "/rdb/delete/milk", 1, 0, []⟩ (ascii "SUCCESS\r\n\r\n") store1 := by
    rw [← hsuccess]
    exact ⟨ascii "delete/milk", ⟨by decide +kernel, by decide +kernel, by decide⟩,
      by decide +kernel, by decide, .lines (by decide) (by decide) hone⟩
  have hfields : CallsAlone textLibrary scheduledGateway store1
      ⟨ascii "GET", ascii "/rdb/fields", 1, 0, []⟩ [] store2 :=
    ⟨ascii "fields", ⟨by decide +kernel, by decide +kernel, by decide⟩,
      by decide +kernel, by decide,
      .fields (by decide) htwo rfl (fieldsOutput_renderable plainTree_appends _)⟩
  have hreads : ReadFits bufferSize (.ok (ascii "GET /rdb/delete/milk HTTP/1.0\r\n\r\n")) ∧
      ReadFits bufferSize (.ok (ascii "GET /rdb/fields HTTP/1.0\r\n\r\n")) := by decide +kernel
  have hreqs : requestOf (ascii "GET /rdb/delete/milk HTTP/1.0\r\n\r\n") =
        some ⟨ascii "GET", ascii "/rdb/delete/milk", 1, 0, []⟩ ∧
      requestOf (ascii "GET /rdb/fields HTTP/1.0\r\n\r\n") =
        some ⟨ascii "GET", ascii "/rdb/fields", 1, 0, []⟩ := by decide +kernel
  have halone : ServedAlone textLibrary scheduledGateway s.loop.store texts
      [ascii "SUCCESS\r\n\r\n", []] store2 :=
    .cons hreads.1 hreqs.1 hremoval (.cons hreads.2 hreqs.2 hfields .nil)
  obtain ⟨schedule, t, ht, hpasses, rfl, hanswered⟩ := requests_unobstructed textLibrary
    scheduledGateway rfl store s ⟨moves, hrun⟩ hopen texts _ store2 halone
  exact ⟨s, hrun, schedule, t, ht, hpasses, hentries, hanswered⟩

end HttpServer
end ReminderSuite
