import ReminderSuite.HttpServer

/-! Which requests the gateway's event loop has handled, and what each connection has answered,
after any completions in any order. -/
namespace ReminderSuite
open FallibleRun Numbered RequestParser
variable {ω : Type}

def requestOf (text : Bytes) : Option Request :=
  match parse .methodStart Request.start text with
  | (.good, _, _, req) => some req
  | _ => none

theorem requestOf_eq_some_iff {text : Bytes} {req : Request} :
    requestOf text = some req ↔ ∃ m : Message, m.text <+: text ∧ req = m.request := by
  constructor
  · intro h
    rw [requestOf] at h
    split at h
    · next rest state req' hp =>
      obtain rfl : req' = req := by simpa using h
      obtain rfl := parse_good_state hp
      obtain ⟨m, rfl, hm⟩ := accepts_request_iff.mp hp
      exact ⟨m, List.prefix_append .., hm⟩
    · simp at h
  · intro h
    obtain ⟨m, ⟨rest, rfl⟩, rfl⟩ := h
    rw [requestOf, m.parse_text]

inductive AfterReading (handle : Handler ω) (text : Bytes) : Connection → Prop
  | waiting {rest : Bytes} {state : State} {req : Request}
      (h : parse .methodStart Request.start text = (.indeterminate, rest, state, req)) :
      AfterReading handle text { Connection.start with state_ := state, request_ := req }
  | handled {rest : Bytes} {state : State} {req : Request} {rep : Reply} {v v' : ω}
      (h : parse .methodStart Request.start text = (.good, rest, state, req))
      (hhandle : handle req Reply.start v = (.ok rep, v')) :
      AfterReading handle text ⟨state, req, rep, false, [rep]⟩
  | refused {rest : Bytes} {state : State} {req : Request}
      (h : parse .methodStart Request.start text = (.bad, rest, state, req)) :
      AfterReading handle text ⟨state, req, stockReply .badRequest, false, [stockReply .badRequest]⟩

/-- One more read: the text grows, and the handler is called when it has become a request. -/
theorem AfterReading.read {handle : Handler ω} {text chunk : Bytes} {conn conn' : Connection}
    {w w' : ω × List Request} (h : AfterReading handle text conn) (hreading : conn.reading = true)
    (hread : conn.doRead handle.recorded chunk w = (.ok conn', w')) :
    AfterReading handle (text ++ chunk) conn' ∧ requestOf text = none ∧
      (requestOf (text ++ chunk) = none ∧ w' = w ∨
      ∃ req rep, requestOf (text ++ chunk) = some req ∧ (handle req Reply.start w.1).1 = .ok rep ∧
        conn'.written = [rep] ∧ w' = ((handle req Reply.start w.1).2, w.2 ++ [req])) := by
  cases h with
  | handled h hhandle => simp at hreading
  | refused h => simp at hreading
  | @waiting rest state req h =>
    rcases hp : parse state req chunk with ⟨result, left, next, nreq⟩
    rw [Connection.doRead_eq_conclude rfl hp] at hread
    have htext : parse .methodStart Request.start (text ++ chunk) = (result, left, next, nreq) :=
      (parse_append h chunk).trans hp
    have hnone : requestOf text = none := by rw [requestOf, h]
    cases result with
    | good =>
      rcases hh : handle nreq Reply.start w.1 with ⟨_ | rep, v⟩
      · simp [Connection.conclude, Handler.recorded, Connection.start, hh] at hread
      · obtain ⟨rfl, rfl⟩ : _ = conn' ∧ (v, w.2 ++ [nreq]) = w' := by
          simpa [Connection.conclude, Handler.recorded, Connection.start, hh] using hread
        exact ⟨.handled htext hh, hnone,
          Or.inr ⟨nreq, rep, by rw [requestOf, htext], by rw [hh], rfl, by rw [hh]⟩⟩
    | bad =>
      obtain ⟨rfl, rfl⟩ : _ = conn' ∧ w = w' := by simpa [Connection.conclude] using hread
      exact ⟨.refused htext, hnone, Or.inl ⟨by rw [requestOf, htext], rfl⟩⟩
    | indeterminate =>
      obtain ⟨rfl, rfl⟩ : _ = conn' ∧ w = w' := by simpa [Connection.conclude] using hread
      exact ⟨.waiting htext, hnone, Or.inl ⟨by rw [requestOf, htext], rfl⟩⟩

theorem AfterReading.grammar {handle : Handler ω} {text : Bytes} {conn : Connection}
    (h : AfterReading handle text conn) :
    Begins text ∧ conn.reading = true ∧ conn.written = [] ∨
    (∃ m : Message, m.text <+: text) ∨
    ¬ Begins text ∧ (∀ m : Message, ¬ m.text <+: text) ∧
      conn.written = [stockReply .badRequest] := by
  cases h with
  | waiting h => exact Or.inl ⟨parse_indeterminate_iff.mp (by rw [h]), rfl, rfl⟩
  | handled h hhandle =>
    obtain rfl := parse_good_state h
    obtain ⟨m, rfl, rfl⟩ := accepts_request_iff.mp h
    exact Or.inr (Or.inl ⟨m, List.prefix_append ..⟩)
  | refused h =>
    refine Or.inr (Or.inr ⟨fun hbegins => ?_, fun m hm => ?_, rfl⟩)
    · have hmore := parse_indeterminate_iff.mpr hbegins
      rw [h] at hmore
      simp at hmore
    · have hgood := parse_good_iff.mpr ⟨m, hm⟩
      rw [h] at hgood
      simp at hgood

namespace HttpServer

def readsOf (i : Nat) (es : List Completion) : List Bytes :=
  es.filterMap fun e =>
    match e with
    | .read j (.ok chunk) => if j = i then some chunk else none
    | _ => none

def connAt (peers : List Peer) (i : Nat) : Connection := (peers[i]?.map Peer.conn).getD .start

section History
variable {handle : Handler ω} {s s' : HttpServer ω} {e : Completion} {es : List Completion}

theorem readsOf_append (i : Nat) (es : List Completion) (e : Completion) :
    readsOf i (es ++ [e]) = readsOf i es ++ readsOf i [e] := List.filterMap_append

theorem readsOf_read (i : Nat) (es : List Completion) (chunk : Bytes) :
    readsOf i (es ++ [.read i (.ok chunk)]) = readsOf i es ++ [chunk] := by
  simp [readsOf]

theorem readsOf_other {i : Nat} (he : ∀ chunk, e ≠ .read i (.ok chunk)) (es : List Completion) :
    readsOf i (es ++ [e]) = readsOf i es := by
  rw [readsOf_append]
  cases e with
  | read j result =>
    cases result with
    | error ec => simp [readsOf]
    | ok chunk =>
      have hj : j ≠ i := fun heq => he chunk (by rw [heq])
      simp [readsOf, hj]
  | _ => simp [readsOf]

theorem connAt_set {peers : List Peer} {i : Nat} {p : Peer} (hp : peers[i]? = some p) (q : Peer)
    (j : Nat) : connAt (peers.set i q) j = if j = i then q.conn else connAt peers j :=
  (congrFun (view_set hp q) j).trans (Function.update_apply ..)

theorem connAt_concat (peers : List Peer) {q : Peer} (hq : q.conn = .start) (i : Nat) :
    connAt (peers ++ [q]) i = connAt peers i :=
  congrFun (view_concat peers hq) i

theorem connAt_of_getElem? {peers : List Peer} {i : Nat} {p : Peer} (hp : peers[i]? = some p) :
    connAt peers i = p.conn :=
  view_of_getElem? hp

/-- A completion that returns no bytes leaves what the connections have done and what the handler
works on. -/
theorem effect_silent (h : Effect handle s e s') (he : ∀ i chunk, e ≠ .read i (.ok chunk)) :
    s'.world = s.world ∧ s.peers.length ≤ s'.peers.length ∧
    ∀ i, connAt s'.peers i = connAt s.peers i := by
  cases h with
  | closed ec h => exact ⟨rfl, le_refl _, fun _ => rfl⟩
  | accepted h =>
    exact ⟨rfl, by simp [managerStart, doAccept], fun i => connAt_concat s.peers rfl i⟩
  | refused ec h => exact ⟨rfl, le_refl _, fun _ => rfl⟩
  | signalled h =>
    refine ⟨rfl, by simp [managerStopAll], fun i => ?_⟩
    simp only [managerStopAll, connAt, List.getElem?_mapIdx, Option.map_map]
    congr 2
    funext p
    simp only [Function.comp_apply]
    split <;> rfl
  | received hp hop hread => exact absurd rfl (he _ _)
  | @aborted e i p he' hp hop hclosed =>
    refine ⟨rfl, by simp, fun j => ?_⟩
    rw [connAt_set hp]
    split_ifs with hj
    · rw [hj, connAt_of_getElem? hp]
    · rfl
  | @dropped e i p he' hp hop =>
    refine ⟨rfl, by simp, fun j => ?_⟩
    rw [connAt_set hp]
    split_ifs with hj
    · rw [hj, connAt_of_getElem? hp]
    · rfl

def worldAfter (handle : Handler ω) (w : ω) (reqs : List Request) : ω :=
  reqs.foldl (fun w req => (handle req Reply.start w).2) w

@[simp] theorem worldAfter_nil (handle : Handler ω) (w : ω) : worldAfter handle w [] = w := rfl

@[simp] theorem worldAfter_cons (handle : Handler ω) (w : ω) (req : Request) (reqs : List Request) :
    worldAfter handle w (req :: reqs) = worldAfter handle (handle req Reply.start w).2 reqs := rfl

theorem worldAfter_append (handle : Handler ω) (w : ω) (before after : List Request) :
    worldAfter handle w (before ++ after) = worldAfter handle (worldAfter handle w before) after :=
  List.foldl_append

/-- The reply that the handler gives to a request in the world that the ones before it left -/
def RepliedAt (handle : Handler ω) (w : ω) (reqs : List Request) (req : Request)
    (rep : Reply) : Prop :=
  ∃ before, before ++ [req] <+: reqs ∧
    (handle req Reply.start (worldAfter handle w before)).1 = .ok rep

/-- What the loop has done, in terms of what its reads have returned -/
structure History (handle : Handler ω) (w : ω) (es : List Completion)
    (s : HttpServer (ω × List Request)) : Prop where
  inv : s.Inv
  known : ∀ i, s.peers.length ≤ i → readsOf i es = []
  answered : ∀ i, AfterReading handle (readsOf i es).flatten (connAt s.peers i)
  calls : s.world.2.Perm
    ((List.range s.peers.length).filterMap fun i => requestOf (readsOf i es).flatten)
  world : s.world.1 = worldAfter handle w s.world.2
  replied : ∀ i req, requestOf (readsOf i es).flatten = some req →
    ∃ rep, (connAt s.peers i).written = [rep] ∧ RepliedAt handle w s.world.2 req rep

theorem history_start (handle : Handler ω) (w : ω) : History handle w [] (start (w, [])) where
  inv := inv_start _
  known _ _ := rfl
  answered _ := .waiting rfl
  calls := .refl _
  world := rfl
  replied _ _ h := by simp [readsOf, requestOf, parse] at h

theorem perm_filterMap_new {ι α : Type} {l : List ι} {f g : ι → Option α} {i : ι} {x : α}
    (hl : l.Nodup)
    (hi : i ∈ l) (hf : f i = none) (hg : g i = some x) (hother : ∀ j, j ≠ i → g j = f j) :
    (l.filterMap g).Perm (x :: l.filterMap f) := by
  induction l with
  | nil => simp at hi
  | cons j l ih =>
    obtain ⟨hj, hl⟩ := List.nodup_cons.mp hl
    by_cases hij : j = i
    · subst hij
      have hrest : l.filterMap g = l.filterMap f :=
        List.filterMap_congr fun k hk => hother k fun heq => hj (heq ▸ hk)
      rw [List.filterMap_cons_some hg, List.filterMap_cons_none hf, hrest]
    · have hin : i ∈ l := (List.mem_cons.mp hi).resolve_left (Ne.symm hij)
      have hrest := ih hl hin
      cases hfj : f j with
      | none =>
        rw [List.filterMap_cons_none hfj, List.filterMap_cons_none ((hother j hij).trans hfj)]
        exact hrest
      | some y =>
        rw [List.filterMap_cons_some hfj, List.filterMap_cons_some ((hother j hij).trans hfj)]
        exact (hrest.cons y).trans (.swap x y _)

theorem filterMap_range_of_none {α : Type} {f : Nat → Option α} {n k : Nat} (hnk : n ≤ k)
    (h : ∀ i, n ≤ i → f i = none) : (List.range k).filterMap f = (List.range n).filterMap f := by
  obtain ⟨d, rfl⟩ := Nat.exists_eq_add_of_le hnk
  have hrest : (List.map (n + ·) (List.range d)).filterMap f = [] :=
    List.filterMap_eq_nil_iff.mpr fun i hi => by
      obtain ⟨j, -, rfl⟩ := List.mem_map.mp hi
      exact h _ (Nat.le_add_right n j)
  rw [List.range_add, List.filterMap_append, hrest, List.append_nil]

variable {w : ω}

theorem History.silent {s s' : HttpServer (ω × List Request)} (H : History handle w es s)
    (h : Effect handle.recorded s e s') (he : ∀ i chunk, e ≠ .read i (.ok chunk)) :
    History handle w (es ++ [e]) s' := by
  obtain ⟨hworld, hpeers, hconn⟩ := effect_silent h he
  have hreads (i : Nat) : readsOf i (es ++ [e]) = readsOf i es := readsOf_other (he i) es
  refine ⟨H.inv.effect h, fun i hi => ?_, fun i => ?_, ?_, by rw [hworld]; exact H.world,
    fun i => ?_⟩
  · rw [hreads]
    exact H.known i (hpeers.trans hi)
  · rw [hreads, hconn]
    exact H.answered i
  · simp only [hreads, hworld]
    rw [filterMap_range_of_none hpeers fun i hi => by rw [H.known i hi]; rfl]
    exact H.calls
  · rw [hreads, hconn, hworld]
    exact H.replied i

theorem History.received {s : HttpServer (ω × List Request)} (H : History handle w es s) {i : Nat}
    {p q : Peer} {chunk : Bytes} {world : ω × List Request} (hp : s.peers[i]? = some p)
    (hop : p.op = some (.read true))
    (hread : p.conn.doRead handle.recorded chunk s.world = (.ok q.conn, world))
    (hinv : ({ s with world := world, peers := s.peers.set i q } : HttpServer _).Inv) :
    History handle w (es ++ [.read i (.ok chunk)])
      { s with world := world, peers := s.peers.set i q } := by
  have hsound := H.inv.sound p (List.mem_of_getElem? hp)
  have hbefore := H.answered i
  rw [connAt_of_getElem? hp] at hbefore
  obtain ⟨hafter, hnone, hcall⟩ := hbefore.read (hsound.reading true hop) hread
  have hi : i < s.peers.length := (List.getElem?_eq_some_iff.mp hp).1
  have hother (j : Nat) (hj : j ≠ i) :
      readsOf j (es ++ [.read i (.ok chunk)]) = readsOf j es :=
    readsOf_other (fun c heq => hj (Completion.read.inj heq).1.symm) es
  have hsame (j : Nat) (hj : j ≠ i) : requestOf (readsOf j (es ++ [.read i (.ok chunk)])).flatten =
      requestOf (readsOf j es).flatten := by rw [hother j hj]
  have hflatten : (readsOf i (es ++ [.read i (.ok chunk)])).flatten =
      (readsOf i es).flatten ++ chunk := by
    rw [readsOf_read]
    simp
  refine ⟨hinv, fun j hj => ?_, fun j => ?_, ?_, ?_, fun j req hreq => ?_⟩
  · have hj' : s.peers.length ≤ j := by simpa using hj
    rw [hother j (by omega)]
    exact H.known j hj'
  · rw [connAt_set hp]
    by_cases hj : j = i
    · rw [if_pos hj, hj, hflatten]
      exact hafter
    · rw [if_neg hj, hother j hj]
      exact H.answered j
  · rw [List.length_set]
    obtain ⟨hquiet, rfl⟩ | ⟨req, rep, hreq, -, -, rfl⟩ := hcall
    · have hall : (fun j => requestOf (readsOf j (es ++ [.read i (.ok chunk)])).flatten) =
          fun j => requestOf (readsOf j es).flatten := by
        funext j
        by_cases hj : j = i
        · rw [hj, hflatten, hquiet, hnone]
        · exact hsame j hj
      rw [hall]
      exact H.calls
    · refine (List.perm_append_comm.trans (H.calls.cons req)).trans (List.Perm.symm ?_)
      exact perm_filterMap_new List.nodup_range (List.mem_range.mpr hi) hnone
        (by rw [hflatten, hreq])
        hsame
  · obtain ⟨-, rfl⟩ | ⟨req, rep, -, -, -, rfl⟩ := hcall
    · exact H.world
    · rw [worldAfter_append, ← H.world]
      rfl
  · by_cases hj : j = i
    · subst hj
      rw [hflatten] at hreq
      rw [connAt_set hp, if_pos rfl]
      obtain ⟨hquiet, -⟩ | ⟨req', rep, hreq', hhandle, hwritten, rfl⟩ := hcall
      · simp [hquiet] at hreq
      · obtain rfl : req' = req := Option.some.inj (hreq'.symm.trans hreq)
        exact ⟨rep, hwritten, s.world.2, List.prefix_refl _, by rw [← H.world, hhandle]⟩
    · rw [hother j hj] at hreq
      rw [connAt_set hp, if_neg hj]
      obtain ⟨rep, hwritten, before, hbefore, hhandle⟩ := H.replied j req hreq
      refine ⟨rep, hwritten, before, hbefore.trans ?_, hhandle⟩
      obtain ⟨-, rfl⟩ | ⟨req', rep', -, -, -, rfl⟩ := hcall
      · exact List.prefix_refl _
      · exact List.prefix_append _ _

theorem History.step {s s' : HttpServer (ω × List Request)} (H : History handle w es s)
    (he : s.Enabled e) (h : s.step handle.recorded e = .ok s') :
    History handle w (es ++ [e]) s' := by
  have heffect := effect_of_step he h
  have hinv := H.inv.effect heffect
  by_cases hread : ∃ i chunk, e = .read i (.ok chunk)
  · obtain ⟨i, chunk, rfl⟩ := hread
    cases heffect with
    | received hp hop hread => exact H.received hp hop hread hinv
    | aborted he => exact absurd rfl (he i chunk)
    | dropped he => exact absurd rfl (he i chunk)
  · exact H.silent heffect fun i chunk heq => hread ⟨i, chunk, heq⟩

theorem history_reaches {s : HttpServer (ω × List Request)}
    (h : Reaches (HttpServer.step handle.recorded) Enabled (start (w, [])) es s) :
    History handle w es s :=
  h.history (history_start handle w) fun _ _ _ _ H he hs => H.step he hs

theorem History.ok_reply {s : HttpServer (ω × List Request)} (H : History handle w es s) {i : Nat}
    {rep : Reply} (hrep : (connAt s.peers i).written = [rep]) (hok : rep.status = some .ok) :
    ∃ req, requestOf (readsOf i es).flatten = some req ∧ RepliedAt handle w s.world.2 req rep := by
  obtain ⟨-, -, hnone⟩ | ⟨m, hm⟩ | ⟨-, -, hrefused⟩ := (H.answered i).grammar
  · simp [hnone] at hrep
  · have hreq := requestOf_eq_some_iff.mpr ⟨m, hm, rfl⟩
    obtain ⟨rep', hwritten, hreplied⟩ := H.replied i m.request hreq
    obtain rfl := (List.cons.inj (hwritten.symm.trans hrep)).1
    exact ⟨m.request, hreq, hreplied⟩
  · obtain rfl := (List.cons.inj (hrefused.symm.trans hrep)).1
    simp [stockReply] at hok

end History

/-- For every handler and every order of completions: what each connection has answered is
determined by its own bytes: nothing while they can still become a request, one reply to the
request they begin with, or the refusal. The handler has been called with exactly these requests,
once for each connection that has one, and has left its world as those calls do one after the
other; each of the replies is the one that it gives in the world that the calls before it left. -/
theorem requests_served (handle : Handler ω) (w : ω) (es : List Completion)
    (s : HttpServer (ω × List Request))
    (h : Reaches (step handle.recorded) Enabled (start (w, [])) es s) :
    (∀ i, let text := (readsOf i es).flatten
      let conn := connAt s.peers i
      Begins text ∧ conn.reading = true ∧ conn.written = [] ∨
      (∃ m : Message, m.text <+: text ∧
        ∃ rep, RepliedAt handle w s.world.2 m.request rep ∧ conn.written = [rep]) ∨
      ¬ Begins text ∧ (∀ m : Message, ¬ m.text <+: text) ∧
        conn.written = [stockReply .badRequest]) ∧
    s.world.2.Perm ((List.range s.peers.length).filterMap fun i =>
      requestOf (readsOf i es).flatten) ∧
    s.world.1 = worldAfter handle w s.world.2 := by
  have H := history_reaches h
  refine ⟨fun i => ?_, H.calls, H.world⟩
  obtain hwaiting | ⟨m, hm⟩ | hrefused := (H.answered i).grammar
  · exact Or.inl hwaiting
  · obtain ⟨rep, hwritten, hreplied⟩ :=
      H.replied i m.request (requestOf_eq_some_iff.mpr ⟨m, hm, rfl⟩)
    exact Or.inr (Or.inl ⟨m, hm, rep, hreplied, hwritten⟩)
  · exact Or.inr (Or.inr hrefused)

section Reading
variable {handle : Handler ω} {s : HttpServer ω} {text : Bytes} {conn : Connection}

theorem exists_read (hopen : s.acceptor_ = true) (haccepting : s.accepting = true)
    (hfits : ReadFits bufferSize (.ok text)) {world : ω}
    (hread : Connection.start.doRead handle text s.world = (.ok conn, world)) :
    ∃ s', Reaches (step handle) Enabled s [.accept none, .read s.peers.length (.ok text)] s' ∧
      s'.acceptor_ = true ∧ s'.accepting = true ∧ s'.world = world ∧
      s'.peers.length = s.peers.length + 1 ∧ connAt s'.peers s.peers.length = conn ∧
      ∀ i < s.peers.length, connAt s'.peers i = connAt s.peers i := by
  let accepted : HttpServer ω :=
    ({ s with accepting := false }.managerStart ⟨.start, true, none⟩).doAccept
  let p : Peer := ⟨.start, true, some (.read true)⟩
  let q : Peer := ⟨conn, true, some (if conn.reading then .read true else .write true)⟩
  have haccept : s.step handle (.accept none) = .ok accepted := by simp [step, accepted, hopen]
  have hp : accepted.peers[s.peers.length]? = some p := List.getElem?_concat_length
  have hstep : accepted.step handle (.read s.peers.length (.ok text)) =
      .ok { accepted with world := world, peers := accepted.peers.set s.peers.length q } := by
    have hworld : accepted.world = s.world := rfl
    simp only [step, hp, hworld, p, hread]
    cases hreading : conn.reading <;> simp [q, hreading, Peer.doRead, Peer.doWrite]
  refine ⟨_, ⟨⟨haccepting, by simp⟩, accepted, haccept, ⟨p, hp, rfl, hfits⟩, _, hstep, rfl⟩, hopen,
    rfl, rfl, ?_, ?_,
    fun i hi => ?_⟩
  · simp [accepted, managerStart, doAccept]
  · rw [connAt_set hp, if_pos rfl]
  · rw [connAt_set hp, if_neg (Nat.ne_of_lt hi)]
    exact connAt_concat s.peers rfl i

theorem exists_first_read (hfits : ReadFits bufferSize (.ok text)) {w world : ω}
    (hread : Connection.start.doRead handle text w = (.ok conn, world)) :
    ∃ s, Reaches (step handle) Enabled (start w) [.accept none, .read 0 (.ok text)] s ∧
      s.world = world ∧
      connAt s.peers 0 = conn := by
  obtain ⟨s, hs, -, -, hworld, -, hconn, -⟩ := exists_read (s := start w) rfl rfl hfits hread
  exact ⟨s, hs, hworld, hconn⟩

theorem doRead_requestOf {req : Request} {rep : Reply} {w w' : ω} (hreq : requestOf text = some req)
    (hhandle : handle req Reply.start w = (.ok rep, w')) :
    ∃ conn, Connection.start.doRead handle text w = (.ok conn, w') ∧ conn.written = [rep] := by
  obtain ⟨m, ⟨rest, rfl⟩, rfl⟩ := requestOf_eq_some_iff.mp hreq
  refine ⟨⟨.expectingNewline3, m.request, rep, false, [rep]⟩, ?_, rfl⟩
  have hparse := m.parse_text rest
  simp [Connection.doRead, Connection.start, Connection.doWrite, hparse, hhandle]

end Reading

theorem exists_first_reply {handle : Handler ω} {text content : Bytes} {w : ω}
    (hfits : ReadFits bufferSize (.ok text))
    (hwritten : ((Connection.start.doRead handle text w).1.map fun conn =>
      conn.written.map fun rep => (rep.status, rep.content)) = .ok [(some .ok, content)]) :
    ∃ s rep, Reaches (step handle) Enabled (start w) [.accept none, .read 0 (.ok text)] s ∧
      s.world = (Connection.start.doRead handle text w).2 ∧ (connAt s.peers 0).written = [rep] ∧
      rep.status = some .ok ∧ rep.content = content := by
  obtain ⟨conn, hconn, hreps⟩ := map_eq_ok_iff.mp hwritten
  obtain ⟨rep, hrep, hpair⟩ := List.map_eq_singleton_iff.mp hreps
  obtain ⟨hok, hcontent⟩ := Prod.mk.inj hpair
  obtain ⟨s, hs, hworld, hat⟩ := exists_first_read hfits (Prod.ext hconn rfl :
    Connection.start.doRead handle text w = (.ok conn, (Connection.start.doRead handle text w).2))
  exact ⟨s, rep, hs, hworld, by rw [hat, hrep], hok, hcontent⟩

/-- Two connections whose reads come in turns: the first has its request handled, the second is
refused. -/
theorem requests_served_sample :
    let handle : Handler Nat := fun _ _ n => (.ok (stockReply .notFound), n + 1)
    let es : List Completion := [.accept none, .read 0 (.ok (ascii "GET /")), .accept none,
      .read 1 (.ok [0]), .read 0 (.ok (ascii " HTTP/1.0\r\n\r\n"))]
    ∃ s, Reaches (step handle.recorded) Enabled (start (0, [])) es s ∧ s.world.1 = 1 ∧
      s.world.2.Perm ((List.range s.peers.length).filterMap fun i =>
        requestOf (readsOf i es).flatten) := by
  intro handle es
  have hrun : ∃ s, Reaches (step handle.recorded) Enabled (start (0, [])) es s ∧ s.world.1 = 1 :=
    ⟨_, ⟨⟨rfl, by simp⟩, _, rfl, ⟨_, rfl, rfl, by decide⟩, _, rfl, ⟨rfl, by simp⟩, _, rfl,
      ⟨_, rfl, rfl, by decide⟩, _, rfl, ⟨_, rfl, rfl, by decide⟩, _, rfl, rfl⟩, rfl⟩
  obtain ⟨s, hs, hworld⟩ := hrun
  exact ⟨s, hs, hworld, (requests_served handle 0 es s hs).2.1⟩

end HttpServer
end ReminderSuite
