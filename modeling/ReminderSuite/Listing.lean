import ReminderSuite.RdbHandler
import ReminderSuite.TextFileCodec
import ReminderSuite.TextStore
import ReminderSuite.Session

/-! Listing requests from the gateway to the store and back: the rows of the store,
through the response of a session and the lines of the client, as property trees. -/
namespace ReminderSuite
open Delimited FirstMatch FallibleRun RdbHandler
variable {ν : Type}

/-- The network in front of a text server: a command that fits the server's buffer
arrives whole in one read of a new session, and so does a response at the client. -/
structure WholeDelivery (net : Network ν) (storeOf : ν → TextStore) : Prop where
  resolve : ∀ w, ∃ w', net.resolve w = (true, w') ∧ storeOf w' = storeOf w
  exchange : ∀ w cmd session store,
    parseRequest textLibrary cmd Session.start (storeOf w) = .ok (session, store) →
    cmd.length ≤ 8192 → session.response_.length ≤ 8192 →
    ∃ w1 w2 w3, net.connect w = (true, w1) ∧ net.send cmd w1 = (true, w2) ∧
      net.readSome streamBuf w2 = (some session.response_, w3) ∧ storeOf (net.close w3) = store

structure Listable (db : DBTextFile) : Prop where
  fields_nodup : db.fields_.Nodup
  fields_key : ∀ f ∈ db.fields_, f ≠ [] ∧ dot ∉ f
  fields_plain : ∀ f ∈ db.fields_, Plain f
  values_plain : ∀ e ∈ db.entries_, ∀ v ∈ e.values, Plain v
  values_le : ∀ e ∈ db.entries_, e.values.length ≤ db.fields_.length

def rowOf (fields : List Bytes) (e : Entry) : Bytes × PTree :=
  ([], .node [] ((fields.zip e.values).map fun p => (p.1, .leaf p.2)))

def remindersTree (children : List (Bytes × PTree)) : PTree :=
  .node [] [(ascii "reminders", .node [] children)]

section Rendering
variable {ops : PTreeOps}

/-- A row no longer than the fields becomes its labelled values. -/
theorem rowNode_eq (hops : ops.Appends) {fields values : List Bytes} {data : Bytes}
    {done : List (Bytes × PTree)} (hlen : values.length ≤ fields.length) (hnodup : fields.Nodup)
    (hkey : ∀ f ∈ fields, f ≠ [] ∧ dot ∉ f) (hnew : ∀ child ∈ done, child.1 ∉ fields) :
    rowNode ops fields values (.node data done) =
      .ok (.node data (done ++ (fields.zip values).map fun p => (p.1, .leaf p.2))) := by
  induction fields generalizing values done with
  | nil =>
    obtain rfl : values = [] := by simpa using hlen
    simp [rowNode]
  | cons f fs ih =>
    cases values with
    | nil => simp [rowNode]
    | cons v vs =>
      obtain ⟨hf, hfs⟩ := List.nodup_cons.mp hnodup
      obtain ⟨hne, hdot⟩ := hkey f (by simp)
      have hput : ops.put (.node data done) f v = .node data (done ++ [(f, .leaf v)]) := by
        apply hops.put _ _ _ hne hdot
        intro child hc he
        exact hnew child hc (by simp [he])
      have hnew' : ∀ child ∈ done ++ [(f, PTree.leaf v)], child.1 ∉ fs := by
        intro child hc
        cases List.mem_append.mp hc with
        | inl hc => exact fun hm => hnew child hc (List.mem_cons_of_mem f hm)
        | inr hc =>
          obtain rfl : child = (f, PTree.leaf v) := by simpa using hc
          exact hf
      rw [rowNode, hput, ih (by simpa using hlen) hfs
        (fun g hg => hkey g (List.mem_cons_of_mem f hg)) hnew']
      simp

theorem tokens_asString {e : Entry} (h : ∀ v ∈ e.values, Plain v) :
    tokens colon e.asString = e.values :=
  tokens_terminated e.values_ne fun v hv => (h v hv).1

theorem rows_eq (hops : ops.Appends) {fields : List Bytes} {entries : List Entry} {data : Bytes}
    {done : List (Bytes × PTree)} (hnodup : fields.Nodup)
    (hkey : ∀ f ∈ fields, f ≠ [] ∧ dot ∉ f)
    (hplain : ∀ e ∈ entries, ∀ v ∈ e.values, Plain v)
    (hlen : ∀ e ∈ entries, e.values.length ≤ fields.length) (tail : List Bytes)
    (htail : tail = [] ∨ tail = [[]]) :
    rows ops fields (entries.map Entry.asString ++ tail) (.node data done) =
      .ok (.node data (done ++ entries.map (rowOf fields))) := by
  induction entries generalizing done with
  | nil => rcases htail with rfl | rfl <;> simp [rows]
  | cons e es ih =>
    have he := hplain e (by simp)
    have hne : e.asString.isEmpty = false := by simpa using e.asString_ne_nil
    have hrow : rowNode ops fields (tokens colon e.asString) .empty = .ok (rowOf fields e).2 := by
      rw [tokens_asString he]
      exact rowNode_eq hops (hlen e (by simp)) hnodup hkey (by simp)
    simp only [List.map_cons, List.cons_append, rows, hne, Bool.false_eq_true, if_false, hrow,
      ok_bind, PTree.pushBack, PTree.data, PTree.children]
    rw [ih (fun d hd => hplain d (List.mem_cons_of_mem e hd))
      (fun d hd => hlen d (List.mem_cons_of_mem e hd))]
    simp [rowOf]

theorem foldl_pushBack (fields : List Bytes) (data : Bytes) (done : List (Bytes × PTree)) :
    fields.foldl (fun (nodes : PTree) field => nodes.pushBack ([], .leaf field)) (.node data done) =
      .node data (done ++ fields.map fun f => ([], .leaf f)) := by
  induction fields generalizing done with
  | nil => simp
  | cons f fs ih =>
    rw [List.foldl_cons, PTree.pushBack, PTree.data, PTree.children, ih]
    simp

theorem addChild_empty (hops : ops.Appends) {key : Bytes} (hne : key ≠ []) (hdot : dot ∉ key)
    (child : PTree) : ops.addChild .empty key child = .node [] [(key, child)] := by
  rw [hops.addChild .empty key child hne hdot (by simp [PTree.empty, PTree.leaf, PTree.children])]
  rfl

theorem fieldsOutput_eq (hops : ops.Appends) (fields : List Bytes) :
    fieldsOutput ops fields =
      .node [] [(ascii "fields", .node [] (fields.map fun field => ([], .leaf field)))] := by
  rw [fieldsOutput, addChild_empty hops (by decide) (by decide), PTree.empty, PTree.leaf,
    foldl_pushBack]
  rfl

theorem fieldsOutput_renderable (hops : ops.Appends) (fields : List Bytes) :
    (fieldsOutput ops fields).Renderable := by
  rw [fieldsOutput_eq hops]
  refine ⟨rfl, .node (Or.inl rfl) ?_⟩
  rw [List.forall_mem_singleton]
  refine .node (Or.inl rfl) fun child hchild => ?_
  obtain ⟨field, -, rfl⟩ := List.mem_map.mp hchild
  exact PTree.unmixed_leaf field

theorem listing_eq (hops : ops.Appends) {db : DBTextFile} (h : Listable db) {entries : List Entry}
    (hsub : ∀ e ∈ entries, e ∈ db.entries_) {tail : List Bytes} (htail : tail = [] ∨ tail = [[]]) :
    listing ops (tokens colon db.fields) (entries.map Entry.asString ++ tail) =
      .ok (remindersTree (entries.map (rowOf db.fields_))) := by
  have hkey : ascii "reminders" ≠ [] ∧ dot ∉ ascii "reminders" := by decide
  have hroot := addChild_empty hops hkey.1 hkey.2
  have hrows : rows ops (tokens colon db.fields) (entries.map Entry.asString ++ tail) .empty =
      .ok (.node [] (entries.map (rowOf db.fields_))) := by
    cases entries with
    | nil => rcases htail with rfl | rfl <;> simp [rows, PTree.empty, PTree.leaf]
    | cons e es =>
      -- a stored entry has a value, so there is a field to label it
      have hfields : db.fields_ ≠ [] := by
        have hlen := h.values_le e (hsub e (by simp))
        have hpos := e.values_pos
        exact List.ne_nil_of_length_pos (by omega)
      rw [DBTextFile.fields, tokens_terminated hfields fun f hf => (h.fields_plain f hf).1]
      exact rows_eq hops h.fields_nodup h.fields_key (fun d hd => h.values_plain d (hsub d hd))
        (fun d hd => h.values_le d (hsub d hd)) tail htail
  rw [listing, hrows, map_ok, hroot]
  rfl

end Rendering

section Exchange
variable {net : Network ν} {storeOf : ν → TextStore} {ops : PTreeOps} {w : ν}

theorem executeCmd_whole (hnet : WholeDelivery net storeOf) {cmd : Bytes} {session : Session}
    {store : TextStore}
    (h : parseRequest textLibrary cmd Session.start (storeOf w) = .ok (session, store))
    (hcmd : cmd.length ≤ 8192) (hreply : session.response_.length ≤ 8192) :
    ∃ w', executeCmd net cmd [] w = ((true, tokens lf session.response_), w') ∧
      storeOf w' = store := by
  obtain ⟨w1, w2, w3, h1, h2, h3, hs⟩ := hnet.exchange w cmd _ _ h hcmd hreply
  exact ⟨_, executeCmd_of_delivered h1 h2 h3 [], hs⟩

theorem fields_reply (s : TextStore) :
    parseRequest textLibrary (ascii "/fields") Session.start s =
      .ok (Session.doWrite ⟨s.db.fields, []⟩, s) := by
  have hplan : plan (segments (ascii "/fields")) = .ok (some .fields) := by decide
  exact parseRequest_call hplan (invoke_text .fields s)

theorem executeCmd_fields (hnet : WholeDelivery net storeOf) (hplain : lf ∉ (storeOf w).db.fields)
    (hfields : ((storeOf w).db.fields ++ [lf]).length ≤ 8192) :
    ∃ w', executeCmd net (ascii "/fields") [] w = ((true, [(storeOf w).db.fields]), w') ∧
      storeOf w' = storeOf w := by
  obtain ⟨w', hexec, hs⟩ := executeCmd_whole hnet (fields_reply (storeOf w)) (by decide) hfields
  refine ⟨w', ?_, hs⟩
  rw [hexec]
  simp only [Session.doWrite, tokens_append_sep hplain, if_true]

theorem substr_rdb (param : Bytes) : substr (ascii "/rdb" ++ param) 4 none = .ok param := by
  simp [substr, ascii]

theorem parse_get (hnet : WholeDelivery net storeOf) (hplain : lf ∉ (storeOf w).db.fields)
    {param : Bytes} {session : Session} {store : TextStore} (hget : isGet param = true)
    (h : parseRequest textLibrary param Session.start (storeOf w) = .ok (session, store))
    (hcmd : param.length ≤ 8192) (hfields : ((storeOf w).db.fields ++ [lf]).length ≤ 8192)
    (hreply : session.response_.length ≤ 8192) :
    (parse ops (dataClient net) (ascii "/rdb" ++ param) w).1 =
      (listing ops (tokens colon (storeOf w).db.fields) (tokens lf session.response_)).map
        fun output => some (.json output) := by
  obtain ⟨w0, hcreate, hs0⟩ := hnet.resolve w
  rw [← hs0] at hplain h hfields ⊢
  obtain ⟨w1, hexec1, hs1⟩ := executeCmd_fields hnet hplain hfields
  rw [← hs1] at h
  obtain ⟨w2, hexec2, -⟩ := executeCmd_whole hnet h hcmd hreply
  have hne : param ≠ ascii "/fields" := by
    intro heq
    subst heq
    exact absurd hget (by decide)
  simp [parse, forward, dataClient, hcreate, substr_rdb, hget, hne, hexec1, hexec2]

theorem tokens_getAll {db : DBTextFile} (h : db.All fun e => lf ∉ e.asString) :
    tokens lf (db.getAll.flatMap (fun line => line ++ [lf]) ++ [lf]) =
      db.entries_.map Entry.asString ++ [[]] := by
  have hterm : db.getAll.flatMap (fun line => line ++ [lf]) ++ [lf] =
      terminated lf (db.entries_.map Entry.asString ++ [[]]) := by
    simp [terminated, DBTextFile.getAll]
  rw [hterm]
  apply tokens_terminated (by simp)
  intro line hline
  cases List.mem_append.mp hline with
  | inl hl =>
    obtain ⟨e, he, rfl⟩ := List.mem_map.mp hl
    exact h e he
  | inr hl => simp_all

theorem parse_getAll (hnet : WholeDelivery net storeOf) (hops : ops.Appends)
    (h : Listable (storeOf w).db) (hfields : ((storeOf w).db.fields ++ [lf]).length ≤ 8192)
    (hreply : ((storeOf w).db.getAll.flatMap (fun line => line ++ [lf]) ++ [lf]).length ≤ 8192) :
    (parse ops (dataClient net) (ascii "/rdb/get") w).1 =
      .ok (some (.json (remindersTree
        ((storeOf w).db.entries_.map (rowOf (storeOf w).db.fields_))))) := by
  have hplan : plan (segments (ascii "/get")) = .ok (some .getAll) := by decide
  have hcall : parseRequest textLibrary (ascii "/get") Session.start (storeOf w) = _ :=
    parseRequest_call hplan (invoke_text .getAll (storeOf w))
  have hpath : ascii "/rdb/get" = ascii "/rdb" ++ ascii "/get" := by decide
  rw [hpath, parse_get hnet (terminated_plain h.fields_plain) (by decide) hcall (by decide) hfields
    hreply]
  simp only [Session.doWrite, answer]
  rw [tokens_getAll fun e he => terminated_plain (h.values_plain e he),
    listing_eq hops h (fun e he => he) (Or.inr rfl), map_ok]

theorem parse_getName (hnet : WholeDelivery net storeOf) (hops : ops.Appends)
    (h : Listable (storeOf w).db) (hfields : ((storeOf w).db.fields ++ [lf]).length ≤ 8192)
    {name : Bytes} {it : Cursor Entry} (hit : (storeOf w).db.Found name it) (hne : name ≠ [])
    (hclean : Clean name) (hcmd : (ascii "/get/" ++ name).length ≤ 8192)
    (hreply : (it.here.asString ++ [lf]).length ≤ 8192) :
    (parse ops (dataClient net) (ascii "/rdb/get/" ++ name) w).1 =
      .ok (some (.json (remindersTree [rowOf (storeOf w).db.fields_ it.here]))) := by
  have hspell : ascii "/rdb/get/" ++ name = ascii "/rdb" ++ spell [ascii "get", name] := by
    simp [spell, ascii, ch, slash]
  have hget : isGet (spell [ascii "get", name]) = true := by
    simp [isGet, spell, ascii, ch, slash]
  have hi : textLibrary.invoke (.get name []) (storeOf w) =
      .ok (.text it.here.asString, storeOf w) := by
    have hfind : (storeOf w).db.findName name = some it := DBTextFile.findName_of_found hit
    simp [invoke_text, DBTextFile.get, hfind]
  have hanswer : answer (stripCRLF (spell [ascii "get", name])) (.get name [])
      (.text it.here.asString) = it.here.asString := by
    simp [answer, it.here.asString_ne_nil]
  have hcall : parseRequest textLibrary (spell [ascii "get", name]) Session.start (storeOf w) = _ :=
    parseRequest_call (plan_get_name hclean hne) hi
  rw [hanswer] at hcall
  have hsub : ∀ e ∈ [it.here], e ∈ (storeOf w).db.entries_ := by simpa using hit.mem
  have hplain : lf ∉ it.here.asString := terminated_plain (h.values_plain _ hit.mem)
  rw [hspell, parse_get hnet (terminated_plain h.fields_plain) hget hcall
    (by simpa [spell, ascii] using hcmd) hfields hreply]
  have hrow := listing_eq hops h hsub (Or.inl rfl)
  simp only [List.map_singleton, List.append_nil] at hrow
  simp only [Session.doWrite, tokens_append_sep hplain, if_true]
  rw [hrow, map_ok]

theorem parse_fields (hnet : WholeDelivery net storeOf) (hops : ops.Appends)
    (h : Listable (storeOf w).db) (hfields : ((storeOf w).db.fields ++ [lf]).length ≤ 8192)
    (hne : (storeOf w).db.fields_ ≠ []) :
    (parse ops (dataClient net) (ascii "/rdb/fields") w).1 =
      .ok (some (.json (.node [] [(ascii "fields",
        .node [] ((storeOf w).db.fields_.map fun f => ([], .leaf f)))]))) := by
  obtain ⟨w0, hcreate, hs0⟩ := hnet.resolve w
  obtain ⟨w1, hexec, -⟩ := executeCmd_fields hnet (hs0 ▸ terminated_plain h.fields_plain)
    (hs0 ▸ hfields)
  have hfs : tokens colon (storeOf w).db.fields = (storeOf w).db.fields_ :=
    tokens_terminated hne fun f hf => (h.fields_plain f hf).1
  have hpath : ascii "/rdb/fields" = ascii "/rdb" ++ ascii "/fields" := by decide
  rw [hpath]
  simp only [parse, dataClient, hcreate, substr_rdb, true_or, if_true, hexec, hs0]
  rw [hfs, fieldsOutput_eq hops]

end Exchange

/-- Listings end to end. Through a network that delivers whole, the gateway makes of
`/rdb/get` one child for each stored entry in order, of `/rdb/get/n` one for the
first entry named `n`, and of `/rdb/fields` the fields in order; the child of an
entry is the pairs of its values with the fields at their positions. -/
theorem gateway_lists_store (net : Network ν) (storeOf : ν → TextStore) (ops : PTreeOps)
    (hnet : WholeDelivery net storeOf) (hops : ops.Appends) (w : ν)
    (h : Listable (storeOf w).db) (hfields : ((storeOf w).db.fields ++ [lf]).length ≤ 8192) :
    let db := (storeOf w).db
    ((db.getAll.flatMap (fun line => line ++ [lf]) ++ [lf]).length ≤ 8192 →
      (parse ops (dataClient net) (ascii "/rdb/get") w).1 =
        .ok (some (.json (remindersTree (db.entries_.map (rowOf db.fields_)))))) ∧
    (∀ name it, db.Found name it → name ≠ [] → Clean name →
      (ascii "/get/" ++ name).length ≤ 8192 → (it.here.asString ++ [lf]).length ≤ 8192 →
      (parse ops (dataClient net) (ascii "/rdb/get/" ++ name) w).1 =
        .ok (some (.json (remindersTree [rowOf db.fields_ it.here])))) ∧
    (db.fields_ ≠ [] →
      (parse ops (dataClient net) (ascii "/rdb/fields") w).1 =
        .ok (some (.json (.node [] [(ascii "fields",
          .node [] (db.fields_.map fun f => ([], .leaf f)))])))) := by
  exact ⟨parse_getAll hnet hops h hfields,
    fun _ _ hit hne hclean hcmd hreply =>
      parse_getName hnet hops h hfields hit hne hclean hcmd hreply,
    parse_fields hnet hops h hfields⟩

section Loopback

/-- A text server at the other end of a lossless link: the store, and the response
that waits to be read. A request on which the server fails leaves none. -/
def loopback : Network (TextStore × Bytes) where
  resolve w := (true, w)
  connect w := (true, (w.1, []))
  send cmd w :=
    match parseRequest textLibrary (cmd.take 8192) Session.start w.1 with
    | .ok (session, store) => (true, (store, session.response_))
    | .error _ => (true, (w.1, []))
  readSome n w := if w.2.isEmpty then (none, w) else (some (w.2.take n), (w.1, w.2.drop n))
  close w := (w.1, [])

theorem loopback_whole : WholeDelivery loopback Prod.fst where
  resolve w := ⟨w, rfl, rfl⟩
  exchange w cmd session store hparse hcmd hresponse := by
    have hne : session.response_ ≠ [] := by
      obtain ⟨response, rfl⟩ := parseRequest_response hparse
      simp [Session.doWrite]
    refine ⟨(w.1, []), (store, session.response_), (store, []), rfl, ?_, ?_, rfl⟩
    · simp [loopback, List.take_of_length_le hcmd, hparse]
    · simp [loopback, hne, streamBuf, List.take_of_length_le hresponse,
        List.drop_of_length_le hresponse]

/-- A full row and a short one -/
theorem gateway_lists_store_sample :
    let milk : Entry := ⟨[ascii "milk", []], by simp⟩
    let eggs : Entry := ⟨[ascii "eggs"], by simp⟩
    let s : TextStore := ⟨⟨[ascii "name", ascii "note"], [milk, eggs]⟩, ⟨[], true, true⟩⟩
    let answered := fun path => (parse plainTree (dataClient loopback) (ascii path) (s, [])).1
    let eggsNode : Bytes × PTree := ([], .node [] [(ascii "name", .leaf (ascii "eggs"))])
    answered "/rdb/get" = .ok (some (.json (.node [] [(ascii "reminders", .node []
        [([], .node [] [(ascii "name", .leaf (ascii "milk")), (ascii "note", .leaf [])]),
          eggsNode])]))) ∧
    answered "/rdb/get/eggs" =
      .ok (some (.json (.node [] [(ascii "reminders", .node [] [eggsNode])]))) ∧
    answered "/rdb/fields" = .ok (some (.json (.node [] [(ascii "fields", .node []
      [([], .leaf (ascii "name")), ([], .leaf (ascii "note"))])]))) := by
  intro milk eggs s answered eggsNode
  have hlist : Listable s.db := ⟨by decide, by decide, by decide, by decide, by decide⟩
  have hfound : s.db.Found (ascii "eggs") ⟨[milk], eggs, []⟩ :=
    DBTextFile.found_of_findName rfl
  obtain ⟨hall, hname, hfields⟩ := gateway_lists_store loopback Prod.fst plainTree loopback_whole
    plainTree_appends (s, []) hlist (by decide)
  exact ⟨hall (by decide),
    hname _ _ hfound (by decide) (by unfold Clean; decide) (by decide) (by decide),
    hfields (by decide)⟩

end Loopback
end ReminderSuite
