import ReminderSuite.Listing
import ReminderSuite.ResponseEnd
import ReminderSuite.Replies

/-! Whether the gateway has a field for every value that it renders: the rows of the
reply to a lookup against the reply to the lookup of the fields. -/
namespace ReminderSuite
open Delimited FirstMatch FallibleRun RdbHandler
variable {ν : Type}

section Rows
variable {ops : PTreeOps} {fields : List Bytes} {fault : Fault}

theorem rowNode_error_iff {values : List Bytes} {node : PTree} :
    rowNode ops fields values node = .error fault ↔
      fault = .pastEnd ∧ fields.length < values.length := by
  induction fields generalizing values node with
  | nil => cases values <;> simp [rowNode, eq_comm]
  | cons f fs ih =>
    cases values with
    | nil => simp [rowNode]
    | cons v vs => simp [rowNode, ih]

/-- The rendering fails exactly at the end of the fields, for a row with too many pieces. -/
theorem rows_error_iff {result : List Bytes} {nodes : PTree} :
    rows ops fields result nodes = .error fault ↔
      fault = .pastEnd ∧ ∃ row ∈ result, row ≠ [] ∧ fields.length < pieceCount colon row := by
  induction result generalizing nodes with
  | nil => simp [rows]
  | cons row rest ih =>
    cases row with
    | nil => simp [rows, ih]
    | cons b bs =>
      rw [rows, List.isEmpty_cons, if_neg Bool.false_ne_true]
      simp only [List.exists_mem_cons_iff, ← length_tokens colon (b :: bs)]
      cases hr : rowNode ops fields (tokens colon (b :: bs)) .empty with
      | error e =>
        obtain ⟨rfl, hlong⟩ := rowNode_error_iff.mp hr
        simp [hlong, eq_comm]
      | ok node =>
        have hfits : ¬ fields.length < (tokens colon (b :: bs)).length := fun hlong => by
          simp [rowNode_error_iff.mpr ⟨rfl, hlong⟩] at hr
        simp [hfits, ih]

theorem listing_error_iff {result : List Bytes} :
    listing ops fields result = .error fault ↔
      fault = .pastEnd ∧ ∃ row ∈ result, row ≠ [] ∧ fields.length < pieceCount colon row := by
  rw [← @rows_error_iff ops fields fault result .empty, listing]
  cases rows ops fields result .empty <;> simp

end Rows

def Entry.pieces (e : Entry) : Nat := e.values.length + e.values.flatten.count colon

theorem Entry.pieceCount_asString (e : Entry) : pieceCount colon e.asString = e.pieces :=
  pieceCount_terminated colon e.values_ne

def DBTextFile.piecesAt (db : DBTextFile) (name field : Bytes) : Option Nat :=
  match db.findName name with
  | none => none
  | some it =>
    if field = [] then some it.here.pieces
    else match db.cell? name field with
      | some (b :: bs) => some (pieceCount colon (b :: bs))
      | _ => none

/-- The lines of the reply to a request that starts with `/get`: the stored records for a bare get,
the record or the value that a lookup finds, or the error text. A lookup past the end of a record
has no reply. -/
def DBTextFile.replyLines (db : DBTextFile) (chunk : Bytes) : List Bytes :=
  match plan (segments chunk) with
  | .ok (some .getAll) => db.entries_.map Entry.asString
  | .ok (some (.get name field)) =>
    match db.get name field with
    | .ok [] => [ascii "ERROR: Not found: " ++ stripCRLF chunk]
    | .ok (b :: bs) => [b :: bs]
    | .error _ => []
  | _ => [ascii "ERROR: Unrecognized command: " ++ stripCRLF chunk]

/-- As far as they are in the first `m` bytes, no line of the reply has more pieces than the first
`n` bytes of the line of the fields. -/
def RowsFit (db : DBTextFile) (chunk : Bytes) (n m : Nat) : Prop :=
  ∀ row ∈ shown m (db.replyLines chunk), row ≠ [] →
    pieceCount colon row ≤ pieceCount colon (db.fields.take n)

/-- No row of the whole reply has more pieces than there are fields: neither a stored record,
all of them for a bare get, nor the value that a lookup finds, nor the error text for a
lookup that finds nothing and for any other command, which has two pieces more than the
command it quotes. -/
def WholeRowsFit (db : DBTextFile) (chunk : Bytes) : Prop :=
  match plan (segments chunk) with
  | .ok (some .getAll) => ∀ e ∈ db.entries_, e.pieces ≤ db.fields_.length
  | .ok (some (.get name field)) =>
    db.readsPastEnd name field = true ∨
      (db.piecesAt name field).getD (pieceCount colon (stripCRLF chunk) + 2) ≤ db.fields_.length
  | _ => pieceCount colon (stripCRLF chunk) + 2 ≤ db.fields_.length

/-- The network in front of a text server: one read of a new session takes a command as far as it
fits the buffer. The one read of the response returns a beginning of it, whose length the state
behind the network holds in store. -/
structure CutDelivery (net : Network ν) (storeOf : ν → TextStore) (cuts : ν → List Nat) : Prop where
  resolve : ∀ w, ∃ w', net.resolve w = (true, w') ∧ storeOf w' = storeOf w ∧ cuts w' = cuts w
  exchange : ∀ w n rest cmd session store, cuts w = n :: rest → 0 < n → n ≤ streamBuf →
    parseRequest textLibrary (cmd.take requestBuf) Session.start (storeOf w) =
      .ok (session, store) →
    ∃ w1 w2 w3, net.connect w = (true, w1) ∧ net.send cmd w1 = (true, w2) ∧
      net.readSome streamBuf w2 = (some (session.response_.take n), w3) ∧
      storeOf (net.close w3) = store ∧ cuts (net.close w3) = rest

def commandRead (path : Bytes) : Bytes := (path.drop 4).take requestBuf

/-- If the request for this path is answered, the iterator over the fields is only dereferenced
before their end while the answer is rendered. -/
def IteratorInRange (net : Network ν) (ops : PTreeOps) (s : TextStore) (path : Bytes)
    (w : ν) : Prop :=
  (∃ reply s', parseRequest textLibrary (commandRead path) Session.start s = .ok (reply, s')) →
    (parse ops (dataClient net) path w).1 ≠ .error .pastEnd

instance (db : DBTextFile) (chunk : Bytes) (n m : Nat) : Decidable (RowsFit db chunk n m) :=
  inferInstanceAs (Decidable (∀ row ∈ shown m (db.replyLines chunk), row ≠ [] →
    pieceCount colon row ≤ pieceCount colon (db.fields.take n)))

section Requests
variable {s : TextStore}

theorem tokens_fields (h : LineSafe s.db) : tokens colon s.db.fields = s.db.fields_ :=
  tokens_terminated h.fields_ne fun f hf => (h.fields_plain f hf).1

theorem tokens_line {line : Bytes} (h : lf ∉ line) : tokens lf (line ++ [lf]) = [line] := by
  simp [tokens_append_sep h]

theorem segments_of_get {chunk : Bytes} (h : ascii "/get" <+: chunk) :
    ∃ tail args, segments chunk = (ascii "get" ++ tail) :: args := by
  obtain ⟨rest, rfl⟩ := h
  have hword : slash ∉ ascii "get" := ascii_get_clean.2.2
  have hstrip : stripCRLF (ascii "/get" ++ rest) = slash :: (ascii "get" ++ stripCRLF rest) := by
    have hsame : stripCRLF (ascii "/get") = slash :: ascii "get" := by decide
    rw [stripCRLF, List.filter_append]
    exact congrArg (· ++ stripCRLF rest) hsame
  obtain ⟨p, ps, hp⟩ := List.exists_cons_of_ne_nil (tokens_ne_nil slash (stripCRLF rest))
  have htok : tokens slash (stripCRLF (ascii "/get" ++ rest)) = [] :: (ascii "get" ++ p) :: ps := by
    rw [hstrip, tokens_cons_sep, if_neg (by simp [ascii]), tokens_append_of_sep_not_mem hword, hp]
    rfl
  exact ⟨p, ps, by rw [segments, htok]⟩

theorem plan_of_get {chunk : Bytes} (h : ascii "/get" <+: chunk) :
    plan (segments chunk) = .ok none ∧
      refusal (stripCRLF chunk) (segments chunk) =
        ascii "ERROR: Unrecognized command: " ++ stripCRLF chunk ∨
    plan (segments chunk) = .ok (some .getAll) ∨
    ∃ name field, plan (segments chunk) = .ok (some (.get name field)) := by
  obtain ⟨tail, args, hseg⟩ := segments_of_get h
  rw [hseg]
  have hset : ascii "get" ++ tail ≠ ascii "set" := by simp [ascii, ch]
  have hdelete : ascii "get" ++ tail ≠ ascii "delete" := by simp [ascii, ch]
  have hfields : ascii "get" ++ tail ≠ ascii "fields" := by simp [ascii, ch]
  have hcommit : ascii "get" ++ tail ≠ ascii "commit" := by simp [ascii, ch]
  by_cases htail : ascii "get" ++ tail = ascii "get"
  · rw [htail]
    cases args with
    | nil => exact Or.inr (Or.inl rfl)
    | cons name rest =>
      cases rest with
      | nil => exact Or.inr (Or.inr ⟨name, [], rfl⟩)
      | cons field rest => exact Or.inr (Or.inr ⟨name, field, rfl⟩)
  · refine Or.inl ⟨?_, ?_⟩
    · simp only [plan, if_neg htail, if_neg hset, if_neg hdelete, if_neg hfields, if_neg hcommit]
    · simp only [refusal, if_neg hset]

theorem piecesAt_of_get {db : DBTextFile} {name field reply : Bytes}
    (h : db.get name field = .ok reply) :
    db.piecesAt name field = if reply = [] then none else some (pieceCount colon reply) := by
  cases DBTextFile.get_ok h with
  | inl habsent =>
    obtain ⟨hreply, hn | ⟨hfield, hf⟩⟩ := habsent
    · simp [DBTextFile.piecesAt, hreply, hn]
    · cases hn : db.findName name <;> simp [DBTextFile.piecesAt, DBTextFile.cell?, hreply,
        hn, hf, hfield]
  | inr hfound =>
    obtain ⟨it, hit, hreply⟩ := hfound
    have hn := DBTextFile.findName_of_found hit
    cases hreply with
    | inl hrecord =>
      obtain ⟨rfl, rfl⟩ := hrecord
      simp [DBTextFile.piecesAt, hn, it.here.asString_ne_nil, Entry.pieceCount_asString]
    | inr hvalue =>
      obtain ⟨hfield, hcell, -⟩ := hvalue
      cases reply <;> simp [DBTextFile.piecesAt, hn, hfield, hcell]

theorem pieceCount_error {prompt : Bytes} (hprompt : prompt.count colon = 2) {chunk : Bytes}
    (h : ascii "/get" <+: chunk) :
    pieceCount colon (prompt ++ stripCRLF chunk) = pieceCount colon (stripCRLF chunk) + 2 := by
  have hne : stripCRLF chunk ≠ [] := by
    intro hnil
    obtain ⟨tail, args, hseg⟩ := segments_of_get h
    simp [segments, hnil, ascii] at hseg
  rw [pieceCount_append colon prompt hne, hprompt, Nat.add_comm]

theorem line_rows_iff {line : Bytes} (hlf : lf ∉ line) (hne : line ≠ []) (k : Nat) :
    (∀ row ∈ tokens lf (line ++ [lf]), row ≠ [] → pieceCount colon row ≤ k) ↔
      pieceCount colon line ≤ k := by
  rw [tokens_line hlf]
  simp [hne]

theorem unrecognised_rows_iff (k : Nat) {chunk : Bytes} (hget : ascii "/get" <+: chunk) :
    (∀ row ∈ tokens lf (ascii "ERROR: Unrecognized command: " ++ stripCRLF chunk ++ [lf]),
      row ≠ [] → pieceCount colon row ≤ k) ↔ pieceCount colon (stripCRLF chunk) + 2 ≤ k := by
  have hlf : lf ∉ ascii "ERROR: Unrecognized command: " ++ stripCRLF chunk :=
    lf_not_mem_ascii_append (by decide) (lf_not_mem_strip chunk)
  rw [line_rows_iff hlf (by simp [ascii]), pieceCount_error (by decide) hget]

theorem getAll_rows_iff (hsafe : LineSafe s.db) (k : Nat) :
    (∀ row ∈ tokens lf (s.db.getAll.flatMap (fun line => line ++ [lf]) ++ [lf]),
      row ≠ [] → pieceCount colon row ≤ k) ↔ ∀ e ∈ s.db.entries_, e.pieces ≤ k := by
  rw [tokens_getAll fun e he => lf_not_mem_asString hsafe he]
  simp [or_imp, forall_and, Entry.asString_ne_nil, Entry.pieceCount_asString]

theorem get_rows_iff (hsafe : LineSafe s.db) (k : Nat) {chunk name field reply : Bytes}
    (hget : ascii "/get" <+: chunk) (hreply : s.db.get name field = .ok reply) :
    (∀ row ∈ tokens lf (answer (stripCRLF chunk) (.get name field) (.text reply) ++ [lf]),
      row ≠ [] → pieceCount colon row ≤ k) ↔
      (s.db.piecesAt name field).getD (pieceCount colon (stripCRLF chunk) + 2) ≤ k := by
  rw [piecesAt_of_get hreply]
  cases reply with
  | nil =>
    have hlf : lf ∉ ascii "ERROR: Not found: " ++ stripCRLF chunk :=
      lf_not_mem_ascii_append (by decide) (lf_not_mem_strip chunk)
    have hrows := line_rows_iff hlf (by simp [ascii]) k
    rw [pieceCount_error (by decide) hget] at hrows
    simpa [answer] using hrows
  | cons b bs =>
    simpa [answer] using line_rows_iff (lf_not_mem_get hsafe hreply) (List.cons_ne_nil b bs) k

theorem rows_fit_iff (hsafe : LineSafe s.db) {chunk : Bytes} (hget : ascii "/get" <+: chunk)
    {session : Session} {s' : TextStore}
    (h : parseRequest textLibrary chunk Session.start s = .ok (session, s')) :
    (∀ row ∈ tokens lf session.response_, row ≠ [] →
      pieceCount colon row ≤ s.db.fields_.length) ↔ WholeRowsFit s.db chunk := by
  have hcases := plan_of_get hget
  cases parseRequest_ok h with
  | inl hrefused =>
    obtain ⟨hplan, -, rfl⟩ := hrefused
    have htext := hcases.resolve_right (by simp [hplan])
    rw [WholeRowsFit, hplan, htext.2]
    exact unrecognised_rows_iff _ hget
  | inr hcall =>
    obtain ⟨c, result, hplan, hi, rfl⟩ := hcall
    rw [WholeRowsFit, hplan]
    cases hcases.resolve_left (by simp [hplan]) with
    | inl hall =>
      obtain rfl : c = .getAll := by simpa [hplan] using hall
      obtain rfl : Result.lines s.db.getAll = result := by
        simpa using congrArg (Except.map Prod.fst) ((invoke_text .getAll s).symm.trans hi)
      exact getAll_rows_iff hsafe _
    | inr hname =>
      obtain ⟨name, field, hname⟩ := hname
      obtain rfl : c = .get name field := by simpa [hplan] using hname
      obtain ⟨reply, hreply, rfl, -⟩ := invoke_get_ok hi
      have hread : s.db.readsPastEnd name field ≠ true := fun hpast => by
        obtain ⟨fault, hfault⟩ := (DBTextFile.get_error_iff _ _ _).mpr hpast
        simp [hfault] at hreply
      exact (get_rows_iff hsafe _ hget hreply).trans (or_iff_right hread).symm

/-- The response to an answered request is its lines, and an empty one behind the records. -/
theorem response_lines {chunk : Bytes} (hget : ascii "/get" <+: chunk) {session : Session}
    {s' : TextStore} (h : parseRequest textLibrary chunk Session.start s = .ok (session, s')) :
    ∃ tail, (∀ row ∈ tail, row = []) ∧
      session.response_ = terminated lf (s.db.replyLines chunk ++ tail) := by
  have hcases := plan_of_get hget
  cases parseRequest_ok h with
  | inl hrefused =>
    obtain ⟨hplan, -, rfl⟩ := hrefused
    have htext := hcases.resolve_right (by simp [hplan])
    exact ⟨[], by simp, by simp [DBTextFile.replyLines, hplan, htext.2, Session.doWrite]⟩
  | inr hcall =>
    obtain ⟨c, result, hplan, hi, rfl⟩ := hcall
    cases hcases.resolve_left (by simp [hplan]) with
    | inl hall =>
      obtain rfl : c = .getAll := by simpa [hplan] using hall
      obtain rfl := result_of_invoke (invoke_text .getAll s) hi
      refine ⟨[[]], by simp, ?_⟩
      simp [DBTextFile.replyLines, hplan, Session.doWrite, answer, DBTextFile.getAll, terminated]
    | inr hname =>
      obtain ⟨name, field, hname⟩ := hname
      obtain rfl : c = .get name field := by simpa [hplan] using hname
      obtain ⟨reply, hreply, rfl, -⟩ := invoke_get_ok hi
      cases reply <;>
        exact ⟨[], by simp, by simp [DBTextFile.replyLines, hplan, hreply, Session.doWrite, answer]⟩

theorem lf_not_mem_replyLines (hsafe : LineSafe s.db) (chunk : Bytes) :
    ∀ line ∈ s.db.replyLines chunk, lf ∉ line := by
  have herror {prompt : String} (hprompt : lf ∉ ascii prompt) : lf ∉ ascii prompt ++
      stripCRLF chunk :=
    lf_not_mem_ascii_append hprompt (lf_not_mem_strip chunk)
  unfold DBTextFile.replyLines
  split
  · intro line hline
    obtain ⟨e, he, rfl⟩ := List.mem_map.mp hline
    exact lf_not_mem_asString hsafe he
  · split
    · simpa using herror (by decide)
    · next hreply => simpa using lf_not_mem_get hsafe hreply
    · simp
  · simpa using herror (by decide)

theorem cut_rows_iff (hsafe : LineSafe s.db) {chunk : Bytes} (hget : ascii "/get" <+: chunk)
    {session : Session} {s' : TextStore}
    (h : parseRequest textLibrary chunk Session.start s = .ok (session, s')) (n m : Nat) :
    (∀ row ∈ tokens lf (session.response_.take m), row ≠ [] →
      pieceCount colon row ≤ pieceCount colon (s.db.fields.take n)) ↔ RowsFit s.db chunk n m := by
  obtain ⟨tail, htail, hresponse⟩ := response_lines hget h
  have hlines : ∀ line ∈ s.db.replyLines chunk ++ tail, lf ∉ line := by
    intro line hline
    cases List.mem_append.mp hline with
    | inl hline => exact lf_not_mem_replyLines hsafe chunk line hline
    | inr hline => simp [htail line hline]
  rw [hresponse, forall_tokens_take_terminated hlines, RowsFit]
  exact forall_shown_append_iff htail

theorem rowsFit_of_error {chunk : Bytes} {fault : Fault} (hget : ascii "/get" <+: chunk)
    (h : parseRequest textLibrary chunk Session.start s = .error fault) (n m : Nat) :
    RowsFit s.db chunk n m := by
  cases parseRequest_text_error_iff.mp h with
  | inl hbare =>
    obtain ⟨tail, args, hseg⟩ := segments_of_get hget
    simp [hbare.2, ascii, ch] at hseg
  | inr hpast =>
    obtain ⟨-, name, field, hplan, hread⟩ := hpast
    obtain ⟨fault, hfault⟩ := (DBTextFile.get_error_iff _ _ _).mpr hread
    simp [RowsFit, DBTextFile.replyLines, hplan, hfault, shown]

theorem wholeRowsFit_of_error {chunk : Bytes} {fault : Fault} (hget : ascii "/get" <+: chunk)
    (h : parseRequest textLibrary chunk Session.start s = .error fault) :
    WholeRowsFit s.db chunk := by
  cases parseRequest_text_error_iff.mp h with
  | inl hbare =>
    obtain ⟨tail, args, hseg⟩ := segments_of_get hget
    simp [hbare.2, ascii, ch] at hseg
  | inr hpast =>
    obtain ⟨-, name, field, hplan, hread⟩ := hpast
    rw [WholeRowsFit, hplan]
    exact Or.inl hread

theorem rowsFit_whole_iff (hsafe : LineSafe s.db) {chunk : Bytes} (hget : ascii "/get" <+: chunk)
    {n m : Nat}
    (hn : s.db.fields.length ≤ n) (hm : ∀ reply s',
      parseRequest textLibrary chunk Session.start s = .ok (reply, s') →
      reply.response_.length ≤ m) :
    RowsFit s.db chunk n m ↔ WholeRowsFit s.db chunk := by
  cases hanswer : parseRequest textLibrary chunk Session.start s with
  | error fault =>
    exact iff_of_true (rowsFit_of_error hget hanswer n m) (wholeRowsFit_of_error hget hanswer)
  | ok r =>
    rw [← cut_rows_iff hsafe hget hanswer, ← rows_fit_iff hsafe hget hanswer,
      List.take_of_length_le (hm r.1 r.2 hanswer), List.take_of_length_le hn, ← length_tokens,
      tokens_fields hsafe]

end Requests

section Gateway
variable {net : Network ν} {storeOf : ν → TextStore} {cuts : ν → List Nat} {w : ν}

theorem executeCmd_cut (hnet : CutDelivery net storeOf cuts) {n : Nat} {rest : List Nat}
    {cmd : Bytes}
    {session : Session} {store : TextStore} (hcuts : cuts w = n :: rest) (hpos : 0 < n)
    (hn : n ≤ streamBuf)
    (h : parseRequest textLibrary (cmd.take requestBuf) Session.start (storeOf w) =
      .ok (session, store)) :
    ∃ w', executeCmd net cmd [] w = ((true, tokens lf (session.response_.take n)), w') ∧
      storeOf w' = store ∧ cuts w' = rest := by
  obtain ⟨w1, w2, w3, h1, h2, h3, hs⟩ := hnet.exchange w n rest cmd _ _ hcuts hpos hn h
  exact ⟨_, executeCmd_of_delivered h1 h2 h3 [], hs⟩

theorem tokens_take_fields {db : DBTextFile} (h : LineSafe db) (n : Nat) :
    ∃ rest, tokens lf ((db.fields ++ [lf]).take n) = db.fields.take n :: rest := by
  obtain ⟨first, rest, htok, rfl⟩ := exists_first_token lf ((db.fields ++ [lf]).take n)
  have hplain : ∀ b ∈ db.fields.take n, decide (b ≠ lf) = true := fun b hb =>
    decide_eq_true fun heq => lf_not_mem_fields h (heq ▸ List.mem_of_mem_take hb)
  have hbehind : (([lf] : Bytes).take (n - db.fields.length)).takeWhile (· ≠ lf) = [] := by
    cases n - db.fields.length <;> simp
  refine ⟨rest, ?_⟩
  rw [htok, List.take_append, List.takeWhile_append_of_pos hplain, hbehind, List.append_nil]

theorem get_prefix_take {param : Bytes} (hget : ascii "/get" <+: param) :
    ascii "/get" <+: param.take requestBuf :=
  List.prefix_take_iff.mpr ⟨hget, by decide⟩

/-- A lookup through the gateway runs past the fields when a row of what was read does not fit. -/
theorem parse_pastEnd_iff (hnet : CutDelivery net storeOf cuts) (ops : PTreeOps) {n m : Nat}
    {rest : List Nat} (hcuts : cuts w = n :: m :: rest) (hn : 0 < n ∧ n ≤ streamBuf)
    (hm : 0 < m ∧ m ≤ streamBuf) (hsafe : LineSafe (storeOf w).db) {param : Bytes}
    (hget : ascii "/get" <+: param) {reply : Session} {s' : TextStore}
    (h : parseRequest textLibrary (param.take requestBuf) Session.start (storeOf w) =
      .ok (reply, s')) :
    (parse ops (dataClient net) (ascii "/rdb" ++ param) w).1 = .error .pastEnd ↔
      ¬ RowsFit (storeOf w).db (param.take requestBuf) n m := by
  have hisGet : isGet param = true := by
    obtain ⟨rest, rfl⟩ := hget
    rfl
  have hne : param ≠ ascii "/fields" := by
    intro heq
    subst heq
    exact absurd hisGet (by decide)
  obtain ⟨w0, hcreate, hs0, hc0⟩ := hnet.resolve w
  rw [← hs0] at hsafe h ⊢
  rw [← hc0] at hcuts
  have hfields : (ascii "/fields").take requestBuf = ascii "/fields" := by decide
  obtain ⟨w1, hexec1, hs1, hc1⟩ :=
    executeCmd_cut hnet hcuts hn.1 hn.2 (hfields.symm ▸ fields_reply (storeOf w0))
  obtain ⟨more, hfront⟩ := tokens_take_fields hsafe n
  simp only [Session.doWrite] at hexec1
  rw [hfront] at hexec1
  have h1 := h
  rw [← hs1] at h1
  obtain ⟨w2, hexec2, -, -⟩ := executeCmd_cut hnet hc1 hm.1 hm.2 h1
  let names := tokens colon ((storeOf w0).db.fields.take n)
  let rows := tokens lf (reply.response_.take m)
  have hparse : (parse ops (dataClient net) (ascii "/rdb" ++ param) w).1 =
      (listing ops names rows).map fun output => some (.json output) := by
    simp [parse, forward, dataClient, hcreate, substr_rdb, hisGet, hne, hexec1, hexec2, names, rows]
  have hlist := @listing_error_iff ops names .pastEnd rows
  rw [length_tokens] at hlist
  rw [hparse, ← cut_rows_iff hsafe (get_prefix_take hget) h]
  cases hl : listing ops names rows with
  | ok tree =>
    rw [hl] at hlist
    simpa using hlist
  | error fault =>
    rw [hl] at hlist
    simpa using hlist

end Gateway

section CutLink

/-- A text server at the other end of a lossless link: the store, the response that waits to be
read, and how many bytes the coming reads return. A request on which the server fails leaves no
response. -/
def cutLink : Network (TextStore × Bytes × List Nat) where
  resolve w := (true, w)
  connect w := (true, (w.1, [], w.2.2))
  send cmd w :=
    match parseRequest textLibrary (cmd.take requestBuf) Session.start w.1 with
    | .ok (session, store) => (true, (store, session.response_, w.2.2))
    | .error _ => (true, (w.1, [], w.2.2))
  readSome size w :=
    match w.2.2 with
    | [] => (none, w)
    | n :: cuts =>
      if w.2.1.isEmpty then (none, w)
      else (some (w.2.1.take (min n size)), (w.1, w.2.1.drop (min n size), cuts))
  close w := (w.1, [], w.2.2)

theorem cutLink_cuts : CutDelivery cutLink Prod.fst (fun w => w.2.2) where
  resolve w := ⟨w, rfl, rfl, rfl⟩
  exchange w n rest cmd session store hcuts _ hn hparse := by
    have hne : session.response_ ≠ [] := by
      obtain ⟨response, rfl⟩ := parseRequest_response hparse
      simp [Session.doWrite]
    refine ⟨(w.1, [], w.2.2), (store, session.response_, w.2.2),
      (store, session.response_.drop n, rest), rfl, ?_, ?_, rfl, rfl⟩
    · simp [cutLink, hparse]
    · simp [cutLink, hcuts, hne, Nat.min_eq_left hn]

end CutLink

end ReminderSuite
