import ReminderSuite.RequestHandler
import ReminderSuite.Rendering

/-! What the status ok of the gateway says about the command behind it: whether the
session that received the command carried it out. -/
namespace ReminderSuite
open Delimited FallibleRun RdbHandler RequestHandler
variable {ν : Type}

section Exchange

/-- One command over the network: what the one read of its response returned, if no
operation on the way failed -/
def Network.exchange (net : Network ν) (cmd : Bytes) (w : ν) : Option Bytes × ν :=
  match net.connect w with
  | (false, w) => (none, w)
  | (true, w) =>
    match net.send cmd w with
    | (false, w) => (none, net.close w)
    | (true, w) =>
      match net.readSome streamBuf w with
      | (part, w) => (part, net.close w)

theorem executeCmd_eq_exchange (net : Network ν) (cmd : Bytes) (w : ν) :
    executeCmd net cmd [] w =
      (((net.exchange cmd w).1.isSome, ((net.exchange cmd w).1.map (tokens lf)).getD []),
        (net.exchange cmd w).2) := by
  cases hconnect : net.connect w with
  | mk connected w1 =>
    cases connected with
    | false => simp [executeCmd, Network.exchange, hconnect]
    | true =>
      cases hsend : net.send cmd w1 with
      | mk sent w2 =>
        cases sent with
        | false => simp [executeCmd, Network.exchange, hconnect, hsend]
        | true =>
          cases hread : net.readSome streamBuf w2 with
          | mk part w3 =>
            cases part <;> simp [executeCmd, Network.exchange, hconnect, hsend, hread]

/-- The state in which the gateway sends a command: after the fields lookup, if one
precedes it -/
def Network.forwardedAt (net : Network ν) (param : Bytes) (w : ν) : ν :=
  if isGet param then (net.exchange (ascii "/fields") (net.resolve w).2).2 else (net.resolve w).2

def RowTooLong (fieldsPart part : Bytes) : Prop :=
  ∃ row ∈ tokens lf part, row ≠ [] ∧
    pieceCount colon (fieldsPart.takeWhile (· ≠ lf)) < pieceCount colon row

/-- The gateway gets no further: the path is refused, an operation on the network fails,
or a row is too long to be rendered. -/
def Withheld (net : Network ν) (path : Bytes) (w : ν) : Prop :=
  isValidCall path ≠ .ok true ∨ (net.resolve w).1 = false ∨
  (net.exchange (path.drop 4) (net.forwardedAt (path.drop 4) w)).1 = none ∨
  isGet (path.drop 4) = true ∧
    ((net.exchange (ascii "/fields") (net.resolve w).2).1 = none ∨
    ∃ fieldsPart part, (net.exchange (ascii "/fields") (net.resolve w).2).1 = some fieldsPart ∧
      (net.exchange (path.drop 4) (net.forwardedAt (path.drop 4) w)).1 = some part ∧
      RowTooLong fieldsPart part)

end Exchange

structure IsRdbRequest (req : Request) (path : Bytes) : Prop where
  decoded : urlDecode req.uri = some path
  no_dots : ¬ ascii ".." <:+: path
  rdb : isRDBcall path = true

theorem forward_some_iff (net : Network ν) (ops : PTreeOps) (param : Bytes) (fields : List Bytes)
    (w : ν) : (∃ reply w', forward ops (dataClient net) param fields w = (.ok (some reply), w')) ↔
      ∃ part, (net.exchange param w).1 = some part ∧ (isGet param = true →
        ¬ ∃ row ∈ tokens lf part, row ≠ [] ∧ fields.length < pieceCount colon row) := by
  have hexec : (dataClient net).executeCmd param [] w = _ := executeCmd_eq_exchange net param w
  cases hx : (net.exchange param w).1 with
  | none =>
    have hnone : forward ops (dataClient net) param fields w =
        (.ok none, (net.exchange param w).2) := by
      simp [forward, hexec, hx]
    simp [hnone]
  | some part =>
    cases hget : isGet param with
    | false =>
      have htext : forward ops (dataClient net) param fields w =
          (.ok (some (.text ((tokens lf part).flatMap fun line => line ++ [cr, lf]))),
            (net.exchange param w).2) := by
        simp [forward, hexec, hx, hget]
      simp [htext]
    | true =>
      have hjson : forward ops (dataClient net) param fields w =
          ((listing ops fields (tokens lf part)).map fun output => some (.json output),
            (net.exchange param w).2) := by
        simp [forward, hexec, hx, hget]
      have hlist := @listing_error_iff ops fields .pastEnd (tokens lf part)
      cases hl : listing ops fields (tokens lf part) with
      | ok output =>
        rw [hl, eq_self_iff_true, true_and] at hlist
        simpa [hjson, hl] using mt hlist.mpr (by simp)
      | error fault =>
        obtain ⟨rfl, hlong⟩ := listing_error_iff.mp hl
        simpa [hjson, hl] using hlong

/-- The gateway has a reply exactly when nothing stops it. -/
theorem parse_some_iff (net : Network ν) (ops : PTreeOps) {param : Bytes}
    (hvalid : isValidCall (ascii "/rdb" ++ param) = .ok true) (w : ν) :
    (∃ reply w', parse ops (dataClient net) (ascii "/rdb" ++ param) w = (.ok (some reply), w')) ↔
      ¬ Withheld net (ascii "/rdb" ++ param) w := by
  have hparam : (ascii "/rdb" ++ param).drop 4 = param := rfl
  rw [Withheld, hvalid, hparam]
  cases hr : net.resolve w with
  | mk found w0 =>
    have hcreate : (dataClient net).create w = (found, w0) := hr
    have hlookup : (dataClient net).executeCmd (ascii "/fields") [] w0 = _ :=
      executeCmd_eq_exchange net (ascii "/fields") w0
    cases found with
    | false => simp [parse, hcreate]
    | true =>
      simp only [parse, hcreate, substr_rdb, hlookup]
      by_cases hfields : param = ascii "/fields"
      · subst hfields
        have hget : isGet (ascii "/fields") = false := by decide
        cases hx : (net.exchange (ascii "/fields") w0).1 with
        | none => simp [Network.forwardedAt, hget, hr, hx]
        | some part =>
          obtain ⟨front, rest, htok⟩ := List.exists_cons_of_ne_nil (tokens_ne_nil lf part)
          simp [Network.forwardedAt, hget, hr, hx, htok]
      · cases hget : isGet param with
        | false =>
          simp [hfields, forward_some_iff, Network.forwardedAt, hget, hr,
            Option.eq_none_iff_forall_ne_some]
        | true =>
          cases hx : (net.exchange (ascii "/fields") w0).1 with
          | none => simp [Network.forwardedAt, hget, hr]
          | some fieldsPart =>
            obtain ⟨front, rest, htok, hfront⟩ := exists_first_token lf fieldsPart
            have hforward := forward_some_iff net ops param (tokens colon front)
              (net.exchange (ascii "/fields") w0).2
            simp only [Option.isSome_some, Option.map_some, Option.getD_some, htok, if_neg hfields,
              hget, or_true, if_true, Network.forwardedAt, hr]
            rw [hforward]
            cases (net.exchange param (net.exchange (ascii "/fields") w0).2).1 with
            | none => simp
            | some part => simp [RowTooLong, hget, length_tokens, hfront]

theorem serveRdb_ok_iff (gw : Gateway ν) (path : Bytes) (w : ν) :
    (∃ rep w', serveRdb gw path Reply.start w = (.ok rep, w') ∧ rep.status = some .ok) ↔
      isValidCall path = .ok true ∧
        ∃ reply w', parse gw.ops gw.client path w = (.ok (some reply), w') := by
  have hbad : (stockReply .badRequest).status ≠ some .ok := by decide
  unfold serveRdb
  cases hvalid : isValidCall path with
  | error fault => simp
  | ok accepted =>
    cases accepted with
    | false => simp [hbad]
    | true =>
      cases hparse : parse gw.ops gw.client path w with
      | mk outcome w' =>
        cases outcome with
        | error fault => simp
        | ok answered => cases answered <;> simp [hbad]

theorem status_ok_iff {net : Network ν} {gw : Gateway ν} (hgw : gw.client = dataClient net)
    {req : Request} {path : Bytes} (hreq : IsRdbRequest req path) (w : ν) :
    (∃ rep w', handleRequest gw req Reply.start w = (.ok rep, w') ∧ rep.status = some .ok) ↔
      ¬ Withheld net path w := by
  obtain ⟨rest, rfl⟩ := isRDBcall_iff.mp hreq.rdb
  have hpath : ascii "/rdb/" ++ rest = ascii "/rdb" ++ (slash :: rest) := rfl
  rw [handleRequest_rdb hreq.decoded hreq.no_dots, serveRdb_ok_iff, hgw]
  by_cases hvalid : isValidCall (ascii "/rdb/" ++ rest) = .ok true
  · rw [and_iff_right hvalid]
    rw [hpath] at hvalid ⊢
    exact parse_some_iff net gw.ops hvalid w
  · refine iff_of_false (fun h => hvalid h.1) ?_
    simp only [not_not]
    exact Or.inl hvalid

def Call.Succeeded (db : DBTextFile) : Call → Result → Prop
  | .fields, _ | .getAll, _ => True
  | .get name field, _ =>
    (db.findName name).isSome ∧ (field = [] ∨ (db.cell? name field).isSome)
  | .set _ _, result | .setField _ _ _, result | .erase _, result | .save, result =>
    result = .flag true

def CarriedOut (s : TextStore) (param chunk : Bytes) : Prop :=
  ∃ c result s', plan (segments param) = .ok (some c) ∧ plan (segments chunk) = .ok (some c) ∧
    textLibrary.invoke c s = .ok (result, s') ∧ c.Succeeded s.db result

def IsErrorText (s : TextStore) (chunk part : Bytes) : Prop :=
  ∃ text, part <+: text ++ [lf] ∧
    (plan (segments chunk) = .ok none ∧ text = refusal (stripCRLF chunk) (segments chunk) ∨
      ∃ name field, plan (segments chunk) = .ok (some (.get name field)) ∧
        s.db.get name field = .ok [] ∧ text = ascii "ERROR: Not found: " ++ stripCRLF chunk)

def Call.Accepted (db : DBTextFile) : Call → Prop
  | .fields | .getAll | .set _ _ => True
  | .get name field =>
    (db.findName name).isSome ∧ (field = [] ∨ ∃ v, v ≠ [] ∧ db.cell? name field = some v)
  | .setField name field _ => (db.cell? name field).isSome
  | .erase name => (db.findName name).isSome
  | .save => False

/-- The session receives what asks for the same call as the command, and that call is
accepted. -/
def Accepted (db : DBTextFile) (param chunk : Bytes) : Prop :=
  ∃ c, plan (segments param) = .ok (some c) ∧ plan (segments chunk) = .ok (some c) ∧ c.Accepted db

/-- A text server behind the network: a command that is answered has been received by a
new session, in part or whole, and what is read of the answer is the begin of its
response. -/
structure SessionBehind (net : Network ν) (storeOf : ν → TextStore)
    (received : Bytes → ν → Bytes) : Prop where
  answered : ∀ cmd w part w', net.exchange cmd w = (some part, w') →
    ∃ session s', part <+: session.response_ ∧
      parseRequest textLibrary (received cmd w) Session.start (storeOf w) = .ok (session, s')

/-- Status ok is only answered for a command that was carried out, and not with an error
text. -/
def OkMeansDone (net : Network ν) (storeOf : ν → TextStore) (received : Bytes → ν → Bytes)
    (gw : Gateway ν) (req : Request) (path : Bytes) (w : ν) : Prop :=
  ∀ rep w', handleRequest gw req Reply.start w = (.ok rep, w') → rep.status = some .ok →
    let param := path.drop 4
    let sent := net.forwardedAt param w
    CarriedOut (storeOf sent) param (received param sent) ∧
      ∀ part, (net.exchange param sent).1 = some part →
        ¬ IsErrorText (storeOf sent) (received param sent) part

theorem get_ne_nil_iff {db : DBTextFile} {name field reply : Bytes}
    (h : db.get name field = .ok reply) : reply ≠ [] ↔ (Call.get name field).Accepted db := by
  rw [Call.Accepted]
  cases DBTextFile.get_ok h with
  | inl habsent =>
    obtain ⟨hreply, hwhy⟩ := habsent
    refine iff_of_false (by simp [hreply]) ?_
    cases hwhy with
    | inl hn => simp [hn]
    | inr hf => cases hn : db.findName name <;> simp [DBTextFile.cell?, hn, hf.1, hf.2]
  | inr hfound =>
    obtain ⟨it, hit, hreply⟩ := hfound
    have hn := DBTextFile.findName_of_found hit
    cases hreply with
    | inl hrecord => simp [hn, hrecord.1, hrecord.2, it.here.asString_ne_nil]
    | inr hvalue => simp [hn, hvalue.1, hvalue.2.1]

theorem accepted_succeeded {name field : Bytes} {db : DBTextFile} {result : Result}
    (h : (Call.get name field).Accepted db) : (Call.get name field).Succeeded db result := by
  refine ⟨h.1, ?_⟩
  cases h.2 with
  | inl hrecord => exact Or.inl hrecord
  | inr hvalue =>
    obtain ⟨v, -, hcell⟩ := hvalue
    exact Or.inr (by simp [hcell])

/-- A call that returns has succeeded and shows no error text exactly when it is accepted. -/
theorem succeeded_iff_accepted {c : Call} {s s' : TextStore} {result : Result}
    (h : textLibrary.invoke c s = .ok (result, s')) :
    (c.Succeeded s.db result ∧ ∀ name field, c = .get name field → s.db.get name field ≠ .ok []) ↔
      c.Accepted s.db := by
  cases c with
  | fields => simp [Call.Succeeded, Call.Accepted]
  | getAll => simp [Call.Succeeded, Call.Accepted]
  | get name field =>
    obtain ⟨reply, hget, -, -⟩ := invoke_get_ok h
    have hreply := get_ne_nil_iff hget
    constructor
    · intro hdone
      refine hreply.mp fun hnil => hdone.2 name field rfl ?_
      rw [hget, hnil]
    · intro hacc
      refine ⟨accepted_succeeded hacc, fun n f heq => ?_⟩
      obtain ⟨rfl, rfl⟩ := Call.get.inj heq
      simpa [hget] using hreply.mpr hacc
  | set name record =>
    obtain rfl := result_of_invoke (invoke_text (.set name record) s) h
    simp [Call.Succeeded, Call.Accepted]
  | setField name field value =>
    obtain rfl := result_of_invoke (invoke_text (.setField name field value) s) h
    cases DBTextFile.setField_cases s.db name field value with
    | inl habsent => simp [Call.Succeeded, Call.Accepted, habsent.1, habsent.2]
    | inr hfound =>
      obtain ⟨it, idx, -, -, hlt, hcell, hs⟩ := hfound
      simp [Call.Succeeded, Call.Accepted, hcell, hlt, hs]
  | erase name =>
    obtain rfl := result_of_invoke (invoke_text (.erase name) s) h
    cases hn : s.db.findName name <;>
      simp [Call.Succeeded, Call.Accepted, DBTextFile.erase, hn]
  | save =>
    obtain rfl := result_of_invoke (invoke_text .save s) h
    simp [Call.Succeeded, Call.Accepted]

theorem isErrorText_iff {s s' : TextStore} {chunk part : Bytes} {c : Call} {result : Result}
    (hplan : plan (segments chunk) = .ok (some c))
    (hi : textLibrary.invoke c s = .ok (result, s'))
    (hpre : part <+: answer (stripCRLF chunk) c result ++ [lf]) :
    IsErrorText s chunk part ↔ ∃ name field, c = .get name field ∧
      s.db.get name field = .ok [] := by
  constructor
  · intro htext
    obtain ⟨text, -, hrefused | ⟨name, field, hget, hnil, -⟩⟩ := htext
    · simp [hplan] at hrefused
    · exact ⟨name, field, by simpa [hplan] using hget, hnil⟩
  · intro hlookup
    obtain ⟨name, field, rfl, hnil⟩ := hlookup
    obtain ⟨reply, hget, rfl, -⟩ := invoke_get_ok hi
    obtain rfl : [] = reply := Except.ok.inj (hnil.symm.trans hget)
    exact ⟨_, hpre, Or.inr ⟨name, field, hplan, hnil, rfl⟩⟩

theorem carriedOut_iff {s s' : TextStore} {param chunk : Bytes} {c : Call} {result : Result}
    (hplan : plan (segments chunk) = .ok (some c))
    (hi : textLibrary.invoke c s = .ok (result, s')) :
    CarriedOut s param chunk ↔
      plan (segments param) = .ok (some c) ∧ c.Succeeded s.db result := by
  constructor
  · intro hdone
    obtain ⟨d, value, t, hparam, hchunk, hd, hsucc⟩ := hdone
    obtain rfl : c = d := by simpa [hplan] using hchunk
    obtain ⟨rfl, -⟩ : result = value ∧ s' = t := by simpa [hi] using hd
    exact ⟨hparam, hsucc⟩
  · exact fun h => ⟨c, result, s', h.1, hplan, hi, h.2⟩

theorem done_iff_accepted {net : Network ν} {storeOf : ν → TextStore}
    {received : Bytes → ν → Bytes} (hnet : SessionBehind net storeOf received) {param part : Bytes}
    {w : ν} (hpart : (net.exchange param w).1 = some part) :
    (CarriedOut (storeOf w) param (received param w) ∧
      ¬ IsErrorText (storeOf w) (received param w) part) ↔
      Accepted (storeOf w).db param (received param w) := by
  obtain ⟨session, s', hpre, hreply⟩ := hnet.answered param w part _ (Prod.ext hpart rfl)
  cases parseRequest_ok hreply with
  | inl hrefused =>
    refine iff_of_false ?_ ?_ <;>
    · intro h
      simp [CarriedOut, Accepted, hrefused.1] at h
  | inr hcall =>
    obtain ⟨c, result, hplan, hi, rfl⟩ := hcall
    have haccepted : Accepted (storeOf w).db param (received param w) ↔
        plan (segments param) = .ok (some c) ∧ c.Accepted (storeOf w).db := by
      simp only [Accepted, hplan, Except.ok.injEq, Option.some.injEq]
      constructor
      · intro h
        obtain ⟨d, hparam, rfl, hd⟩ := h
        exact ⟨hparam, hd⟩
      · exact fun h => ⟨c, h.1, rfl, h.2⟩
    rw [carriedOut_iff hplan hi, isErrorText_iff hplan hi hpre, haccepted,
      ← succeeded_iff_accepted hi, and_assoc]
    simp only [not_exists, not_and, ne_eq]

theorem OkMeansDone.carriedOut {net : Network ν} {storeOf : ν → TextStore}
    {received : Bytes → ν → Bytes} {gw : Gateway ν} {req : Request} {path : Bytes} {w : ν}
    (h : OkMeansDone net storeOf received gw req path w)
    (hok : (handleRequest gw req Reply.start w).1.map Reply.status = .ok (some .ok)) :
    CarriedOut (storeOf (net.forwardedAt (path.drop 4) w)) (path.drop 4)
      (received (path.drop 4) (net.forwardedAt (path.drop 4) w)) := by
  obtain ⟨rep, hrep, hstatus⟩ := map_eq_ok_iff.mp hok
  exact (h rep _ (Prod.ext hrep rfl) hstatus).1

section Loopback

theorem loopback_sessionBehind : SessionBehind loopback Prod.fst fun cmd _ => cmd.take 8192 where
  answered cmd w part w' h := by
    cases hparse : parseRequest textLibrary (cmd.take 8192) Session.start w.1 with
    | error fault => simp [Network.exchange, loopback, hparse] at h
    | ok r =>
      refine ⟨r.1, r.2, ?_, rfl⟩
      by_cases hempty : r.1.response_ = []
      · simp [Network.exchange, loopback, hparse, hempty] at h
      · obtain ⟨rfl, -⟩ : r.1.response_.take streamBuf = part ∧ _ := by
          simpa [Network.exchange, loopback, hparse, hempty] using h
        exact List.take_prefix _ _

def loopbackGateway : Gateway (TextStore × Bytes) :=
  ⟨[], fun _ => none, dataClient loopback, plainTree, fun _ => []⟩

end Loopback
end ReminderSuite
