import ReminderSuite.RequestGrammar
import ReminderSuite.ReplyFraming

/-! What the gateway puts on the wire for a reply, and how a client reads it back. -/
namespace ReminderSuite
open RequestHandler RequestParser
variable {ν ω : Type}

def StatusType.code : StatusType → Nat
  | .ok => 200
  | .created => 201
  | .accepted => 202
  | .noContent => 204
  | .multipleChoices => 300
  | .movedPermanently => 301
  | .movedTemporarily => 302
  | .notModified => 304
  | .badRequest => 400
  | .unauthorized => 401
  | .forbidden => 403
  | .notFound => 404
  | .internalServerError => 500
  | .notImplemented => 501
  | .badGateway => 502
  | .serviceUnavailable => 503

def StatusStrings.toBuffer : StatusType → Bytes
  | .ok => ascii "HTTP/1.0 200 OK\r\n"
  | .created => ascii "HTTP/1.0 201 Created\r\n"
  | .accepted => ascii "HTTP/1.0 202 Accepted\r\n"
  | .noContent => ascii "HTTP/1.0 204 No Content\r\n"
  | .multipleChoices => ascii "HTTP/1.0 300 Multiple Choices\r\n"
  | .movedPermanently => ascii "HTTP/1.0 301 Moved Permanently\r\n"
  | .movedTemporarily => ascii "HTTP/1.0 302 Moved Temporarily\r\n"
  | .notModified => ascii "HTTP/1.0 304 Not Modified\r\n"
  | .badRequest => ascii "HTTP/1.0 400 Bad Request\r\n"
  | .unauthorized => ascii "HTTP/1.0 401 Unauthorized\r\n"
  | .forbidden => ascii "HTTP/1.0 403 Forbidden\r\n"
  | .notFound => ascii "HTTP/1.0 404 Not Found\r\n"
  | .internalServerError => ascii "HTTP/1.0 500 Internal Server Error\r\n"
  | .notImplemented => ascii "HTTP/1.0 501 Not Implemented\r\n"
  | .badGateway => ascii "HTTP/1.0 502 Bad Gateway\r\n"
  | .serviceUnavailable => ascii "HTTP/1.0 503 Service Unavailable\r\n"

def Reply.toBuffers (rep : Reply) (status : StatusType) : List Bytes :=
  [StatusStrings.toBuffer status] ++
    rep.headers.flatMap (fun h => [h.name, ascii ": ", h.value, ascii "\r\n"]) ++
    [ascii "\r\n", rep.content]

/-- What one write sends: the buffers one behind the other. A status that was never set has no
value to send. -/
def Reply.wire (rep : Reply) : Option Bytes :=
  rep.status.map fun status => (rep.toBuffers status).flatten

namespace ResponseReader

structure Response where
  code : Nat
  headers : List Header
  content : Bytes
deriving DecidableEq

def readLine : Bytes → Option (Bytes × Bytes)
  | [] => none
  | c :: rest =>
    if c = cr ∧ rest.head? = some lf then some ([], rest.tail)
    else (readLine rest).map fun (line, rest) => (c :: line, rest)

theorem readLine_shorter {text line rest : Bytes} (h : readLine text = some (line, rest)) :
    rest.length < text.length := by
  induction text generalizing line with
  | nil => simp [readLine] at h
  | cons c text ih =>
    rw [readLine] at h
    split at h
    · obtain ⟨-, rfl⟩ : [] = line ∧ text.tail = rest := by simpa using h
      simp only [List.length_tail, List.length_cons]
      omega
    · obtain ⟨⟨front, more⟩, hread, heq⟩ := Option.map_eq_some_iff.mp h
      obtain ⟨-, rfl⟩ := Prod.mk.inj heq
      have := ih hread
      simp only [List.length_cons]
      omega

def readNumber (digits : Bytes) : Option Nat :=
  if digits ≠ [] ∧ digits.all isDigit = true then some (decimal digits) else none

def readStatusLine (line : Bytes) : Option Nat :=
  if ascii "HTTP/1.0 " <+: line then readNumber ((line.drop 9).take 3) else none

def readHeader (line : Bytes) : Option Header :=
  match line.dropWhile (· ≠ ch ':') with
  | _ :: space :: value =>
    if space = ch ' ' then some ⟨line.takeWhile (· ≠ ch ':'), value⟩ else none
  | _ => none

def readHeaders (text : Bytes) : Option (List Header × Bytes) :=
  match _ : readLine text with
  | none => none
  | some ([], rest) => some ([], rest)
  | some (line, rest) =>
    match readHeader line with
    | none => none
    | some h => (readHeaders rest).map fun (headers, rest) => (h :: headers, rest)
termination_by text.length
decreasing_by exact readLine_shorter ‹_›

def readLength (headers : List Header) : Option Nat :=
  match headers.filter fun h => h.name == ascii "Content-Length" with
  | [h] => readNumber h.value
  | _ => none

def readResponse (text : Bytes) : Option (Response × Bytes) := do
  let (line, rest) ← readLine text
  let code ← readStatusLine line
  let (headers, rest) ← readHeaders rest
  let length ← readLength headers
  if rest.length < length then none
  else some (⟨code, headers, rest.take length⟩, rest.drop length)

section Reading
variable {text line rest : Bytes}

theorem readLine_append (h : cr ∉ line) (rest : Bytes) :
    readLine (line ++ ascii "\r\n" ++ rest) = some (line, rest) := by
  induction line with
  | nil => rfl
  | cons c line ih =>
    obtain ⟨hc, hline⟩ := not_or.mp (mt List.mem_cons.mpr h)
    rw [List.cons_append, List.cons_append, readLine, if_neg (fun heq => hc heq.1.symm), ih hline]
    rfl

theorem ch_toNat_of_isDigit {c : Char} (h : c.isDigit = true) :
    (ch c).toNat = c.toNat ∧ 48 ≤ c.toNat ∧ c.toNat ≤ 57 := by
  have hbounds : 48 ≤ c.toNat ∧ c.toNat ≤ 57 := by
    simp only [Char.isDigit, ge_iff_le, Bool.and_eq_true, decide_eq_true_eq,
      UInt32.le_iff_toNat_le] at h
    exact h
  refine ⟨?_, hbounds⟩
  rw [ch, UInt8.toNat_ofNat']
  omega

theorem foldl_digits {digits : List Char} (h : ∀ c ∈ digits, c.isDigit = true) (n : Nat) :
    (digits.map ch).foldl (fun n c => n * 10 + (c.toNat - 48)) n =
      Nat.ofDigitChars 10 digits n := by
  induction digits generalizing n with
  | nil => rfl
  | cons c digits ih =>
    obtain ⟨hc, hdigits⟩ := List.forall_mem_cons.mp h
    rw [List.map_cons, List.foldl_cons, ih hdigits, Nat.ofDigitChars_cons,
      (ch_toNat_of_isDigit hc).1, Nat.mul_comm n]
    rfl

theorem sizeText_eq (n : Nat) : sizeText n = (Nat.toDigits 10 n).map ch := by
  rw [sizeText, ascii, ← Nat.toList_repr]
  rfl

theorem isDigit_sizeText (n : Nat) : ∀ c ∈ sizeText n, isDigit c = true := by
  intro c hc
  rw [sizeText_eq] at hc
  obtain ⟨d, hd, rfl⟩ := List.mem_map.mp hc
  obtain ⟨heq, hlow, hhigh⟩ := ch_toNat_of_isDigit
    (Nat.isDigit_of_mem_toDigits (by decide) (by decide) hd)
  have h0 : (ch '0').toNat = 48 ∧ (ch '9').toNat = 57 := by decide
  simp [isDigit, UInt8.le_iff_toNat_le, h0, heq, hlow, hhigh]

theorem readNumber_sizeText (n : Nat) : readNumber (sizeText n) = some n := by
  have hne : sizeText n ≠ [] := by simp [sizeText_eq, Nat.toDigits_ne_nil]
  have hall : (sizeText n).all isDigit = true := List.all_eq_true.mpr (isDigit_sizeText n)
  rw [readNumber, if_pos ⟨hne, hall⟩, decimal, sizeText_eq,
    foldl_digits fun c hc => Nat.isDigit_of_mem_toDigits (by decide) (by decide) hc,
    Nat.ofDigitChars_ten_toDigits]

theorem readStatusLine_toBuffer (status : StatusType) :
    ∃ line, StatusStrings.toBuffer status = line ++ ascii "\r\n" ∧ cr ∉ line ∧
      readStatusLine line = some status.code := by
  refine ⟨(StatusStrings.toBuffer status).dropLast.dropLast, ?_⟩
  cases status <;> decide +kernel

theorem readHeader_headerLine {h : Header} (hwf : WellFormedHeader h) :
    readHeader (h.name ++ ascii ": " ++ h.value) = some h := by
  have hcolon : ∀ c ∈ h.name, decide (c ≠ ch ':') = true := fun c hc =>
    decide_eq_true (token_ne (hwf.name_token c hc)).1
  have hname : (h.name ++ ascii ": " ++ h.value).takeWhile (· ≠ ch ':') = h.name := by
    rw [List.append_assoc, List.takeWhile_append_of_pos hcolon]
    simp [ascii]
  have hvalue : (h.name ++ ascii ": " ++ h.value).dropWhile (· ≠ ch ':') =
      ascii ": " ++ h.value := by
    rw [List.append_assoc, List.dropWhile_append_of_pos hcolon]
    simp [ascii]
  rw [readHeader, hname, hvalue]
  rfl

theorem cr_not_mem_header {h : Header} (hwf : WellFormedHeader h) :
    cr ∉ h.name ++ ascii ": " ++ h.value := by
  simp only [List.mem_append, not_or]
  refine ⟨⟨fun hmem => (token_ne (hwf.name_token cr hmem)).2.2.2 rfl, by decide⟩, fun hmem => ?_⟩
  exact absurd (hwf.value_plain cr hmem) (by decide)

theorem readHeaders_end (h : readLine text = some ([], rest)) :
    readHeaders text = some ([], rest) := by
  rw [readHeaders]
  split <;> simp_all

theorem readHeaders_line {h : Header} (hline : readLine text = some (line, rest)) (hne : line ≠ [])
    (hheader : readHeader line = some h) :
    readHeaders text = (readHeaders rest).map fun (headers, rest) => (h :: headers, rest) := by
  rw [readHeaders]
  split <;> simp_all

theorem readHeaders_headerLines {headers : List Header} (h : ∀ x ∈ headers, WellFormedHeader x)
    (rest : Bytes) :
    readHeaders (headers.flatMap headerLine ++ ascii "\r\n" ++ rest) = some (headers, rest) := by
  induction headers with
  | nil =>
    exact readHeaders_end (readLine_append (List.not_mem_nil) rest)
  | cons x xs ih =>
    obtain ⟨hx, hxs⟩ := List.forall_mem_cons.mp h
    have htext : (x :: xs).flatMap headerLine ++ ascii "\r\n" ++ rest =
        x.name ++ ascii ": " ++ x.value ++ ascii "\r\n" ++
          (xs.flatMap headerLine ++ ascii "\r\n" ++ rest) := by
      simp [headerLine]
    have hne : x.name ++ ascii ": " ++ x.value ≠ [] := by simp [hx.name_ne]
    rw [htext, readHeaders_line (readLine_append (cr_not_mem_header hx) _) hne
      (readHeader_headerLine hx), ih hxs]
    rfl

end Reading

end ResponseReader

/-- A reply that can be sent: it has a status, its headers are such as the gateway itself would
take, and one of them gives the length of its content. -/
structure Reply.Sendable (rep : Reply) : Prop where
  status : rep.status ≠ none
  headers : ∀ h ∈ rep.headers, WellFormedHeader h
  framed : rep.Framed

def Reply.response (rep : Reply) (status : StatusType) : ResponseReader.Response :=
  ⟨status.code, rep.headers, rep.content⟩

section Sending
open ResponseReader
variable {rep : Reply} {status : StatusType}

theorem toBuffers_flatten (rep : Reply) (status : StatusType) :
    (rep.toBuffers status).flatten = StatusStrings.toBuffer status ++
      (rep.headers.flatMap headerLine ++ ascii "\r\n" ++ rep.content) := by
  have hlines : (rep.headers.flatMap fun h => [h.name, ascii ": ", h.value, ascii "\r\n"]).flatten =
      rep.headers.flatMap headerLine := by
    induction rep.headers with
    | nil => rfl
    | cons h hs ih => simp [ih, headerLine]
  rw [Reply.toBuffers, List.flatten_append, List.flatten_append, hlines]
  simp

theorem readLength_framed (h : rep.Framed) : readLength rep.headers = some rep.content.length := by
  rw [Reply.Framed, Reply.header] at h
  obtain ⟨x, hx, hvalue⟩ := List.map_eq_singleton_iff.mp h
  simp only [readLength, hx, hvalue, readNumber_sizeText]

/-- A reply is read back from the wire, whatever stands behind it there. -/
theorem readResponse_wire (h : rep.Sendable) (status : StatusType) (rest : Bytes) :
    readResponse ((rep.toBuffers status).flatten ++ rest) = some (rep.response status, rest) := by
  obtain ⟨line, hbuffer, hline, hcode⟩ := readStatusLine_toBuffer status
  have htext : (rep.toBuffers status).flatten ++ rest = line ++ ascii "\r\n" ++
      (rep.headers.flatMap headerLine ++ ascii "\r\n" ++ (rep.content ++ rest)) := by
    rw [toBuffers_flatten, hbuffer]
    simp
  have hlength : ¬ (rep.content ++ rest).length < rep.content.length := by simp
  rw [readResponse, htext, readLine_append hline]
  simp only [Option.bind_eq_bind, Option.bind_some, hcode, readHeaders_headerLines h.headers,
    readLength_framed h.framed, if_neg hlength, Reply.response, List.take_left, List.drop_left]

theorem plain_of_isDigit {c : UInt8} (h : isDigit c = true) : isCtl c = false := by
  have h0 : (ch '0').toNat = 48 ∧ (ch '9').toNat = 57 := by decide
  simp only [isDigit, Bool.and_eq_true, decide_eq_true_eq, UInt8.le_iff_toNat_le, h0] at h
  exact (printable_plain (by omega) (by omega)).2

theorem wellFormed_named {name value : Bytes} (hname : name ≠ [] ∧ name.all isToken = true)
    (hvalue : ∀ c ∈ value, isCtl c = false) : WellFormedHeader ⟨name, value⟩ :=
  ⟨hname.1, List.all_eq_true.mp hname.2, hvalue⟩

theorem plain_of_all {value : Bytes} (h : value.all (fun c => !isCtl c) = true) :
    ∀ c ∈ value, isCtl c = false := fun c hc => by simpa using List.all_eq_true.mp h c hc

theorem length_header_wellFormed (n : Nat) :
    WellFormedHeader ⟨ascii "Content-Length", sizeText n⟩ :=
  wellFormed_named (by decide) fun c hc => plain_of_isDigit (isDigit_sizeText n c hc)

theorem extensionToType_plain (extension : Bytes) :
    ∀ c ∈ extensionToType extension, isCtl c = false := by
  rw [extensionToType]
  split
  · next m hm =>
    have hmem := List.mem_of_find?_eq_some hm
    simp only [List.mem_cons, List.not_mem_nil, or_false] at hmem
    obtain rfl | rfl | rfl | rfl | rfl | rfl := hmem <;> exact plain_of_all (by decide)
  · exact plain_of_all (by decide)

theorem stockReply_sendable (status : StatusType) : (stockReply status).Sendable where
  status := by simp [stockReply]
  headers := List.forall_mem_cons.mpr ⟨length_header_wellFormed _,
    List.forall_mem_cons.mpr ⟨wellFormed_named (by decide) (plain_of_all (by decide)), by simp⟩⟩
  framed := stockReply_framed status

theorem serveFile_sendable (gw : Gateway ν) (path : Bytes) (rep : Reply) :
    (serveFile gw path rep).Sendable := by
  refine ⟨?_, ?_, serveFile_framed gw path rep⟩ <;> simp only [serveFile] <;> split
  · exact (stockReply_sendable .notFound).status
  · simp
  · exact (stockReply_sendable .notFound).headers
  · refine List.forall_mem_cons.mpr ⟨length_header_wellFormed _,
      List.forall_mem_cons.mpr ⟨?_, by simp⟩⟩
    exact wellFormed_named (by decide) (extensionToType_plain _)

theorem serveRdb_sendable {gw : Gateway ν} {path : Bytes} {rep rep' : Reply} {w w' : ν}
    (hempty : rep.content = []) (h : serveRdb gw path rep w = (.ok rep', w')) : rep'.Sendable := by
  have hframed := serveRdb_framed hempty h
  have hbad : ∀ {v : ν}, ((.ok (stockReply .badRequest), v) : Except Fault Reply × ν) =
      (.ok rep', w') →
      rep'.Sendable := by
    intro v hv
    obtain rfl : stockReply .badRequest = rep' := by simpa using congrArg Prod.fst hv
    exact stockReply_sendable .badRequest
  unfold serveRdb at h
  split at h
  · simp at h
  · exact hbad h
  · split at h
    · simp at h
    · exact hbad h
    · obtain ⟨rfl, -⟩ : _ = rep' ∧ _ := by simpa using h
      refine ⟨by simp, ?_, hframed⟩
      refine List.forall_mem_cons.mpr ⟨length_header_wellFormed _, List.forall_mem_cons.mpr
        ⟨wellFormed_named (by decide) (plain_of_all (by decide)), List.forall_mem_cons.mpr
        ⟨wellFormed_named (by decide) (plain_of_all (by decide)), by simp⟩⟩⟩

theorem handleRequest_sendable {gw : Gateway ν} {req : Request} {rep : Reply} {w w' : ν}
    (h : handleRequest gw req Reply.start w = (.ok rep, w')) : rep.Sendable := by
  unfold handleRequest at h
  split at h
  · obtain rfl : stockReply .badRequest = rep := by simpa using congrArg Prod.fst h
    exact stockReply_sendable .badRequest
  · next path _ =>
    split_ifs at h
    · obtain rfl : stockReply .badRequest = rep := by simpa using congrArg Prod.fst h
      exact stockReply_sendable .badRequest
    · exact serveRdb_sendable rfl h
    · obtain rfl : serveFile gw path Reply.start = rep := by simpa using congrArg Prod.fst h
      exact serveFile_sendable gw path Reply.start

end Sending

namespace Connection
variable {handle : Handler ω} {conn conn' : Connection} {w w' : ω}

theorem doRead_ok {chunk : Bytes} (hopen : conn.reading = true)
    (h : conn.doRead handle chunk w = (.ok conn', w')) :
    (conn'.reading = true ∧ conn'.reply_ = conn.reply_ ∧ conn'.written = conn.written ∧ w' = w) ∨
    (conn'.reading = false ∧ ∃ rep, conn'.written = conn.written ++ [rep] ∧
      (rep = stockReply .badRequest ∧ w' = w ∨ ∃ req, handle req conn.reply_ w =
        (.ok rep, w'))) := by
  rcases hp : parse conn.state_ conn.request_ chunk with ⟨result, rest, state, req⟩
  cases result with
  | good =>
    rcases hh : handle req conn.reply_ w with ⟨_ | rep, v⟩
    · simp [doRead, hopen, hp, hh] at h
    · obtain ⟨rfl, rfl⟩ : _ = conn' ∧ v = w' := by simpa [doRead, hopen, hp, hh] using h
      exact Or.inr ⟨rfl, rep, rfl, Or.inr ⟨req, hh⟩⟩
  | bad =>
    obtain ⟨rfl, rfl⟩ : _ = conn' ∧ w = w' := by simpa [doRead, hopen, hp] using h
    exact Or.inr ⟨rfl, _, rfl, Or.inl ⟨rfl, rfl⟩⟩
  | indeterminate =>
    rw [doRead_indeterminate hopen hp] at h
    obtain ⟨rfl, rfl⟩ : _ = conn' ∧ w = w' := by simpa using h
    exact Or.inl ⟨hopen, rfl, rfl, rfl⟩

def Written (P : Reply → Prop) (conn : Connection) : Prop :=
  (conn.reading = true ∧ conn.reply_ = Reply.start ∧ conn.written = []) ∨
  (conn.reading = false ∧ ∃ rep, P rep ∧ conn.written = [rep])

theorem Written.step {P : Reply → Prop} (hbad : P (stockReply .badRequest))
    (hhandle : ∀ req rep v v', handle req Reply.start v = (.ok rep, v') → P rep) {chunk : Bytes}
    (hs : conn.Written P) (h : conn.doRead handle chunk w = (.ok conn', w')) : conn'.Written P := by
  cases hs with
  | inr hsent =>
    obtain rfl : conn = conn' := by simpa [doRead, hsent.1] using congrArg Prod.fst h
    exact Or.inr hsent
  | inl hopen =>
    obtain ⟨hreading, hrep, hnone⟩ := hopen
    obtain ⟨hmore, hrep', hsame, -⟩ | ⟨hdone, rep, hw, hreply⟩ := doRead_ok hreading h
    · exact Or.inl ⟨hmore, hrep'.trans hrep, hsame.trans hnone⟩
    · rw [hnone] at hw
      refine Or.inr ⟨hdone, rep, ?_, hw⟩
      obtain ⟨rfl, -⟩ | ⟨req, hh⟩ := hreply
      · exact hbad
      · exact hhandle req rep _ _ (hrep ▸ hh)

theorem Written.run {P : Reply → Prop} (hbad : P (stockReply .badRequest))
    (hhandle : ∀ req rep v v', handle req Reply.start v = (.ok rep, v') → P rep)
    {chunks : List Bytes}
    (hs : conn.Written P) (h : conn.serve handle chunks w = (.ok conn', w')) : conn'.Written P := by
  induction chunks generalizing conn w with
  | nil =>
    obtain rfl : conn = conn' := by simpa [serve] using congrArg Prod.fst h
    exact hs
  | cons chunk chunks ih =>
    rw [serve] at h
    rcases hd : conn.doRead handle chunk w with ⟨_ | next, v⟩
    · simp [hd] at h
    · simp only [hd] at h
      exact ih (hs.step hbad hhandle hd) h

end Connection

/-- For every gateway, whatever its files, the Data Provider and the libraries return, and all
bytes of a client in any reads: what the connection has sent is nothing, or one reply that a
client reads back as it was made, whatever stands behind it. -/
theorem sent_reads_back (gw : Gateway ν) (reads : List Bytes) (w w' : ν) (conn : Connection)
    (h : Connection.start.serve (handleRequest gw) reads w = (.ok conn, w')) :
    conn.written = [] ∨ ∃ rep status bytes, conn.written = [rep] ∧ rep.status = some status ∧
      rep.wire = some bytes ∧
      ∀ rest, ResponseReader.readResponse (bytes ++ rest) = some (rep.response status, rest) := by
  have hstart : Connection.start.Written Reply.Sendable := Or.inl ⟨rfl, rfl, rfl⟩
  cases hstart.run (stockReply_sendable .badRequest) (fun _ _ _ _ => handleRequest_sendable) h with
  | inl hopen => exact Or.inl hopen.2.2
  | inr hsent =>
    obtain ⟨-, rep, hrep, hw⟩ := hsent
    obtain ⟨status, hstatus⟩ := Option.ne_none_iff_exists'.mp hrep.status
    refine Or.inr ⟨rep, status, (rep.toBuffers status).flatten, hw, hstatus, ?_, fun rest => ?_⟩
    · rw [Reply.wire, hstatus]
      rfl
    · exact readResponse_wire hrep status rest

/-- A file that is not there, asked for in two reads -/
theorem sent_reads_back_sample :
    let gw : Gateway Unit := ⟨ascii "/srv", fun _ => none, ⟨fun w => (false, w),
      fun _ result w => ((false, result), w)⟩, plainTree, fun _ => []⟩
    let reads := [ascii "GET /a", ascii ".css HTTP/1.0\r\n\r\n"]
    ∃ conn, Connection.start.serve (handleRequest gw) reads () = (.ok conn, ()) ∧
      (conn.written = [] ∨ ∃ rep status bytes, conn.written = [rep] ∧ rep.status = some status ∧
        rep.wire = some bytes ∧
        ∀ rest, ResponseReader.readResponse (bytes ++ rest) =
          some (rep.response status, rest)) := by
  intro gw reads
  have hsent : (Connection.start.serve (handleRequest gw) reads ()).1.map Connection.written =
      .ok [stockReply .notFound] := by decide +kernel
  obtain ⟨conn, hconn, -⟩ := FallibleRun.map_eq_ok_iff.mp hsent
  have hrun : Connection.start.serve (handleRequest gw) reads () = (.ok conn, ()) :=
    Prod.ext hconn (Subsingleton.elim _ _)
  exact ⟨conn, hrun, sent_reads_back gw reads () () conn hrun⟩

end ReminderSuite
