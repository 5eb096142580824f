import ReminderSuite.RdbHandler
import ReminderSuite.RequestParser
import Mathlib.Data.List.Infix

/-! The gateway's request handler: decoding of the request target, calls of the Data
Provider, files under the document root, and the reply made of either. -/
namespace ReminderSuite
variable {ν : Type}

inductive StatusType where
  | ok | created | accepted | noContent | multipleChoices | movedPermanently
  | movedTemporarily | notModified | badRequest | unauthorized | forbidden | notFound
  | internalServerError | notImplemented | badGateway | serviceUnavailable
deriving DecidableEq

/-- A constructed reply has no status yet. -/
structure Reply where
  status : Option StatusType
  headers : List Header
  content : Bytes
deriving DecidableEq

def Reply.start : Reply := ⟨none, [], []⟩

namespace StockReplies

def page (title heading : String) : Bytes :=
  ascii "<html><head><title>" ++ ascii title ++ ascii "</title></head><body><h1>" ++
    ascii heading ++ ascii "</h1></body></html>"

def toString : StatusType → Bytes
  | .ok => []
  | .created => page "Created" "201 Created"
  | .accepted => page "Accepted" "202 Accepted"
  | .noContent => page "No Content" "204 Content"
  | .multipleChoices => page "Multiple Choices" "300 Multiple Choices"
  | .movedPermanently => page "Moved Permanently" "301 Moved Permanently"
  | .movedTemporarily => page "Moved Temporarily" "302 Moved Temporarily"
  | .notModified => page "Not Modified" "304 Not Modified"
  | .badRequest => page "Bad Request" "400 Bad Request"
  | .unauthorized => page "Unauthorized" "401 Unauthorized"
  | .forbidden => page "Forbidden" "403 Forbidden"
  | .notFound => page "Not Found" "404 Not Found"
  | .internalServerError => page "Internal Server Error" "500 Internal Server Error"
  | .notImplemented => page "Not Implemented" "501 Not Implemented"
  | .badGateway => page "Bad Gateway" "502 Bad Gateway"
  | .serviceUnavailable => page "Service Unavailable" "503 Service Unavailable"

end StockReplies

def sizeText (n : Nat) : Bytes := ascii (toString n)

def stockReply (status : StatusType) : Reply where
  status := some status
  headers := [⟨ascii "Content-Length", sizeText (StockReplies.toString status).length⟩,
    ⟨ascii "Content-Type", ascii "text/html"⟩]
  content := StockReplies.toString status

def extensionToType (extension : Bytes) : Bytes :=
  let mappings := [("gif", "image/gif"), ("htm", "text/html"), ("html", "text/html"),
    ("jpg", "image/jpeg"), ("png", "image/png"), ("css", "text/css")]
  match mappings.find? fun m => ascii m.1 == extension with
  | some m => ascii m.2
  | none => ascii "text/plain"

namespace RequestHandler

section Hex

def isSpace (c : UInt8) : Bool := c == 32 || (9 ≤ c && c ≤ 13)

def hexDigit (c : UInt8) : Option Nat :=
  if ch '0' ≤ c ∧ c ≤ ch '9' then some (c.toNat - 48)
  else if ch 'A' ≤ c ∧ c ≤ ch 'F' then some (c.toNat - 55)
  else if ch 'a' ≤ c ∧ c ≤ ch 'f' then some (c.toNat - 87)
  else none

def hexRun : Bytes → List Nat
  | [] => []
  | c :: cs =>
    match hexDigit c with
    | some d => d :: hexRun cs
    | none => []

/-- `is >> std::hex >> value`: white space, a sign and a prefix `0x` are accepted
before the digits, of which there must be one. -/
def extractHex (s : Bytes) : Option Int :=
  let s := s.dropWhile isSpace
  let (negative, s) := match s with
    | c :: rest =>
      if c = ch '-' then (true, rest) else if c = ch '+' then (false, rest) else (false, s)
    | [] => (false, s)
  let s := match s with
    | z :: x :: rest => if z = ch '0' ∧ (x = ch 'x' ∨ x = ch 'X') then rest else s
    | _ => s
  match hexRun s with
  | [] => none
  | digits =>
    let value : Nat := digits.foldl (fun value d => 16 * value + d) 0
    some (if negative then -value else value)

def toByte (value : Int) : UInt8 := UInt8.ofNat (value % 256).toNat

end Hex

def urlDecode : Bytes → Option Bytes
  | [] => some []
  | c :: rest =>
    if c = ch '%' then
      match rest with
      | hi :: lo :: rest =>
        match extractHex [hi, lo] with
        | some value => (urlDecode rest).map fun out => toByte value :: out
        | none => none
      | _ => none
    else if c = ch '+' then (urlDecode rest).map fun out => ch ' ' :: out
    else (urlDecode rest).map fun out => c :: out

def findLastOf (s : Bytes) (c : UInt8) : Option Nat :=
  (s.reverse.findIdx? fun b => b == c).map fun i => s.length - 1 - i

def extensionOf (path : Bytes) : Bytes :=
  match findLastOf path dot, findLastOf path slash with
  | some lastDot, some lastSlash => if lastDot > lastSlash then path.drop (lastDot + 1) else []
  | _, _ => []

/-- What the handler is given: the document root and what opening a path under it
reads, the client library, and the property tree library -/
structure Gateway (ν : Type) where
  docRoot : Bytes
  openFile : Bytes → Option Bytes
  client : DataClient ν
  ops : PTreeOps
  writeJson : PTree → Bytes

/-- The loop over `is.read` -/
def appendBlocks (size : Nat) (content text : Bytes) : Bytes :=
  if _ : 0 < (text.take size).length then
    appendBlocks size (content ++ text.take size) (text.drop size)
  else content
termination_by text.length
decreasing_by
  simp only [List.length_take, List.length_drop] at *
  omega

theorem appendBlocks_eq {size : Nat} (hsize : 0 < size) (content text : Bytes) :
    appendBlocks size content text = content ++ text := by
  induction content, text using appendBlocks.induct size with
  | case1 content text h ih =>
    rw [appendBlocks, dif_pos h, ih, List.append_assoc, List.take_append_drop]
  | case2 content text h =>
    have hnil : text = [] := by
      rw [List.length_take] at h
      exact List.length_eq_zero_iff.mp (by omega)
    rw [appendBlocks, dif_neg h, hnil, List.append_nil]

def serveFile (gw : Gateway ν) (path : Bytes) (rep : Reply) : Reply :=
  let path := if path.getLast? = some slash then path ++ ascii "index.html" else path
  let extension := extensionOf path
  match gw.openFile (cString (gw.docRoot ++ path)) with
  | none => stockReply .notFound
  | some text =>
    let content := appendBlocks 512 rep.content text
    ⟨some .ok, [⟨ascii "Content-Length", sizeText content.length⟩,
      ⟨ascii "Content-Type", extensionToType extension⟩], content⟩

def serveRdb (gw : Gateway ν) (path : Bytes) (rep : Reply) (world : ν) : Except Fault Reply × ν :=
  match RdbHandler.isValidCall path with
  | .error fault => (.error fault, world)
  | .ok false => (.ok (stockReply .badRequest), world)
  | .ok true =>
    match RdbHandler.parse gw.ops gw.client path world with
    | (.error fault, world) => (.error fault, world)
    | (.ok none, world) => (.ok (stockReply .badRequest), world)
    | (.ok (some reply), world) =>
      let response := reply.getResponse gw.writeJson
      (.ok ⟨some .ok, [⟨ascii "Content-Length", sizeText response.length⟩,
        ⟨ascii "Content-Type", ascii "application/json"⟩,
        ⟨ascii "Access-Control-Allow-Origin", ascii "*"⟩], rep.content ++ response⟩, world)

def handleRequest (gw : Gateway ν) (req : Request) (rep : Reply) (world : ν) :
    Except Fault Reply × ν :=
  match urlDecode req.uri with
  | none => (.ok (stockReply .badRequest), world)
  | some path =>
    if path.isEmpty ∨ path.head? ≠ some slash ∨ ascii ".." <:+: path then
      (.ok (stockReply .badRequest), world)
    else if RdbHandler.isRDBcall path then serveRdb gw path rep world
    else (.ok (serveFile gw path rep), world)

theorem handleRequest_rdb {gw : Gateway ν} {req : Request} {rest : Bytes}
    (hdecode : urlDecode req.uri = some (ascii "/rdb/" ++ rest))
    (hdots : ¬ ascii ".." <:+: ascii "/rdb/" ++ rest) (rep : Reply) (w : ν) :
    handleRequest gw req rep w = serveRdb gw (ascii "/rdb/" ++ rest) rep w := by
  have habsolute : ¬ ((ascii "/rdb/" ++ rest).isEmpty ∨ (ascii "/rdb/" ++ rest).head? ≠ some slash ∨
      ascii ".." <:+: ascii "/rdb/" ++ rest) := by
    have hhead : ascii "/rdb/" ++ rest = slash :: (ascii "rdb/" ++ rest) := rfl
    rw [hhead] at hdots ⊢
    simp [hdots]
  have hrdb : RdbHandler.isRDBcall (ascii "/rdb/" ++ rest) = true :=
    RdbHandler.isRDBcall_iff.mpr (List.prefix_append _ rest)
  rw [handleRequest, hdecode]
  simp only [if_neg habsolute, if_pos hrdb]

section PercentEncoding

/-- The encodings of a text: each byte literally, when it is printable and neither
space, percent nor plus, or as a percent sign and two hexadecimal digits -/
inductive PercentEncodes : Bytes → Bytes → Prop
  | nil : PercentEncodes [] []
  | literal {e s : Bytes} {b : UInt8} (hprint : 33 ≤ b.toNat ∧ b.toNat ≤ 126)
      (hne : b ≠ ch '%' ∧ b ≠ ch '+')
      (rest : PercentEncodes e s) : PercentEncodes (b :: e) (b :: s)
  | escaped {e s : Bytes} {b hi lo : UInt8} {h l : Nat} (hhi : hexDigit hi = some h)
      (hlo : hexDigit lo = some l) (hb : 16 * h + l = b.toNat) (rest : PercentEncodes e s) :
      PercentEncodes (ch '%' :: hi :: lo :: e) (b :: s)

theorem hexDigit_bounds {c : UInt8} {d : Nat} (h : hexDigit c = some d) :
    48 ≤ c.toNat ∧ c.toNat ≤ 102 := by
  have h0 : ch '0' = 48 ∧ ch '9' = 57 ∧ ch 'A' = 65 ∧ ch 'F' = 70 ∧ ch 'a' = 97 ∧ ch 'f' = 102 := by
    decide
  obtain ⟨e0, e9, eA, eF, ea, ef⟩ := h0
  rw [hexDigit, e0, e9, eA, eF, ea, ef] at h
  simp only [UInt8.le_iff_toNat_le] at h
  split_ifs at h with h1 h2 h3
  all_goals
    simp at *
    omega

theorem ne_of_hexDigit {c x : UInt8} {d : Nat} (h : hexDigit c = some d) (hx : hexDigit x = none) :
    c ≠ x := by
  intro heq
  subst heq
  simp [hx] at h

theorem isSpace_of_hexDigit {c : UInt8} {d : Nat} (h : hexDigit c = some d) :
    isSpace c = false := by
  have hbounds := hexDigit_bounds h
  have h32 : c ≠ 32 := ne_of_hexDigit h (by decide)
  have h13 : ¬ c ≤ 13 := by
    rw [UInt8.le_iff_toNat_le]
    have : (13 : UInt8).toNat = 13 := rfl
    omega
  simp [isSpace, h32, h13]

theorem extractHex_digits {hi lo : UInt8} {h l : Nat} (hhi : hexDigit hi = some h)
    (hlo : hexDigit lo = some l) : extractHex [hi, lo] = some ((16 * h + l : Nat) : Int) := by
  have hspace := isSpace_of_hexDigit hhi
  have hminus : hi ≠ ch '-' := ne_of_hexDigit hhi (by decide)
  have hplus : hi ≠ ch '+' := ne_of_hexDigit hhi (by decide)
  have hx : lo ≠ ch 'x' := ne_of_hexDigit hlo (by decide)
  have hX : lo ≠ ch 'X' := ne_of_hexDigit hlo (by decide)
  simp [extractHex, hspace, hminus, hplus, hx, hX, hexRun, hhi, hlo]

theorem toByte_toNat (b : UInt8) : toByte (b.toNat : Int) = b := by
  have hlt := b.toNat_lt
  have hmod : ((b.toNat : Int) % 256).toNat = b.toNat := by omega
  rw [toByte, hmod]
  simp

theorem urlDecode_literal {c : UInt8} (hne : c ≠ ch '%' ∧ c ≠ ch '+') (rest : Bytes) :
    urlDecode (c :: rest) = (urlDecode rest).map fun out => c :: out := by
  match rest with
  | [] | [_] | _ :: _ :: _ => simp [urlDecode, hne.1, hne.2]

theorem urlDecode_of_encodes {e s : Bytes} (h : PercentEncodes e s) : urlDecode e = some s := by
  induction h with
  | nil => rfl
  | literal hprint hne rest ih => simp [urlDecode_literal hne, ih]
  | escaped hhi hlo hb rest ih =>
    rw [urlDecode]
    simp [extractHex_digits hhi hlo, hb, toByte_toNat, ih]

theorem printable_plain {c : UInt8} (hlow : 33 ≤ c.toNat) (hhigh : c.toNat ≤ 126) :
    c ≠ ch ' ' ∧ RequestParser.isCtl c = false := by
  have hsp : (ch ' ').toNat = 32 := by decide
  have h31 : ¬ c ≤ 31 := by
    rw [UInt8.le_iff_toNat_le]
    have : (31 : UInt8).toNat = 31 := rfl
    omega
  have h127 : c ≠ 127 := by
    intro heq
    subst heq
    have : (127 : UInt8).toNat = 127 := rfl
    omega
  refine ⟨?_, by simp [RequestParser.isCtl, h31, h127]⟩
  intro heq
  subst heq
  omega

theorem uri_of_encodes {e s : Bytes} (h : PercentEncodes e s) :
    ∀ c ∈ e, c ≠ ch ' ' ∧ RequestParser.isCtl c = false := by
  induction h with
  | nil => simp
  | literal hprint hne rest ih =>
    exact List.forall_mem_cons.mpr ⟨printable_plain hprint.1 hprint.2, ih⟩
  | escaped hhi hlo hb rest ih =>
    have hdigit : ∀ {c : UInt8} {d : Nat}, hexDigit c = some d →
        c ≠ ch ' ' ∧ RequestParser.isCtl c = false := by
      intro c d hc
      have hbounds := hexDigit_bounds hc
      exact printable_plain (by omega) (by omega)
    exact List.forall_mem_cons.mpr ⟨by decide, List.forall_mem_cons.mpr ⟨hdigit hhi,
      List.forall_mem_cons.mpr ⟨hdigit hlo, ih⟩⟩⟩

end PercentEncoding

end RequestHandler
end ReminderSuite
