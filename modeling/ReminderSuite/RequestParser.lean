import ReminderSuite.Basic
import Mathlib.Data.List.ModifyLast

/-! The gateway's incremental parser of HTTP requests, one byte at a time. -/
namespace ReminderSuite

structure Header where
  name : Bytes
  value : Bytes
deriving DecidableEq

structure Request where
  method : Bytes
  uri : Bytes
  http_version_major : Int32
  http_version_minor : Int32
  headers : List Header
deriving DecidableEq

def Request.start : Request := ⟨[], [], 0, 0, []⟩

namespace RequestParser

inductive ResultType where
  | good | bad | indeterminate
deriving DecidableEq

inductive State where
  | methodStart | method | uri
  | httpVersionH | httpVersionT1 | httpVersionT2 | httpVersionP | httpVersionSlash
  | httpVersionMajorStart | httpVersionMajor | httpVersionMinorStart | httpVersionMinor
  | expectingNewline1 | headerLineStart | headerLws | headerName | spaceBeforeHeaderValue
  | headerValue | expectingNewline2 | expectingNewline3
deriving DecidableEq

/-- Bytes from 128 on are negative characters and outside every class below. -/
def isChar (c : UInt8) : Bool := c ≤ 127
def isCtl (c : UInt8) : Bool := c ≤ 31 || c == 127
def isTspecial (c : UInt8) : Bool := (ascii "()<>@,;:\\\"/[]?=\x7b\x7d \t").contains c
def isDigit (c : UInt8) : Bool := ch '0' ≤ c && c ≤ ch '9'

def isToken (c : UInt8) : Bool := isChar c && !isCtl c && !isTspecial c

/-- One more decimal digit; the number wraps. -/
def pushDigit (n : Int32) (input : UInt8) : Int32 := n * 10 + Int32.ofNat (input.toNat - 48)

def pushName (req : Request) (input : UInt8) : Request :=
  { req with headers := req.headers.modifyLast fun h => { h with name := h.name ++ [input] } }

def pushValue (req : Request) (input : UInt8) : Request :=
  { req with headers := req.headers.modifyLast fun h => { h with value := h.value ++ [input] } }

def expect (c : UInt8) (next : State) (state : State) (req : Request) (input : UInt8) :
    ResultType × State × Request :=
  if input = c then (.indeterminate, next, req) else (.bad, state, req)

def consume (state : State) (req : Request) (input : UInt8) : ResultType × State × Request :=
  match state with
  | .methodStart =>
    if !isToken input then (.bad, state, req)
    else (.indeterminate, .method, { req with method := req.method ++ [input] })
  | .method =>
    if input = ch ' ' then (.indeterminate, .uri, req)
    else if !isToken input then (.bad, state, req)
    else (.indeterminate, state, { req with method := req.method ++ [input] })
  | .uri =>
    if input = ch ' ' then (.indeterminate, .httpVersionH, req)
    else if isCtl input then (.bad, state, req)
    else (.indeterminate, state, { req with uri := req.uri ++ [input] })
  | .httpVersionH => expect (ch 'H') .httpVersionT1 state req input
  | .httpVersionT1 => expect (ch 'T') .httpVersionT2 state req input
  | .httpVersionT2 => expect (ch 'T') .httpVersionP state req input
  | .httpVersionP => expect (ch 'P') .httpVersionSlash state req input
  | .httpVersionSlash =>
    if input = ch '/' then
      (.indeterminate, .httpVersionMajorStart,
        { req with http_version_major := 0, http_version_minor := 0 })
    else (.bad, state, req)
  | .httpVersionMajorStart =>
    if isDigit input then
      (.indeterminate, .httpVersionMajor,
        { req with http_version_major := pushDigit req.http_version_major input })
    else (.bad, state, req)
  | .httpVersionMajor =>
    if input = ch '.' then (.indeterminate, .httpVersionMinorStart, req)
    else if isDigit input then
      (.indeterminate, state,
        { req with http_version_major := pushDigit req.http_version_major input })
    else (.bad, state, req)
  | .httpVersionMinorStart =>
    if isDigit input then
      (.indeterminate, .httpVersionMinor,
        { req with http_version_minor := pushDigit req.http_version_minor input })
    else (.bad, state, req)
  | .httpVersionMinor =>
    if input = cr then (.indeterminate, .expectingNewline1, req)
    else if isDigit input then
      (.indeterminate, state,
        { req with http_version_minor := pushDigit req.http_version_minor input })
    else (.bad, state, req)
  | .expectingNewline1 => expect lf .headerLineStart state req input
  | .headerLineStart =>
    if input = cr then (.indeterminate, .expectingNewline3, req)
    else if !req.headers.isEmpty && (input = ch ' ' || input = ch '\t') then
      (.indeterminate, .headerLws, req)
    else if !isToken input then (.bad, state, req)
    else
      (.indeterminate, .headerName, { req with headers := req.headers ++ [⟨[input], []⟩] })
  | .headerLws =>
    if input = cr then (.indeterminate, .expectingNewline2, req)
    else if input = ch ' ' || input = ch '\t' then (.indeterminate, state, req)
    else if isCtl input then (.bad, state, req)
    else (.indeterminate, .headerValue, pushValue req input)
  | .headerName =>
    if input = ch ':' then (.indeterminate, .spaceBeforeHeaderValue, req)
    else if !isToken input then (.bad, state, req)
    else (.indeterminate, state, pushName req input)
  | .spaceBeforeHeaderValue => expect (ch ' ') .headerValue state req input
  | .headerValue =>
    if input = cr then (.indeterminate, .expectingNewline2, req)
    else if isCtl input then (.bad, state, req)
    else (.indeterminate, state, pushValue req input)
  | .expectingNewline2 => expect lf .headerLineStart state req input
  | .expectingNewline3 => if input = lf then (.good, state, req) else (.bad, state, req)

def parse (state : State) (req : Request) : Bytes → ResultType × Bytes × State × Request
  | [] => (.indeterminate, [], state, req)
  | input :: rest =>
    match consume state req input with
    | (.indeterminate, state, req) => parse state req rest
    | (result, state, req) => (result, rest, state, req)

section Runs
variable {state state' : State} {req req' : Request} {a rest : Bytes} {result : ResultType}

theorem parse_append (h : parse state req a = (.indeterminate, rest, state', req')) (b : Bytes) :
    parse state req (a ++ b) = parse state' req' b := by
  induction a generalizing state req with
  | nil =>
    obtain ⟨-, -, rfl, rfl⟩ : True ∧ [] = rest ∧ state = state' ∧ req = req' := by
      simpa [parse] using h
    rfl
  | cons x xs ih =>
    rw [List.cons_append, parse]
    rw [parse] at h
    rcases hx : consume state req x with ⟨_ | _ | _, next, nreq⟩
    · simp [hx] at h
    · simp [hx] at h
    · simp only [hx] at h
      exact ih h

theorem parse_append_done (h : parse state req a = (result, rest, state', req'))
    (hresult : result ≠ .indeterminate) (b : Bytes) :
    parse state req (a ++ b) = (result, rest ++ b, state', req') := by
  induction a generalizing state req with
  | nil => exact absurd (Prod.mk.inj h).1.symm hresult
  | cons x xs ih =>
    rw [List.cons_append, parse]
    rw [parse] at h
    rcases hx : consume state req x with ⟨_ | _ | _, next, nreq⟩
    · simp_all
    · simp_all
    · simp only [hx] at h
      exact ih h

/-- Before the byte that completes a request the parser only wants more. -/
theorem parse_prefix_indeterminate {b : Bytes}
    (h : parse state req (a ++ b) = (result, [], state', req')) (hb : b ≠ []) :
    ∃ next nreq, parse state req a = (.indeterminate, [], next, nreq) ∧
      parse next nreq b = (result, [], state', req') := by
  rcases ha : parse state req a with ⟨ra, resta, next, nreq⟩
  by_cases hra : ra = .indeterminate
  · subst hra
    have hrest : resta = [] := by
      clear h
      induction a generalizing state req with
      | nil => exact (Prod.mk.inj (Prod.mk.inj ha).2).1.symm
      | cons x xs ih =>
        rw [parse] at ha
        rcases hx : consume state req x with ⟨_ | _ | _, s, r⟩
        · simp [hx] at ha
        · simp [hx] at ha
        · simp only [hx] at ha
          exact ih ha
    rw [parse_append ha] at h
    exact ⟨next, nreq, by rw [hrest], h⟩
  · rw [parse_append_done ha hra] at h
    simp_all

end Runs

section Messages

structure WellFormedHeader (h : Header) : Prop where
  name_ne : h.name ≠ []
  name_token : ∀ c ∈ h.name, isToken c = true
  value_plain : ∀ c ∈ h.value, isCtl c = false

def headerLine (h : Header) : Bytes := h.name ++ ascii ": " ++ h.value ++ ascii "\r\n"

def requestText (uri : Bytes) (headers : List Header) : Bytes :=
  ascii "GET " ++ uri ++ ascii " HTTP/1.0\r\n" ++ headers.flatMap headerLine ++ ascii "\r\n"

theorem parse_uri (req : Request) {uri : Bytes} (h : ∀ c ∈ uri, c ≠ ch ' ' ∧ isCtl c = false) :
    parse .uri req uri = (.indeterminate, [], .uri, { req with uri := req.uri ++ uri }) := by
  induction uri generalizing req with
  | nil => simp [parse]
  | cons c cs ih =>
    obtain ⟨hsp, hctl⟩ := h c (by simp)
    rw [parse]
    simp only [consume, hsp, hctl, if_false, Bool.false_eq_true]
    rw [ih _ fun d hd => h d (List.mem_cons_of_mem c hd)]
    simp

theorem pushName_last (req : Request) (headers : List Header) (h : Header) (input : UInt8)
    (hreq : req.headers = headers ++ [h]) :
    pushName req input =
      { req with headers := headers ++ [{ h with name := h.name ++ [input] }] } := by
  rw [pushName, hreq, List.modifyLast_concat]

theorem pushValue_last (req : Request) (headers : List Header) (h : Header) (input : UInt8)
    (hreq : req.headers = headers ++ [h]) :
    pushValue req input =
      { req with headers := headers ++ [{ h with value := h.value ++ [input] }] } := by
  rw [pushValue, hreq, List.modifyLast_concat]

theorem token_ne {c : UInt8} (h : isToken c = true) :
    c ≠ ch ':' ∧ c ≠ ch ' ' ∧ c ≠ ch '\t' ∧ c ≠ cr := by
  refine ⟨?_, ?_, ?_, ?_⟩ <;>
  · intro heq
    subst heq
    exact absurd h (by decide)

theorem parse_headerName (req : Request) (headers : List Header) (h : Header) {name : Bytes}
    (hreq : req.headers = headers ++ [h]) (htok : ∀ c ∈ name, isToken c = true) :
    parse .headerName req name = (.indeterminate, [], .headerName,
      { req with headers := headers ++ [{ h with name := h.name ++ name }] }) := by
  induction name generalizing req h with
  | nil => simp [parse, ← hreq]
  | cons c cs ih =>
    have hc := htok c (by simp)
    rw [parse]
    simp only [consume, (token_ne hc).1, hc, if_false, Bool.not_true, Bool.false_eq_true]
    rw [ih _ { h with name := h.name ++ [c] } (by rw [pushName_last req headers h c hreq])
      fun d hd => htok d (List.mem_cons_of_mem c hd), pushName_last req headers h c hreq]
    simp

theorem parse_headerValue (req : Request) (headers : List Header) (h : Header) {value : Bytes}
    (hreq : req.headers = headers ++ [h]) (hplain : ∀ c ∈ value, isCtl c = false) :
    parse .headerValue req value = (.indeterminate, [], .headerValue,
      { req with headers := headers ++ [{ h with value := h.value ++ value }] }) := by
  induction value generalizing req h with
  | nil => simp [parse, ← hreq]
  | cons c cs ih =>
    have hc := hplain c (by simp)
    have hcr : c ≠ cr := by
      intro heq
      subst heq
      exact absurd hc (by decide)
    rw [parse]
    simp only [consume, hcr, hc, if_false, Bool.false_eq_true]
    rw [ih _ { h with value := h.value ++ [c] } (by rw [pushValue_last req headers h c hreq])
      fun d hd => hplain d (List.mem_cons_of_mem c hd), pushValue_last req headers h c hreq]
    simp

theorem parse_headerLine (req : Request) {h : Header} (hwf : WellFormedHeader h) :
    parse .headerLineStart req (headerLine h) =
      (.indeterminate, [], .headerLineStart, { req with headers := req.headers ++ [h] }) := by
  obtain ⟨name, value⟩ := h
  obtain ⟨c, cs, rfl⟩ := List.exists_cons_of_ne_nil hwf.name_ne
  have hc := hwf.name_token c (by simp)
  obtain ⟨-, hsp, htab, hcr⟩ := token_ne hc
  have hline : headerLine ⟨c :: cs, value⟩ =
      c :: (cs ++ (ascii ": " ++ (value ++ ascii "\r\n"))) := by
    simp [headerLine]
  rw [hline, parse]
  simp only [consume, hcr, hsp, htab, hc, if_false, Bool.not_true, Bool.false_eq_true, decide_false,
    Bool.or_self, Bool.and_false]
  rw [parse_append (parse_headerName _ req.headers ⟨[c], []⟩ rfl
    fun d hd => hwf.name_token d (List.mem_cons_of_mem c hd))]
  have hcolon : ∀ req : Request, parse .headerName req (ascii ": ") =
      (.indeterminate, [], .headerValue, req) := fun _ => rfl
  rw [parse_append (hcolon _)]
  rw [parse_append (parse_headerValue _ req.headers ⟨[c] ++ cs, []⟩ rfl hwf.value_plain)]
  rfl

theorem parse_headers (req : Request) {headers : List Header}
    (h : ∀ x ∈ headers, WellFormedHeader x) :
    parse .headerLineStart req (headers.flatMap headerLine) =
      (.indeterminate, [], .headerLineStart, { req with headers := req.headers ++ headers }) := by
  induction headers generalizing req with
  | nil => simp [parse]
  | cons x xs ih =>
    rw [List.flatMap_cons, parse_append (parse_headerLine req (h x (by simp))),
      ih _ fun y hy => h y (List.mem_cons_of_mem x hy)]
    simp

theorem parse_requestText {uri : Bytes} {headers : List Header}
    (huri : ∀ c ∈ uri, c ≠ ch ' ' ∧ isCtl c = false)
    (hheaders : ∀ x ∈ headers, WellFormedHeader x) :
    parse .methodStart Request.start (requestText uri headers) =
      (.good, [], .expectingNewline3, ⟨ascii "GET", uri, 1, 0, headers⟩) := by
  have hget : parse .methodStart Request.start (ascii "GET ") =
      (.indeterminate, [], .uri, { Request.start with method := ascii "GET" }) := by
    decide
  have hversion : ∀ req : Request, parse .uri req (ascii " HTTP/1.0\r\n") =
      (.indeterminate, [], .headerLineStart,
        { req with http_version_major := 1, http_version_minor := 0 }) := fun _ => rfl
  have hend : ∀ req : Request, parse .headerLineStart req (ascii "\r\n") =
      (.good, [], .expectingNewline3, req) := fun _ => rfl
  rw [requestText, List.append_assoc, List.append_assoc, List.append_assoc, parse_append hget,
    parse_append (parse_uri _ huri), parse_append (hversion _),
    parse_append (parse_headers _ hheaders), hend]
  rfl

end Messages
end RequestParser
end ReminderSuite
