import ReminderSuite.RequestParser

/-! The language of the gateway's request parser: which byte strings it accepts, as what
request, and that it stops at the first byte from which none can be reached. -/
namespace ReminderSuite
namespace RequestParser

def isBlank (c : UInt8) : Bool := c = ch ' ' || c = ch '\t'

/-- A line of the header block: a header, or more text for the value of the last one. That
text, if there is any, begins behind the white space. -/
inductive Line where
  | header (h : Header) (wf : WellFormedHeader h)
  | continuation (blank text : Bytes) (blank_ne : blank ≠ [])
      (blanks : ∀ c ∈ blank, isBlank c = true)
      (plain : ∀ c ∈ text, isCtl c = false) (begins : ∀ c ∈ text.head?, isBlank c = false)

namespace Line

def isHeader : Line → Bool
  | header .. => true
  | continuation .. => false

def text : Line → Bytes
  | header h _ => headerLine h
  | continuation blank text .. => blank ++ text ++ ascii "\r\n"

def extend (headers : List Header) : Line → List Header
  | header h _ => headers ++ [h]
  | continuation _ text .. => headers.modifyLast fun h => { h with value := h.value ++ text }

theorem text_pos (line : Line) : 0 < line.text.length := by
  have hend : (ascii "\r\n").length = 2 := by decide
  cases line <;>
  · simp only [text, headerLine, List.length_append, hend]
    omega

end Line

def decimal (digits : Bytes) : Nat := digits.foldl (fun n c => n * 10 + (c.toNat - 48)) 0

/-- What the parser takes for a request. The first line behind the request line continues
nothing. -/
structure Message where
  method : Bytes
  uri : Bytes
  major : Bytes
  minor : Bytes
  lines : List Line
  method_ne : method ≠ []
  method_token : ∀ c ∈ method, isToken c = true
  uri_plain : ∀ c ∈ uri, c ≠ ch ' ' ∧ isCtl c = false
  major_ne : major ≠ []
  major_digits : ∀ c ∈ major, isDigit c = true
  minor_ne : minor ≠ []
  minor_digits : ∀ c ∈ minor, isDigit c = true
  starts : ∀ l ∈ lines.head?, l.isHeader = true

namespace Message

def text (m : Message) : Bytes :=
  m.method ++ ascii " " ++ m.uri ++ ascii " HTTP/" ++ m.major ++ ascii "." ++ m.minor ++
    ascii "\r\n" ++ m.lines.flatMap Line.text ++ ascii "\r\n"

def request (m : Message) : Request :=
  ⟨m.method, m.uri, Int32.ofNat (decimal m.major), Int32.ofNat (decimal m.minor),
    m.lines.foldl Line.extend []⟩

end Message

/-- From this state the text leads to a complete request, and the rest is left over. -/
def Accepts (state : State) (req : Request) (text rest : Bytes) (result : Request) : Prop :=
  parse state req text = (.good, rest, .expectingNewline3, result)

section Steps
variable {state next : State} {req result : Request} {c stop : UInt8} {text rest : Bytes}

theorem not_accepts_nil : ¬ Accepts state req [] rest result := by
  simp [Accepts, parse]

theorem accepts_cons {after : Request} (h : consume state req c = (.indeterminate, next, after)) :
    Accepts state req (c :: text) rest result ↔ Accepts next after text rest result := by
  rw [Accepts, Accepts, parse, h]

theorem not_accepts_of_bad {after : Request} (h : consume state req c = (.bad, next, after)) :
    ¬ Accepts state req (c :: text) rest result := by
  simp [Accepts, parse, h]

theorem accepts_expect_iff {after : Request}
    (h : ∀ c, consume state req c =
      if c = stop then (.indeterminate, next, after) else (.bad, state, req)) :
    Accepts state req text rest result ↔
      ∃ more, text = stop :: more ∧ Accepts next after more rest result := by
  cases text with
  | nil => simp [not_accepts_nil]
  | cons c more =>
    by_cases hc : c = stop
    · subst hc
      rw [accepts_cons (by rw [h, if_pos rfl])]
      simp
    · refine iff_of_false (not_accepts_of_bad (by rw [h, if_neg hc])) ?_
      simp [hc]

/-- A state that takes a class of characters in, up to one that ends the run -/
theorem accepts_run_iff {p : UInt8 → Bool} (push : Request → UInt8 → Request)
    (h : ∀ req c, consume state req c = if c = stop then (.indeterminate, next, req)
      else if p c = true then (.indeterminate, state, push req c) else (.bad, state, req)) :
    Accepts state req text rest result ↔
      ∃ word more, text = word ++ stop :: more ∧ (∀ c ∈ word, c ≠ stop ∧ p c = true) ∧
        Accepts next (word.foldl push req) more rest result := by
  constructor
  · intro haccepts
    induction text generalizing req with
    | nil => exact absurd haccepts not_accepts_nil
    | cons c text ih =>
      by_cases hc : c = stop
      · subst hc
        exact ⟨[], text, rfl, by simp, (accepts_cons (by rw [h, if_pos rfl]; rfl)).mp haccepts⟩
      cases hp : p c with
      | false => exact absurd haccepts (not_accepts_of_bad (by rw [h, if_neg hc, hp]; rfl))
      | true =>
        rw [accepts_cons (by rw [h, if_neg hc, if_pos hp])] at haccepts
        obtain ⟨word, more, rfl, hword, hmore⟩ := ih haccepts
        exact ⟨c :: word, more, rfl, List.forall_mem_cons.mpr ⟨⟨hc, hp⟩, hword⟩, hmore⟩
  · intro hsplit
    obtain ⟨word, more, rfl, hword, hmore⟩ := hsplit
    induction word generalizing req with
    | nil => exact (accepts_cons (by rw [h, if_pos rfl]; rfl)).mpr hmore
    | cons c word ih =>
      obtain ⟨⟨hc, hp⟩, hrest⟩ := List.forall_mem_cons.mp hword
      exact (accepts_cons (by rw [h, if_neg hc, if_pos hp])).mpr (ih hrest hmore)

theorem accepts_first_iff {p : UInt8 → Bool} (push : Request → UInt8 → Request)
    (h : ∀ c, consume state req c = if p c = true then (.indeterminate, next, push req c)
      else (.bad, state, req)) :
    Accepts state req text rest result ↔
      ∃ c more, text = c :: more ∧ p c = true ∧ Accepts next (push req c) more rest result := by
  cases text with
  | nil => simp [not_accepts_nil]
  | cons c more =>
    cases hp : p c with
    | false =>
      refine iff_of_false (not_accepts_of_bad (by rw [h, hp]; rfl)) fun hsplit => ?_
      obtain ⟨d, more', heq, hd, -⟩ := hsplit
      obtain ⟨rfl, -⟩ := List.cons.inj heq
      simp [hp] at hd
    | true =>
      rw [accepts_cons (by rw [h, if_pos hp])]
      constructor
      · exact fun hmore => ⟨c, more, rfl, hp, hmore⟩
      · intro hsplit
        obtain ⟨d, more', heq, -, hmore⟩ := hsplit
        obtain ⟨rfl, rfl⟩ := List.cons.inj heq
        exact hmore

end Steps

section RequestLine
variable {req result : Request} {text rest : Bytes}

def pushMethod (req : Request) (input : UInt8) : Request :=
  { req with method := req.method ++ [input] }

def pushUri (req : Request) (input : UInt8) : Request := { req with uri := req.uri ++ [input] }

def pushMajor (req : Request) (input : UInt8) : Request :=
  { req with http_version_major := pushDigit req.http_version_major input }

def pushMinor (req : Request) (input : UInt8) : Request :=
  { req with http_version_minor := pushDigit req.http_version_minor input }

theorem foldl_pushMethod (req : Request) (word : Bytes) :
    word.foldl pushMethod req = { req with method := req.method ++ word } := by
  induction word generalizing req with
  | nil => simp
  | cons c word ih => simp [ih, pushMethod]

theorem foldl_pushUri (req : Request) (word : Bytes) :
    word.foldl pushUri req = { req with uri := req.uri ++ word } := by
  induction word generalizing req with
  | nil => simp
  | cons c word ih => simp [ih, pushUri]

theorem foldl_pushDigit (n : Nat) (word : Bytes) : word.foldl pushDigit (Int32.ofNat n) =
    Int32.ofNat (word.foldl (fun n c => n * 10 + (c.toNat - 48)) n) := by
  induction word generalizing n with
  | nil => rfl
  | cons c word ih =>
    have hstep : pushDigit (Int32.ofNat n) c = Int32.ofNat (n * 10 + (c.toNat - 48)) := by
      rw [Int32.ofNat_add, Int32.ofNat_mul]
      rfl
    rw [List.foldl_cons, hstep, ih, List.foldl_cons]

theorem foldl_pushDigit_zero (word : Bytes) : word.foldl pushDigit 0 = Int32.ofNat (decimal word) :=
  foldl_pushDigit 0 word

theorem foldl_pushMajor (req : Request) (word : Bytes) : word.foldl pushMajor req =
    { req with
      http_version_major := word.foldl pushDigit req.http_version_major } := by
  induction word generalizing req with
  | nil => rfl
  | cons c word ih => simp [ih, pushMajor]

theorem foldl_pushMinor (req : Request) (word : Bytes) : word.foldl pushMinor req =
    { req with
      http_version_minor := word.foldl pushDigit req.http_version_minor } := by
  induction word generalizing req with
  | nil => rfl
  | cons c word ih => simp [ih, pushMinor]

theorem accepts_word_iff {start state next : State} {stop : UInt8} {p : UInt8 → Bool}
    (push : Request → UInt8 → Request) (hstop : p stop = false)
    (hstart : ∀ req c, consume start req c = if p c = true then (.indeterminate, state, push req c)
      else (.bad, start, req))
    (hrun : ∀ req c, consume state req c = if c = stop then (.indeterminate, next, req)
      else if p c = true then (.indeterminate, state, push req c) else (.bad, state, req)) :
    Accepts start req text rest result ↔
      ∃ word more, text = word ++ stop :: more ∧ word ≠ [] ∧ (∀ c ∈ word, p c = true) ∧
        Accepts next (word.foldl push req) more rest result := by
  rw [accepts_first_iff push (hstart req)]
  constructor
  · intro h
    obtain ⟨c, tail, rfl, hc, hmore⟩ := h
    obtain ⟨word, more, rfl, hword, hmore⟩ := (accepts_run_iff push hrun).mp hmore
    refine ⟨c :: word, more, rfl, by simp, ?_, hmore⟩
    exact List.forall_mem_cons.mpr ⟨hc, fun d hd => (hword d hd).2⟩
  · intro h
    obtain ⟨word, more, rfl, hne, hword, hmore⟩ := h
    obtain ⟨c, word, rfl⟩ := List.exists_cons_of_ne_nil hne
    obtain ⟨hc, hword⟩ := List.forall_mem_cons.mp hword
    refine ⟨c, word ++ stop :: more, rfl, hc, (accepts_run_iff push hrun).mpr ?_⟩
    refine ⟨word, more, rfl, fun d hd => ⟨fun heq => ?_, hword d hd⟩, hmore⟩
    simp [← heq, hword d hd] at hstop

theorem accepts_method_iff :
    Accepts .methodStart req text rest result ↔
      ∃ method more, text = method ++ ch ' ' :: more ∧ method ≠ [] ∧
        (∀ c ∈ method, isToken c = true) ∧
        Accepts .uri { req with method := req.method ++ method } more rest result := by
  have hstart (req : Request) (c : UInt8) : consume .methodStart req c =
      if isToken c = true then (.indeterminate, .method, pushMethod req c)
      else (.bad, .methodStart, req) := by
    cases h : isToken c <;> simp [consume, h, pushMethod]
  have hrun (req : Request) (c : UInt8) : consume .method req c =
      if c = ch ' ' then (.indeterminate, .uri, req)
      else if isToken c = true then (.indeterminate, .method, pushMethod req c)
      else (.bad, .method, req) := by
    cases h : isToken c <;> simp [consume, h, pushMethod]
  rw [accepts_word_iff pushMethod (by decide) hstart hrun]
  simp only [foldl_pushMethod]

theorem accepts_uri_iff :
    Accepts .uri req text rest result ↔
      ∃ uri more, text = uri ++ ch ' ' :: more ∧ (∀ c ∈ uri, c ≠ ch ' ' ∧ isCtl c = false) ∧
        Accepts .httpVersionH { req with uri := req.uri ++ uri } more rest result := by
  have hrun (req : Request) (c : UInt8) : consume .uri req c =
      if c = ch ' ' then (.indeterminate, .httpVersionH, req)
      else if (!isCtl c) = true then (.indeterminate, .uri, pushUri req c)
      else (.bad, .uri, req) := by
    cases h : isCtl c <;> simp [consume, h, pushUri]
  simp only [accepts_run_iff pushUri hrun, foldl_pushUri, Bool.not_eq_true']

theorem accepts_major_iff (hreq : req.http_version_major = 0) :
    Accepts .httpVersionMajorStart req text rest result ↔
      ∃ major more, text = major ++ ch '.' :: more ∧ major ≠ [] ∧ (∀ c ∈ major, isDigit c = true) ∧
        Accepts .httpVersionMinorStart
          { req with http_version_major := Int32.ofNat (decimal major) }
          more rest result := by
  have hstart (req : Request) (c : UInt8) : consume .httpVersionMajorStart req c =
      if isDigit c = true then (.indeterminate, .httpVersionMajor, pushMajor req c)
      else (.bad, .httpVersionMajorStart, req) := rfl
  have hrun (req : Request) (c : UInt8) : consume .httpVersionMajor req c =
      if c = ch '.' then (.indeterminate, .httpVersionMinorStart, req)
      else if isDigit c = true then (.indeterminate, .httpVersionMajor, pushMajor req c)
      else (.bad, .httpVersionMajor, req) := rfl
  rw [accepts_word_iff pushMajor (by decide) hstart hrun]
  simp only [foldl_pushMajor, hreq, foldl_pushDigit_zero]

theorem accepts_minor_iff (hreq : req.http_version_minor = 0) :
    Accepts .httpVersionMinorStart req text rest result ↔
      ∃ minor more, text = minor ++ cr :: more ∧ minor ≠ [] ∧ (∀ c ∈ minor, isDigit c = true) ∧
        Accepts .expectingNewline1 { req with http_version_minor := Int32.ofNat (decimal minor) }
          more rest result := by
  have hstart (req : Request) (c : UInt8) : consume .httpVersionMinorStart req c =
      if isDigit c = true then (.indeterminate, .httpVersionMinor, pushMinor req c)
      else (.bad, .httpVersionMinorStart, req) := rfl
  have hrun (req : Request) (c : UInt8) : consume .httpVersionMinor req c =
      if c = cr then (.indeterminate, .expectingNewline1, req)
      else if isDigit c = true then (.indeterminate, .httpVersionMinor, pushMinor req c)
      else (.bad, .httpVersionMinor, req) := rfl
  rw [accepts_word_iff pushMinor (by decide) hstart hrun]
  simp only [foldl_pushMinor, hreq, foldl_pushDigit_zero]

theorem accepts_version_iff :
    Accepts .httpVersionH req text rest result ↔
      ∃ more, text = ascii "HTTP/" ++ more ∧
        Accepts .httpVersionMajorStart { req with http_version_major := 0, http_version_minor := 0 }
          more rest result := by
  have hh (c : UInt8) : consume .httpVersionH req c = if c = ch 'H' then
      (.indeterminate, .httpVersionT1, req) else (.bad, .httpVersionH, req) := rfl
  have ht1 (c : UInt8) : consume .httpVersionT1 req c = if c = ch 'T' then
      (.indeterminate, .httpVersionT2, req) else (.bad, .httpVersionT1, req) := rfl
  have ht2 (c : UInt8) : consume .httpVersionT2 req c = if c = ch 'T' then
      (.indeterminate, .httpVersionP, req) else (.bad, .httpVersionT2, req) := rfl
  have hp (c : UInt8) : consume .httpVersionP req c = if c = ch 'P' then
      (.indeterminate, .httpVersionSlash, req) else (.bad, .httpVersionP, req) := rfl
  have hslash (c : UInt8) : consume .httpVersionSlash req c = if c = ch '/' then
      (.indeterminate, .httpVersionMajorStart,
        { req with http_version_major := 0, http_version_minor := 0 })
      else (.bad, .httpVersionSlash, req) := rfl
  simp only [accepts_expect_iff hh, accepts_expect_iff ht1, accepts_expect_iff ht2,
    accepts_expect_iff hp, accepts_expect_iff hslash]
  constructor
  · intro h
    obtain ⟨_, rfl, _, rfl, _, rfl, _, rfl, more, rfl, hmore⟩ := h
    exact ⟨more, rfl, hmore⟩
  · intro h
    obtain ⟨more, rfl, hmore⟩ := h
    exact ⟨_, rfl, _, rfl, _, rfl, _, rfl, more, rfl, hmore⟩

end RequestLine

section HeaderLines
variable {req result : Request} {text rest : Bytes}

theorem accepts_newline_iff {state : State}
    (hstate : state = .expectingNewline1 ∨ state = .expectingNewline2) :
    Accepts state req text rest result ↔
      ∃ more, text = lf :: more ∧ Accepts .headerLineStart req more rest result := by
  have h (c : UInt8) : consume state req c = if c = lf then
      (.indeterminate, .headerLineStart, req) else (.bad, state, req) := by
    obtain rfl | rfl := hstate <;> rfl
  exact accepts_expect_iff h

theorem foldl_pushName (req : Request) {headers : List Header} {h : Header}
    (hreq : req.headers = headers ++ [h]) (word : Bytes) :
    word.foldl pushName req =
      { req with headers := headers ++ [{ h with name := h.name ++ word }] } := by
  induction word generalizing req h with
  | nil => simp [← hreq]
  | cons c word ih =>
    rw [List.foldl_cons, pushName_last req headers h c hreq, ih _ rfl]
    simp

theorem foldl_pushValue (req : Request) (word : Bytes) : word.foldl pushValue req =
    { req with headers := req.headers.modifyLast fun h =>
      { h with value := h.value ++ word } } := by
  cases List.eq_nil_or_concat req.headers with
  | inl hnil =>
    have hsame (update : Header → Header) :
        { req with headers := req.headers.modifyLast update } = req := by
      have hnone : req.headers.modifyLast update = req.headers := by rw [hnil]; rfl
      rw [hnone]
    rw [hsame]
    induction word with
    | nil => rfl
    | cons c word ih => rw [List.foldl_cons, pushValue, hsame, ih]
  | inr hlast =>
    obtain ⟨headers, h, hreq⟩ := hlast
    rw [List.concat_eq_append] at hreq
    rw [hreq, List.modifyLast_concat]
    induction word generalizing req h with
    | nil => simp [← hreq]
    | cons c word ih =>
      rw [List.foldl_cons, pushValue_last req headers h c hreq, ih _ _ rfl]
      simp

theorem accepts_value_iff :
    Accepts .headerValue req text rest result ↔
      ∃ value more, text = value ++ ascii "\r\n" ++ more ∧ (∀ c ∈ value, isCtl c = false) ∧
        Accepts .headerLineStart (value.foldl pushValue req) more rest result := by
  have hrun (req : Request) (c : UInt8) : consume .headerValue req c =
      if c = cr then (.indeterminate, .expectingNewline2, req)
      else if (!isCtl c) = true then (.indeterminate, .headerValue, pushValue req c)
      else (.bad, .headerValue, req) := by
    cases h : isCtl c <;> simp [consume, h]
  have hcr : isCtl cr = true := by decide
  simp only [accepts_run_iff pushValue hrun, Bool.not_eq_true',
    accepts_newline_iff (Or.inr rfl : State.expectingNewline2 = .expectingNewline1 ∨ _)]
  constructor
  · intro h
    obtain ⟨value, _, rfl, hvalue, more, rfl, hmore⟩ := h
    exact ⟨value, more, by simp [ascii, ch, cr, lf], fun c hc => (hvalue c hc).2, hmore⟩
  · intro h
    obtain ⟨value, more, rfl, hvalue, hmore⟩ := h
    refine ⟨value, lf :: more, by simp [ascii, ch, cr, lf],
      fun c hc => ⟨fun heq => ?_, hvalue c hc⟩,
      more, rfl, hmore⟩
    rw [← heq, hvalue c hc] at hcr
    exact absurd hcr (by decide)

theorem isBlank_ne_cr {c : UInt8} (h : isBlank c = true) : c ≠ cr := by
  intro heq
  subst heq
  exact absurd h (by decide)

theorem accepts_blanks_iff :
    Accepts .headerLws req text rest result ↔
      ∃ blank more more', text = blank ++ more ++ ascii "\r\n" ++ more' ∧
        (∀ c ∈ blank, isBlank c = true) ∧ (∀ c ∈ more, isCtl c = false) ∧
        (∀ c ∈ more.head?, isBlank c = false) ∧
        Accepts .headerLineStart (more.foldl pushValue req) more' rest result := by
  have hstep (c : UInt8) : consume .headerLws req c =
      if c = cr then (.indeterminate, .expectingNewline2, req)
      else if isBlank c = true then (.indeterminate, .headerLws, req)
      else if isCtl c = true then (.bad, .headerLws, req)
      else (.indeterminate, .headerValue, pushValue req c) := rfl
  constructor
  · intro h
    induction text with
    | nil => exact absurd h not_accepts_nil
    | cons c text ih =>
      by_cases hc : c = cr
      · subst hc
        rw [accepts_cons (by rw [hstep, if_pos rfl]), accepts_newline_iff (Or.inr rfl)] at h
        obtain ⟨more, rfl, hmore⟩ := h
        exact ⟨[], [], more, rfl, by simp, by simp, by simp, hmore⟩
      cases hb : isBlank c with
      | true =>
        rw [accepts_cons (by rw [hstep, if_neg hc, if_pos hb])] at h
        obtain ⟨blank, more, more', rfl, hblanks, hplain, hhead, hmore⟩ := ih h
        exact ⟨c :: blank, more, more', rfl, List.forall_mem_cons.mpr ⟨hb, hblanks⟩, hplain, hhead,
          hmore⟩
      | false =>
        cases hctl : isCtl c with
        | true =>
          have hbad : consume .headerLws req c = (.bad, .headerLws, req) := by
            rw [hstep, if_neg hc, hb, if_neg Bool.false_ne_true, if_pos hctl]
          exact absurd h (not_accepts_of_bad hbad)
        | false =>
          rw [accepts_cons (by rw [hstep, if_neg hc, hb, hctl]; rfl), accepts_value_iff] at h
          obtain ⟨value, more, rfl, hvalue, hmore⟩ := h
          exact ⟨[], c :: value, more, by simp, by simp, List.forall_mem_cons.mpr ⟨hctl, hvalue⟩,
            by simpa using hb, hmore⟩
  · intro h
    obtain ⟨blank, more, more', rfl, hblanks, hplain, hhead, hmore⟩ := h
    induction blank with
    | cons c blank ih =>
      obtain ⟨hb, hblanks⟩ := List.forall_mem_cons.mp hblanks
      refine (accepts_cons ?_).mpr (ih hblanks)
      rw [hstep, if_neg (isBlank_ne_cr hb), if_pos hb]
    | nil =>
      cases more with
      | nil =>
        have hend : consume .headerLws req cr = (.indeterminate, .expectingNewline2, req) := rfl
        exact (accepts_cons hend).mpr ((accepts_newline_iff (Or.inr rfl)).mpr ⟨more', rfl, hmore⟩)
      | cons c more =>
        obtain ⟨hctl, hplain⟩ := List.forall_mem_cons.mp hplain
        have hc : c ≠ cr := by
          intro heq
          subst heq
          exact absurd hctl (by decide)
        have hb : isBlank c = false := hhead c (by simp)
        refine (accepts_cons (by rw [hstep, if_neg hc, hb, hctl]; rfl)).mpr ?_
        exact accepts_value_iff.mpr ⟨more, more', by simp, hplain, hmore⟩

theorem accepts_name_iff {c : UInt8} :
    Accepts .headerName { req with headers := req.headers ++ [⟨[c], []⟩] } text rest result ↔
      ∃ name value more, text = name ++ ascii ": " ++ value ++ ascii "\r\n" ++ more ∧
        (∀ d ∈ name, isToken d = true) ∧ (∀ d ∈ value, isCtl d = false) ∧
        Accepts .headerLineStart { req with headers := req.headers ++
          [⟨c :: name, value⟩] } more rest
          result := by
  have hrun (req : Request) (c : UInt8) : consume .headerName req c =
      if c = ch ':' then (.indeterminate, .spaceBeforeHeaderValue, req)
      else if isToken c = true then (.indeterminate, .headerName, pushName req c)
      else (.bad, .headerName, req) := by
    cases h : isToken c <;> simp [consume, h]
  have hspace (req : Request) (c : UInt8) : consume .spaceBeforeHeaderValue req c =
      if c = ch ' ' then (.indeterminate, .headerValue, req)
      else (.bad, .spaceBeforeHeaderValue, req) := rfl
  have hread (name value : Bytes) : value.foldl pushValue
      (name.foldl pushName { req with headers := req.headers ++ [⟨[c], []⟩] }) =
      { req with headers := req.headers ++ [⟨c :: name, value⟩] } := by
    rw [foldl_pushName _ rfl, foldl_pushValue, List.modifyLast_concat]
    rfl
  simp only [accepts_run_iff pushName hrun, accepts_expect_iff (hspace _), accepts_value_iff, hread]
  constructor
  · intro h
    obtain ⟨name, _, rfl, hname, _, rfl, value, more, rfl, hvalue, hmore⟩ := h
    exact ⟨name, value, more, by simp [ascii, ch], fun d hd => (hname d hd).2, hvalue, hmore⟩
  · intro h
    obtain ⟨name, value, more, rfl, hname, hvalue, hmore⟩ := h
    exact ⟨name, ch ' ' :: (value ++ ascii "\r\n" ++ more), by simp [ascii, ch],
      fun d hd => ⟨(token_ne (hname d hd)).1, hname d hd⟩, _, rfl, value, more, rfl, hvalue, hmore⟩

theorem accepts_end_iff :
    Accepts .expectingNewline3 req text rest result ↔ text = lf :: rest ∧ result = req := by
  cases text with
  | nil => simp [Accepts, parse]
  | cons c text =>
    by_cases hc : c = lf
    · subst hc
      have hgood : consume .expectingNewline3 req lf = (.good, .expectingNewline3, req) := rfl
      simp [Accepts, parse, hgood, eq_comm]
    · have hbad : consume .expectingNewline3 req c = (.bad, .expectingNewline3, req) := if_neg hc
      exact iff_of_false (not_accepts_of_bad hbad) (by simp [hc])

theorem consume_headerLineStart (req : Request) (c : UInt8) :
    consume .headerLineStart req c =
      if c = cr then (.indeterminate, .expectingNewline3, req)
      else if req.headers ≠ [] ∧ isBlank c = true then (.indeterminate, .headerLws, req)
      else if isToken c = true then
        (.indeterminate, .headerName, { req with headers := req.headers ++ [⟨[c], []⟩] })
      else (.bad, .headerLineStart, req) := by
  cases h : isToken c <;> simp [consume, isBlank, h]

/-- At the start of a line the header block ends, or a line of it follows. -/
theorem accepts_line_iff :
    Accepts .headerLineStart req text rest result ↔
      (text = ascii "\r\n" ++ rest ∧ result = req) ∨
      ∃ (line : Line) (more : Bytes), text = line.text ++ more ∧
        (req.headers = [] → line.isHeader = true) ∧
        Accepts .headerLineStart { req with headers := line.extend req.headers } more rest
          result := by
  constructor
  · intro h
    cases text with
    | nil => exact absurd h not_accepts_nil
    | cons c text =>
      by_cases hc : c = cr
      · subst hc
        have hend : consume .headerLineStart req cr = (.indeterminate, .expectingNewline3, req) :=
          rfl
        obtain ⟨rfl, rfl⟩ := accepts_end_iff.mp ((accepts_cons hend).mp h)
        exact Or.inl ⟨rfl, rfl⟩
      by_cases hb : req.headers ≠ [] ∧ isBlank c = true
      · rw [accepts_cons (by rw [consume_headerLineStart, if_neg hc, if_pos hb]),
          accepts_blanks_iff] at h
        obtain ⟨blank, value, more, rfl, hblank, hplain, hbegins, hmore⟩ := h
        refine Or.inr ⟨.continuation (c :: blank) value (by simp)
          (List.forall_mem_cons.mpr ⟨hb.2, hblank⟩) hplain hbegins, more, rfl,
          fun hnil => absurd hnil hb.1, ?_⟩
        rwa [foldl_pushValue] at hmore
      cases ht : isToken c with
      | false =>
        have hbad : consume .headerLineStart req c = (.bad, .headerLineStart, req) := by
          rw [consume_headerLineStart, if_neg hc, if_neg hb, ht, if_neg Bool.false_ne_true]
        exact absurd h (not_accepts_of_bad hbad)
      | true =>
        rw [accepts_cons (by rw [consume_headerLineStart, if_neg hc, if_neg hb, if_pos ht]),
          accepts_name_iff] at h
        obtain ⟨name, value, more, rfl, hname, hvalue, hmore⟩ := h
        have hwf : WellFormedHeader ⟨c :: name, value⟩ :=
          ⟨by simp, List.forall_mem_cons.mpr ⟨ht, hname⟩, hvalue⟩
        exact Or.inr ⟨.header ⟨c :: name, value⟩ hwf, more, rfl, fun _ => rfl, hmore⟩
  · intro h
    cases h with
    | inl h =>
      obtain ⟨rfl, rfl⟩ := h
      rfl
    | inr h =>
      obtain ⟨line, more, rfl, hstarts, hmore⟩ := h
      cases line with
      | header h hwf => rwa [Accepts, Line.text, parse_append (parse_headerLine req hwf)]
      | continuation blank text blank_ne blanks plain begins =>
        obtain ⟨c, blank, rfl⟩ := List.exists_cons_of_ne_nil blank_ne
        obtain ⟨hc, hblank⟩ := List.forall_mem_cons.mp blanks
        have hne : req.headers ≠ [] := fun hnil => absurd (hstarts hnil) Bool.false_ne_true
        have hstep : consume .headerLineStart req c = (.indeterminate, .headerLws, req) := by
          rw [consume_headerLineStart, if_neg (isBlank_ne_cr hc), if_pos ⟨hne, hc⟩]
        refine (accepts_cons hstep).mpr (accepts_blanks_iff.mpr ?_)
        refine ⟨blank, text, more, rfl, hblank, plain, begins, ?_⟩
        rwa [foldl_pushValue]

theorem Line.extend_ne_nil {headers : List Header} (line : Line)
    (h : headers = [] → line.isHeader = true) : line.extend headers ≠ [] := by
  cases line with
  | header => simp [Line.extend]
  | continuation blank text =>
    have hne : headers ≠ [] := fun hnil => absurd (h hnil) Bool.false_ne_true
    obtain ⟨front, last, rfl⟩ := List.eq_nil_or_concat headers |>.resolve_left hne
    rw [Line.extend, List.concat_eq_append, List.modifyLast_concat]
    simp

theorem accepts_lines_iff :
    Accepts .headerLineStart req text rest result ↔
      ∃ lines : List Line, text = lines.flatMap Line.text ++ ascii "\r\n" ++ rest ∧
        (req.headers = [] → ∀ l ∈ lines.head?, l.isHeader = true) ∧
        result = { req with headers := lines.foldl Line.extend req.headers } := by
  constructor
  · intro h
    induction hlength : text.length using Nat.strongRecOn generalizing text req with
    | ind n ih =>
      obtain ⟨rfl, rfl⟩ | ⟨line, more, rfl, hstarts, hmore⟩ := accepts_line_iff.mp h
      · exact ⟨[], rfl, by simp, rfl⟩
      have hshort : more.length < n := by
        have hpos := line.text_pos
        rw [← hlength, List.length_append]
        omega
      obtain ⟨lines, rfl, -, rfl⟩ := ih more.length hshort hmore rfl
      exact ⟨line :: lines, by simp, by simpa using hstarts, rfl⟩
  · intro h
    obtain ⟨lines, rfl, hstarts, rfl⟩ := h
    induction lines generalizing req with
    | nil => exact accepts_line_iff.mpr (Or.inl ⟨rfl, rfl⟩)
    | cons line lines ih =>
      have hline : req.headers = [] → line.isHeader = true :=
        fun hnil => hstarts hnil line (by simp)
      refine accepts_line_iff.mpr (Or.inr ⟨line, _, by simp [List.append_assoc], hline, ih ?_⟩)
      exact fun hnil => absurd hnil (line.extend_ne_nil hline)

end HeaderLines

section Requests
variable {text rest : Bytes} {state : State} {req result : Request}

/-- The parser accepts exactly the messages, each at its last byte and as the request it is. -/
theorem accepts_request_iff :
    Accepts .methodStart Request.start text rest result ↔
      ∃ m : Message, text = m.text ++ rest ∧ result = m.request := by
  constructor
  · intro h
    obtain ⟨method, _, rfl, hne, hmethod, h⟩ := accepts_method_iff.mp h
    obtain ⟨uri, _, rfl, huri, h⟩ := accepts_uri_iff.mp h
    obtain ⟨_, rfl, h⟩ := accepts_version_iff.mp h
    obtain ⟨major, _, rfl, hmajor, hmajors, h⟩ := (accepts_major_iff rfl).mp h
    obtain ⟨minor, _, rfl, hminor, hminors, h⟩ := (accepts_minor_iff rfl).mp h
    obtain ⟨_, rfl, h⟩ := (accepts_newline_iff (Or.inl rfl)).mp h
    obtain ⟨lines, rfl, hstarts, rfl⟩ := accepts_lines_iff.mp h
    refine ⟨⟨method, uri, major, minor, lines, hne, hmethod, huri, hmajor, hmajors, hminor, hminors,
      hstarts rfl⟩, ?_, rfl⟩
    simp [Message.text, ascii, ch, cr, lf]
  · intro h
    obtain ⟨m, rfl, rfl⟩ := h
    have htext : m.text ++ rest = m.method ++ ch ' ' :: (m.uri ++ ch ' ' :: (ascii "HTTP/" ++
        (m.major ++ ch '.' :: (m.minor ++ cr :: lf ::
          (m.lines.flatMap Line.text ++ ascii "\r\n" ++ rest))))) := by
      simp [Message.text, ascii, ch, cr, lf]
    rw [htext]
    refine accepts_method_iff.mpr ⟨m.method, _, rfl, m.method_ne, m.method_token, ?_⟩
    refine accepts_uri_iff.mpr ⟨m.uri, _, rfl, m.uri_plain, ?_⟩
    refine accepts_version_iff.mpr ⟨_, rfl, ?_⟩
    refine (accepts_major_iff rfl).mpr ⟨m.major, _, rfl, m.major_ne, m.major_digits, ?_⟩
    refine (accepts_minor_iff rfl).mpr ⟨m.minor, _, rfl, m.minor_ne, m.minor_digits, ?_⟩
    refine (accepts_newline_iff (Or.inl rfl)).mpr ⟨_, rfl, ?_⟩
    exact accepts_lines_iff.mpr ⟨m.lines, rfl, fun _ => m.starts, rfl⟩

theorem consume_good_state {start : State} {c : UInt8}
    (h : consume start req c = (.good, state, result)) :
    state = .expectingNewline3 := by
  cases start <;> grind [consume, expect]

theorem parse_good_state {start : State} (h : parse start req text = (.good, rest, state, result)) :
    state = .expectingNewline3 := by
  induction text generalizing start req with
  | nil => simp [parse] at h
  | cons c text ih =>
    rw [parse] at h
    rcases hc : consume start req c with ⟨_ | _ | _, next, after⟩
    · rw [hc] at h
      obtain ⟨-, -, rfl, rfl⟩ : True ∧ text = rest ∧ next = state ∧ after = result := by
        simpa using h
      exact consume_good_state hc
    · simp [hc] at h
    · exact ih (by simpa [hc] using h)

/-- Every state the parser waits in can still be led to a request. -/
theorem exists_accepts (state : State) (req : Request) :
    ∃ text result, Accepts state req text [] result := by
  cases state with
  | methodStart => exact ⟨ascii "A  HTTP/1.0\r\n\r\n", _, rfl⟩
  | method => exact ⟨ascii "  HTTP/1.0\r\n\r\n", _, rfl⟩
  | uri => exact ⟨ascii " HTTP/1.0\r\n\r\n", _, rfl⟩
  | httpVersionH => exact ⟨ascii "HTTP/1.0\r\n\r\n", _, rfl⟩
  | httpVersionT1 => exact ⟨ascii "TTP/1.0\r\n\r\n", _, rfl⟩
  | httpVersionT2 => exact ⟨ascii "TP/1.0\r\n\r\n", _, rfl⟩
  | httpVersionP => exact ⟨ascii "P/1.0\r\n\r\n", _, rfl⟩
  | httpVersionSlash => exact ⟨ascii "/1.0\r\n\r\n", _, rfl⟩
  | httpVersionMajorStart => exact ⟨ascii "1.0\r\n\r\n", _, rfl⟩
  | httpVersionMajor => exact ⟨ascii ".0\r\n\r\n", _, rfl⟩
  | httpVersionMinorStart => exact ⟨ascii "0\r\n\r\n", _, rfl⟩
  | httpVersionMinor => exact ⟨ascii "\r\n\r\n", _, rfl⟩
  | expectingNewline1 => exact ⟨ascii "\n\r\n", _, rfl⟩
  | headerLineStart => exact ⟨ascii "\r\n", _, rfl⟩
  | headerLws => exact ⟨ascii "\r\n\r\n", _, rfl⟩
  | headerName => exact ⟨ascii ": \r\n\r\n", _, rfl⟩
  | spaceBeforeHeaderValue => exact ⟨ascii " \r\n\r\n", _, rfl⟩
  | headerValue => exact ⟨ascii "\r\n\r\n", _, rfl⟩
  | expectingNewline2 => exact ⟨ascii "\n\r\n", _, rfl⟩
  | expectingNewline3 => exact ⟨ascii "\n", _, rfl⟩

def Begins (text : Bytes) : Prop := ∃ m : Message, text <+: m.text ∧ text ≠ m.text

theorem Message.parse_text (m : Message) (rest : Bytes) :
    parse .methodStart Request.start (m.text ++ rest) =
      (.good, rest, .expectingNewline3, m.request) :=
  accepts_request_iff.mpr ⟨m, rfl, rfl⟩

theorem parse_good_iff :
    (parse .methodStart Request.start text).1 = .good ↔ ∃ m : Message, m.text <+: text := by
  constructor
  · intro h
    rcases hp : parse .methodStart Request.start text with ⟨r, rest, state, req⟩
    rw [hp] at h
    obtain rfl : r = .good := h
    obtain rfl := parse_good_state hp
    obtain ⟨m, rfl, -⟩ := accepts_request_iff.mp hp
    exact ⟨m, List.prefix_append ..⟩
  · intro h
    obtain ⟨m, rest, rfl⟩ := h
    rw [m.parse_text]

theorem parse_indeterminate_iff :
    (parse .methodStart Request.start text).1 = .indeterminate ↔ Begins text := by
  constructor
  · intro h
    rcases hp : parse .methodStart Request.start text with ⟨r, rest, state, req⟩
    rw [hp] at h
    obtain rfl : r = .indeterminate := h
    obtain ⟨more, result, hmore⟩ := exists_accepts state req
    rw [Accepts, ← parse_append hp] at hmore
    obtain ⟨m, hm, -⟩ := accepts_request_iff.mp hmore
    rw [List.append_nil] at hm
    refine ⟨m, ⟨more, hm⟩, fun heq => ?_⟩
    have hgood := m.parse_text []
    rw [List.append_nil, ← heq, hp] at hgood
    exact absurd (Prod.mk.inj hgood).1 (by decide)
  · intro h
    obtain ⟨m, ⟨more, hm⟩, hne⟩ := h
    have hgood := m.parse_text []
    rw [List.append_nil, ← hm] at hgood
    have hmore : more ≠ [] := by
      intro heq
      exact hne (by rw [← hm, heq, List.append_nil])
    obtain ⟨next, nreq, hp, -⟩ := parse_prefix_indeterminate hgood hmore
    rw [hp]

theorem parse_bad_split {start : State} (h : parse start req text = (.bad, rest, state, result)) :
    ∃ front c next after, text = front ++ c :: rest ∧
      parse start req front = (.indeterminate, [], next, after) ∧
      (consume next after c).1 = .bad := by
  induction text generalizing start req with
  | nil => simp [parse] at h
  | cons c text ih =>
    rw [parse] at h
    rcases hc : consume start req c with ⟨_ | _ | _, next, after⟩
    · simp [hc] at h
    · obtain ⟨-, rfl, -⟩ : True ∧ text = rest ∧ True := by simp_all
      exact ⟨[], c, start, req, rfl, rfl, by rw [hc]⟩
    · obtain ⟨front, d, last, lreq, rfl, hfront, hd⟩ := ih (by simpa [hc] using h)
      exact ⟨c :: front, d, last, lreq, rfl, by rw [parse, hc]; exact hfront, hd⟩

/-- A request is refused at the first byte behind which none can be completed any more,
and never earlier or later. -/
theorem parse_bad_iff :
    (∃ state req, parse .methodStart Request.start text = (.bad, rest, state, req)) ↔
      ∃ front c, text = front ++ c :: rest ∧ Begins front ∧
        ¬ ∃ m : Message, front ++ [c] <+: m.text := by
  constructor
  · intro h
    obtain ⟨state, req, h⟩ := h
    obtain ⟨front, c, next, after, rfl, hfront, hbad⟩ := parse_bad_split h
    refine ⟨front, c, rfl, parse_indeterminate_iff.mp (by rw [hfront]), fun hmessage => ?_⟩
    obtain ⟨m, more, hm⟩ := hmessage
    have hgood := m.parse_text []
    rw [List.append_nil, ← hm, List.append_assoc, parse_append hfront] at hgood
    rcases hc : consume next after c with ⟨r, last, lreq⟩
    obtain rfl : r = .bad := by simpa [hc] using hbad
    simp [parse, hc] at hgood
  · intro h
    obtain ⟨front, c, rfl, hfront, hnone⟩ := h
    have hindeterminate := parse_indeterminate_iff.mpr hfront
    rcases hp : parse .methodStart Request.start front with ⟨r, left, next, after⟩
    rw [hp] at hindeterminate
    obtain rfl : r = .indeterminate := hindeterminate
    rw [parse_append hp, parse]
    rcases hc : consume next after c with ⟨_ | _ | _, last, lreq⟩
    · obtain rfl := consume_good_state hc
      have haccepts : Accepts .methodStart Request.start (front ++ [c]) [] lreq := by
        rw [Accepts, parse_append hp, parse, hc]
      obtain ⟨m, hm, -⟩ := accepts_request_iff.mp haccepts
      exact absurd ⟨m, by simp [hm]⟩ hnone
    · exact ⟨_, _, rfl⟩
    · have hmore : (parse .methodStart Request.start (front ++ [c])).1 = .indeterminate := by
        rw [parse_append hp, parse, hc]
        rfl
      obtain ⟨m, hm, -⟩ := parse_indeterminate_iff.mp hmore
      exact absurd ⟨m, hm⟩ hnone

/-- A good result is a message of the grammar, read as the request it is, and what is left is
what stood behind it. -/
theorem parse_request_iff :
    parse .methodStart Request.start text = (.good, rest, state, req) ↔
      state = .expectingNewline3 ∧ ∃ m : Message, text = m.text ++ rest ∧ req = m.request := by
  constructor
  · intro h
    obtain rfl := parse_good_state h
    exact ⟨rfl, accepts_request_iff.mp h⟩
  · intro h
    obtain ⟨rfl, hm⟩ := h
    exact accepts_request_iff.mpr hm

/-- The parser wants more exactly while a request can still be completed, and refuses the rest. -/
theorem parse_verdict (text : Bytes) :
    ((parse .methodStart Request.start text).1 = .good ↔ ∃ m : Message, m.text <+: text) ∧
    ((parse .methodStart Request.start text).1 = .indeterminate ↔ Begins text) ∧
    ∀ rest, (∃ state req, parse .methodStart Request.start text = (.bad, rest, state, req)) ↔
      ∃ front c, text = front ++ c :: rest ∧ Begins front ∧
        ¬ ∃ m : Message, front ++ [c] <+: m.text :=
  ⟨parse_good_iff, parse_indeterminate_iff, fun _ => parse_bad_iff⟩

end Requests
end RequestParser
end ReminderSuite
