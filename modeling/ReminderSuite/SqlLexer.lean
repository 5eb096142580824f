import Mathlib.Data.List.Count
import ReminderSuite.Transducer

/-! The lexical rules of SQLite as a machine over the bytes of a text, with the words
that do not serve as names left as a parameter. -/
namespace SqlLexer
open Transducer

abbrev Text := List UInt8

/-- A number, a variable, a blob literal, an operator of more than one character and what
the rules do not allow are not told apart. -/
inductive Token where
  | keyword (w : Text)
  | ident (name : Text)
  | str (value : Text)
  | sym (c : UInt8)
  | other
deriving DecidableEq

inductive State where
  | start
  | space
  | word (acc : Text)
  | number
  | param
  | var (named : Bool)
  | varColon (named : Bool)
  | varParen
  | str (acc : Text)
  | strEnd (acc : Text)
  | quoted (q : UInt8) (acc : Text)
  | quotedEnd (q : UInt8) (acc : Text)
  | bracket (acc : Text)
  | blob
  | op (c : UInt8)
  | line
  | blockStart
  | block
  | blockEnd
deriving DecidableEq

def isUpper (c : UInt8) : Bool := 65 ≤ c && c ≤ 90
def isDigit (c : UInt8) : Bool := 48 ≤ c && c ≤ 57
def isSpace (c : UInt8) : Bool := (9 ≤ c && c ≤ 13) || c == 32

/-- A letter, an underscore or a byte outside ASCII, also that of a byte order mark -/
def idStart (c : UInt8) : Bool := isUpper c || (97 ≤ c && c ≤ 122) || c == 95 || 128 ≤ c

def idChar (c : UInt8) : Bool := idStart c || isDigit c || c == 36

def toLower (c : UInt8) : UInt8 := if isUpper c then c + 32 else c

def singles : Text := [37, 38, 40, 41, 42, 43, 44, 59, 126]

def firsts : Text := [33, 45, 46, 47, 60, 61, 62, 124]

/-- Where a token begins. A vertical tab is a space only behind another one. -/
def opening (c : UInt8) : List Token × State :=
  if isSpace c ∧ c ≠ 11 then ([], .space)
  else if idStart c then ([], .word [c])
  else if isDigit c then ([], .number)
  else if c = 39 then ([], .str [])
  else if c = 34 ∨ c = 96 then ([], .quoted c [])
  else if c = 91 then ([], .bracket [])
  else if c = 35 ∨ c = 36 ∨ c = 58 ∨ c = 64 then ([], .var false)
  else if c = 63 then ([], .param)
  else if c ∈ firsts then ([], .op c)
  else if c ∈ singles then ([.sym c], .start)
  else ([.other], .start)

def emit (t : Token) (c : UInt8) : List Token × State := (t :: (opening c).1, (opening c).2)

def pair (c d : UInt8) : Option (List Token × State) :=
  if c = 45 ∧ d = 45 then some ([], .line)
  else if c = 47 ∧ d = 42 then some ([], .blockStart)
  else if c = 46 ∧ isDigit d then some ([], .number)
  else if c = 61 ∧ d = 61 then some ([.sym 61], .start)
  else if (c, d) ∈ [(45, 62), (60, 60), (60, 61), (60, 62), (62, 61), (62, 62), (33, 61),
    (124, 124)]
  then some ([.other], .start)
  else none

def varStep (named : Bool) (c : UInt8) : List Token × State :=
  if idChar c then ([], .var true)
  else if c = 58 then ([], .varColon named)
  else if c = 40 ∧ named then ([], .varParen)
  else emit .other c

def blockStep (c : UInt8) : List Token × State :=
  if c = 42 then ([], .blockEnd) else ([], .block)

variable (reserved : Text → Bool)

def wordToken (w : Text) : Token :=
  if reserved (w.map toLower) then .keyword (w.map toLower) else .ident w

def step : State → UInt8 → List Token × State
  | .start, c => opening c
  | .space, c => if isSpace c then ([], .space) else opening c
  | .word acc, c =>
    if idChar c then ([], .word (acc ++ [c]))
    else if c = 39 ∧ (acc = [120] ∨ acc = [88]) then ([], .blob)
    else emit (wordToken reserved acc) c
  | .number, c => if idChar c ∨ c = 46 then ([], .number) else emit .other c
  | .param, c => if isDigit c then ([], .param) else emit .other c
  | .var named, c => varStep named c
  | .varColon named, c =>
    if c = 58 then ([], .var named) else (.other :: (varStep false c).1, (varStep false c).2)
  | .varParen, c =>
    if c = 41 then ([.other], .start) else if isSpace c then emit .other c else ([], .varParen)
  | .str acc, c => if c = 39 then ([], .strEnd acc) else ([], .str (acc ++ [c]))
  -- a doubled quote stands for one
  | .strEnd acc, c => if c = 39 then ([], .str (acc ++ [39])) else emit (.str acc) c
  | .quoted q acc, c => if c = q then ([], .quotedEnd q acc) else ([], .quoted q (acc ++ [c]))
  | .quotedEnd q acc, c => if c = q then ([], .quoted q (acc ++ [q])) else emit (.ident acc) c
  | .bracket acc, c => if c = 93 then ([.ident acc], .start) else ([], .bracket (acc ++ [c]))
  | .blob, c => if c = 39 then ([.other], .start) else ([], .blob)
  | .op c, d => (pair c d).getD (emit (.sym c) d)
  | .line, c => if c = 10 then ([], .space) else ([], .line)
  | .blockStart, c => blockStep c
  | .block, c => blockStep c
  | .blockEnd, c => if c = 47 then ([], .start) else blockStep c

def flush : State → List Token
  | .start | .space | .line | .block | .blockEnd => []
  | .word acc => [wordToken reserved acc]
  | .strEnd acc => [.str acc]
  | .quotedEnd _ acc => [.ident acc]
  | .op c => [.sym c]
  | .blockStart => [.sym 47, .sym 42]
  | .varColon _ => [.other, .other]
  | .number | .param | .var _ | .varParen | .str _ | .quoted _ _ | .bracket _ | .blob => [.other]

def scan (s : State) (text : Text) : List Token := output (step reserved) (flush reserved) s text

/-- What is read of a text, which ends at its first NUL -/
def visible (text : Text) : Text := text.takeWhile (· ≠ 0)

def lex (text : Text) : List Token := scan reserved .start (visible text)

/-- A way to charge the characters of a text to the tokens it has. A name costs its
characters and something for its end, a literal what its text at least costs. -/
structure Measure where
  cost : UInt8 → Nat
  ending : Nat
  openStr : Text → Nat
  closedStr : Text → Nat
  ending_le : ∀ c, ending ≤ cost c
  openStr_nil : ending + openStr [] ≤ cost 39
  openStr_append : ∀ acc c, c ≠ 39 → openStr (acc ++ [c]) ≤ openStr acc + cost c
  closedStr_le : ∀ acc, closedStr acc ≤ openStr acc + cost 39
  openStr_doubled : ∀ acc, openStr (acc ++ [39]) ≤ closedStr acc + cost 39

namespace Measure
variable (m : Measure)

def token : Token → Nat
  | .ident name => weigh m.cost name + m.ending
  | .str value => m.closedStr value
  | .keyword _ | .sym _ | .other => 0

def state : State → Nat
  | .word acc | .quoted _ acc | .bracket acc => weigh m.cost acc
  | .quotedEnd _ acc => weigh m.cost acc + m.ending
  | .str acc => m.openStr acc
  | .strEnd acc => m.closedStr acc
  | _ => 0

theorem weigh_cost_append (acc : Text) (c : UInt8) :
    weigh m.cost (acc ++ [c]) = weigh m.cost acc + m.cost c := by
  rw [weigh_append]
  rfl

theorem opening_le (c : UInt8) :
    weigh m.token (opening c).1 + m.state (opening c).2 ≤ m.cost c := by
  have hnil := m.openStr_nil
  fun_cases opening c with
  | case4 _ _ _ hquote =>
    subst hquote
    simp only [weigh, state]
    omega
  | _ => simp [weigh, state, token]

theorem opening_le_of_not_idChar {c : UInt8} (h : idChar c = false) :
    weigh m.token (opening c).1 + m.state (opening c).2 + m.ending ≤ m.cost c := by
  have hnil := m.openStr_nil
  have hend := m.ending_le c
  simp only [idChar, Bool.or_eq_false_iff] at h
  fun_cases opening c with
  | case2 _ hstart => exact absurd hstart (by simp [h.1.1])
  | case3 _ _ hdigit => exact absurd hdigit (by simp [h.1.2])
  | case4 _ _ _ hquote =>
    subst hquote
    simp only [weigh, state]
    omega
  | _ => simpa [weigh, state, token] using hend

theorem emit_le (t : Token) (c : UInt8) :
    weigh m.token (emit t c).1 + m.state (emit t c).2 ≤ m.token t + m.cost c := by
  have h := m.opening_le c
  simp only [emit, weigh]
  omega

theorem varStep_le (named : Bool) (c : UInt8) :
    weigh m.token (varStep named c).1 + m.state (varStep named c).2 ≤ m.cost c := by
  have h := m.emit_le .other c
  unfold varStep
  split_ifs <;> simp_all [weigh, token, state]

theorem blockStep_eq_zero (c : UInt8) :
    weigh m.token (blockStep c).1 + m.state (blockStep c).2 = 0 := by
  unfold blockStep
  split_ifs <;> rfl

theorem pair_eq_zero {c d : UInt8} {r : List Token × State} (h : pair c d = some r) :
    weigh m.token r.1 + m.state r.2 = 0 := by
  unfold pair at h
  split_ifs at h <;> cases h <;> rfl

theorem token_wordToken_le (w : Text) :
    m.token (wordToken reserved w) ≤ weigh m.cost w + m.ending := by
  unfold wordToken
  split_ifs <;> simp [token]

/-- No step gives out more than it is charged for. -/
theorem step_le (s : State) (c : UInt8) :
    weigh m.token (step reserved s c).1 + m.state (step reserved s c).2 ≤
      m.state s + m.cost c := by
  have hother := m.emit_le .other c
  have hvar := m.varStep_le false c
  have hblock := m.blockStep_eq_zero c
  cases s with
  | start => simpa [step, state] using m.opening_le c
  | space =>
    have h := m.opening_le c
    simp only [step]
    split_ifs
    · simp [weigh, state]
    · omega
  | word acc =>
    have hw := m.token_wordToken_le reserved acc
    have hpot : m.state (.word acc) = weigh m.cost acc := rfl
    simp only [step]
    split_ifs with hid
    · simp [weigh, state, weigh_cost_append]
    · simp [weigh, state]
    · have h := m.opening_le_of_not_idChar (Bool.eq_false_iff.mpr hid)
      simp only [emit, weigh]
      omega
  | number | param =>
    simp only [step]
    split_ifs
    · simp [weigh, state]
    · simpa [state, token] using hother
  | var named => simpa [step, state] using m.varStep_le named c
  | varColon named =>
    simp only [step]
    split_ifs
    · simp [weigh, state]
    · simpa [weigh, state, token] using hvar
  | varParen =>
    simp only [step]
    split_ifs
    · simp [weigh, state, token]
    · simpa [state, token] using hother
    · simp [weigh, state]
  | str acc =>
    simp only [step]
    split_ifs with hc
    · subst hc
      simpa [weigh, state] using m.closedStr_le acc
    · simpa [weigh, state] using m.openStr_append acc c hc
  | strEnd acc =>
    have h := m.emit_le (.str acc) c
    simp only [step]
    split_ifs with hc
    · subst hc
      simpa [weigh, state] using m.openStr_doubled acc
    · simpa [state, token] using h
  | quoted q acc =>
    simp only [step]
    split_ifs
    · simpa [weigh, state] using m.ending_le c
    · simp [weigh, state, weigh_cost_append]
  | quotedEnd q acc =>
    have h := m.emit_le (.ident acc) c
    simp only [step]
    split_ifs with hc
    · subst hc
      simp only [weigh, state, weigh_cost_append]
      omega
    · simpa [state, token] using h
  | bracket acc =>
    simp only [step]
    split_ifs
    · simpa [weigh, state, token] using m.ending_le c
    · simp [weigh, state, weigh_cost_append]
  | blob =>
    simp only [step]
    split_ifs <;> simp [weigh, state, token]
  | op d =>
    have h := m.emit_le (.sym d) c
    simp only [step]
    cases hp : pair d c with
    | none => simpa [state, token] using h
    | some r =>
      have hr := m.pair_eq_zero hp
      simp only [Option.getD_some]
      omega
  | line =>
    simp only [step]
    split_ifs <;> simp [weigh, state]
  | blockStart | block =>
    simp only [step]
    omega
  | blockEnd =>
    simp only [step]
    split_ifs
    · simp [weigh, state]
    · omega

theorem flush_le (h : m.ending = 0) (s : State) :
    weigh m.token (flush reserved s) ≤ m.state s := by
  cases s with
  | word acc =>
    have hw := m.token_wordToken_le reserved acc
    simpa [flush, weigh, state, h] using hw
  | _ => simp [flush, weigh, token, state, h]

end Measure

def quotes : Measure where
  cost c := if c = 39 then 1 else 0
  ending := 0
  openStr acc := 1 + 2 * acc.count 39
  closedStr acc := 2 + 2 * acc.count 39
  ending_le _ := Nat.zero_le _
  openStr_nil := Nat.le_refl _
  openStr_append acc c hc := by simp [List.count_append, hc]
  closedStr_le acc := by
    simp
    omega
  openStr_doubled acc := by
    simp
    omega

def lengths : Measure where
  cost _ := 1
  ending := 1
  openStr _ := 0
  closedStr _ := 0
  ending_le _ := Nat.le_refl 1
  openStr_nil := Nat.le_refl 1
  openStr_append _ _ _ := Nat.zero_le _
  closedStr_le _ := Nat.zero_le _
  openStr_doubled _ := Nat.zero_le _

@[simp] theorem weigh_quotes (text : Text) : weigh quotes.cost text = text.count 39 := by
  induction text with
  | nil => rfl
  | cons c cs ih =>
    rw [weigh, ih, List.count_cons, Nat.add_comm]
    simp [quotes]

@[simp] theorem quotes_ident (name : Text) : quotes.token (.ident name) = name.count 39 :=
  weigh_quotes name

@[simp] theorem quotes_str (value : Text) :
    quotes.token (.str value) = 2 + 2 * value.count 39 := rfl

@[simp] theorem quotes_keyword (w : Text) : quotes.token (.keyword w) = 0 := rfl
@[simp] theorem quotes_sym (c : UInt8) : quotes.token (.sym c) = 0 := rfl

@[simp] theorem weigh_lengths (text : Text) : weigh lengths.cost text = text.length := by
  induction text with
  | nil => rfl
  | cons c cs ih =>
    rw [weigh, ih, List.length_cons, Nat.add_comm]
    rfl

theorem quotes_scan_le (s : State) (text : Text) :
    weigh quotes.token (scan reserved s text) ≤ quotes.state s + text.count 39 := by
  have h := weigh_output_le (quotes.step_le reserved) (quotes.flush_le reserved rfl) s text
  rwa [weigh_quotes] at h

theorem lengths_run_le (s : State) (text : Text) :
    weigh lengths.token (run (step reserved) s text).1 +
      lengths.state (run (step reserved) s text).2 ≤ lengths.state s + text.length := by
  have h := weigh_run_le (lengths.step_le reserved) s text
  rwa [weigh_lengths] at h

section Reading
variable {reserved} {s : State} {c : UInt8} {w rest : Text}

def isWord : Text → Bool
  | [] => false
  | c :: cs => idStart c && cs.all idChar

def Bare (reserved : Text → Bool) (w : Text) : Prop :=
  isWord w = true ∧ reserved (w.map toLower) = false

instance (reserved : Text → Bool) : DecidablePred (Bare reserved) :=
  fun _ => inferInstanceAs (Decidable (_ ∧ _))

theorem nul_not_mem_of_isWord (h : isWord w = true) : 0 ∉ w := by
  have hnul : idStart 0 = false ∧ idChar 0 = false := by decide
  cases w with
  | nil => simp
  | cons c cs =>
    simp only [isWord, Bool.and_eq_true, List.all_eq_true] at h
    intro hmem
    cases List.mem_cons.mp hmem with
    | inl heq => simp [← heq, hnul.1] at h
    | inr hmem => simpa [hnul.2] using h.2 0 hmem

theorem wordToken_of_bare (h : Bare reserved w) : wordToken reserved w = .ident w := by
  simp [wordToken, h.2]

theorem bare_of_wordToken {name : Text} (h : wordToken reserved w = .ident name)
    (hw : isWord w = true) : w = name ∧ Bare reserved w := by
  unfold wordToken at h
  split_ifs at h with hr
  exact ⟨Token.ident.inj h, hw, Bool.eq_false_iff.mpr hr⟩

theorem scan_cons (s : State) (c : UInt8) (rest : Text) :
    scan reserved s (c :: rest) =
      (step reserved s c).1 ++ scan reserved (step reserved s c).2 rest :=
  output_cons s c rest

theorem scan_append (s : State) (a b : Text) :
    scan reserved s (a ++ b) =
      (run (step reserved) s a).1 ++ scan reserved (run (step reserved) s a).2 b :=
  output_append s a b

theorem isSpace_of_idStart (h : idStart c = true) : isSpace c = false := by
  simp only [idStart, isUpper, isSpace] at h ⊢
  grind

theorem opening_idStart (h : idStart c = true) : opening c = ([], .word [c]) := by
  simp [opening, h, isSpace_of_idStart h]

theorem step_space (h : isSpace c = false) : step reserved .space c = opening c := by
  simp [step, h]

theorem scan_emit {t : Token} (h : step reserved s c = emit t c) (rest : Text) :
    scan reserved s (c :: rest) = t :: scan reserved .start (c :: rest) := by
  rw [scan_cons, h, scan_cons]
  rfl

theorem scan_start (h : c ≠ 11) (rest : Text) :
    scan reserved .start (c :: rest) = scan reserved .space (c :: rest) := by
  by_cases hs : isSpace c
  · simp [scan_cons, step, hs, opening, h]
  · simp [scan_cons, step, hs]

theorem scan_space (rest : Text) :
    scan reserved .space (32 :: rest) = scan reserved .space rest := by
  simp [scan_cons, step, isSpace]

theorem run_word (h : isWord w = true) : run (step reserved) .space w = ([], .word w) := by
  cases w with
  | nil => simp [isWord] at h
  | cons c cs =>
    simp only [isWord, Bool.and_eq_true, List.all_eq_true] at h
    have hfirst : step reserved .space c = ([], .word [c]) :=
      (step_space (isSpace_of_idStart h.1)).trans (opening_idStart h.1)
    have hrest : run (step reserved) (.word [c]) cs = ([], .word (c :: cs)) :=
      run_collect (fun acc d hd => by simp [step, hd]) [c] h.2
    simp [run, hfirst, hrest]

theorem scan_word (hw : isWord w = true) (hc : idChar c = false) (hq : c ≠ 39) (rest : Text) :
    scan reserved .space (w ++ c :: rest) =
      wordToken reserved w :: scan reserved .start (c :: rest) := by
  rw [scan_append, run_word hw]
  exact scan_emit (by simp [step, hc, hq]) rest

theorem scan_word_end (hw : isWord w = true) :
    scan reserved .space w = [wordToken reserved w] := by
  rw [scan, output, run_word hw]
  rfl

theorem scan_start_word (hw : isWord w = true) (rest : Text) :
    scan reserved .start (w ++ rest) = scan reserved .space (w ++ rest) := by
  cases w with
  | nil => simp [isWord] at hw
  | cons c cs =>
    simp only [isWord, Bool.and_eq_true] at hw
    refine scan_start ?_ (cs ++ rest)
    rintro rfl
    exact absurd hw.1 (by decide)

theorem scan_single (h : c ∈ singles) (rest : Text) :
    scan reserved .space (c :: rest) = .sym c :: scan reserved .start rest := by
  have hsingle : singles.all
      (fun d => isSpace d = false ∧ opening d = ([.sym d], .start)) = true := by decide
  obtain ⟨hspace, hopen⟩ := of_decide_eq_true (List.all_eq_true.mp hsingle c h)
  simp [scan_cons, step_space hspace, hopen]

theorem scan_equals (h : c ≠ 61) (rest : Text) :
    scan reserved .space (61 :: c :: rest) = .sym 61 :: scan reserved .start (c :: rest) := by
  have hopen : step reserved .space 61 = ([], .op 61) := step_space (by decide)
  rw [scan_cons, hopen]
  exact scan_emit (by simp [step, pair, h]) rest

theorem scan_literal {v : Text} (h : 39 ∉ v) (rest : Text) :
    scan reserved .space (39 :: (v ++ 39 :: rest)) = scan reserved (.strEnd v) rest := by
  have hopen : step reserved .space 39 = ([], .str []) := step_space (by decide)
  have hcollect (acc : Text) (c : UInt8) (hc : c ≠ 39) :
      step reserved (.str acc) c = ([], .str (acc ++ [c])) := by
    simp [step, hc]
  have hrun : run (step reserved) (.str []) v = ([], .str v) :=
    run_collect hcollect [] fun c hc => ne_of_mem_of_not_mem hc h
  have hclose : step reserved (.str v) 39 = ([], .strEnd v) := by simp [step]
  simp [scan_cons, scan_append, hopen, hrun, hclose]

theorem scan_strEnd {v : Text} (h : c ≠ 39) (rest : Text) :
    scan reserved (.strEnd v) (c :: rest) = .str v :: scan reserved .start (c :: rest) :=
  scan_emit (by simp [step, h]) rest

end Reading

section End
variable {reserved}

theorem visible_of_nul_not_mem {text : Text} (h : 0 ∉ text) : visible text = text := by
  have happ : visible (text ++ []) = text ++ visible [] :=
    List.takeWhile_append_of_pos fun c hc => by simpa using ne_of_mem_of_not_mem hc h
  simpa [visible] using happ

theorem visible_append_of_nul_mem {text : Text} (h : 0 ∈ text) (rest : Text) :
    visible (text ++ rest) = visible text := by
  induction text with
  | nil => simp at h
  | cons c cs ih =>
    by_cases hc : c = 0
    · simp [visible, hc]
    · have hcs : 0 ∈ cs := (List.mem_cons.mp h).resolve_left (Ne.symm hc)
      simpa [visible, hc] using ih hcs

theorem count_visible_le (text : Text) : (visible text).count 39 ≤ text.count 39 :=
  (List.takeWhile_prefix _).sublist.count_le 39

theorem quotes_lex {X Y : Text} {n : Nat}
    (h : (X ++ 39 :: Y).count 39 + n ≤ weigh quotes.token (lex reserved (X ++ 39 :: Y))) :
    n = 0 ∧ 0 ∉ X := by
  have hle : weigh quotes.token (lex reserved (X ++ 39 :: Y)) ≤
      (visible (X ++ 39 :: Y)).count 39 := by
    simpa [lex, Measure.state] using quotes_scan_le reserved .start (visible (X ++ 39 :: Y))
  have hX : 0 ∉ X := by
    intro hmem
    have hcut := count_visible_le X
    rw [visible_append_of_nul_mem hmem] at hle
    rw [List.count_append, List.count_cons_self] at h
    omega
  have hwhole := count_visible_le (X ++ 39 :: Y)
  exact ⟨by omega, hX⟩

end End

section Columns
variable {reserved} {s : State} {c : UInt8}

def Proper : State → Prop
  | .word acc => isWord acc = true
  | .quoted q _ | .quotedEnd q _ => q = 34 ∨ q = 96
  | _ => True

theorem proper_opening (c : UInt8) : Proper (opening c).2 := by
  fun_cases opening c with
  | case2 _ hword => simpa [Proper, isWord] using hword
  | case5 _ _ _ _ hquote => exact hquote
  | _ => trivial

theorem proper_varStep (named : Bool) (c : UInt8) : Proper (varStep named c).2 := by
  unfold varStep
  split_ifs
  · trivial
  · trivial
  · trivial
  · exact proper_opening c

theorem proper_blockStep (c : UInt8) : Proper (blockStep c).2 := by
  unfold blockStep
  split_ifs <;> trivial

theorem proper_pair {c d : UInt8} {r : List Token × State} (h : pair c d = some r) :
    Proper r.2 := by
  unfold pair at h
  split_ifs at h <;> cases h <;> trivial

theorem isWord_append {acc : Text} (h : isWord acc = true) (hc : idChar c = true) :
    isWord (acc ++ [c]) = true := by
  cases acc with
  | nil => simp [isWord] at h
  | cons a as => simp_all [isWord]

theorem proper_step (reserved : Text → Bool) (h : Proper s) (c : UInt8) :
    Proper (step reserved s c).2 := by
  have hopen := proper_opening c
  cases s with
  | start => exact hopen
  | var named => exact proper_varStep named c
  | blockStart | block => exact proper_blockStep c
  | word acc =>
    simp only [step]
    split_ifs with hid
    · exact isWord_append h hid
    · trivial
    · exact hopen
  | op d =>
    simp only [step]
    cases hp : pair d c with
    | none => exact hopen
    | some r => exact proper_pair hp
  | varColon named =>
    simp only [step]
    split_ifs
    · trivial
    · exact proper_varStep false c
  | blockEnd =>
    simp only [step]
    split_ifs
    · trivial
    · exact proper_blockStep c
  | quoted q acc | quotedEnd q acc =>
    simp only [step]
    split_ifs
    · exact h
    · first | exact h | exact hopen
  | _ =>
    simp only [step]
    split_ifs <;> trivial

theorem proper_run (reserved : Text → Bool) (h : Proper s) (text : Text) :
    Proper (run (step reserved) s text).2 := by
  induction text generalizing s with
  | nil => exact h
  | cons c cs ih => exact ih (proper_step reserved h c)

def Holding (n : Nat) : State → Prop
  | .quoted _ acc | .quotedEnd _ acc | .bracket acc => n ≤ acc.count 39
  | .number | .param | .var _ | .varColon _ | .varParen | .str _ | .strEnd _ | .blob => True
  | _ => False

theorem holding_step (reserved : Text → Bool) {n : Nat} (h : Holding n s) (c : UInt8) :
    (∀ t ∈ (step reserved s c).1.head?, ∀ name, t = .ident name → n ≤ name.count 39) ∧
      ((step reserved s c).1 = [] → Holding n (step reserved s c).2) := by
  cases s with
  | quoted q acc | quotedEnd q acc | bracket acc =>
    have hle : n ≤ (acc ++ [c]).count 39 := by
      rw [List.count_append]
      exact Nat.le_add_right_of_le h
    simp only [step]
    split_ifs with hc <;> simp_all [emit, Holding]
  | var named =>
    simp only [step, varStep]
    split_ifs <;> simp [emit, Holding]
  | number | param | varColon named | varParen | str acc | strEnd acc | blob =>
    simp only [step]
    split_ifs <;> simp [emit, Holding]
  | _ => exact h.elim

theorem count_ident_of_holding {n : Nat} {text name : Text} {rest : List Token}
    (hs : scan reserved s text = .ident name :: rest) (h : Holding n s) : n ≤ name.count 39 := by
  have hflush : ∀ s, Holding n s → ∀ t ∈ (flush reserved s).head?,
      ∀ name, t = .ident name → n ≤ name.count 39 := by
    intro s hs
    cases s <;> simp_all [flush, Holding]
  have hhead := head?_output (fun s c h => holding_step reserved h c) hflush h text
  exact hhead (.ident name) (by simp [show output _ _ s text = _ from hs]) name rfl

/-- The states in which a character that ends nothing is not told apart from others -/
def Swallowing : State → Prop
  | .quoted q _ => q = 34 ∨ q = 96
  | .bracket _ | .line | .blockStart | .block | .blockEnd => True
  | _ => False

def inert (c : UInt8) : Bool := c ∉ [10, 34, 42, 47, 93, 96]

theorem swallowing_step (reserved : Text → Bool) (s : State) (c : UInt8) (h : Swallowing s)
    (hc : inert c = true) :
    (step reserved s c).1 = [] ∧ Swallowing (step reserved s c).2 := by
  simp only [inert, List.mem_cons, List.not_mem_nil, or_false, not_or, decide_eq_true_eq] at hc
  cases s with
  | quoted q acc =>
    have hq : c ≠ q := by
      cases h with
      | inl heq => simp_all
      | inr heq => simp_all
    simpa [step, hq, Swallowing] using h
  | _ => simp_all [step, blockStep, Swallowing]

theorem weigh_le_of_swallowing (h : Swallowing s) {rest name : Text} {R : List Token}
    (hs : scan reserved s rest = .ident name :: R) :
    weigh quotes.token R ≤ rest.count 39 := by
  have hle := quotes_scan_le reserved s rest
  have hweigh : weigh quotes.token (.ident name :: R) = name.count 39 + weigh quotes.token R := by
    simp [weigh, Measure.token, show quotes.ending = 0 from rfl]
  rw [hs, hweigh] at hle
  cases s with
  | quoted q acc | bracket acc =>
    have hhold := count_ident_of_holding (n := acc.count 39) hs (Nat.le_refl _)
    simp only [Measure.state, weigh_quotes] at hle
    omega
  | line | blockStart | block | blockEnd =>
    simp only [Measure.state] at hle
    omega
  | _ => exact h.elim

theorem not_swallowing {F pre rest : Text} {R : List Token} (hpre : pre.all inert = true)
    (h : scan reserved s (32 :: (pre ++ 39 :: rest)) = .ident F :: R)
    (hquotes : rest.count 39 < weigh quotes.token R) : ¬ Swallowing s := by
  intro hs
  have hinert : ∀ c ∈ 32 :: (pre ++ [39]), inert c = true := by
    rw [List.forall_mem_cons, List.forall_mem_append, List.forall_mem_singleton]
    exact ⟨by decide, List.all_eq_true.mp hpre, by decide⟩
  obtain ⟨hout, hstay⟩ := run_silent (swallowing_step reserved) hs hinert
  rw [show 32 :: (pre ++ 39 :: rest) = 32 :: (pre ++ [39]) ++ rest by simp, scan_append, hout,
    List.nil_append] at h
  exact Nat.not_lt.mpr (weigh_le_of_swallowing hstay h) hquotes

/-- A name in front of a text that starts with a space, holds a quote behind characters
that end nothing, and is not a name to begin with: where the text gives the name back with
all the quotes behind it, the name is bare. -/
theorem bare_of_scan {F pre rest : Text} {R : List Token} (hpre : pre.all inert = true)
    (hnext : ∀ name R, scan reserved .space (pre ++ 39 :: rest) ≠ .ident name :: R)
    (h : scan reserved .space (F ++ 32 :: (pre ++ 39 :: rest)) = .ident F :: R)
    (hquotes : rest.count 39 < weigh quotes.token R) :
    Bare reserved F := by
  have hlen := lengths_run_le reserved .space F
  have hproper := proper_run (s := .space) reserved trivial F
  rw [scan_append] at h
  generalize run (step reserved) .space F = r at h hlen hproper
  obtain ⟨out, s⟩ := r
  cases out with
  | cons t ts =>
    -- a name that ends within `F` is shorter than `F`
    obtain rfl : t = .ident F := (List.cons.inj h).1
    simp only [weigh, Measure.token, Measure.state, weigh_lengths,
      show lengths.ending = 1 from rfl] at hlen
    omega
  | nil =>
    rw [List.nil_append] at h
    have hswallow := not_swallowing hpre h hquotes
    have hemit (t : Token) (hs : step reserved s 32 = emit t 32) : t = .ident F := by
      rw [scan_emit hs] at h
      exact (List.cons.inj h).1
    cases s with
    | start =>
      rw [scan_start (by decide), scan_space] at h
      exact absurd h (hnext F R)
    | space =>
      rw [scan_space] at h
      exact absurd h (hnext F R)
    | word acc =>
      have htoken := hemit (wordToken reserved acc)
        (by simp [step, idChar, idStart, isUpper, isDigit])
      obtain ⟨rfl, hbare⟩ := bare_of_wordToken htoken hproper
      exact hbare
    | op c => exact absurd (hemit (.sym c) (by simp [step, pair, isDigit])) (by simp)
    | quotedEnd q acc =>
      have hq : (32 : UInt8) ≠ q := by cases hproper <;> simp_all
      obtain rfl := Token.ident.inj (hemit (.ident acc) (by simp [step, hq]))
      simp only [weigh, Measure.state, weigh_lengths, show lengths.ending = 1 from rfl] at hlen
      omega
    | quoted q acc => exact absurd hproper hswallow
    | bracket acc | line | blockStart | block | blockEnd => exact absurd trivial hswallow
    | number | param | var named | varColon named | varParen | str acc | strEnd acc | blob =>
      have hle := count_ident_of_holding (n := F.count 39 + 1) h trivial
      omega

end Columns
end SqlLexer
