import ReminderSuite.Validation

/-! Escapes that are no two hexadecimal digits: which of them the gateway decodes all the
same, and where a request with one of them ends up. -/
namespace ReminderSuite
variable {ν : Type}

/-- The same client, counting the calls of `create`: `parse` begins with one. -/
def DataClient.counted (client : DataClient ν) : DataClient (ν × Nat) where
  create w :=
    let (done, world) := client.create w.1
    (done, world, w.2 + 1)
  executeCmd cmd result w :=
    let (reply, world) := client.executeCmd cmd result w.1
    (reply, world, w.2)

@[simp] theorem DataClient.counted_create (client : DataClient ν) (w : ν) (n : Nat) :
    client.counted.create (w, n) = ((client.create w).1, (client.create w).2, n + 1) := rfl

@[simp] theorem DataClient.counted_executeCmd (client : DataClient ν) (cmd : Bytes)
    (result : List Bytes) (w : ν) (n : Nat) :
    client.counted.executeCmd cmd result (w, n) =
      ((client.executeCmd cmd result w).1, (client.executeCmd cmd result w).2, n) := rfl

namespace RdbHandler

theorem forward_counted (ops : PTreeOps) (client : DataClient ν) (param : Bytes)
    (fields : List Bytes) (w : ν) (n : Nat) :
    (forward ops client.counted param fields (w, n)).2.2 = n := by
  rcases hx : client.executeCmd param [] w with ⟨⟨_ | _, result⟩, w'⟩
  · simp [forward, hx]
  · cases hget : isGet param <;> simp [forward, hx, hget]

theorem parse_counted (ops : PTreeOps) (client : DataClient ν) (path : Bytes) (w : ν) (n : Nat) :
    (parse ops client.counted path (w, n)).2.2 = n + 1 := by
  rcases hcreate : client.create w with ⟨_ | _, w0⟩
  · simp [parse, hcreate]
  · simp only [parse, DataClient.counted_create, hcreate]
    cases substr path 4 none with
    | error fault => rfl
    | ok param =>
      by_cases hlookup : param = ascii "/fields" ∨ isGet param
      · simp only [if_pos hlookup, DataClient.counted_executeCmd]
        rcases hx : client.executeCmd (ascii "/fields") [] w0 with ⟨⟨_ | _, _ | ⟨front, rest⟩⟩, w1⟩
        · rfl
        · rfl
        · rfl
        · by_cases hfields : param = ascii "/fields"
          · simp [hfields]
          · simp [hfields, forward_counted]
      · simp [hlookup, forward_counted]

end RdbHandler

namespace RequestHandler

def Gateway.counted (gw : Gateway ν) : Gateway (ν × Nat) where
  docRoot := gw.docRoot
  openFile := gw.openFile
  client := gw.client.counted
  ops := gw.ops
  writeJson := gw.writeJson

/-- Every percent sign, from the left, is followed by two hexadecimal digits, behind which
the search for the next one goes on. -/
def wellFormedEscapes : Bytes → Bool
  | [] => true
  | c :: rest =>
    if c = ch '%' then
      match rest with
      | hi :: lo :: rest => (hexDigit hi).isSome && (hexDigit lo).isSome && wellFormedEscapes rest
      | _ => false
    else wellFormedEscapes rest

def MalformedRefused (gw : Gateway ν) (req : Request) (rep : Reply) (w : ν) : Prop :=
  wellFormedEscapes req.uri = false →
    handleRequest gw.counted req rep (w, 0) = (.ok (stockReply .badRequest), w, 0)

/-- The two characters that the stream reads as a number: two digits, or a digit with some
other character behind it, or a digit behind white space or a sign -/
inductive ReadsAs : UInt8 → UInt8 → Int → Prop
  | digits {hi lo : UInt8} {h l : Nat} (hhi : hexDigit hi = some h) (hlo : hexDigit lo = some l) :
      ReadsAs hi lo ((16 * h + l : Nat) : Int)
  | oneDigit {hi lo : UInt8} {h : Nat} (hhi : hexDigit hi = some h) (hlo : hexDigit lo = none)
      (hmark : ¬ (hi = ch '0' ∧ (lo = ch 'x' ∨ lo = ch 'X'))) : ReadsAs hi lo h
  | blank {hi lo : UInt8} {l : Nat} (hhi : isSpace hi = true) (hlo : hexDigit lo = some l) :
      ReadsAs hi lo l
  | plus {lo : UInt8} {l : Nat} (hlo : hexDigit lo = some l) : ReadsAs (ch '+') lo l
  | minus {lo : UInt8} {l : Nat} (hlo : hexDigit lo = some l) : ReadsAs (ch '-') lo (-l)

/-- What a text is decoded to when every escape is read so, plus signs are spaces and the
rest stands for itself -/
inductive LenientlyEncodes : Bytes → Bytes → Prop
  | nil : LenientlyEncodes [] []
  | literal {e s : Bytes} {c : UInt8} (hne : c ≠ ch '%' ∧ c ≠ ch '+')
      (rest : LenientlyEncodes e s) :
      LenientlyEncodes (c :: e) (c :: s)
  | space {e s : Bytes} (rest : LenientlyEncodes e s) :
      LenientlyEncodes (ch '+' :: e) (ch ' ' :: s)
  | escaped {e s : Bytes} {hi lo : UInt8} {value : Int} (hread : ReadsAs hi lo value)
      (rest : LenientlyEncodes e s) :
      LenientlyEncodes (ch '%' :: hi :: lo :: e) (toByte value :: s)

/-- The paths that are not refused for what they say: absolute, without two dots in a row,
and when they are of the Data Provider, with a command at the begin of their parameter -/
structure Admitted (path : Bytes) : Prop where
  absolute : path.head? = some slash
  no_dots : ¬ ascii ".." <:+: path
  command : ∀ param, path = ascii "/rdb/" ++ param →
    ∃ cmd ∈ RdbHandler.commands_, cmd <+: param

section Extraction
variable {hi lo : UInt8}

theorem extractHex_single (c : UInt8) :
    extractHex [c] = (hexDigit c).map fun d : Nat => (d : Int) := by
  cases hc : hexDigit c with
  | some d =>
    have hminus : c ≠ ch '-' := ne_of_hexDigit hc (by decide)
    have hplus : c ≠ ch '+' := ne_of_hexDigit hc (by decide)
    simp [extractHex, isSpace_of_hexDigit hc, hminus, hplus, hexRun, hc]
  | none =>
    by_cases hsign : c = ch '-' ∨ c = ch '+'
    · obtain rfl | rfl := hsign <;> decide
    · rw [not_or] at hsign
      cases hspace : isSpace c <;> simp [extractHex, hspace, hsign, hexRun, hc]

theorem extractHex_blank (hhi : isSpace hi = true) :
    extractHex [hi, lo] = (hexDigit lo).map fun l : Nat => (l : Int) := by
  rw [← extractHex_single]
  simp [extractHex, hhi]

theorem extractHex_plus : extractHex [ch '+', lo] = (hexDigit lo).map fun l : Nat => (l : Int) := by
  have hspace : isSpace (ch '+') = false := by decide
  have hminus : ch '+' ≠ ch '-' := by decide
  cases hlo : hexDigit lo <;> simp [extractHex, hspace, hminus, hexRun, hlo]

theorem extractHex_minus :
    extractHex [ch '-', lo] = (hexDigit lo).map fun l : Nat => -(l : Int) := by
  have hspace : isSpace (ch '-') = false := by decide
  cases hlo : hexDigit lo <;> simp [extractHex, hspace, hexRun, hlo]

theorem extractHex_oneDigit {h : Nat} (hhi : hexDigit hi = some h) (hlo : hexDigit lo = none) :
    extractHex [hi, lo] = if hi = ch '0' ∧ (lo = ch 'x' ∨ lo = ch 'X') then none
      else some (h : Int) := by
  have hminus : hi ≠ ch '-' := ne_of_hexDigit hhi (by decide)
  have hplus : hi ≠ ch '+' := ne_of_hexDigit hhi (by decide)
  by_cases hmark : hi = ch '0' ∧ (lo = ch 'x' ∨ lo = ch 'X')
  · rw [if_pos hmark]
    obtain ⟨rfl, rfl | rfl⟩ := hmark <;> decide
  · simp [extractHex, isSpace_of_hexDigit hhi, hminus, hplus, hmark, hexRun, hhi, hlo]

theorem extractHex_other (hspace : isSpace hi = false) (hsign : hi ≠ ch '-' ∧ hi ≠ ch '+')
    (hhi : hexDigit hi = none) : extractHex [hi, lo] = none := by
  have hzero : hi ≠ ch '0' := fun heq => by
    simp [heq, show hexDigit (ch '0') = some 0 by decide] at hhi
  simp [extractHex, hspace, hsign, hzero, hexRun, hhi]

theorem extractHex_iff {value : Int} : extractHex [hi, lo] = some value ↔ ReadsAs hi lo value := by
  constructor
  · intro h
    by_cases hspace : isSpace hi = true
    · rw [extractHex_blank hspace, Option.map_eq_some_iff] at h
      obtain ⟨l, hlo, rfl⟩ := h
      exact .blank hspace hlo
    by_cases hminus : hi = ch '-'
    · rw [hminus, extractHex_minus, Option.map_eq_some_iff] at h
      obtain ⟨l, hlo, rfl⟩ := h
      exact hminus ▸ .minus hlo
    by_cases hplus : hi = ch '+'
    · rw [hplus, extractHex_plus, Option.map_eq_some_iff] at h
      obtain ⟨l, hlo, rfl⟩ := h
      exact hplus ▸ .plus hlo
    cases hhi : hexDigit hi with
    | none => simp [extractHex_other (by simpa using hspace) ⟨hminus, hplus⟩ hhi] at h
    | some d =>
      cases hlo : hexDigit lo with
      | some l =>
        rw [extractHex_digits hhi hlo] at h
        exact Option.some.inj h ▸ .digits hhi hlo
      | none =>
        rw [extractHex_oneDigit hhi hlo] at h
        by_cases hmark : hi = ch '0' ∧ (lo = ch 'x' ∨ lo = ch 'X')
        · simp [hmark] at h
        · rw [if_neg hmark] at h
          exact Option.some.inj h ▸ .oneDigit hhi hlo hmark
  · intro h
    cases h with
    | digits hhi hlo => exact extractHex_digits hhi hlo
    | oneDigit hhi hlo hmark => rw [extractHex_oneDigit hhi hlo, if_neg hmark]
    | blank hhi hlo => rw [extractHex_blank hhi, hlo, Option.map_some]
    | plus hlo => rw [extractHex_plus, hlo, Option.map_some]
    | minus hlo => rw [extractHex_minus, hlo, Option.map_some]

end Extraction

/-- What the decoder accepts, and what it makes of it -/
theorem urlDecode_iff {e s : Bytes} : urlDecode e = some s ↔ LenientlyEncodes e s := by
  constructor
  · intro h
    fun_induction urlDecode e generalizing s with
    | case1 =>
      obtain rfl := Option.some.inj h
      exact .nil
    | case2 hi lo rest value hread ih =>
      obtain ⟨out, hout, rfl⟩ := Option.map_eq_some_iff.mp h
      exact .escaped (extractHex_iff.mp hread) (ih hout)
    | case3 => simp at h
    | case4 => simp at h
    | case5 rest hne ih =>
      obtain ⟨out, hout, rfl⟩ := Option.map_eq_some_iff.mp h
      exact .space (ih hout)
    | case6 c rest hpercent hplus ih =>
      obtain ⟨out, hout, rfl⟩ := Option.map_eq_some_iff.mp h
      exact .literal ⟨hpercent, hplus⟩ (ih hout)
  · intro h
    induction h with
    | nil => rfl
    | literal hne rest ih => rw [urlDecode_literal hne, ih, Option.map_some]
    | space rest ih =>
      have hne : ch '+' ≠ ch '%' := by decide
      rw [urlDecode.eq_def]
      simp [hne, ih]
    | escaped hread rest ih =>
      rw [urlDecode]
      simp [extractHex_iff.mpr hread, ih]

theorem serveRdb_refused_iff (gw : Gateway ν) (path : Bytes) (rep : Reply) (w : ν) :
    serveRdb gw.counted path rep (w, 0) = (.ok (stockReply .badRequest), w, 0) ↔
      RdbHandler.isValidCall path = .ok false := by
  cases hvalid : RdbHandler.isValidCall path with
  | error fault => simp [serveRdb, hvalid]
  | ok accepted =>
    cases accepted with
    | false => simp [serveRdb, hvalid]
    | true =>
      refine iff_of_false (fun hserve => ?_) (by simp)
      have hcount : (serveRdb gw.counted path rep (w, 0)).2.2 = 1 := by
        have hparse := RdbHandler.parse_counted gw.ops gw.client path w 0
        rw [serveRdb, hvalid]
        rcases hp : RdbHandler.parse gw.counted.ops gw.counted.client path (w, 0) with
          ⟨_ | _ | reply, w', n⟩ <;>
        · rw [show RdbHandler.parse gw.ops gw.client.counted path (w, 0) = _ from hp] at hparse
          exact hparse
      simp [hserve] at hcount

theorem serveFile_ne_badRequest (gw : Gateway ν) (path : Bytes) (rep : Reply) :
    serveFile gw path rep ≠ stockReply .badRequest := by
  intro h
  have hstatus := congrArg Reply.status h
  rw [serveFile] at hstatus
  split at hstatus <;> simp [stockReply] at hstatus

theorem handleRequest_refused_iff (gw : Gateway ν) (req : Request) {path : Bytes}
    (hdecode : urlDecode req.uri = some path) (rep : Reply) (w : ν) :
    handleRequest gw.counted req rep (w, 0) = (.ok (stockReply .badRequest), w, 0) ↔
      ¬ Admitted path := by
  rw [handleRequest, hdecode]
  by_cases hrefused : path.isEmpty ∨ path.head? ≠ some slash ∨ ascii ".." <:+: path
  · simp only [if_pos hrefused]
    refine iff_of_true trivial fun h => ?_
    obtain hempty | hhead | hdots := hrefused
    · have habsolute := h.absolute
      simp [List.isEmpty_iff.mp hempty] at habsolute
    · exact hhead h.absolute
    · exact h.no_dots hdots
  · simp only [if_neg hrefused]
    simp only [not_or, not_not] at hrefused
    obtain ⟨-, habsolute, hdots⟩ := hrefused
    by_cases hrdb : RdbHandler.isRDBcall path = true
    · rw [if_pos hrdb, serveRdb_refused_iff, ← not_iff_not, not_not]
      obtain ⟨param, rfl⟩ := RdbHandler.isRDBcall_iff.mp hrdb
      have hvalid : RdbHandler.isValidCall (ascii "/rdb/" ++ param) ≠ .ok false ↔
          ∃ cmd ∈ RdbHandler.commands_, cmd <+: param := by
        rw [← RdbHandler.isValidCall_iff, RdbHandler.isValidCall_eq]
        simp
      refine hvalid.trans ⟨fun h => ⟨habsolute, hdots, ?_⟩, fun h => ?_⟩
      · intro other heq
        rwa [List.append_cancel_left heq] at h
      · exact h.command param rfl
    · rw [if_neg hrdb]
      refine iff_of_false (fun h => ?_) (not_not.mpr ⟨habsolute, hdots, fun param heq => ?_⟩)
      · exact serveFile_ne_badRequest gw.counted path rep (Except.ok.inj (congrArg Prod.fst h))
      · exact absurd (RdbHandler.isRDBcall_iff.mpr ⟨param, heq.symm⟩) hrdb

/-- For every request: one with a malformed escape is answered as a bad one without a parse
exactly when its URI has none or no lenient reading of it is a path to serve. -/
theorem malformed_refused_iff (gw : Gateway ν) (req : Request) (rep : Reply) (w : ν) :
    MalformedRefused gw req rep w ↔ wellFormedEscapes req.uri = true ∨
      ¬ ∃ path, LenientlyEncodes req.uri path ∧ Admitted path := by
  have hrefused : handleRequest gw.counted req rep (w, 0) = (.ok (stockReply .badRequest), w, 0) ↔
      ¬ ∃ path, LenientlyEncodes req.uri path ∧ Admitted path := by
    cases hdecode : urlDecode req.uri with
    | none =>
      refine iff_of_true (by simp [handleRequest, hdecode]) fun h => ?_
      obtain ⟨path, hread, -⟩ := h
      simp [urlDecode_iff.mpr hread] at hdecode
    | some path =>
      rw [handleRequest_refused_iff gw req hdecode]
      refine not_congr ⟨fun h => ⟨path, urlDecode_iff.mp hdecode, h⟩, fun h => ?_⟩
      obtain ⟨other, hread, hadmitted⟩ := h
      obtain rfl : path = other := by simpa [hdecode] using urlDecode_iff.mpr hread
      exact hadmitted
  rw [MalformedRefused, hrefused]
  cases wellFormedEscapes req.uri <;> simp

/-- One digit of an escape is enough for a command with a byte that was never asked for. -/
theorem short_escape_parsed :
    let gw : Gateway Bytes := ⟨[], fun _ => none, dataClient emptyProvider, plainTree, fun _ => []⟩
    let req : Request := ⟨ascii "GET", ascii "/rdb/delete/%5g", 1, 0, []⟩
    (handleRequest gw.counted req Reply.start ([], 0)).2 = (ascii "/delete/" ++ [5], 1) ∧
    ¬ MalformedRefused gw req Reply.start [] := by
  intro gw req
  have huri : req.uri = [47, 114, 100, 98, 47, 100, 101, 108, 101, 116, 101, 47, 37, 53, 103] := by
    decide
  have hpath : ascii "/rdb/" ++ (ascii "delete/" ++ [5]) =
      [47, 114, 100, 98, 47, 100, 101, 108, 101, 116, 101, 47, 5] := by decide
  have hdecode : urlDecode req.uri = some (ascii "/rdb/" ++ (ascii "delete/" ++ [5])) := by
    rw [huri, hpath]
    decide
  have hmalformed : wellFormedEscapes req.uri = false := by
    rw [huri]
    decide
  have hsent : (handleRequest gw.counted req Reply.start ([], 0)).2 =
      (ascii "/delete/" ++ [5], 1) := by
    rw [handleRequest_rdb hdecode (by decide), hpath]
    decide
  refine ⟨hsent, fun h => ?_⟩
  rw [h hmalformed] at hsent
  exact absurd hsent (by decide)

end RequestHandler
end ReminderSuite
