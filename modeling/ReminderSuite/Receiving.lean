import ReminderSuite.Client
import ReminderSuite.Server
import ReminderSuite.TextFileCodec

/-! How much of a response the client library keeps: what one read of the connection
returns, whether or not that is all of it. -/
namespace ReminderSuite
open Delimited
variable {σ ν : Type}

structure Network.Streams (net : Network ν) (pending : ν → Bytes) : Prop where
  readSome : ∀ n w part w', 0 < n → net.readSome n w = (some part, w') →
    part ≠ [] ∧ part.length ≤ n ∧ pending w = part ++ pending w'

def Network.sent (net : Network ν) (cmd : Bytes) (w : ν) : ν := (net.send cmd (net.connect w).2).2

def AllOf (response part : Bytes) : Prop :=
  part = response ∨ (part ++ [lf] = response ∧ part.getLast? ≠ some lf)

theorem tokens_eq_lines_iff (body part : Bytes) :
    tokens lf part = lines (body ++ [lf]) ↔ AllOf (body ++ [lf]) part := by
  have hclosed : closed lf (body ++ [lf]) = body ++ [lf] := by simp [closed]
  rw [lines_eq_tokens, tokens_eq_iff (tokens_ne_nil _ _) fun p hp => sep_not_mem_token hp,
    terminated_tokens, hclosed, closed_eq_iff, AllOf]
  refine or_congr Iff.rfl ⟨?_, ?_⟩
  · intro h
    obtain ⟨rfl, hlast⟩ := h
    exact ⟨rfl, hlast⟩
  · intro h
    obtain ⟨heq, hlast⟩ := h
    obtain rfl := List.append_cancel_right heq
    exact ⟨rfl, hlast⟩

theorem executeCmd_true {net : Network ν} {cmd : Bytes} {result : List Bytes} {w w' : ν}
    (h : executeCmd net cmd [] w = ((true, result), w')) :
    ∃ part w2, net.readSome streamBuf (net.sent cmd w) = (some part, w2) ∧
      result = tokens lf part := by
  unfold executeCmd at h
  cases hconnect : net.connect w with
  | mk connected w1 =>
    cases hsend : net.send cmd w1 with
    | mk sent w2 =>
      cases hread : net.readSome streamBuf w2 with
      | mk part w3 =>
        have hsent : net.sent cmd w = w2 := by simp [Network.sent, hconnect, hsend]
        rw [hsent]
        cases connected <;> cases sent <;> cases part <;> simp [hconnect, hsend, hread] at h
        exact ⟨_, w3, hread, h.1.symm⟩

/-- For every response that a session sends and every way it arrives: a command that
is reported done has all lines of the response exactly when its one read returned
all of it, which no read of a response longer than the buffer and a line feed does. -/
theorem result_complete_iff (lib : DBLibrary σ) (chunk : Bytes) (session session' : Session)
    (store store' : σ) (hreply : parseRequest lib chunk session store = .ok (session', store'))
    (net : Network ν) (pending : ν → Bytes) (hnet : net.Streams pending) (cmd : Bytes) (w w' : ν)
    (hpending : pending (net.sent cmd w) = session'.response_) (result : List Bytes)
    (h : executeCmd net cmd [] w = ((true, result), w')) :
    ∃ part w2, net.readSome streamBuf (net.sent cmd w) = (some part, w2) ∧
      (result = lines session'.response_ ↔ AllOf session'.response_ part) ∧
      (streamBuf + 1 < session'.response_.length → result ≠ lines session'.response_) := by
  obtain ⟨part, w2, hread, rfl⟩ := executeCmd_true h
  obtain ⟨body, rfl⟩ := parseRequest_response hreply
  have hiff := tokens_eq_lines_iff body part
  refine ⟨part, w2, hread, hiff, fun hlong hall => ?_⟩
  have hfits := (hnet.readSome _ _ _ _ (by decide) hread).2.1
  have hlen : part.length + 1 ≥ (body ++ [lf]).length := by
    cases hiff.mp hall with
    | inl heq => simp [heq]
    | inr hbut => simp [← hbut.1]
  have hresponse : (Session.doWrite { session with response_ := body }).response_ = body ++ [lf] :=
    rfl
  rw [hresponse] at hlong
  omega

/-- A connection on which given segments arrive one after the other -/
def segmentNet : Network (List Bytes) where
  resolve w := (true, w)
  connect w := (true, w)
  send _ w := (true, w)
  readSome n w :=
    match w with
    | [] => (none, [])
    | segment :: rest =>
      if segment = [] then (none, w)
      else (some (segment.take n), if segment.length ≤ n then rest else segment.drop n :: rest)
  close _ := []

theorem segmentNet_streams : segmentNet.Streams List.flatten where
  readSome n w part w' hn h := by
    cases w with
    | nil => simp [segmentNet] at h
    | cons segment rest =>
      by_cases hne : segment = []
      · simp [segmentNet, hne] at h
      · simp only [segmentNet, hne, if_false, Prod.mk.injEq, Option.some.injEq] at h
        obtain ⟨rfl, rfl⟩ := h
        refine ⟨?_, List.length_take_le n segment, ?_⟩
        · simp [hne, Nat.ne_of_gt hn]
        · split_ifs with hle
          · simp [List.take_of_length_le hle]
          · simp [← List.append_assoc]

/-- A listing of two records that arrives in one piece -/
theorem result_complete_iff_sample :
    let store := (Server.ofFile (ascii "name:note\na:x\nb:y\n")).store
    let response := ascii "a:x:\nb:y:\n\n"
    parseRequest textLibrary (ascii "/get") Session.start store =
      .ok (⟨response, [response]⟩, store) ∧
    executeCmd segmentNet (ascii "/get") [] [response] = ((true, lines response), []) := by
  intro store response
  have hreply : parseRequest textLibrary (ascii "/get") Session.start store =
      .ok (⟨response, [response]⟩, store) := by decide
  refine ⟨hreply, ?_⟩
  have hexec : executeCmd segmentNet (ascii "/get") [] [response] =
      ((true, tokens lf response), []) := by decide
  obtain ⟨part, w2, hread, hiff, -⟩ :=
    result_complete_iff textLibrary (ascii "/get") Session.start _
    store store hreply segmentNet List.flatten segmentNet_streams (ascii "/get") [response] []
    (by decide) _ hexec
  have hpart : (segmentNet.readSome streamBuf (segmentNet.sent (ascii "/get") [response])) =
      (some response, []) := by decide
  obtain rfl : response = part := Option.some.inj (Prod.mk.inj (hpart.symm.trans hread)).1
  rw [hexec, hiff.mpr (Or.inl rfl)]

/-- The same listing in two segments is reported done with its second record missing. -/
theorem second_segment_lost :
    let store := (Server.ofFile (ascii "name:note\na:x\nb:y\n")).store
    let response := ascii "a:x:\nb:y:\n\n"
    let segments := [ascii "a:x:\n", ascii "b:y:\n\n"]
    parseRequest textLibrary (ascii "/get") Session.start store =
      .ok (⟨response, [response]⟩, store) ∧
    segments.flatten = response ∧
    executeCmd segmentNet (ascii "/get") [] segments = ((true, [ascii "a:x:"]), []) ∧
    lines response = [ascii "a:x:", ascii "b:y:", []] := by
  decide

end ReminderSuite
