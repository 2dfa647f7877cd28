import TinDox.InterpreterUse

/-! The interpreter with every `front` and `back` checked: nothing is returned where an element is
read that is not there. It agrees with the interpreter up to the first such read. -/

namespace TinDox

open Framing

namespace ProtocolInterpreter

namespace Checked

def checkForProtocolErrors (i : ProtocolInterpreter) : Option (ProtocolInterpreter × Option Exception) := do
  let back ← i.lines.getLast?
  let tooLongLine := back.length > maxLineLength
  let tooManyLines := i.lines.length > maxLineCount
  let i' := if tooLongLine ∨ tooManyLines then i.restart else i
  if tooLongLine then
    let back ← i'.lines.getLast?
    some (i', some (refuseWith .tooLongLine (ascii "Too long line (" ++ decimal back.length ++ ascii " bytes)")))
  else if tooManyLines then
    some (i', some (refuseWith .tooManyFields (ascii "Too many fields (" ++ decimal i'.lines.length ++ ascii ")")))
  else some (i', none)

def commitRequest (i : ProtocolInterpreter) : Option (ProtocolInterpreter × Option Exception) :=
  if i.request.isSome then some (i, some .fatal)
  else do
    let name ← i.lines.head?
    match (i.lines.drop 1).mapM fieldFromString with
    | .error e => some ({ i with lines := [] :: i.lines.drop 1 }, some (.protocol e))
    | .ok fields => some ({ i with lines := [] :: i.lines.drop 1, request := some ⟨name, fields⟩ }, none)

/-- The lines with the fragment added to them. -/
def addFragment (i : ProtocolInterpreter) (line : Bytes) : Option (List Bytes) :=
  if i.lastLineComplete then some (i.lines ++ [line])
  else do
    let back ← i.lines.getLast?
    some (i.lines.dropLast ++ [back ++ line])

def commitLine (i : ProtocolInterpreter) (line : Bytes) : Option (ProtocolInterpreter × Option Exception) := do
  let lines ← addFragment i line
  match ← checkForProtocolErrors { i with lines := lines } with
  | (i, some e) => some (i, some e)
  | (i, none) =>
    let back ← i.lines.getLast?
    let last ← back.getLast?
    let complete : Bool := last = newline
    let lines := if complete then i.lines.dropLast ++ [back.dropLast] else i.lines
    let i := { i with lines := lines, lastLineComplete := complete }
    let back ← i.lines.getLast?
    if back = [] then
      if i.lines.length > 1 then
        match ← commitRequest { i with lines := i.lines.dropLast } with
        | (i, some e) => some (i, some e)
        | (i, none) => some ({ i with lines := [] }, none)
      else some ({ i with lines := [] }, none)
    else some (i, none)

def commitBytesLoop : Nat → ProtocolInterpreter → Bytes → Option (ProtocolInterpreter × Bytes × Option Exception)
  | 0, i, bytes => some (i, bytes, none)
  | fuel + 1, i, bytes =>
    if bytes = [] ∨ i.hasAvailableRequest then some (i, bytes, none)
    else do
      match ← commitLine i (cutLine bytes).1 with
      | (i, some e) => some (i, (cutLine bytes).2, some e)
      | (i, none) => commitBytesLoop fuel i (cutLine bytes).2

def commitBytes (i : ProtocolInterpreter) (bytes : Bytes) : Option (ProtocolInterpreter × Bytes × Option Exception) :=
  commitBytesLoop bytes.length i bytes

theorem addFragment_ofState (done : List Bytes) (cur p : Bytes) :
    addFragment (ofState done cur) p = some (done ++ [cur ++ p]) := by
  by_cases hc : cur = [] <;> simp [addFragment, ofState, hc]

/-- The length that goes into the message is read from the lines that have just been cleared. -/
theorem checkForProtocolErrors_eq {i : ProtocolInterpreter} {done : List Bytes} {l : Bytes} (hi : i.lines = done ++ [l]) :
    checkForProtocolErrors i = if maxLineLength < l.length then none else some i.checkForProtocolErrors := by
  have hlast : i.lines.getLast? = some l := by rw [hi, List.getLast?_concat]
  by_cases hl : maxLineLength < l.length
  · simp [checkForProtocolErrors, hlast, hl, restart, fresh]
  · by_cases hc : maxLineCount < i.lines.length
    · simp [checkForProtocolErrors, ProtocolInterpreter.checkForProtocolErrors, hlast, hl, hc]
    · simp [checkForProtocolErrors, ProtocolInterpreter.checkForProtocolErrors, hlast, hl, hc]

theorem commitRequest_eq {i : ProtocolInterpreter} (hi : i.lines ≠ []) : commitRequest i = some i.commitRequest := by
  obtain ⟨name, fieldLines, hl⟩ := List.exists_cons_of_ne_nil hi
  by_cases hr : i.request.isSome = true
  · simp [commitRequest, ProtocolInterpreter.commitRequest, hr]
  · cases hm : fieldLines.mapM fieldFromString <;>
      simp [commitRequest, ProtocolInterpreter.commitRequest, hr, hl, hm]

theorem commitLine_eq (done : List Bytes) (cur : Bytes) {p : Bytes} (hp : p ≠ []) :
    commitLine (ofState done cur) p =
      if maxLineLength < (cur ++ p).length then none else some ((ofState done cur).commitLine p) := by
  obtain ⟨b, x, hb⟩ : ∃ b x, cur ++ p = b ++ [x] := by
    rcases List.eq_nil_or_concat (cur ++ p) with hnil | ⟨b, x, hb⟩
    · exact absurd (List.append_eq_nil_iff.mp hnil).2 hp
    · exact ⟨b, x, by rw [hb, List.concat_eq_append]⟩
  rw [commitLine, addFragment_ofState, ProtocolInterpreter.commitLine]
  simp only [Option.bind_eq_bind, Option.bind_some, commitLine_lines]
  rw [checkForProtocolErrors_eq rfl, hb]
  by_cases hl : maxLineLength < (b ++ [x]).length
  · rw [if_pos hl, if_pos hl]
    rfl
  rw [if_neg hl, if_neg hl, Option.bind_some]
  by_cases hc : maxLineCount ≤ done.length
  · rw [checkForProtocolErrors_exceeds rfl (.inl hc)]
  rw [checkForProtocolErrors_within rfl (not_lt.mp hl) (by omega)]
  by_cases hx : x = newline
  · by_cases hcontent : b = []
    · by_cases hd : done = []
      · simp [hx, hcontent, hd]
      · have hrequest := commitRequest_eq (i := ⟨done, none, true⟩) hd
        rcases hres : ProtocolInterpreter.commitRequest ⟨done, none, true⟩ with ⟨i, _ | e⟩
        · simp [hx, hcontent, hd, hrequest, hres, ofState, List.length_pos_iff]
        · simp [hx, hcontent, hd, hrequest, hres, ofState, List.length_pos_iff]
    · simp [hx, hcontent]
  · simp [hx]

/-- Reading stops at a line that is too long. -/
def StopsTooLong (done : List Bytes) (cur b : Bytes) : Prop :=
  ∃ ls l, stop done cur (pieces b) = some (ls, l) ∧ maxLineLength < l.length

theorem not_stopsTooLong {done ls : List Bytes} {cur b l : Bytes} (h : stop done cur (pieces b) = some (ls, l))
    (hl : l.length ≤ maxLineLength) : ¬ StopsTooLong done cur b := by
  rintro ⟨ls', l', h', hlong⟩
  rw [h] at h'
  cases h'
  omega

theorem not_stopsTooLong_nil (done : List Bytes) (cur : Bytes) : ¬ StopsTooLong done cur [] := by
  rintro ⟨ls, l, h, -⟩
  cases h

theorem commitBytesLoop_available (fuel : Nat) (r : Request) (b : Bytes) :
    commitBytesLoop fuel ⟨[], some r, true⟩ b = some (⟨[], some r, true⟩, b, none) := by
  cases fuel with
  | zero => rfl
  | succ fuel => simp [commitBytesLoop, hasAvailableRequest]

/-- The fragment is checked and the interpreter goes on as it does without the checks. -/
theorem commitBytesLoop_line {fuel : Nat} {done : List Bytes} {cur b : Bytes} (hb : b ≠ [])
    (hl : ¬ maxLineLength < (cur ++ (cutLine b).1).length) :
    commitBytesLoop (fuel + 1) (ofState done cur) b =
      match (ofState done cur).commitLine (cutLine b).1 with
      | (i, some e) => some (i, (cutLine b).2, some e)
      | (i, none) => commitBytesLoop fuel i (cutLine b).2 := by
  have hidle : (ofState done cur).hasAvailableRequest = false := rfl
  rw [commitBytesLoop, if_neg (by simp [hb, hidle]), commitLine_eq done cur (cutLine_ne_nil hb), if_neg hl]
  rfl

theorem commitBytesLoop_cases (fuel : Nat) (done : List Bytes) (cur : Bytes) {b : Bytes} (hf : b.length ≤ fuel) :
    StopsTooLong done cur b ∧ commitBytesLoop fuel (ofState done cur) b = none ∨
      ¬ StopsTooLong done cur b ∧
        commitBytesLoop fuel (ofState done cur) b = some ((ofState done cur).commitBytes b) := by
  induction fuel generalizing done cur b with
  | zero =>
    obtain rfl := List.length_eq_zero_iff.mp (Nat.le_zero.mp hf)
    exact .inr ⟨not_stopsTooLong_nil done cur, rfl⟩
  | succ fuel ih =>
    by_cases hb : b = []
    · subst b
      exact .inr ⟨not_stopsTooLong_nil done cur, rfl⟩
    have hp := isPiece_cutLine hb
    have hpieces := pieces_cutLine hb
    have hcut := cutLine_length hb
    have hcommits := commitLine_commits done cur hp
    rw [ProtocolInterpreter.commitBytes_cut hb rfl]
    generalize hres : (ofState done cur).commitLine (cutLine b).1 = result at hcommits
    cases hcommits with
    | exceeds hx =>
      have hstop : stop done cur (pieces b) = some (done, cur ++ (cutLine b).1) := by rw [hpieces, stop, if_pos hx]
      by_cases hl : maxLineLength < (cur ++ (cutLine b).1).length
      · refine .inl ⟨⟨done, _, hstop, hl⟩, ?_⟩
        have hidle : (ofState done cur).hasAvailableRequest = false := rfl
        rw [commitBytesLoop, if_neg (by simp [hb, hidle]), commitLine_eq done cur hp.1, if_pos hl]
        rfl
      · exact .inr ⟨not_stopsTooLong hstop (not_lt.mp hl), by rw [commitBytesLoop_line hb hl, hres]⟩
    | @goesOn done' cur' h =>
      have hl : ¬ maxLineLength < (cur ++ (cutLine b).1).length := by
        intro hl
        rw [outcome, if_pos (.inr hl)] at h
        cases h
      have hsame : StopsTooLong done cur b ↔ StopsTooLong done' cur' (cutLine b).2 := by
        rw [StopsTooLong, StopsTooLong, hpieces, stop_goesOn h]
      rw [hsame, commitBytesLoop_line hb hl, hres]
      exact ih done' cur' (by omega)
    | @request r hx he hd h =>
      have hl : ¬ maxLineLength < (cur ++ (cutLine b).1).length := fun hl => hx (.inr hl)
      have havailable := commitBytes_available (i := ⟨[], some r, true⟩) rfl (cutLine b).2
      refine .inr ⟨not_stopsTooLong (by rw [hpieces, stop_ends hp hx he hd]) (by decide), ?_⟩
      rw [commitBytesLoop_line hb hl, hres]
      simp only [commitBytesLoop_available, havailable]
    | malformed hx he hd h =>
      have hl : ¬ maxLineLength < (cur ++ (cutLine b).1).length := fun hl => hx (.inr hl)
      exact .inr ⟨not_stopsTooLong (by rw [hpieces, stop_ends hp hx he hd]) (by decide),
        by rw [commitBytesLoop_line hb hl, hres]⟩

end Checked

/-- The call reads nothing that is not there, and a request that has not been taken is not met. -/
def ReadsSafely (i : ProtocolInterpreter) : Use → Prop
  | .commitBytes b => ∃ i' rest e, Checked.commitBytes i b = some (i', rest, e) ∧ e ≠ some .fatal
  | _ => True

/-- No line of the chunk gets too long before the interpreter stops reading. -/
def LengthKept (i : ProtocolInterpreter) : Use → Prop
  | .commitBytes b => i.request = none → ∀ ls l, stop i.completeLines i.openLine (pieces b) = some (ls, l) →
      l.length ≤ maxLineLength
  | _ => True

theorem commitBytes_not_fatal (done : List Bytes) (cur b : Bytes) :
    ((ofState done cur).commitBytes b).2.2 ≠ some .fatal := by
  have hread := commitBytes_read done cur b
  generalize (ofState done cur).commitBytes b = result at hread
  cases hread <;> simp

theorem Usable.readsSafely_iff {i : ProtocolInterpreter} (h : i.Usable) (u : Use) :
    i.ReadsSafely u ↔ i.LengthKept u := by
  cases u with
  | getRequest | restart => exact Iff.rfl
  | commitBytes b =>
    cases h with
    | available r =>
      refine iff_of_true ⟨_, _, none, Checked.commitBytesLoop_available b.length r b, by simp⟩ (fun hr => ?_)
      cases hr
    | collecting done cur =>
      simp only [ReadsSafely, LengthKept, completeLines_ofState, openLine_ofState, Checked.commitBytes]
      rcases Checked.commitBytesLoop_cases b.length done cur le_rfl with ⟨⟨ls, l, hs, hl⟩, hnone⟩ | ⟨hshort, hsome⟩
      · refine iff_of_false (by simp [hnone]) (fun hkept => ?_)
        have hle := hkept rfl ls l hs
        omega
      · refine iff_of_true ⟨_, _, _, hsome, commitBytes_not_fatal done cur b⟩ (fun _ ls l hs => ?_)
        by_contra hl
        exact hshort ⟨ls, l, hs, not_le.mp hl⟩

/-- Under any use, no call reads an element that is not there and none meets a request that has not
been taken, exactly when no line gets too long. -/
theorem reads_safely_iff (us : List Use) :
    Runs.AllMeet use ReadsSafely fresh us ↔ Runs.AllMeet use LengthKept fresh us :=
  Runs.AllMeet.congr (I := Usable) (fun _ u hi => hi.use u) (fun _ u hi => hi.readsSafely_iff u) usable_fresh us

/-- The message about a line that is too long is made from a line that is gone. -/
theorem long_line_read_after_restart : ¬ ∀ us, Runs.AllMeet use ReadsSafely fresh us := by
  intro hall
  obtain ⟨⟨i, rest, e, hsome, -⟩, -⟩ := hall [.commitBytes (List.replicate 2049 65)]
  have hnone : Checked.commitBytes fresh (List.replicate 2049 65) = none := by decide +kernel
  rw [hnone] at hsome
  cases hsome

end ProtocolInterpreter

end TinDox
