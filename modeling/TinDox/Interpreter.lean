import TinDox.Protocol

/-! `ProtocolInterpreter`: reassembles request lines from received chunks. -/

namespace TinDox

structure ProtocolInterpreter where
  lines : List Bytes
  request : Option Request
  lastLineComplete : Bool
  deriving DecidableEq

/-- A line together with its separator, or all bytes when the separator is not among them. -/
def cutLine : Bytes → Bytes × Bytes
  | [] => ([], [])
  | c :: b => if c = newline then ([c], b) else (c :: (cutLine b).1, (cutLine b).2)

namespace ProtocolInterpreter

def maxLineLength : Nat := 2048

def maxLineCount : Nat := 16

def fresh : ProtocolInterpreter := ⟨[], none, true⟩

def restart (_ : ProtocolInterpreter) : ProtocolInterpreter := fresh

def hasAvailableRequest (i : ProtocolInterpreter) : Bool := i.request.isSome

/-- The length the source reads from the last line for its message. It reads it after
`restart`, when there is no line any more. -/
def lastLineSize (i : ProtocolInterpreter) : Bytes :=
  match i.lines.getLast? with
  | some line => decimal line.length
  | none => []

def checkForProtocolErrors (i : ProtocolInterpreter) : ProtocolInterpreter × Option Exception :=
  let tooLongLine := (i.lines.getLastD []).length > maxLineLength
  let tooManyLines := i.lines.length > maxLineCount
  let i' := if tooLongLine ∨ tooManyLines then i.restart else i
  if tooLongLine then
    (i', some (refuseWith .tooLongLine (ascii "Too long line (" ++ i'.lastLineSize ++ ascii " bytes)")))
  else if tooManyLines then
    (i', some (refuseWith .tooManyFields (ascii "Too many fields (" ++ decimal i'.lines.length ++ ascii ")")))
  else (i', none)

/-- The first line has been moved out when the fields are parsed. -/
def commitRequest (i : ProtocolInterpreter) : ProtocolInterpreter × Option Exception :=
  if i.request.isSome then (i, some .fatal)
  else
    match i.lines with
    | [] => (i, some .fatal)
    | name :: fieldLines =>
      match fieldLines.mapM fieldFromString with
      | .error e => ({ i with lines := [] :: fieldLines }, some (.protocol e))
      | .ok fields =>
        ({ i with lines := [] :: fieldLines, request := some ⟨name, fields⟩ }, none)

def commitLine (i : ProtocolInterpreter) (line : Bytes) : ProtocolInterpreter × Option Exception :=
  let lines :=
    if i.lastLineComplete then i.lines ++ [line]
    else i.lines.dropLast ++ [i.lines.getLastD [] ++ line]
  match checkForProtocolErrors { i with lines := lines } with
  | (i, some e) => (i, some e)
  | (i, none) =>
    let back := i.lines.getLastD []
    let complete : Bool := back.getLast? = some newline
    let back := if complete then back.dropLast else back
    let i := { i with lines := i.lines.dropLast ++ [back], lastLineComplete := complete }
    if back = [] then
      if i.lines.length > 1 then
        match commitRequest { i with lines := i.lines.dropLast } with
        | (i, some e) => (i, some e)
        | (i, none) => ({ i with lines := [] }, none)
      else ({ i with lines := [] }, none)
    else (i, none)

/-- The loop of `commit_bytes`, one line at a time; `fuel` bounds the number of lines. -/
def commitBytesLoop : Nat → ProtocolInterpreter → Bytes →
    ProtocolInterpreter × Bytes × Option Exception
  | 0, i, bytes => (i, bytes, none)
  | fuel + 1, i, bytes =>
    if bytes = [] ∨ i.hasAvailableRequest then (i, bytes, none)
    else
      match i.commitLine (cutLine bytes).1 with
      | (i, some e) => (i, (cutLine bytes).2, some e)
      | (i, none) => commitBytesLoop fuel i (cutLine bytes).2

def commitBytes (i : ProtocolInterpreter) (bytes : Bytes) :
    ProtocolInterpreter × Bytes × Option Exception :=
  commitBytesLoop bytes.length i bytes

end ProtocolInterpreter

/-- What one call of `commit_bytes` hands to `Client::handle_request`. -/
inductive Delivery where
  | nothing
  | request (r : Request)
  | error (e : Exception)
  deriving DecidableEq

/-- The part of `Client::handle_request` that drives the interpreter: a request is taken with
`get_request`, and a `ProtocolError` restarts the interpreter. -/
def ProtocolInterpreter.takeRequest (i : ProtocolInterpreter) (bytes : Bytes) :
    ProtocolInterpreter × Bytes × Delivery :=
  match i.commitBytes bytes with
  | (i, rest, some .fatal) => (i, rest, .error .fatal)
  | (i, rest, some (.protocol e)) => (i.restart, rest, .error (.protocol e))
  | (i, rest, none) =>
    match i.request with
    | some r => (i.restart, rest, .request r)
    | none => (i, rest, .nothing)

theorem cutLine_append (b : Bytes) : (cutLine b).1 ++ (cutLine b).2 = b := by
  induction b with
  | nil => rfl
  | cons c b ih => by_cases hc : c = newline <;> simp [cutLine, hc, ih]

theorem cutLine_ne_nil {b : Bytes} (h : b ≠ []) : (cutLine b).1 ≠ [] := by
  cases b with
  | nil => exact absurd rfl h
  | cons c b => by_cases hc : c = newline <;> simp [cutLine, hc]

theorem cutLine_length {b : Bytes} (h : b ≠ []) : (cutLine b).2.length < b.length := by
  have hlen := congrArg List.length (cutLine_append b)
  have hpos := List.length_pos_of_ne_nil (cutLine_ne_nil h)
  simp only [List.length_append] at hlen
  omega

namespace ProtocolInterpreter

theorem commitBytesLoop_of_le {n : Nat} (i : ProtocolInterpreter) (bytes : Bytes)
    (h : bytes.length ≤ n) : commitBytesLoop n i bytes = i.commitBytes bytes := by
  induction n using Nat.strong_induction_on generalizing i bytes with
  | _ n ih =>
    by_cases hb : bytes = []
    · subst bytes
      cases n <;> simp [commitBytes, commitBytesLoop]
    · have hcut := cutLine_length hb
      obtain ⟨m, rfl⟩ : ∃ m, n = m + 1 := ⟨n - 1, by omega⟩
      obtain ⟨l, hl⟩ : ∃ l, bytes.length = l + 1 := ⟨bytes.length - 1, by omega⟩
      rw [commitBytes, hl, commitBytesLoop, commitBytesLoop]
      cases i.commitLine (cutLine bytes).1 with
      | mk i' r =>
        cases r with
        | some e => rfl
        | none =>
          have hm := ih m (by omega) i' (cutLine bytes).2 (by omega)
          have hl' := ih l (by omega) i' (cutLine bytes).2 (by omega)
          simp only [hm, hl']

theorem commitBytes_cut {i : ProtocolInterpreter} {bytes : Bytes} (hb : bytes ≠ [])
    (hi : i.request = none) :
    i.commitBytes bytes =
      match i.commitLine (cutLine bytes).1 with
      | (i, some e) => (i, (cutLine bytes).2, some e)
      | (i, none) => i.commitBytes (cutLine bytes).2 := by
  have hcut := cutLine_length hb
  obtain ⟨l, hl⟩ : ∃ l, bytes.length = l + 1 := ⟨bytes.length - 1, by omega⟩
  rw [commitBytes, hl, commitBytesLoop]
  simp only [hb, hasAvailableRequest, hi, Option.isSome_none, Bool.false_eq_true, or_self, if_false]
  cases i.commitLine (cutLine bytes).1 with
  | mk i' r =>
    cases r with
    | some e => rfl
    | none => exact commitBytesLoop_of_le i' _ (by omega)

@[simp] theorem commitBytes_nil (i : ProtocolInterpreter) : i.commitBytes [] = (i, [], none) := rfl

theorem commitBytes_available {i : ProtocolInterpreter} (hi : i.request.isSome) (bytes : Bytes) :
    i.commitBytes bytes = (i, bytes, none) := by
  cases bytes <;> simp [commitBytes, commitBytesLoop, hasAvailableRequest, hi]

theorem takeRequest_nil {i : ProtocolInterpreter} (hi : i.request = none) :
    i.takeRequest [] = (i, [], .nothing) := by
  simp [takeRequest, hi]

theorem takeRequest_available {i : ProtocolInterpreter} {r : Request} (hi : i.request = some r)
    (bytes : Bytes) : i.takeRequest bytes = (fresh, bytes, .request r) := by
  have hh := commitBytes_available (i := i) (by simp [hi]) bytes
  simp [takeRequest, hh, hi, restart]

theorem takeRequest_line {i i' : ProtocolInterpreter} {bytes : Bytes} (hb : bytes ≠ [])
    (hi : i.request = none) (h : i.commitLine (cutLine bytes).1 = (i', none)) :
    i.takeRequest bytes = i'.takeRequest (cutLine bytes).2 := by
  have hcut := commitBytes_cut hb hi
  rw [h] at hcut
  simp only at hcut
  rw [takeRequest, takeRequest, hcut]

theorem takeRequest_error {i i' : ProtocolInterpreter} {bytes : Bytes} {e : ProtocolError} (hb : bytes ≠ [])
    (hi : i.request = none) (h : i.commitLine (cutLine bytes).1 = (i', some (.protocol e))) :
    i.takeRequest bytes = (fresh, (cutLine bytes).2, .error (.protocol e)) := by
  have hcut := commitBytes_cut hb hi
  rw [h] at hcut
  simp only at hcut
  rw [takeRequest, hcut]
  rfl

theorem commitBytesLoop_suffix (n : Nat) (i : ProtocolInterpreter) (bytes : Bytes) :
    (commitBytesLoop n i bytes).2.1 <:+ bytes := by
  induction n generalizing i bytes with
  | zero => exact List.suffix_refl bytes
  | succ n ih =>
    have hcut : (cutLine bytes).2 <:+ bytes := ⟨_, cutLine_append bytes⟩
    rw [commitBytesLoop]
    split
    · exact List.suffix_refl bytes
    · split
      · exact hcut
      · exact (ih _ _).trans hcut

theorem takeRequest_rest (i : ProtocolInterpreter) (bytes : Bytes) :
    (i.takeRequest bytes).2.1 <:+ bytes ∧
    (i.request = none → bytes ≠ [] → (i.takeRequest bytes).2.1.length < bytes.length) := by
  have hrest : (i.takeRequest bytes).2.1 = (i.commitBytes bytes).2.1 := by
    unfold takeRequest
    rcases i.commitBytes bytes with ⟨i', rest, e⟩
    rcases e with - | - | e
    · cases hr : i'.request <;> simp [hr]
    · rfl
    · rfl
  rw [hrest]
  refine ⟨commitBytesLoop_suffix _ i bytes, fun hi hb => ?_⟩
  have hcut := cutLine_length hb
  rw [commitBytes_cut hb hi]
  split
  · exact hcut
  · exact Nat.lt_of_le_of_lt (commitBytesLoop_suffix _ _ _).length_le hcut

theorem checkForProtocolErrors_not_fatal (i : ProtocolInterpreter) :
    i.checkForProtocolErrors = (i, none) ∨ ∃ i' e, i.checkForProtocolErrors = (i', some (.protocol e)) := by
  unfold checkForProtocolErrors
  dsimp only
  split
  · exact .inr ⟨_, _, rfl⟩
  · rename_i hlong
    split
    · exact .inr ⟨_, _, rfl⟩
    · rename_i hmany
      exact .inl (by rw [if_neg (not_or.mpr ⟨hlong, hmany⟩)])

/-- A request is committed only when none waits and there is a line for its name. -/
theorem commitLine_not_fatal {i : ProtocolInterpreter} (hi : i.request = none) (line : Bytes) :
    (i.commitLine line).2 ≠ some .fatal := by
  unfold commitLine
  dsimp only
  generalize (if i.lastLineComplete then i.lines ++ [line] else i.lines.dropLast ++ [i.lines.getLastD [] ++ line]) = lines
  rcases checkForProtocolErrors_not_fatal { i with lines := lines } with hcheck | ⟨i', e, hcheck⟩
  · rw [hcheck]
    dsimp only
    generalize (if decide (List.getLast? (lines.getLastD []) = some newline) = true then (lines.getLastD []).dropLast
      else lines.getLastD []) = back
    split
    · split
      · rename_i hcount
        have hsome : (lines.dropLast ++ [back]).dropLast ≠ [] := by
          intro hnil
          have hlength := congrArg List.length hnil
          simp only [List.length_dropLast, List.length_nil] at hlength
          omega
        obtain ⟨name, fieldLines, hlines⟩ := List.exists_cons_of_ne_nil hsome
        simp only [commitRequest, hi, hlines, Option.isSome_none, Bool.false_eq_true, if_false]
        cases fieldLines.mapM fieldFromString <;> simp
      · simp
    · simp
  · rw [hcheck]
    simp

theorem commitBytesLoop_not_fatal (fuel : Nat) (i : ProtocolInterpreter) (bytes : Bytes) :
    (commitBytesLoop fuel i bytes).2.2 ≠ some .fatal := by
  induction fuel generalizing i bytes with
  | zero => simp [commitBytesLoop]
  | succ fuel ih =>
    rw [commitBytesLoop]
    split
    · simp
    · rename_i hgo
      have hidle : i.request = none := by
        simpa [hasAvailableRequest] using (not_or.mp hgo).2
      have hline := commitLine_not_fatal hidle (cutLine bytes).1
      rcases hres : i.commitLine (cutLine bytes).1 with ⟨i', _ | e⟩
      · exact ih i' (cutLine bytes).2
      · rw [hres] at hline
        exact hline

theorem takeRequest_idle (i : ProtocolInterpreter) (bytes : Bytes) : (i.takeRequest bytes).1.request = none := by
  have hnot : (i.commitBytes bytes).2.2 ≠ some .fatal := commitBytesLoop_not_fatal bytes.length i bytes
  unfold takeRequest
  rcases hres : i.commitBytes bytes with ⟨i', rest, _ | e⟩
  · cases hr : i'.request <;> simp [hr, restart, fresh]
  · rw [hres] at hnot
    cases e with
    | fatal => exact absurd rfl hnot
    | protocol e => rfl

end ProtocolInterpreter

end TinDox
