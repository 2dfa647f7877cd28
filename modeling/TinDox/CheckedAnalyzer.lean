import TinDox.Answers
import TinDox.Loops

/-! The console client's `ResponseAnalyzer` with every dereference of its iterator checked: nothing is
returned where the iterator is at the end. Its loops are given by their bodies. -/

namespace TinDox

namespace ResponseAnalyzer

namespace Checked

/-- The iterator stands for the bytes from its position on; at the end there is nothing to read. -/
def deref (iter : Bytes) : Option Byte := iter.head?

/-- An iterator that is not at the end, and how `nextReadChar` moves it. -/
theorem nextReadChar_ok {iter next : Bytes} (h : nextReadChar iter = .ok next) :
    next ≠ [] ∧ ∃ c, iter = c :: next := by
  cases iter with
  | nil => cases h
  | cons c rest =>
    by_cases hr : rest = []
    · simp [nextReadChar, hr] at h
    · rw [nextReadChar_cons c hr] at h
      cases h
      exact ⟨hr, c, rfl⟩

/-- The state is the code, its length and the iterator. -/
def codeBody : Nat × Nat × Bytes → (Nat × Nat × Bytes) ⊕ Option (Except ConnectionError (Nat × Bytes))
  | (code, codeLength, iter) =>
    if codeLength = 3 then .inr (some (.ok (code, iter)))
    else
      match deref iter with
      | none => .inr none
      | some c =>
        if ¬ isDigit c then .inr (some (.error .response))
        else
          match nextReadChar iter with
          | .error _ => .inr (some (.error .response))
          | .ok next => .inl (10 * code + (c.toNat - 48), codeLength + 1, next)

/-- The state is the response body and the iterator. -/
def lineBody : Bytes × Bytes → (Bytes × Bytes) ⊕ Option (Bytes × Except ConnectionError Bytes)
  | (responseBody, iter) =>
    match deref iter with
    | none => .inr none
    | some c =>
      match nextReadChar iter with
      | .error e => .inr (some (responseBody ++ [c], .error e))
      | .ok next =>
        if c = newline then .inr (some (responseBody ++ [c], .ok next)) else .inl (responseBody ++ [c], next)

theorem codeBody_decreases (s t : Nat × Nat × Bytes) (h : Loops.Next codeBody s t) :
    t.2.2.length < s.2.2.length := by
  obtain ⟨code, codeLength, iter⟩ := s
  simp only [Loops.Next, codeBody] at h
  split at h
  · cases h
  · split at h
    · cases h
    · split at h
      · cases h
      · split at h
        · cases h
        · rename_i next hnext
          obtain ⟨-, c, rfl⟩ := nextReadChar_ok hnext
          obtain rfl := Sum.inl.inj h
          exact Nat.lt_succ_self _

theorem lineBody_decreases (s t : Bytes × Bytes) (h : Loops.Next lineBody s t) : t.2.length < s.2.length := by
  obtain ⟨responseBody, iter⟩ := s
  simp only [Loops.Next, lineBody] at h
  split at h
  · cases h
  · split at h
    · cases h
    · rename_i next hnext
      split at h
      · cases h
      · obtain ⟨-, c, rfl⟩ := nextReadChar_ok hnext
        obtain rfl := Sum.inl.inj h
        exact Nat.lt_succ_self _

def getErrorCode (iter : Bytes) : Option (Except ConnectionError (ConnectionError × Bytes)) := do
  match ← Loops.run codeBody (fun s => s.2.2.length) codeBody_decreases (0, 0, iter) with
  | .error e => some (.error e)
  | .ok (code, iter) =>
    if code = 100 ∨ (code ≥ 300 ∧ code ≤ 303) ∨ (code ≥ 401 ∧ code ≤ 409) then some (.ok (.ofCode code, iter))
    else some (.error .response)

def checkEnding : Bytes → Bytes → Option (Except ConnectionError Bytes)
  | [], iter => some (.ok iter)
  | c :: ending, iter => do
    if (← deref iter) ≠ c then some (.error .badCommand)
    else
      match nextReadChar iter with
      | .error _ => some (.error .response)
      | .ok next => checkEnding ending next

def checkRestOfResponseHeader (iter commandName : Bytes) : Option (Except ConnectionError Bytes) :=
  checkEnding (ascii " " ++ commandName ++ [newline]) iter

def getResponseHeader (iter commandName : Bytes) : Option (Except ConnectionError (ConnectionError × Bytes)) := do
  match ← getErrorCode iter with
  | .error e => some (.error e)
  | .ok (code, iter) =>
    match ← checkRestOfResponseHeader iter commandName with
    | .error _ => some (.error .response)
    | .ok iter => some (.ok (code, iter))

def readLine (responseBody iter : Bytes) : Option (Bytes × Except ConnectionError Bytes) :=
  Loops.run lineBody (fun s => s.2.length) lineBody_decreases (responseBody, iter)

def getResponseLine (iter : Bytes) : Option (Except ConnectionError Bytes) := do
  if (← deref iter) = newline then some (.error .response)
  else
    match ← readLine [] iter with
    | (_, .error e) => some (.error e)
    | (responseBody, .ok iter) =>
      if (← deref iter) = newline then some (.ok (responseBody ++ [newline])) else some (.error .response)

theorem lineBody_cons {rest : Bytes} (hr : rest ≠ []) (responseBody : Bytes) (c : Byte) :
    lineBody (responseBody, c :: rest) =
      if c = newline then .inr (some (responseBody ++ [c], .ok rest)) else .inl (responseBody ++ [c], rest) := by
  simp only [lineBody, deref, List.head?_cons, nextReadChar_cons c hr]

theorem readLine_nil (responseBody : Bytes) : readLine responseBody [] = none := Loops.run_inr rfl

theorem readLine_eq {iter : Bytes} (h : iter ≠ []) (responseBody : Bytes) :
    readLine responseBody iter =
      some (responseBody ++ (ResponseAnalyzer.readLine iter).1, (ResponseAnalyzer.readLine iter).2) := by
  induction iter generalizing responseBody with
  | nil => exact absurd rfl h
  | cons c rest ih =>
    rw [ResponseAnalyzer.readLine]
    by_cases hr : rest = []
    · subst rest
      exact Loops.run_inr rfl
    · have hbody := lineBody_cons hr responseBody c
      rw [nextReadChar_cons c hr]
      by_cases hc : c = newline
      · rw [if_pos hc] at hbody
        rw [readLine, Loops.run_inr hbody]
        simp [hc]
      · rw [if_neg hc] at hbody
        have hrest := ih hr (responseBody ++ [c])
        rw [readLine] at hrest ⊢
        rw [Loops.run_inl hbody, hrest]
        simp [hc]

theorem readLine_moves {iter body next : Bytes} (h : ResponseAnalyzer.readLine iter = (body, .ok next)) :
    next ≠ [] ∧ next.length < iter.length := by
  induction iter generalizing body with
  | nil => cases h
  | cons c rest ih =>
    rw [ResponseAnalyzer.readLine] at h
    split at h
    · cases h
    · rename_i next' hnext
      split at h
      · cases h
        obtain ⟨hne, c', hcons⟩ := nextReadChar_ok hnext
        obtain ⟨rfl, rfl⟩ := List.cons.inj hcons
        exact ⟨hne, Nat.lt_succ_self _⟩
      · obtain ⟨-, hrest⟩ := Prod.mk.inj h
        obtain ⟨hne, hlt⟩ := ih (Prod.ext rfl hrest)
        exact ⟨hne, Nat.lt_succ_of_lt hlt⟩

def linesBody : Bytes × Bytes → (Bytes × Bytes) ⊕ Option (Bytes × Except ConnectionError Bytes)
  | (responseBody, iter) =>
    match readLine responseBody iter with
    | none => .inr none
    | some (responseBody, .error e) => .inr (some (responseBody, .error e))
    | some (responseBody, .ok iter) =>
      match deref iter with
      | none => .inr none
      | some c => if c = newline then .inr (some (responseBody, .ok iter)) else .inl (responseBody, iter)

theorem linesBody_nil (responseBody : Bytes) : linesBody (responseBody, []) = .inr none := by
  rw [linesBody, readLine_nil]

theorem linesBody_decreases (s t : Bytes × Bytes) (h : Loops.Next linesBody s t) : t.2.length < s.2.length := by
  obtain ⟨responseBody, iter⟩ := s
  by_cases hiter : iter = []
  · rw [Loops.Next, hiter, linesBody_nil] at h
    cases h
  simp only [Loops.Next, linesBody, readLine_eq hiter] at h
  split at h
  · cases h
  · cases h
  · rename_i body next hline
    obtain ⟨-, hnext⟩ := Prod.mk.inj (Option.some.inj hline)
    split at h
    · cases h
    · split at h
      · cases h
      · obtain rfl := Sum.inl.inj h
        exact (readLine_moves (Prod.ext rfl hnext)).2

def getMultipleLineResponse (iter : Bytes) : Option (Bytes × Option ConnectionError) := do
  if (← deref iter) = newline then some ([newline], none)
  else
    match ← Loops.run linesBody (fun s => s.2.length) linesBody_decreases ([], iter) with
    | (body, .error e) => some (body, some e)
    | (body, .ok _) => some (body ++ [newline], none)

def analyseSimpleResponse (commandName receivedResponse responseBody : Bytes) (isSpecificAnswerExpected : Bool) :
    Option Analysis := do
  match ← getResponseHeader receivedResponse commandName with
  | .error e => some ⟨e, [], responseBody⟩
  | .ok (code, iter) =>
    if code = .ok ∧ ¬ isSpecificAnswerExpected then
      if (← deref iter) = newline then some ⟨code, header code commandName ++ [newline], []⟩
      else some ⟨.response, [], responseBody⟩
    else
      match ← getResponseLine iter with
      | .ok line => some ⟨code, header code commandName ++ line, line⟩
      | .error _ => some ⟨.response, [], []⟩

def analyseMultilineResponse (commandName receivedResponse responseBody : Bytes) : Option Analysis := do
  match ← getResponseHeader receivedResponse commandName with
  | .error e => some ⟨e, [], responseBody⟩
  | .ok (code, iter) =>
    match ← getMultipleLineResponse iter with
    | (body, none) => some ⟨code, header code commandName ++ body, body⟩
    | (body, some _) => some ⟨.response, [], body⟩

variable {commandName iter next received : Bytes} {c : Byte}

/-! Behind every character that is read the iterator is not at the end, unless there is an error. -/

theorem deref_eq (h : iter ≠ []) : deref iter = some (charAt iter) := by
  obtain ⟨c, rest, rfl⟩ := List.exists_cons_of_ne_nil h
  rfl

theorem readCode_ok {left code code' : Nat} (h : iter ≠ []) (hread : readCode left code iter = .ok (code', next)) :
    next ≠ [] := by
  induction left generalizing code iter with
  | zero =>
    cases hread
    exact h
  | succ left ih =>
    rw [readCode] at hread
    split at hread
    · cases hread
    · split at hread
      · cases hread
      · rename_i next' hnext
        exact ih (nextReadChar_ok hnext).1 hread

theorem checkEnding_ok {ending : Bytes} (h : iter ≠ []) (hcheck : ResponseAnalyzer.checkEnding ending iter = .ok next) :
    next ≠ [] ∧ iter = ending ++ next := by
  induction ending generalizing iter with
  | nil =>
    cases hcheck
    exact ⟨h, rfl⟩
  | cons c ending ih =>
    rw [ResponseAnalyzer.checkEnding] at hcheck
    split at hcheck
    · cases hcheck
    · rename_i hc
      split at hcheck
      · cases hcheck
      · rename_i next' hnext
        obtain ⟨hne, c', rfl⟩ := nextReadChar_ok hnext
        obtain ⟨hnext', rfl⟩ := ih hne hcheck
        obtain rfl : c' = c := not_not.mp hc
        exact ⟨hnext', rfl⟩

theorem run_codeBody {left code codeLength : Nat} (hleft : codeLength + left = 3) (h : iter ≠ []) :
    Loops.run codeBody (fun s => s.2.2.length) codeBody_decreases (code, codeLength, iter) =
      some (readCode left code iter) := by
  induction left generalizing code codeLength iter with
  | zero => exact Loops.run_inr (by simp [codeBody, readCode, show codeLength = 3 by omega])
  | succ left ih =>
    have hlength : codeLength ≠ 3 := by omega
    rw [readCode]
    by_cases hd : isDigit (charAt iter) = true
    · rw [if_neg (not_not.mpr hd)]
      cases hnext : nextReadChar iter with
      | error e => exact Loops.run_inr (by simp [codeBody, hlength, deref_eq h, hd, hnext])
      | ok next =>
        have hbody : codeBody (code, codeLength, iter) =
            .inl (10 * code + ((charAt iter).toNat - 48), codeLength + 1, next) := by
          simp [codeBody, hlength, deref_eq h, hd, hnext]
        rw [Loops.run_inl hbody]
        exact ih (by omega) (nextReadChar_ok hnext).1
    · rw [if_pos hd]
      exact Loops.run_inr (by simp [codeBody, hlength, deref_eq h, hd])

theorem getErrorCode_eq (h : iter ≠ []) : getErrorCode iter = some (ResponseAnalyzer.getErrorCode iter) := by
  have hrun : Loops.run codeBody (fun s => s.2.2.length) codeBody_decreases (0, 0, iter) = some (readCode 3 0 iter) :=
    run_codeBody (Nat.zero_add 3) h
  rw [getErrorCode, hrun, ResponseAnalyzer.getErrorCode]
  rcases readCode 3 0 iter with e | ⟨code, next⟩
  · rfl
  · simp only [Option.bind_eq_bind, Option.bind_some]
    split <;> rfl

theorem checkEnding_eq (h : iter ≠ []) (ending : Bytes) :
    checkEnding ending iter = some (ResponseAnalyzer.checkEnding ending iter) := by
  induction ending generalizing iter with
  | nil => rfl
  | cons c ending ih =>
    rw [checkEnding, ResponseAnalyzer.checkEnding, deref_eq h]
    simp only [Option.bind_eq_bind, Option.bind_some]
    split
    · rfl
    · cases hnext : nextReadChar iter with
      | error e => rfl
      | ok next => exact ih (nextReadChar_ok hnext).1

theorem decimal_digit (hc : isDigit c = true) : decimal (c.toNat - 48) = [c] := by
  have hdigit : ∀ d < 10, decimal d = [UInt8.ofNat (48 + d)] := by decide
  have hrange : 48 ≤ c.toNat ∧ c.toNat ≤ 57 := by
    simpa [isDigit, UInt8.le_iff_toNat_le] using hc
  rw [hdigit _ (by omega), show 48 + (c.toNat - 48) = c.toNat by omega, UInt8.ofNat_toNat]

theorem decimal_append {n : Nat} (hn : 0 < n) (hc : isDigit c = true) :
    decimal (10 * n + (c.toNat - 48)) = decimal n ++ [c] := by
  have hrange : c.toNat - 48 < 10 := by
    have hle : c.toNat ≤ 57 := by
      have hboth : 48 ≤ c.toNat ∧ c.toNat ≤ 57 := by simpa [isDigit, UInt8.le_iff_toNat_le] using hc
      exact hboth.2
    omega
  rw [← decimal_digit hc, decimal, decimal, decimal, ← List.map_append,
    Nat.toDigits_append_toDigits (by decide) hn hrange]

/-- The digits that are read continue the decimal numeral of a code that is not zero. -/
theorem readCode_digits {left code code' : Nat} (hread : readCode left code iter = .ok (code', next)) :
    code' < (code + 1) * 10 ^ left ∧ (0 < code → ∃ ds, iter = ds ++ next ∧ decimal code' = decimal code ++ ds) := by
  induction left generalizing code iter with
  | zero =>
    cases hread
    exact ⟨by omega, fun _ => ⟨[], rfl, (List.append_nil _).symm⟩⟩
  | succ left ih =>
    rw [readCode] at hread
    split at hread
    · cases hread
    · rename_i hdigit
      split at hread
      · cases hread
      · rename_i rest hrest
        obtain ⟨-, c, rfl⟩ := nextReadChar_ok hrest
        have hc : isDigit c = true := not_not.mp hdigit
        obtain ⟨hlt, hdigits⟩ := ih hread
        have hvalue : c.toNat - 48 < 10 := by
          have hboth : 48 ≤ c.toNat ∧ c.toNat ≤ 57 := by simpa [isDigit, UInt8.le_iff_toNat_le] using hc
          omega
        refine ⟨hlt.trans_le ?_, fun hpos => ?_⟩
        · rw [Nat.pow_succ, Nat.mul_comm (10 ^ left), ← Nat.mul_assoc]
          exact Nat.mul_le_mul_right _ (by simp only [charAt, List.headD_cons]; omega)
        · obtain ⟨ds, rfl, hds⟩ := hdigits (by simp only [charAt, List.headD_cons]; omega)
          refine ⟨c :: ds, rfl, ?_⟩
          rw [hds]
          simp only [charAt, List.headD_cons]
          rw [decimal_append hpos hc, List.append_assoc]
          rfl

theorem readCode_three {code : Nat} (hcode : 100 ≤ code) (hread : readCode 3 0 iter = .ok (code, next)) :
    iter = decimal code ++ next := by
  rw [readCode] at hread
  split at hread
  · cases hread
  · rename_i hdigit
    split at hread
    · cases hread
    · rename_i rest hrest
      obtain ⟨-, c, rfl⟩ := nextReadChar_ok hrest
      have hc : isDigit c = true := not_not.mp hdigit
      simp only [charAt, List.headD_cons, Nat.mul_zero, Nat.zero_add] at hread
      obtain ⟨hlt, hdigits⟩ := readCode_digits hread
      -- with a leading zero the number would be too small for a code
      obtain ⟨ds, rfl, hds⟩ := hdigits (by omega)
      rw [hds, decimal_digit hc]
      rfl

/-- The code that is returned is the number of the three digits, and the whole header has been read. -/
theorem getResponseHeader_ok {code : ConnectionError} (h : iter ≠ [])
    (hheader : ResponseAnalyzer.getResponseHeader iter commandName = .ok (code, next)) :
    next ≠ [] ∧ iter = header code commandName ++ next := by
  rw [ResponseAnalyzer.getResponseHeader] at hheader
  split at hheader
  · cases hheader
  · rename_i code' iter' hcode
    rw [ResponseAnalyzer.getErrorCode] at hcode
    split at hcode
    · cases hcode
    · rename_i n iter'' hread
      split at hcode
      · rename_i hrange
        cases hcode
        split at hheader
        · cases hheader
        · rename_i next' hrest
          cases hheader
          obtain ⟨hnext, hending⟩ := checkEnding_ok (readCode_ok h hread) hrest
          refine ⟨hnext, ?_⟩
          have hvalue : (ConnectionError.ofCode n).value = n := by
            have hn : n ∈ ConnectionError.codes.map ConnectionError.value := by
              simp only [ConnectionError.codes, ConnectionError.value, List.map_cons, List.map_nil, List.mem_cons]
              omega
            have hall : ∀ n ∈ ConnectionError.codes.map ConnectionError.value, (ConnectionError.ofCode n).value = n := by
              decide
            exact hall n hn
          rw [readCode_three (by omega) hread, hending, header, hvalue]
          simp only [List.append_assoc]
      · cases hcode

theorem getResponseHeader_eq (h : iter ≠ []) :
    getResponseHeader iter commandName = some (ResponseAnalyzer.getResponseHeader iter commandName) := by
  rw [getResponseHeader, getErrorCode_eq h, ResponseAnalyzer.getResponseHeader]
  rcases hcode : ResponseAnalyzer.getErrorCode iter with e | ⟨code, iter'⟩
  · rfl
  · have hiter : iter' ≠ [] := by
      rw [ResponseAnalyzer.getErrorCode] at hcode
      split at hcode
      · cases hcode
      · rename_i n iter'' hread
        split at hcode
        · cases hcode
          exact readCode_ok h hread
        · cases hcode
    have hending := checkEnding_eq hiter (ascii " " ++ commandName ++ [newline])
    simp only [Option.bind_eq_bind, Option.bind_some, checkRestOfResponseHeader, hending,
      ResponseAnalyzer.checkRestOfResponseHeader]
    cases ResponseAnalyzer.checkEnding (ascii " " ++ commandName ++ [newline]) iter' <;> rfl

theorem getResponseLine_eq (h : iter ≠ []) : getResponseLine iter = some (ResponseAnalyzer.getResponseLine iter) := by
  rw [getResponseLine, ResponseAnalyzer.getResponseLine, deref_eq h, readLine_eq h, List.nil_append]
  simp only [Option.bind_eq_bind, Option.bind_some]
  split
  · rfl
  · rcases hline : ResponseAnalyzer.readLine iter with ⟨body, e | next⟩
    · rfl
    · dsimp only
      rw [deref_eq (readLine_moves hline).1, Option.bind_some]
      split <;> rfl

theorem run_linesBody {fuel : Nat} (h : iter ≠ []) (hf : iter.length ≤ fuel) (responseBody : Bytes) :
    Loops.run linesBody (fun s => s.2.length) linesBody_decreases (responseBody, iter) =
      some (responseBody ++ (readLines fuel iter).1, (readLines fuel iter).2) := by
  induction fuel generalizing iter responseBody with
  | zero => exact absurd (List.length_eq_zero_iff.mp (Nat.le_zero.mp hf)) h
  | succ fuel ih =>
    rw [readLines]
    rcases hline : ResponseAnalyzer.readLine iter with ⟨body, e | next⟩
    · exact Loops.run_inr (by simp [linesBody, readLine_eq h, hline])
    · obtain ⟨hnext, hlt⟩ := readLine_moves hline
      dsimp only
      by_cases hc : charAt next = newline
      · rw [if_pos hc]
        exact Loops.run_inr (by simp [linesBody, readLine_eq h, hline, deref_eq hnext, hc])
      · rw [if_neg hc]
        have hbody : linesBody (responseBody, iter) = .inl (responseBody ++ body, next) := by
          simp [linesBody, readLine_eq h, hline, deref_eq hnext, hc]
        rw [Loops.run_inl hbody, ih hnext (by omega), List.append_assoc]

theorem getMultipleLineResponse_eq (h : iter ≠ []) :
    getMultipleLineResponse iter = some (ResponseAnalyzer.getMultipleLineResponse iter) := by
  rw [getMultipleLineResponse, ResponseAnalyzer.getMultipleLineResponse, deref_eq h,
    run_linesBody h le_rfl, List.nil_append]
  simp only [Option.bind_eq_bind, Option.bind_some]
  split
  · rfl
  · rcases readLines iter.length iter with ⟨body, e | next⟩ <;> rfl

theorem analyseSimpleResponse_eq (h : received ≠ []) (body : Bytes) (expected : Bool) :
    analyseSimpleResponse commandName received body expected =
      some (ResponseAnalyzer.analyseSimpleResponse commandName received body expected) := by
  rw [analyseSimpleResponse, getResponseHeader_eq h, ResponseAnalyzer.analyseSimpleResponse]
  rcases hheader : ResponseAnalyzer.getResponseHeader received commandName with e | ⟨code, iter⟩
  · rfl
  · have hiter := (getResponseHeader_ok h hheader).1
    simp only [Option.bind_eq_bind, Option.bind_some, deref_eq hiter, getResponseLine_eq hiter]
    split
    · split <;> rfl
    · cases ResponseAnalyzer.getResponseLine iter <;> rfl

theorem analyseMultilineResponse_eq (h : received ≠ []) (body : Bytes) :
    analyseMultilineResponse commandName received body =
      some (ResponseAnalyzer.analyseMultilineResponse commandName received body) := by
  rw [analyseMultilineResponse, getResponseHeader_eq h, ResponseAnalyzer.analyseMultilineResponse]
  rcases hheader : ResponseAnalyzer.getResponseHeader received commandName with e | ⟨code, iter⟩
  · rfl
  · have hiter := (getResponseHeader_ok h hheader).1
    simp only [Option.bind_eq_bind, Option.bind_some, getMultipleLineResponse_eq hiter]
    rcases ResponseAnalyzer.getMultipleLineResponse iter with ⟨body', - | e⟩ <;> rfl

end Checked

/-- A returned code of the server is the one the response starts with. -/
def Backed (commandName received : Bytes) (a : Analysis) : Prop :=
  100 ≤ a.code.value → header a.code commandName <+: received

theorem backed_response (commandName received receivedResponse body : Bytes) :
    Backed commandName received ⟨.response, receivedResponse, body⟩ :=
  fun h => absurd (show 100 ≤ ConnectionError.response.value from h) (by decide)

variable {commandName received : Bytes}

theorem analyseSimpleResponse_backed (h : received ≠ []) (body : Bytes) (expected : Bool) :
    Backed commandName received (analyseSimpleResponse commandName received body expected) := by
  rw [analyseSimpleResponse]
  rcases hheader : getResponseHeader received commandName with e | ⟨code, iter⟩
  · rw [getResponseHeader_error hheader]
    exact backed_response _ _ _ _
  · have hprefix : header code commandName <+: received := ⟨iter, (Checked.getResponseHeader_ok h hheader).2.symm⟩
    dsimp only
    split
    · split
      · exact fun _ => hprefix
      · exact backed_response _ _ _ _
    · split
      · exact fun _ => hprefix
      · exact backed_response _ _ _ _

theorem analyseMultilineResponse_backed (h : received ≠ []) (body : Bytes) :
    Backed commandName received (analyseMultilineResponse commandName received body) := by
  rw [analyseMultilineResponse]
  rcases hheader : getResponseHeader received commandName with e | ⟨code, iter⟩
  · rw [getResponseHeader_error hheader]
    exact backed_response _ _ _ _
  · have hprefix : header code commandName <+: received := ⟨iter, (Checked.getResponseHeader_ok h hheader).2.symm⟩
    dsimp only
    rcases getMultipleLineResponse iter with ⟨body', - | e⟩
    · exact fun _ => hprefix
    · exact backed_response _ _ _ _

/-- The three loops end, no dereference is at the end, and a code of the server is really there. -/
theorem analysis_safe (h : [newline, newline] <:+ received) (commandName body : Bytes) :
    ((∀ s, Loops.Terminates Checked.codeBody s) ∧ (∀ s, Loops.Terminates Checked.lineBody s) ∧
      ∀ s, Loops.Terminates Checked.linesBody s) ∧
    (∀ expected, ∃ a, Checked.analyseSimpleResponse commandName received body expected = some a ∧
      Backed commandName received a) ∧
    ∃ a, Checked.analyseMultilineResponse commandName received body = some a ∧ Backed commandName received a := by
  have hne : received ≠ [] := by
    rintro rfl
    exact absurd h.length_le (by decide)
  refine ⟨⟨?_, ?_, ?_⟩, fun expected => ?_, ?_⟩
  · exact Loops.terminates_of_decreasing Checked.codeBody_decreases
  · exact Loops.terminates_of_decreasing Checked.lineBody_decreases
  · exact Loops.terminates_of_decreasing Checked.linesBody_decreases
  · exact ⟨_, Checked.analyseSimpleResponse_eq hne body expected, analyseSimpleResponse_backed hne body expected⟩
  · exact ⟨_, Checked.analyseMultilineResponse_eq hne body, analyseMultilineResponse_backed hne body⟩

theorem analysis_safe_early :
    ((∀ s, Loops.Terminates Checked.codeBody s) ∧ (∀ s, Loops.Terminates Checked.lineBody s) ∧
      ∀ s, Loops.Terminates Checked.linesBody s) ∧
    (∀ expected, ∃ a, Checked.analyseSimpleResponse (ascii "ls") (ascii "100 \n\n") [] expected = some a ∧
      Backed (ascii "ls") (ascii "100 \n\n") a) ∧
    ∃ a, Checked.analyseMultilineResponse (ascii "ls") (ascii "100 \n\n") [] = some a ∧
      Backed (ascii "ls") (ascii "100 \n\n") a :=
  analysis_safe (by decide) _ _

end ResponseAnalyzer

end TinDox
