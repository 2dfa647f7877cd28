import TinDox.Console

/-! The console client's `ResponseAnalyzer`, and what it makes of the server's responses. -/

namespace TinDox

inductive ConnectionError where
  | none
  | conToServ
  | closeCon
  | closedCon
  | exchangeMessage
  | readMessage
  | nothingRead
  | response
  | ok
  | lineTooLong
  | tooManyFields
  | badField
  | badCommand
  | unknown
  | notLoggedIn
  | invalidFieldValue
  | notFound
  | resumeUpload
  | notEnoughPerms
  | userAlreadyLogged
  | invalidCredentials
  | fileAlreadyExists
  | fileType
  | dlsWithoutDl
  | inUse
  | uploadPath
  | notDir
  | fileTooLarge
  deriving DecidableEq

namespace ConnectionError

def value : ConnectionError → Nat
  | none => 0
  | conToServ => 1
  | closeCon => 2
  | closedCon => 3
  | exchangeMessage => 4
  | readMessage => 5
  | nothingRead => 6
  | response => 7
  | ok => 100
  | lineTooLong => 300
  | tooManyFields => 301
  | badField => 302
  | badCommand => 303
  | unknown => 401
  | notLoggedIn => 402
  | invalidFieldValue => 403
  | notFound => 404
  | resumeUpload => 405
  | notEnoughPerms => 406
  | userAlreadyLogged => 407
  | invalidCredentials => 408
  | fileAlreadyExists => 409
  | fileType => 410
  | dlsWithoutDl => 411
  | inUse => 412
  | uploadPath => 413
  | notDir => 414
  | fileTooLarge => 415

/-- The enumerators a code is cast to after its range check. -/
def codes : List ConnectionError :=
  [ok, lineTooLong, tooManyFields, badField, badCommand, unknown, notLoggedIn, invalidFieldValue, notFound,
    resumeUpload, notEnoughPerms, userAlreadyLogged, invalidCredentials, fileAlreadyExists]

def ofCode (code : Nat) : ConnectionError := (codes.find? (·.value = code)).getD response

end ConnectionError

namespace ResponseAnalyzer

/-- The iterator stands for the bytes from its position on; past the last one it reads a zero. -/
def charAt (iter : Bytes) : Byte := iter.headD 0

def nextReadChar (iter : Bytes) : Except ConnectionError Bytes :=
  if iter = [] then .error .response
  else if iter.tail = [] then .error .response
  else .ok iter.tail

def readCode : Nat → Nat → Bytes → Except ConnectionError (Nat × Bytes)
  | 0, code, iter => .ok (code, iter)
  | left + 1, code, iter =>
    if ¬ isDigit (charAt iter) then .error .response
    else
      match nextReadChar iter with
      | .error _ => .error .response
      | .ok next => readCode left (10 * code + ((charAt iter).toNat - 48)) next

def getErrorCode (iter : Bytes) : Except ConnectionError (ConnectionError × Bytes) :=
  match readCode 3 0 iter with
  | .error e => .error e
  | .ok (code, iter) =>
    if code = 100 ∨ (code ≥ 300 ∧ code ≤ 303) ∨ (code ≥ 401 ∧ code ≤ 409) then .ok (.ofCode code, iter)
    else .error .response

def checkEnding : Bytes → Bytes → Except ConnectionError Bytes
  | [], iter => .ok iter
  | c :: ending, iter =>
    if charAt iter ≠ c then .error .badCommand
    else
      match nextReadChar iter with
      | .error _ => .error .response
      | .ok next => checkEnding ending next

def checkRestOfResponseHeader (iter commandName : Bytes) : Except ConnectionError Bytes :=
  checkEnding (ascii " " ++ commandName ++ [newline]) iter

def getResponseHeader (iter commandName : Bytes) : Except ConnectionError (ConnectionError × Bytes) :=
  match getErrorCode iter with
  | .error e => .error e
  | .ok (code, iter) =>
    match checkRestOfResponseHeader iter commandName with
    | .error _ => .error .response
    | .ok iter => .ok (code, iter)

/-- The inner loop of both readers: what it appends to the body, and the iterator behind it. -/
def readLine : Bytes → Bytes × Except ConnectionError Bytes
  | [] => ([0], .error .response)
  | c :: rest =>
    match nextReadChar (c :: rest) with
    | .error e => ([c], .error e)
    | .ok _ => if c = newline then ([c], .ok rest) else (c :: (readLine rest).1, (readLine rest).2)

/-- The body together with `NONE`, or nothing for an error, after which the body is cleared. -/
def getResponseLine (iter : Bytes) : Except ConnectionError Bytes :=
  if charAt iter = newline then .error .response
  else
    match readLine iter with
    | (_, .error e) => .error e
    | (body, .ok iter) => if charAt iter = newline then .ok (body ++ [newline]) else .error .response

/-- The outer loop, one line at a time; `fuel` bounds the number of lines. -/
def readLines : Nat → Bytes → Bytes × Except ConnectionError Bytes
  | 0, iter => ([], .ok iter)
  | fuel + 1, iter =>
    match readLine iter with
    | (body, .error e) => (body, .error e)
    | (body, .ok iter) =>
      if charAt iter = newline then (body, .ok iter)
      else (body ++ (readLines fuel iter).1, (readLines fuel iter).2)

def getMultipleLineResponse (iter : Bytes) : Bytes × Option ConnectionError :=
  if charAt iter = newline then ([newline], none)
  else
    match readLines iter.length iter with
    | (body, .error e) => (body, some e)
    | (body, .ok _) => (body ++ [newline], none)

end ResponseAnalyzer

/-- The returned code with the two strings that are passed by reference. -/
structure Analysis where
  code : ConnectionError
  receivedResponse : Bytes
  responseBody : Bytes
  deriving DecidableEq

namespace ResponseAnalyzer

def header (code : ConnectionError) (commandName : Bytes) : Bytes :=
  decimal code.value ++ ascii " " ++ commandName ++ [newline]

def analyseSimpleResponse (commandName receivedResponse responseBody : Bytes)
    (isSpecificAnswerExpected : Bool) : Analysis :=
  match getResponseHeader receivedResponse commandName with
  | .error e => ⟨e, [], responseBody⟩
  | .ok (code, iter) =>
    if code = .ok ∧ ¬ isSpecificAnswerExpected then
      if charAt iter = newline then ⟨code, header code commandName ++ [newline], []⟩
      else ⟨.response, [], responseBody⟩
    else
      match getResponseLine iter with
      | .ok line => ⟨code, header code commandName ++ line, line⟩
      | .error _ => ⟨.response, [], []⟩

def analyseMultilineResponse (commandName receivedResponse responseBody : Bytes) : Analysis :=
  match getResponseHeader receivedResponse commandName with
  | .error e => ⟨e, [], responseBody⟩
  | .ok (code, iter) =>
    match getMultipleLineResponse iter with
    | (body, none) => ⟨code, header code commandName ++ body, body⟩
    | (body, some _) => ⟨.response, [], body⟩

end ResponseAnalyzer

namespace TDPService.Call

open ResponseAnalyzer

/-- The analysis a command method makes of what it received. The reply to `exit` is not looked
at, and `downloadFileData` receives a file. -/
def analyse (received body : Bytes) : Call → Option Analysis
  | closeConnection => none
  | logout => some (analyseSimpleResponse (ascii "logout") received body false)
  | auth _ _ => some (analyseSimpleResponse (ascii "auth") received body false)
  | mkdir _ => some (analyseSimpleResponse (ascii "mkdir") received body false)
  | rm _ => some (analyseSimpleResponse (ascii "rm") received body true)
  | rename _ _ => some (analyseSimpleResponse (ascii "rename") received body false)
  | cp _ _ => some (analyseSimpleResponse (ascii "cp") received body false)
  | mv _ _ => some (analyseSimpleResponse (ascii "mv") received body false)
  | cd _ => some (analyseSimpleResponse (ascii "cd") received body true)
  | ls _ _ _ => some (analyseMultilineResponse (ascii "ls") received body)
  | tree _ => some (analyseMultilineResponse (ascii "tree") received body)
  | name => some (analyseSimpleResponse (ascii "name") received body true)
  | perms => some (analyseSimpleResponse (ascii "perms") received body true)
  | pwd => some (analyseSimpleResponse (ascii "pwd") received body true)
  | ul _ _ _ => some (analyseSimpleResponse (ascii "ul") received body true)
  | dl _ _ _ => some (analyseSimpleResponse (ascii "dl") received body true)
  | downloadFileData => none

/-- How many lines a successful answer has. -/
inductive Answer where
  | silent
  | line
  | lines
  deriving DecidableEq

def answer : Call → Option Answer
  | closeConnection => none
  | logout | auth _ _ | mkdir _ | rename _ _ | cp _ _ | mv _ _ => some .silent
  | rm _ | cd _ | name | perms | pwd | ul _ _ _ | dl _ _ _ => some .line
  | ls _ _ _ | tree _ => some .lines
  | downloadFileData => none

/-- The lines the server answers a call with. -/
structure Answers (call : Call) (code : ProtocolCode) (lines : List Bytes) : Prop where
  proper : ∀ l ∈ lines, l ≠ [] ∧ newline ∉ l
  silent : code = .ok → call.answer = some .silent → lines = []
  line : code = .ok → call.answer = some .line → lines.length = 1
  refusal : code ≠ .ok → lines.length = 1
  analysed : call.answer ≠ none

/-- The analysis returns the server's code and keeps the body of the response. -/
def Agrees (call : Call) (code : ProtocolCode) (lines : List Bytes) (response : Response) (body : Bytes) : Prop :=
  ∃ a, call.analyse response.data body = some a ∧ a.code.value = code.value ∧
    a.responseBody = lines.flatMap (· ++ [newline]) ++ [newline]

end TDPService.Call

namespace ResponseAnalyzer

variable {rest : Bytes}

theorem nextReadChar_cons (c : Byte) (hr : rest ≠ []) : nextReadChar (c :: rest) = .ok rest := by
  simp [nextReadChar, hr]

/-- The codes in the ranges the client checks. -/
def Known (code : ProtocolCode) : Prop :=
  code.value = 100 ∨ (300 ≤ code.value ∧ code.value ≤ 303) ∨ (401 ≤ code.value ∧ code.value ≤ 409)

instance (code : ProtocolCode) : Decidable (Known code) := inferInstanceAs (Decidable (_ ∨ _))

theorem readCode_succ {n code : Nat} {c : Byte} (hc : isDigit c = true) (hr : rest ≠ []) :
    readCode (n + 1) code (c :: rest) = readCode n (10 * code + (c.toNat - 48)) rest := by
  simp [readCode, charAt, hc, nextReadChar_cons c hr]

theorem readCode_value (code : ProtocolCode) (hr : rest ≠ []) :
    readCode 3 0 (decimal code.value ++ rest) = .ok (code.value, rest) := by
  have hdigits : ∃ a b c, decimal code.value = [a, b, c] ∧ isDigit a = true ∧ isDigit b = true ∧
      isDigit c = true ∧ 10 * (10 * (10 * 0 + (a.toNat - 48)) + (b.toNat - 48)) + (c.toNat - 48) = code.value := by
    cases code <;> exact ⟨_, _, _, rfl, by decide⟩
  obtain ⟨a, b, c, hd, ha, hb, hc, hsum⟩ := hdigits
  rw [hd]
  show readCode 3 0 (a :: b :: c :: rest) = _
  rw [readCode_succ ha (by simp), readCode_succ hb (by simp), readCode_succ hc hr, hsum]
  rfl

theorem value_ofCode {code : ProtocolCode} (h : Known code) : (ConnectionError.ofCode code.value).value = code.value := by
  revert h
  cases code <;> decide

theorem getErrorCode_value {code : ProtocolCode} (h : Known code) (hr : rest ≠ []) :
    getErrorCode (decimal code.value ++ rest) = .ok (.ofCode code.value, rest) := by
  have hrange : code.value = 100 ∨ (code.value ≥ 300 ∧ code.value ≤ 303) ∨ (code.value ≥ 401 ∧ code.value ≤ 409) := h
  simp only [getErrorCode, readCode_value code hr, hrange, if_true]

theorem checkEnding_append (ending : Bytes) (hr : rest ≠ []) : checkEnding ending (ending ++ rest) = .ok rest := by
  induction ending with
  | nil => rfl
  | cons c ending ih =>
    have hne : ending ++ rest ≠ [] := by simp [hr]
    rw [List.cons_append, checkEnding, nextReadChar_cons c hne]
    simp [charAt, ih]

theorem getResponseHeader_response {code : ProtocolCode} (h : Known code) (commandName : Bytes) (lines : List Bytes) :
    getResponseHeader (buildResponse code commandName lines).data commandName =
      .ok (.ofCode code.value, lines.flatMap (· ++ [newline]) ++ [newline]) := by
  have hdata : (buildResponse code commandName lines).data =
      decimal code.value ++ ((ascii " " ++ commandName ++ [newline]) ++
        (lines.flatMap (· ++ [newline]) ++ [newline])) := by
    simp [buildResponse]
  rw [hdata, getResponseHeader, getErrorCode_value h (by simp)]
  simp only [checkRestOfResponseHeader]
  rw [checkEnding_append _ (by simp)]

theorem readLine_line {l : Bytes} (hl : newline ∉ l) (hr : rest ≠ []) :
    readLine (l ++ newline :: rest) = (l ++ [newline], .ok rest) := by
  induction l with
  | nil => simp [readLine, nextReadChar_cons newline hr]
  | cons c l ih =>
    obtain ⟨hc, hl⟩ := List.ne_and_not_mem_of_not_mem_cons hl
    rw [List.cons_append, readLine, nextReadChar_cons c (by simp)]
    simp [Ne.symm hc, ih hl]

theorem charAt_line {l : Bytes} (h : l ≠ [] ∧ newline ∉ l) : charAt (l ++ newline :: rest) ≠ newline := by
  obtain ⟨c, m, rfl⟩ := List.exists_cons_of_ne_nil h.1
  obtain ⟨hc, -⟩ := List.ne_and_not_mem_of_not_mem_cons h.2
  exact fun hh => hc hh.symm

theorem charAt_lines {l : Bytes} (h : l ≠ [] ∧ newline ∉ l) (ls : List Bytes) :
    charAt ((l :: ls).flatMap (· ++ [newline]) ++ [newline]) ≠ newline := by
  have hiter : (l :: ls).flatMap (· ++ [newline]) ++ [newline] =
      l ++ newline :: (ls.flatMap (· ++ [newline]) ++ [newline]) := by simp
  rw [hiter]
  exact charAt_line h

theorem getResponseLine_line {l : Bytes} (h : l ≠ [] ∧ newline ∉ l) :
    getResponseLine (l ++ [newline] ++ [newline]) = .ok (l ++ [newline] ++ [newline]) := by
  have hiter : l ++ [newline] ++ [newline] = l ++ newline :: [newline] := by simp
  have hread : readLine (l ++ newline :: [newline]) = (l ++ [newline], .ok [newline]) :=
    readLine_line h.2 (by simp)
  rw [hiter, getResponseLine, if_neg (charAt_line h), hread]
  simp [charAt]

theorem readLines_lines {ls : List Bytes} (hls : ∀ l ∈ ls, l ≠ [] ∧ newline ∉ l) (hne : ls ≠ []) {fuel : Nat}
    (hf : ls.length ≤ fuel) :
    readLines fuel (ls.flatMap (· ++ [newline]) ++ [newline]) = (ls.flatMap (· ++ [newline]), .ok [newline]) := by
  induction ls generalizing fuel with
  | nil => exact absurd rfl hne
  | cons l ls ih =>
    obtain ⟨m, rfl⟩ : ∃ m, fuel = m + 1 := ⟨fuel - 1, by simp at hf; omega⟩
    have hiter : (l :: ls).flatMap (· ++ [newline]) ++ [newline] =
        l ++ newline :: (ls.flatMap (· ++ [newline]) ++ [newline]) := by simp
    rw [hiter, readLines, readLine_line (hls l (by simp)).2 (by simp)]
    by_cases hls' : ls = []
    · simp [hls', charAt]
    · have hfuel : ls.length ≤ m := by
        simp only [List.length_cons] at hf
        omega
      have hrest := ih (fun x hx => hls x (by simp [hx])) hls' hfuel
      obtain ⟨l', ls', rfl⟩ := List.exists_cons_of_ne_nil hls'
      simp only [charAt_lines (hls l' (by simp)) ls', if_false, hrest]
      simp

theorem length_le_lines (ls : List Bytes) : ls.length ≤ (ls.flatMap (· ++ [newline])).length := by
  induction ls with
  | nil => simp
  | cons l ls ih =>
    simp only [List.flatMap_cons, List.length_append, List.length_cons, List.length_nil]
    omega

theorem getMultipleLineResponse_lines {ls : List Bytes} (hls : ∀ l ∈ ls, l ≠ [] ∧ newline ∉ l) :
    getMultipleLineResponse (ls.flatMap (· ++ [newline]) ++ [newline]) =
      (ls.flatMap (· ++ [newline]) ++ [newline], none) := by
  cases ls with
  | nil => rfl
  | cons l ls =>
    have hlen : (l :: ls).length ≤ ((l :: ls).flatMap (· ++ [newline]) ++ [newline]).length := by
      have hh := length_le_lines (l :: ls)
      rw [List.length_append]
      omega
    rw [getMultipleLineResponse, if_neg (charAt_lines (hls l (by simp)) ls), readLines_lines hls (by simp) hlen]

theorem readCode_error {left code : Nat} {iter : Bytes} {e : ConnectionError} (h : readCode left code iter = .error e) : e = .response := by
  induction left generalizing code iter with
  | zero => cases h
  | succ left ih =>
    rw [readCode] at h
    split at h
    · exact (Except.error.inj h).symm
    · split at h
      · exact (Except.error.inj h).symm
      · exact ih h

theorem getResponseHeader_error {iter commandName : Bytes} {e : ConnectionError} (h : getResponseHeader iter commandName = .error e) : e = .response := by
  rw [getResponseHeader] at h
  split at h
  · rename_i e' he
    rw [getErrorCode] at he
    split at he
    · rename_i e'' hread
      rw [← Except.error.inj h, ← Except.error.inj he]
      exact readCode_error hread
    · split at he
      · cases he
      · rw [← Except.error.inj h, ← Except.error.inj he]
  · split at h
    · exact (Except.error.inj h).symm
    · cases h

section Responses

variable {code : ProtocolCode} (hk : Known code) (commandName body : Bytes)
include hk

theorem analyseSimpleResponse_silent (hok : code = .ok) :
    (analyseSimpleResponse commandName (buildResponse code commandName []).data body false).code.value = code.value ∧
    (analyseSimpleResponse commandName (buildResponse code commandName []).data body false).responseBody = [] := by
  subst hok
  rw [analyseSimpleResponse, getResponseHeader_response hk]
  exact ⟨rfl, rfl⟩

theorem analyseSimpleResponse_line {l : Bytes} (hl : l ≠ [] ∧ newline ∉ l) {expected : Bool}
    (he : code = .ok → expected = true) :
    (analyseSimpleResponse commandName (buildResponse code commandName [l]).data body expected).code.value =
      code.value ∧
    (analyseSimpleResponse commandName (buildResponse code commandName [l]).data body expected).responseBody =
      l ++ [newline] ++ [newline] := by
  have hbranch : ¬ (ConnectionError.ofCode code.value = .ok ∧ ¬ expected = true) := by
    rintro ⟨hc, hne⟩
    have hv := value_ofCode hk
    rw [hc] at hv
    have hok : code = .ok := by
      revert hv
      cases code <;> simp [ConnectionError.value, ProtocolCode.value]
    exact hne (he hok)
  have hline : [l].flatMap (· ++ [newline]) ++ [newline] = l ++ [newline] ++ [newline] := by simp
  rw [analyseSimpleResponse, getResponseHeader_response hk, hline]
  simp only [hbranch, if_false, getResponseLine_line hl]
  exact ⟨value_ofCode hk, trivial⟩

theorem analyseMultilineResponse_lines {lines : List Bytes} (hl : ∀ l ∈ lines, l ≠ [] ∧ newline ∉ l) :
    (analyseMultilineResponse commandName (buildResponse code commandName lines).data body).code.value = code.value ∧
    (analyseMultilineResponse commandName (buildResponse code commandName lines).data body).responseBody =
      lines.flatMap (· ++ [newline]) ++ [newline] := by
  rw [analyseMultilineResponse, getResponseHeader_response hk]
  simp only [getMultipleLineResponse_lines hl]
  exact ⟨value_ofCode hk, trivial⟩

end Responses

end ResponseAnalyzer

namespace TDPService.Call

open ResponseAnalyzer

/-- The body the client keeps: it drops the terminator of an answer that has no line. -/
def keptBody (call : Call) (code : ProtocolCode) (lines : List Bytes) : Bytes :=
  if code = .ok ∧ call.answer = some .silent then [] else lines.flatMap (· ++ [newline]) ++ [newline]

theorem analyse_eq (call : Call) (received body : Bytes) :
    call.analyse received body = call.answer.map fun
      | .silent => analyseSimpleResponse call.request.name received body false
      | .line => analyseSimpleResponse call.request.name received body true
      | .lines => analyseMultilineResponse call.request.name received body := by
  cases call <;> rfl

/-- The console client understands every response to a command that carries a code it knows. -/
theorem response_agrees (call : Call) {code : ProtocolCode} {lines : List Bytes} (h : call.Answers code lines)
    (hk : Known code) (body : Bytes) :
    ∃ a, call.analyse (buildResponse code call.request.name lines).data body = some a ∧
      a.code.value = code.value ∧ a.responseBody = call.keptBody code lines := by
  have hone {expected : Bool} (hl : lines.length = 1) (he : code = .ok → expected = true) :
      (analyseSimpleResponse call.request.name (buildResponse code call.request.name lines).data body
        expected).code.value = code.value ∧
      (analyseSimpleResponse call.request.name (buildResponse code call.request.name lines).data body
        expected).responseBody = lines.flatMap (· ++ [newline]) ++ [newline] := by
    obtain ⟨l, rfl⟩ := List.length_eq_one_iff.mp hl
    simpa using analyseSimpleResponse_line hk call.request.name body (h.proper l (by simp)) he
  have hkept : code ≠ .ok ∨ call.answer ≠ some .silent →
      call.keptBody code lines = lines.flatMap (· ++ [newline]) ++ [newline] := by
    intro hor
    rw [keptBody, if_neg]
    rintro ⟨hok, ha⟩
    rcases hor with hor | hor
    · exact hor hok
    · exact hor ha
  rw [analyse_eq]
  cases ha : call.answer with
  | none => exact absurd ha h.analysed
  | some answer =>
    refine ⟨_, rfl, ?_⟩
    by_cases hok : code = .ok
    · cases answer with
      | silent =>
        have hsilent := analyseSimpleResponse_silent hk call.request.name body hok
        have hbody : call.keptBody code lines = [] := by simp only [keptBody, hok, ha, and_self, if_true]
        rw [hbody, h.silent hok ha]
        exact hsilent
      | line =>
        rw [hkept (.inr (by simp [ha]))]
        exact hone (h.line hok ha) fun _ => rfl
      | lines =>
        rw [hkept (.inr (by simp [ha]))]
        exact analyseMultilineResponse_lines hk _ body h.proper
    · rw [hkept (.inl hok)]
      cases answer with
      | silent => exact hone (h.refusal hok) fun hh => absurd hh hok
      | line => exact hone (h.refusal hok) fun _ => rfl
      | lines => exact analyseMultilineResponse_lines hk _ body h.proper

theorem response_agrees_cd :
    (Call.cd (ascii "a")).Answers .ok [ascii "/a"] ∧ ∃ a,
      (Call.cd (ascii "a")).analyse (ascii "100 cd\n/a\n\n") [] = some a ∧ a.code.value = 100 ∧
        a.responseBody = ascii "/a\n\n" := by
  have hanswers : (Call.cd (ascii "a")).Answers .ok [ascii "/a"] := by
    refine ⟨?_, ?_, ?_, ?_, ?_⟩
    · exact List.forall_mem_singleton.mpr (by decide)
    · intro _ hsilent
      cases hsilent
    · exact fun _ _ => rfl
    · exact fun hne => absurd rfl hne
    · decide
  exact ⟨hanswers, response_agrees (.cd (ascii "a")) hanswers (by decide) []⟩

/-- A silent success loses its terminator; a code above the client's ranges and the responses
of the interpreter stage are not recognised. -/
theorem response_misread :
    ¬ (Call.mkdir (ascii "a")).Agrees .ok [] (buildResponse .ok (ascii "mkdir") []) [] ∧
    ¬ (Call.rm (ascii "a")).Agrees .inUse [ProtocolCode.inUse.message]
      (buildResponse .inUse (ascii "rm") [ProtocolCode.inUse.message]) [] ∧
    ¬ (Call.mkdir (ascii "a\nb")).Agrees .badField [ascii "expected ':' field separator"]
      (buildResponse .badField (ascii "<interpreter>") [ascii "expected ':' field separator"]) [] := by
  refine ⟨?_, ?_, ?_⟩
  · rintro ⟨a, ha, -, hbody⟩
    rw [← Option.some.inj ha] at hbody
    exact absurd hbody (by decide)
  · rintro ⟨a, ha, hcode, -⟩
    rw [← Option.some.inj ha] at hcode
    exact absurd hcode (by decide)
  · rintro ⟨a, ha, hcode, -⟩
    rw [← Option.some.inj ha] at hcode
    exact absurd hcode (by decide)

end TDPService.Call

end TinDox
