import TinDox.Path

/-! The vocabulary of the TinDox protocol: result codes, errors, typed fields, requests and
encoded responses. -/

namespace TinDox

inductive ProtocolCode where
  | ok
  | tooLongLine
  | tooManyFields
  | badField
  | badCommand
  | unknown
  | notLoggedIn
  | invalidFieldValue
  | notFound
  | noUploadToResume
  | notEnoughPerms
  | userAlreadyLogged
  | invalidCredentials
  | fileAlreadyExists
  | invalidFileType
  | dlsWithoutDl
  | inUse
  | wrongUploadPath
  | notADirectory
  | tooLargeFile
  deriving DecidableEq

namespace ProtocolCode

def value : ProtocolCode → Nat
  | ok => 100
  | tooLongLine => 300
  | tooManyFields => 301
  | badField => 302
  | badCommand => 303
  | unknown => 401
  | notLoggedIn => 402
  | invalidFieldValue => 403
  | notFound => 404
  | noUploadToResume => 405
  | notEnoughPerms => 406
  | userAlreadyLogged => 407
  | invalidCredentials => 408
  | fileAlreadyExists => 409
  | invalidFileType => 410
  | dlsWithoutDl => 411
  | inUse => 412
  | wrongUploadPath => 413
  | notADirectory => 414
  | tooLargeFile => 415

/-- The texts of `TdpCategory::message`. -/
def message : ProtocolCode → Bytes
  | ok => ascii "no error"
  | tooLongLine => ascii "received line is too long"
  | tooManyFields => ascii "received too many fields"
  | badField => ascii "invalid field"
  | badCommand => ascii "invalid command"
  | notEnoughPerms => ascii "not enough permissions"
  | unknown => ascii "unknown"
  | notLoggedIn => ascii "not logged in"
  | invalidFieldValue => ascii "invalid field value in request"
  | notFound => ascii "file not found"
  | noUploadToResume => ascii "no upload to resume"
  | userAlreadyLogged => ascii "user is already logged in"
  | invalidCredentials => ascii "invalid credentials (login or password)"
  | fileAlreadyExists => ascii "file or directory already exists"
  | invalidFileType => ascii "invalid file type"
  | dlsWithoutDl => ascii "download start requested without dl command"
  | inUse => ascii "file or directory is used by another user"
  | wrongUploadPath => ascii "wrong upload path"
  | notADirectory => ascii "not a directory"
  | tooLargeFile => ascii "too large file"

end ProtocolCode

structure ProtocolError where
  code : ProtocolCode
  what : Bytes
  deriving DecidableEq

/-- The constructors of `ProtocolError` hand the message on as a C string. -/
def protocolError (code : ProtocolCode) (message : Bytes) : ProtocolError :=
  ⟨code, message.takeWhile (· ≠ 0)⟩

/-- What a handler can throw. Everything that is not a `ProtocolError` ends the connection; its
text only goes to the log. -/
inductive Exception where
  | protocol (e : ProtocolError)
  | fatal
  deriving DecidableEq

def refuse (code : ProtocolCode) : Exception := .protocol (protocolError code code.message)

def refuseWith (code : ProtocolCode) (message : Bytes) : Exception :=
  .protocol (protocolError code message)

/-- `std::to_string` of an unsigned integer. -/
def decimal (n : Nat) : Bytes := (Nat.toDigits 10 n).map Char.toUInt8

/-- How a path is streamed: in double quotes, with a backslash before quotes and backslashes. -/
def quoted (b : Bytes) : Bytes :=
  34 :: b.flatMap (fun c => if c = 34 ∨ c = 92 then [92, c] else [c]) ++ [34]

inductive FieldValue where
  | none
  | boolean (b : Bool)
  | integer (n : Nat)
  | string (s : Bytes)
  deriving DecidableEq

structure Field where
  name : Bytes
  value : FieldValue
  deriving DecidableEq

namespace Field

def getBoolean (f : Field) : Option Bool :=
  match f.value with
  | .boolean b => some b
  | _ => .none

def getInteger (f : Field) : Option Nat :=
  match f.value with
  | .integer n => some n
  | _ => .none

def getString (f : Field) : Option Bytes :=
  match f.value with
  | .string s => some s
  | _ => .none

end Field

def isBlank (c : Byte) : Bool := c = 32 ∨ c = 9

/-- `std::isspace` in the classic locale. -/
def isSpace (c : Byte) : Bool := c = 32 ∨ (9 ≤ c ∧ c ≤ 13)

def isLower (c : Byte) : Bool := 97 ≤ c ∧ c ≤ 122

def isDigit (c : Byte) : Bool := 48 ≤ c ∧ c ≤ 57

def colon : Byte := 58

def apostrophe : Byte := 39

/-- `std::from_chars` on a text of digits, before its range check. -/
def digitsValue (b : Bytes) : Nat := b.foldl (fun n c => n * 10 + (c.toNat - 48)) 0

theorem digitsValue_decimal (n : Nat) : digitsValue (decimal n) = n := by
  have hfold : ∀ (l : List Char) (m : Nat), (∀ c ∈ l, c.isDigit = true) →
      (l.map Char.toUInt8).foldl (fun n c => n * 10 + (c.toNat - 48)) m = Nat.ofDigitChars 10 l m := by
    intro l
    induction l with
    | nil => simp
    | cons c l ih =>
      intro m h
      have hc : c.toUInt8.toNat = c.toNat := by
        have hd := h c (by simp)
        simp only [Char.isDigit, Bool.and_eq_true, decide_eq_true_eq, ge_iff_le, UInt32.le_iff_toNat_le] at hd
        simp only [Char.toUInt8, UInt32.toNat_toUInt8, Char.toNat] at hd ⊢
        have h9 : '9'.val.toNat = 57 := rfl
        omega
      simp only [List.map_cons, List.foldl_cons, Nat.ofDigitChars_cons, hc]
      rw [ih _ (fun c' hc' => h c' (by simp [hc']))]
      simp [Nat.mul_comm]
  rw [digitsValue, decimal, hfold _ _ (fun c hc => Nat.isDigit_of_mem_toDigits (by omega) (by omega) hc)]
  exact Nat.ofDigitChars_ten_toDigits

/-- The scans of the source by position become cuts of the remaining text. The test for a
position `npos` after the name is always false there and has no counterpart. -/
def fieldFromString (str : Bytes) : Except ProtocolError Field :=
  let atName := str.dropWhile isBlank
  if atName = [] then .error (protocolError .badField (ascii "field name not found"))
  else
    let fieldName := atName.takeWhile isLower
    match (atName.dropWhile isLower).dropWhile isBlank with
    | [] => .error (protocolError .badField (ascii "expected ':' field separator"))
    | c :: afterSeparator =>
      if c ≠ colon then .error (protocolError .badField (ascii "expected ':' field separator"))
      else
        let atValue := afterSeparator.dropWhile isBlank
        if atValue = [] then .error (protocolError .badField (ascii "unexpected end of field value"))
        else
          let fieldValue := atValue.rdropWhile isBlank
          if fieldValue = [] then
            .error (protocolError .badField (ascii "field value cannot be empty"))
          else if fieldValue = ascii "true" then .ok ⟨fieldName, .boolean true⟩
          else if fieldValue = ascii "false" then .ok ⟨fieldName, .boolean false⟩
          else if fieldValue.all isDigit then
            if digitsValue fieldValue < 2 ^ 64 then .ok ⟨fieldName, .integer (digitsValue fieldValue)⟩
            else
              .error (protocolError .badField
                (ascii "invalid integer value in field '" ++ fieldValue ++ ascii "'"))
          else if fieldValue.head? = some apostrophe ∧ fieldValue.getLast? = some apostrophe then
            .ok ⟨fieldName, .string (fieldValue.dropLast.drop 1)⟩
          else .ok ⟨fieldName, .string fieldValue⟩

example : fieldFromString (ascii "\tstr:  'test'   ") = .ok ⟨ascii "str", .string (ascii "test")⟩ := by
  decide

theorem fieldFromString_code {str : Bytes} {e : ProtocolError} (h : fieldFromString str = .error e) :
    e.code = .badField := by
  unfold fieldFromString at h
  grind [protocolError]

structure Request where
  name : Bytes
  fields : List Field
  deriving DecidableEq

structure Response where
  data : Bytes
  offset : Nat
  deriving DecidableEq

namespace Response

def getRemainingByteCount (r : Response) : Nat := r.data.length - r.offset

def addReadByteCount (r : Response) (n : Nat) : Response :=
  { r with offset := r.offset + min n r.getRemainingByteCount }

def isFullySent (r : Response) : Bool := r.getRemainingByteCount = 0

end Response

def newline : Byte := 10

/-- `ResponseBuilder::get_response` after one `add_line` per line. -/
def buildResponse (code : ProtocolCode) (commandName : Bytes) (lines : List Bytes) : Response :=
  ⟨decimal code.value ++ ascii " " ++ commandName ++ [newline] ++
    lines.flatMap (· ++ [newline]) ++ [newline], 0⟩

end TinDox
