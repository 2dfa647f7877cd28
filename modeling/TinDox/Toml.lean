import Mathlib.Algebra.Group.Nat.Defs
import Mathlib.Data.List.Basic

/-! TOML 1.0 with one key and its value on each line, the value a basic string or a decimal integer. A
document is UTF-8, and what a string holds is read byte by byte. -/

namespace Utf8

/-- What the next byte inside a character may be. -/
structure Range where
  low : UInt8
  high : UInt8
  notAscii : 0x80 ≤ low
  deriving DecidableEq

def Range.tail : Range := ⟨0x80, 0xBF, by decide⟩

/-- Between two characters, or inside of one that has `more` bytes behind the next. -/
inductive State
  | start
  | inside (more : Nat) (next : Range)
  deriving DecidableEq

/-- The first bytes of the well-formed characters, with what may stand behind them. -/
def first (b : UInt8) : Option State :=
  if b < 0x80 then some .start
  else if 0xC2 ≤ b ∧ b ≤ 0xDF then some (.inside 0 .tail)
  else if b = 0xE0 then some (.inside 1 ⟨0xA0, 0xBF, by decide⟩)
  else if b = 0xED then some (.inside 1 ⟨0x80, 0x9F, by decide⟩)
  else if 0xE1 ≤ b ∧ b ≤ 0xEF then some (.inside 1 .tail)
  else if b = 0xF0 then some (.inside 2 ⟨0x90, 0xBF, by decide⟩)
  else if b = 0xF4 then some (.inside 2 ⟨0x80, 0x8F, by decide⟩)
  else if 0xF1 ≤ b ∧ b ≤ 0xF3 then some (.inside 2 .tail)
  else none

def step : State → UInt8 → Option State
  | .start, b => first b
  | .inside more next, b =>
    if next.low ≤ b ∧ b ≤ next.high then
      match more with
      | 0 => some .start
      | more + 1 => some (.inside more .tail)
    else none

def run : State → List UInt8 → Option State
  | q, [] => some q
  | q, b :: l => (step q b).bind fun q => run q l

/-- The bytes are characters, one behind the other. -/
def Valid (l : List UInt8) : Prop := run .start l = some .start

variable {b : UInt8} {q : State}

theorem first_ascii (h : b < 0x80) : first b = some .start := if_pos h

/-- Inside of a character there is no byte of ASCII. -/
theorem step_inside_ascii {more : Nat} {next : Range} (h : b < 0x80) : step (.inside more next) b = none := by
  have hlow : ¬ (next.low ≤ b ∧ b ≤ next.high) := fun hb => absurd (UInt8.le_trans next.notAscii hb.1) (UInt8.not_le.mpr h)
  simp [step, hlow]

end Utf8

namespace Toml

/-- No control character but the tab. -/
def isText (b : UInt8) : Bool := b = 9 ∨ 0x20 ≤ b ∧ b ≠ 0x7F

/-- What makes text of characters without control characters but the tab, inside of the first of which the
reader may be. -/
def IsTextFrom (q : Utf8.State) (l : List UInt8) : Prop := Utf8.run q l = some .start ∧ l.all isText = true

instance (q : Utf8.State) (l : List UInt8) : Decidable (IsTextFrom q l) := inferInstanceAs (Decidable (_ ∧ _))

/-- UTF-8 without control characters but the tab. -/
def IsText (l : List UInt8) : Prop := Utf8.Valid l ∧ l.all isText = true

instance (l : List UInt8) : Decidable (IsText l) := inferInstanceAs (Decidable (IsTextFrom .start l))

def hexDigit (b : UInt8) : Option Nat :=
  if 48 ≤ b ∧ b ≤ 57 then some (b.toNat - 48)
  else if 65 ≤ b ∧ b ≤ 70 then some (b.toNat - 55)
  else if 97 ≤ b ∧ b ≤ 102 then some (b.toNat - 87)
  else none

/-- The short escapes. -/
def escaped (b : UInt8) : Option UInt8 :=
  if b = 34 ∨ b = 92 then some b
  else if b = 98 then some 8
  else if b = 116 then some 9
  else if b = 110 then some 10
  else if b = 102 then some 12
  else if b = 114 then some 13
  else none

/-- Where a reader is in a string: in the text, behind a backslash, or before the digits of a code. -/
inductive Reading
  | text (q : Utf8.State)
  | escape
  | code (more n : Nat)
  deriving DecidableEq

/-- The next byte of a string, with what it adds to the value. -/
def step : Reading → UInt8 → Option (Reading × List UInt8)
  | .text q, b =>
    if q = .start ∧ b = 92 then some (.escape, [])
    else if q = .start ∧ (b = 34 ∨ ¬ isText b) then none
    else (Utf8.step q b).map fun q => (.text q, [b])
  | .escape, b =>
    if b = 117 then some (.code 3 0, [])
    else if b = 85 then some (.code 7 0, [])
    else (escaped b).map fun c => (.text .start, [c])
  | .code more n, b =>
    (hexDigit b).bind fun d =>
      match more with
      | 0 => if (16 * n + d).isValidChar then some (.text .start, String.utf8EncodeChar (.ofNat (16 * n + d))) else none
      | more + 1 => some (.code more (16 * n + d), [])

/-- The value of a basic string, by what stands between its quotation marks. -/
def string : Reading → List UInt8 → Option (List UInt8)
  | r, [] => if r = .text .start then some [] else none
  | r, b :: l => (step r b).bind fun (r, out) => (string r l).map (out ++ ·)

/-- The value of decimal digits, which has to fit into 64 bits with a sign. -/
def integer (ds : List UInt8) : Option Int :=
  let n : Nat := ds.foldl (fun n c => n * 10 + (c.toNat - 48)) 0
  if ds.head? = some 48 ∧ ds.length ≠ 1 then none else if n < 2 ^ 63 then some (n : Int) else none

inductive Value
  | string (b : List UInt8)
  | integer (n : Int)
  deriving DecidableEq

def Value.asString : Value → Option (List UInt8)
  | .string b => some b
  | .integer _ => none

def Value.asInteger : Value → Option Int
  | .string _ => none
  | .integer n => some n

/-- How a value is written. -/
inductive Token
  | basic (body : List UInt8)
  | digits (ds : List UInt8)
  deriving DecidableEq

def Token.text : Token → List UInt8
  | .basic body => 34 :: body ++ [34]
  | .digits ds => ds

def Token.value : Token → Option Value
  | .basic body => (Toml.string (.text .start) body).map .string
  | .digits ds => (Toml.integer ds).map .integer

def isDigit (b : UInt8) : Bool := 48 ≤ b ∧ b ≤ 57

/-- The bytes of a bare key. -/
def isBare (b : UInt8) : Bool := isDigit b ∨ (65 ≤ b ∧ b ≤ 90) ∨ (97 ≤ b ∧ b ≤ 122) ∨ b = 95 ∨ b = 45

/-- No quotation mark stands outside of an escape, and no escape is cut. -/
inductive Closed : List UInt8 → Prop
  | nil : Closed []
  | plain {b : UInt8} {l : List UInt8} (quote : b ≠ 34) (backslash : b ≠ 92) (rest : Closed l) : Closed (b :: l)
  | escape {b : UInt8} {l : List UInt8} (rest : Closed l) : Closed (92 :: b :: l)

def Token.WellFormed : Token → Prop
  | .basic body => Closed body
  | .digits ds => ds ≠ [] ∧ ∀ b ∈ ds, isDigit b

abbrev Entry := List UInt8 × Token

def separator : List UInt8 := [32, 61, 32]

def line (e : Entry) : List UInt8 := e.1 ++ separator ++ e.2.text ++ [10]

def text (d : List Entry) : List UInt8 := d.flatMap line

/-- What a document says, unless a value of it is none. -/
def value (d : List Entry) : Option (List (List UInt8 × Value)) := d.mapM fun e => e.2.value.map (e.1, ·)

structure WellFormed (d : List Entry) : Prop where
  keys : ∀ e ∈ d, e.1 ≠ [] ∧ ∀ b ∈ e.1, isBare b
  tokens : ∀ e ∈ d, e.2.WellFormed
  distinct : (d.map (·.1)).Nodup

def lookup (key : List UInt8) (values : List (List UInt8 × Value)) : Option Value := List.lookup key values

/-- A parser that makes a table of type `τ` out of documents agrees with what they say. -/
def Conforms {τ : Type*} (parse : List UInt8 → Option τ) (table : List (List UInt8 × Value) → τ) : Prop :=
  ∀ d, WellFormed d → parse (text d) = (value d).map table

/-! A reader of such documents. -/

/-- What stands before the closing quotation mark, and what follows it; behind a backslash any byte is
passed over. -/
def scan : Bool → List UInt8 → Option (List UInt8 × List UInt8)
  | _, [] => none
  | true, b :: l => (scan false l).map fun (body, rest) => (b :: body, rest)
  | false, b :: l => if b = 34 then some ([], l) else (scan (b = 92) l).map fun (body, rest) => (b :: body, rest)

def readToken (l : List UInt8) : Option (Token × List UInt8) :=
  if l.head? = some 34 then (scan false l.tail).map fun (body, rest) => (.basic body, rest)
  else some (.digits (l.takeWhile isDigit), l.dropWhile isDigit)

def readLine (l : List UInt8) : Option (Entry × List UInt8) := do
  let rest ← (l.dropWhile isBare).dropPrefix? separator
  let (token, rest) ← readToken rest
  let rest ← rest.dropPrefix? [10]
  some ((l.takeWhile isBare, token), rest)

def readLines : Nat → List UInt8 → Option (List Entry)
  | 0, _ => none
  | fuel + 1, l =>
    if l = [] then some []
    else (readLine l).bind fun (e, rest) => (readLines fuel rest).map (e :: ·)

def read (l : List UInt8) : Option (List (List UInt8 × Value)) := (readLines (l.length + 1) l).bind value

variable {body rest l : List UInt8} {e : Entry} {d : List Entry}

theorem scan_closed (h : Closed body) (rest : List UInt8) : scan false (body ++ 34 :: rest) = some (body, rest) := by
  induction h with
  | nil => rfl
  | plain quote backslash _ ih => simp [scan, quote, backslash, ih]
  | escape _ ih => simp [scan, ih]

theorem dropPrefix_append (p rest : List UInt8) : (p ++ rest).dropPrefix? p = some rest :=
  List.dropPrefix?_append_of_beq rest (by simp)

theorem takeWhile_stop {p : UInt8 → Bool} {ds : List UInt8} {b : UInt8} (h : ∀ c ∈ ds, p c) (hb : p b = false)
    (rest : List UInt8) : (ds ++ b :: rest).takeWhile p = ds ∧ (ds ++ b :: rest).dropWhile p = b :: rest := by
  rw [List.takeWhile_append_of_pos h, List.dropWhile_append_of_pos h]
  simp [hb]

theorem readToken_text {t : Token} (h : t.WellFormed) (rest : List UInt8) :
    readToken (t.text ++ 10 :: rest) = some (t, 10 :: rest) := by
  cases t with
  | basic body =>
    have hscan := scan_closed h (10 :: rest)
    simp [readToken, Token.text, hscan]
  | digits ds =>
    obtain ⟨hne, hds⟩ := h
    obtain ⟨c, ds, rfl⟩ := List.exists_cons_of_ne_nil hne
    have hc : c ≠ 34 := by
      rintro rfl
      exact absurd (hds 34 (by simp)) (by decide)
    obtain ⟨htake, hdrop⟩ := takeWhile_stop hds (show isDigit 10 = false by decide) rest
    rw [readToken, if_neg (by simpa [Token.text] using hc)]
    simp only [Token.text, htake, hdrop]

theorem readLine_line (hkey : ∀ b ∈ e.1, isBare b) (ht : e.2.WellFormed) (rest : List UInt8) :
    readLine (line e ++ rest) = some (e, rest) := by
  have hline : line e ++ rest = e.1 ++ 32 :: (61 :: 32 :: (e.2.text ++ 10 :: rest)) := by
    simp [line, separator]
  obtain ⟨htake, hdrop⟩ := takeWhile_stop hkey (show isBare 32 = false by decide) (61 :: 32 :: (e.2.text ++ 10 :: rest))
  have hseparator : (32 :: 61 :: 32 :: (e.2.text ++ 10 :: rest)).dropPrefix? separator = some (e.2.text ++ 10 :: rest) :=
    dropPrefix_append separator _
  have hend : (10 :: rest).dropPrefix? [10] = some rest := dropPrefix_append [10] rest
  rw [readLine, hline, htake, hdrop, hseparator]
  simp [readToken_text ht, hend]

theorem readLines_text (h : ∀ e ∈ d, (∀ b ∈ e.1, isBare b) ∧ e.2.WellFormed) {fuel : Nat} (hf : (text d).length < fuel) :
    readLines fuel (text d) = some d := by
  induction d generalizing fuel with
  | nil =>
    obtain ⟨fuel, rfl⟩ : ∃ n, fuel = n + 1 := ⟨fuel - 1, by omega⟩
    rfl
  | cons e d ih =>
    obtain ⟨fuel, rfl⟩ : ∃ n, fuel = n + 1 := ⟨fuel - 1, by omega⟩
    have htext : text (e :: d) = line e ++ text d := rfl
    have hpos : 0 < (line e).length := by
      rw [line, List.length_append, List.length_singleton]
      omega
    have hlen : (text d).length < fuel := by
      rw [htext, List.length_append] at hf
      omega
    have hne : line e ++ text d ≠ [] := by
      intro hnil
      simp [List.append_eq_nil_iff.mp hnil] at hpos
    rw [htext, readLines, if_neg hne, readLine_line (h e (by simp)).1 (h e (by simp)).2, Option.bind_some]
    simp [ih (fun e he => h e (by simp [he])) hlen]

/-- The reader gives the value of every document. -/
theorem read_text (h : WellFormed d) : read (text d) = value d := by
  rw [read, readLines_text (fun e he => ⟨(h.keys e he).2, h.tokens e he⟩) (Nat.lt_succ_self _), Option.bind_some]

theorem conforms_read {τ : Type*} (table : List (List UInt8 × Value) → τ) :
    Conforms (fun l => (read l).map table) table := by
  intro d hd
  show (read (text d)).map table = _
  rw [read_text hd]

/-! Text between quotation marks, where a backslash is put before quotation marks and backslashes. -/

def escape (l : List UInt8) : List UInt8 := l.flatMap fun b => if b = 34 ∨ b = 92 then [92, b] else [b]

theorem closed_escape (l : List UInt8) : Closed (escape l) := by
  induction l with
  | nil => exact .nil
  | cons b l ih =>
    rw [escape, List.flatMap_cons]
    split
    · exact .escape ih
    · rename_i hb
      exact .plain (fun he => hb (.inl he)) (fun he => hb (.inr he)) ih

/-- The bytes inside of a character are text. -/
theorem isText_of_inside {more : Nat} {next : Utf8.Range} {b : UInt8} {q : Utf8.State}
    (h : Utf8.step (.inside more next) b = some q) : isText b = true := by
  have hb : 0x80 ≤ b := by
    by_contra hlt
    rw [Utf8.step_inside_ascii (UInt8.not_le.mp hlt)] at h
    cases h
  have hlow : 0x20 ≤ b := UInt8.le_trans (by decide) hb
  have hne : b ≠ 0x7F := by
    rintro rfl
    exact absurd hb (by decide)
  simp [isText, hlow, hne]

section Escaped

variable {b : UInt8} {q q' : Utf8.State}

/-- Text goes on behind a byte of text. -/
theorem isTextFrom_cons (hq : Utf8.step q b = some q') (ht : isText b = true) :
    IsTextFrom q (b :: l) ↔ IsTextFrom q' l := by
  simp [IsTextFrom, Utf8.run, hq, ht]

/-- A byte that is read as it is. -/
theorem string_kept (hq : Utf8.step q b = some q') (ht : isText b = true) (hstep : step (.text q) b = some (.text q', [b]))
    (ih : string (.text q') (escape l) = if IsTextFrom q' l then some l else none) :
    string (.text q) (b :: escape l) = if IsTextFrom q (b :: l) then some (b :: l) else none := by
  rw [string, hstep, Option.bind_some]
  simp only [ih, isTextFrom_cons hq ht]
  split
  · rfl
  · rfl

theorem string_reading_escape (q : Utf8.State) (l : List UInt8) :
    string (.text q) (escape l) = if IsTextFrom q l then some l else none := by
  induction l generalizing q with
  | nil => simp [escape, string, IsTextFrom, Utf8.run]
  | cons b l ih =>
    have hcons : escape (b :: l) = (if b = 34 ∨ b = 92 then [92, b] else [b]) ++ escape l := by simp [escape]
    rw [hcons]
    by_cases hb : b = 34 ∨ b = 92
    · have hascii : b < 0x80 := by rcases hb with rfl | rfl <;> decide
      have htext : isText b = true := by rcases hb with rfl | rfl <;> decide
      rw [if_pos hb]
      cases q with
      | start =>
        -- the backslash gives nothing, and the byte behind it stands for itself
        have hcode : step .escape b = some (.text .start, [b]) := by rcases hb with rfl | rfl <;> rfl
        have hfirst : Utf8.step .start b = some .start := Utf8.first_ascii hascii
        have hback : step (.text .start) 92 = some (.escape, []) := rfl
        show string (.text .start) (92 :: b :: escape l) = _
        simp only [string, hback, hcode, Option.bind_some, ih, isTextFrom_cons hfirst htext]
        split
        · rfl
        · rfl
      | inside more next =>
        have hback : Utf8.step (.inside more next) 92 = none := Utf8.step_inside_ascii (by decide)
        have hnone : Utf8.step (.inside more next) b = none := Utf8.step_inside_ascii hascii
        simp [string, step, IsTextFrom, Utf8.run, hback, hnone]
    · rw [if_neg hb]
      have hquote : b ≠ 34 := fun he => hb (.inl he)
      have hbackslash : b ≠ 92 := fun he => hb (.inr he)
      show string (.text q) (b :: escape l) = _
      cases hq : Utf8.step q b with
      | none => simp [string, step, IsTextFrom, Utf8.run, hq, hbackslash]
      | some q' =>
        by_cases ht : isText b = true
        · exact string_kept hq ht (by simp [step, hquote, hbackslash, ht, hq]) (ih q')
        · -- a control character: it stands between two characters
          cases q with
          | start => simp [string, step, IsTextFrom, hquote, hbackslash, ht]
          | inside more next => exact absurd (isText_of_inside hq) ht

end Escaped

/-- What is written so is read back when it is text; otherwise it is no string. -/
theorem string_escape (l : List UInt8) : string (.text .start) (escape l) = if IsText l then some l else none :=
  string_reading_escape .start l

end Toml
