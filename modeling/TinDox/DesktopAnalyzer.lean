import TinDox.Chunking
import TinDox.Delimited
import TinDox.Protocol

/-! The desktop client's `ResponseAnalyzer` over a whole session. It looks for the end of a response at
the end of its buffer only, takes one response a call, and drops it wherever its text occurs. -/

namespace TinDox

open Delimited Chunking

namespace Desktop

/-- A Java string, by its UTF-16 code units. -/
abbrev JavaString := List UInt16

def text (s : String) : JavaString := s.toList.map fun c => c.toNat.toUInt16

def lineFeed : UInt16 := 10

def carriageReturn : UInt16 := 13

def space : UInt16 := 32

/-- `String.replace` with the empty string for the pattern, which is not empty itself. -/
def removeAll (pattern : JavaString) (s : JavaString) : JavaString :=
  match s with
  | [] => []
  | c :: s =>
    if pattern ≠ [] ∧ pattern <+: c :: s then removeAll pattern ((c :: s).drop pattern.length)
    else c :: removeAll pattern s
termination_by s.length
decreasing_by
  · rename_i h
    have hpos := List.length_pos_of_ne_nil h.1
    simp only [List.length_drop, List.length_cons]
    omega
  · simp

def isDigit (c : UInt16) : Bool := 48 ≤ c ∧ c ≤ 57

namespace ResponseAnalyzer

end ResponseAnalyzer

/-- The digits of a number in decimal. -/
def digits (n : Nat) : JavaString := (Nat.toDigits 10 n).map fun c => c.toNat.toUInt16

/-- A well-formed response: no line of it is empty or has a line feed in it. One without lines answers a
command that the server knows. -/
structure ServerResponse where
  code : ProtocolCode
  commandName : JavaString
  lines : List JavaString
  nameLine : lineFeed ∉ commandName
  properLines : ∀ l ∈ lines, l ≠ [] ∧ lineFeed ∉ l
  plainName : lines = [] → carriageReturn ∉ commandName

namespace ServerResponse

def header (r : ServerResponse) : JavaString := digits r.code.value ++ space :: r.commandName

def data (r : ServerResponse) : JavaString := encode lineFeed (r.header :: r.lines)

/-- A charset in which every byte is the character with its number. -/
def decode (b : Bytes) : JavaString := b.map (·.toUInt16)

end ServerResponse

section Strings

variable {s : JavaString}

end Strings

namespace ServerResponse

open ResponseAnalyzer

variable (r : ServerResponse)

variable {r}

variable (r)

end ServerResponse

namespace ResponseAnalyzer

open ServerResponse

variable {buffer left chunk : JavaString} {chunks : List JavaString} {calls : List TextAreaCall}

end ResponseAnalyzer

open ResponseAnalyzer ServerResponse

end Desktop

end TinDox
