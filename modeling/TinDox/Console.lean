import TinDox.FieldGrammar
import TinDox.Framing

/-! The requests of the console client. `TDPService` writes the text of a command; the server's
interpreter reads it back, whatever the chunks it arrives in. -/

namespace TinDox

open ProtocolInterpreter

namespace TDPService

def bufMaxSize : Nat := 2048

/-- A field as it is handed to `sendAndGetResponse`; an empty name stands for no field. -/
structure Argument where
  name : Bytes
  value : Bytes

namespace Argument

def absent : Argument := ⟨[], []⟩

def tooLong (a : Argument) : Prop := a.name.length + a.value.length ≥ bufMaxSize - 1

instance (a : Argument) : Decidable a.tooLong := inferInstanceAs (Decidable (_ ≥ _))

def line (a : Argument) : Bytes := a.name ++ colon :: a.value

def text (a : Argument) : Bytes := if a.name = [] then [] else a.line ++ [newline]

end Argument

/-- What is left in `last_sent_command`; nothing is sent when a length check fails. -/
def sendAndGetResponse (commandName : Bytes) (field₁ field₂ field₃ : Argument) : Option Bytes :=
  if commandName.length > 6 ∨ field₁.tooLong ∨ field₂.tooLong ∨ field₃.tooLong then none
  else some (commandName ++ [newline] ++ field₁.text ++ field₂.text ++ field₃.text ++ [newline])

def inApostrophes (arg : Bytes) : Bytes := apostrophe :: arg ++ [apostrophe]

/-- A call of a command method. The sizes of `ul` and `dl` are those `fstat` reports for the
local file; `downloadFileData` is the second request of `dl`. -/
inductive Call where
  | closeConnection
  | logout
  | auth (login passwd : Bytes)
  | mkdir (name : Bytes)
  | rm (name : Bytes)
  | rename (oname nname : Bytes)
  | cp (name path : Bytes)
  | mv (name path : Bytes)
  | cd (path : Bytes)
  | ls (path size mod : Bytes)
  | tree (path : Bytes)
  | name
  | perms
  | pwd
  | ul (name : Bytes) (size : Nat) (retry : Bool)
  | dl (name : Bytes) (size : Nat) (retry : Bool)
  | downloadFileData

namespace Call

def plain (name : String) : Option Bytes := sendAndGetResponse (ascii name) .absent .absent .absent

def lastSentCommand : Call → Option Bytes
  | closeConnection => plain "exit"
  | logout => plain "logout"
  | auth login passwd =>
    sendAndGetResponse (ascii "auth")
      ⟨ascii "login", if login = [] then ascii "." else inApostrophes login⟩
      ⟨ascii "passwd", if passwd = [] then ascii "." else inApostrophes passwd⟩ .absent
  | mkdir n => sendAndGetResponse (ascii "mkdir") ⟨ascii "name", inApostrophes n⟩ .absent .absent
  | rm n => sendAndGetResponse (ascii "rm") ⟨ascii "name", inApostrophes n⟩ .absent .absent
  | rename oname nname =>
    sendAndGetResponse (ascii "rename") ⟨ascii "oname", inApostrophes oname⟩
      ⟨ascii "nname", inApostrophes nname⟩ .absent
  | cp n path =>
    sendAndGetResponse (ascii "cp") ⟨ascii "name", inApostrophes n⟩
      ⟨ascii "path", inApostrophes path⟩ .absent
  | mv n path =>
    sendAndGetResponse (ascii "mv") ⟨ascii "name", inApostrophes n⟩
      ⟨ascii "path", inApostrophes path⟩ .absent
  | cd path => sendAndGetResponse (ascii "cd") ⟨ascii "path", inApostrophes path⟩ .absent .absent
  | ls path size mod =>
    sendAndGetResponse (ascii "ls") ⟨if path = [] then [] else ascii "path", inApostrophes path⟩
      ⟨if size = [] then [] else ascii "size", size⟩ ⟨if mod = [] then [] else ascii "mod", mod⟩
  | tree path =>
    sendAndGetResponse (ascii "tree") ⟨if path = [] then [] else ascii "path", inApostrophes path⟩
      .absent .absent
  | name => plain "name"
  | perms => plain "perms"
  | pwd => plain "pwd"
  | ul n size retry =>
    sendAndGetResponse (ascii "ul") ⟨ascii "name", inApostrophes n⟩ ⟨ascii "size", decimal size⟩
      ⟨ascii "retry", if retry then ascii "true" else ascii "false"⟩
  | dl n size retry =>
    sendAndGetResponse (ascii "dl") ⟨ascii "name", inApostrophes n⟩
      ⟨if retry then ascii "size" else [], if retry then decimal size else []⟩ .absent
  | downloadFileData => some (ascii "dls" ++ [newline, newline])

/-- A flag of `ls` is left out or given as a truth value. -/
def IsFlag (flag : Bytes) : Prop := flag = [] ∨ flag = ascii "true" ∨ flag = ascii "false"

/-- The arguments a caller may give: text without a separator, flags, and sizes of type `size_t`. -/
def Proper : Call → Prop
  | auth login passwd => newline ∉ login ∧ newline ∉ passwd
  | mkdir n => newline ∉ n
  | rm n => newline ∉ n
  | rename oname nname => newline ∉ oname ∧ newline ∉ nname
  | cp n path => newline ∉ n ∧ newline ∉ path
  | mv n path => newline ∉ n ∧ newline ∉ path
  | cd path => newline ∉ path
  | ls path size mod => newline ∉ path ∧ IsFlag size ∧ IsFlag mod
  | tree path => newline ∉ path
  | ul n size _ => newline ∉ n ∧ size < 2 ^ 64
  | dl n size _ => newline ∉ n ∧ size < 2 ^ 64
  | _ => True

def textField (name : String) (arg : Bytes) : Field := ⟨ascii name, .string arg⟩

def credential (arg : Bytes) : Bytes := if arg = [] then ascii "." else arg

def pathField (path : Bytes) : List Field := if path = [] then [] else [textField "path" path]

def flagField (name : String) (flag : Bytes) : List Field :=
  if flag = [] then [] else [⟨ascii name, .boolean (flag = ascii "true")⟩]

/-- The request a call means. -/
def request : Call → Request
  | closeConnection => ⟨ascii "exit", []⟩
  | logout => ⟨ascii "logout", []⟩
  | auth login passwd =>
    ⟨ascii "auth", [textField "login" (credential login), textField "passwd" (credential passwd)]⟩
  | mkdir n => ⟨ascii "mkdir", [textField "name" n]⟩
  | rm n => ⟨ascii "rm", [textField "name" n]⟩
  | rename oname nname => ⟨ascii "rename", [textField "oname" oname, textField "nname" nname]⟩
  | cp n path => ⟨ascii "cp", [textField "name" n, textField "path" path]⟩
  | mv n path => ⟨ascii "mv", [textField "name" n, textField "path" path]⟩
  | cd path => ⟨ascii "cd", [textField "path" path]⟩
  | ls path size mod => ⟨ascii "ls", pathField path ++ flagField "size" size ++ flagField "mod" mod⟩
  | tree path => ⟨ascii "tree", pathField path⟩
  | name => ⟨ascii "name", []⟩
  | perms => ⟨ascii "perms", []⟩
  | pwd => ⟨ascii "pwd", []⟩
  | ul n size retry =>
    ⟨ascii "ul", [textField "name" n, ⟨ascii "size", .integer size⟩, ⟨ascii "retry", .boolean retry⟩]⟩
  | dl n size retry =>
    ⟨ascii "dl", textField "name" n :: if retry then [⟨ascii "size", .integer size⟩] else []⟩
  | downloadFileData => ⟨ascii "dls", []⟩

end Call

end TDPService

theorem fieldFromString_line {name value : Bytes} {v : FieldValue}
    (hl : ∀ c ∈ name, isLower c = true) (hv : value ≠ []) (hf : ∀ c, value.head? = some c → isBlank c = false)
    (hb : ∀ c, value.getLast? = some c → isBlank c = false) (h : fieldValueOf value = some v) :
    fieldFromString (name ++ colon :: value) = .ok ⟨name, v⟩ :=
  have hblank := FieldGrammar.blank_nil
  fieldFromString_ok_iff.mpr
    ⟨value, ⟨[], [], [], [], hblank, hblank, hblank, hblank, hl, ⟨hv, hf, hb⟩, by simp⟩, h⟩

theorem fieldValueOf_inApostrophes (arg : Bytes) :
    fieldValueOf (TDPService.inApostrophes arg) = some (.string arg) := by
  have hdigit : isDigit apostrophe = false := by decide
  have ht : apostrophe ≠ 116 := by decide
  have hf : apostrophe ≠ 102 := by decide
  have hsplit : TDPService.inApostrophes arg = (apostrophe :: arg) ++ [apostrophe] := rfl
  have htrue : TDPService.inApostrophes arg ≠ ascii "true" := fun h => ht (List.cons.inj h).1
  have hfalse : TDPService.inApostrophes arg ≠ ascii "false" := fun h => hf (List.cons.inj h).1
  have hlast : (TDPService.inApostrophes arg).getLast? = some apostrophe := by
    rw [hsplit, List.getLast?_concat]
  have hinner : (TDPService.inApostrophes arg).dropLast = apostrophe :: arg := by
    rw [hsplit, List.dropLast_concat]
  have hall : (TDPService.inApostrophes arg).all isDigit = false := by simp [hsplit, hdigit]
  have hhead : (TDPService.inApostrophes arg).head? = some apostrophe := rfl
  simp only [fieldValueOf, htrue, hfalse, hall, hhead, hlast, hinner, Bool.false_eq_true, and_self, if_false, if_true,
    List.drop_succ_cons, List.drop_zero]

theorem isDigit_of_mem_decimal {n : Nat} {c : Byte} (h : c ∈ decimal n) : isDigit c = true := by
  obtain ⟨d, hd, rfl⟩ := List.mem_map.mp h
  have hdigit := Nat.isDigit_of_mem_toDigits (by omega) (by omega) hd
  simp only [Char.isDigit, Bool.and_eq_true, decide_eq_true_eq, ge_iff_le, UInt32.le_iff_toNat_le] at hdigit
  have h0 : '0'.val.toNat = 48 := rfl
  have h9 : '9'.val.toNat = 57 := rfl
  have hval : d.toUInt8.toNat = d.val.toNat := by
    simp only [Char.toUInt8, UInt32.toNat_toUInt8]
    omega
  have h48 : (48 : Byte).toNat = 48 := rfl
  have h57 : (57 : Byte).toNat = 57 := rfl
  simp only [isDigit, decide_eq_true_eq, UInt8.le_iff_toNat_le, hval, h48, h57]
  omega

theorem decimal_ne_nil (n : Nat) : decimal n ≠ [] := by
  simp [decimal, Nat.toDigits_ne_nil]

theorem fieldValueOf_decimal {n : Nat} (h : n < 2 ^ 64) : fieldValueOf (decimal n) = some (.integer n) := by
  have htrue : decimal n ≠ ascii "true" := by
    intro hd
    have hc := isDigit_of_mem_decimal (hd ▸ List.mem_cons_self : (116 : Byte) ∈ decimal n)
    exact absurd hc (by decide)
  have hfalse : decimal n ≠ ascii "false" := by
    intro hd
    have hc := isDigit_of_mem_decimal (hd ▸ List.mem_cons_self : (102 : Byte) ∈ decimal n)
    exact absurd hc (by decide)
  have hall : (decimal n).all isDigit = true := List.all_eq_true.mpr fun c hc => isDigit_of_mem_decimal hc
  simp only [fieldValueOf, htrue, hfalse, hall, digitsValue_decimal, h, if_true, if_false]

namespace TDPService

/-- The server reads the field `f` in the line written for an argument. -/
structure Argument.Reads (a : Argument) (f : Field) : Prop where
  named : a.name ≠ []
  separate : newline ∉ a.line
  parsed : fieldFromString a.line = .ok f

def IsFieldName (name : Bytes) : Prop := name ≠ [] ∧ ∀ c ∈ name, isLower c = true

instance (name : Bytes) : Decidable (IsFieldName name) := inferInstanceAs (Decidable (_ ∧ _))

theorem Argument.Reads.of_value {name value : Bytes} {v : FieldValue} (hn : IsFieldName name) (hv : value ≠ [])
    (hf : ∀ c, value.head? = some c → isBlank c = false) (hb : ∀ c, value.getLast? = some c → isBlank c = false)
    (hnl : newline ∉ value) (h : fieldValueOf value = some v) : Argument.Reads ⟨name, value⟩ ⟨name, v⟩ := by
  refine ⟨hn.1, ?_, fieldFromString_line hn.2 hv hf hb h⟩
  intro hmem
  simp only [Argument.line, List.mem_append, List.mem_cons] at hmem
  rcases hmem with hmem | hmem | hmem
  · exact absurd (hn.2 _ hmem) (by decide)
  · exact absurd hmem (by decide)
  · exact hnl hmem

theorem Argument.Reads.text {name : String} (hn : IsFieldName (ascii name)) {arg : Bytes} (h : newline ∉ arg) :
    Argument.Reads ⟨ascii name, inApostrophes arg⟩ (Call.textField name arg) := by
  have hblank : isBlank apostrophe = false := by decide
  refine .of_value hn (by simp [inApostrophes]) ?_ ?_ ?_ (fieldValueOf_inApostrophes arg)
  · intro c hc
    rw [← Option.some.inj hc]
    exact hblank
  · intro c hc
    rw [inApostrophes, List.getLast?_concat] at hc
    rw [← Option.some.inj hc]
    exact hblank
  · simp [inApostrophes, h, show newline ≠ apostrophe from by decide]

theorem Argument.Reads.credential {name : String} (hn : IsFieldName (ascii name)) {arg : Bytes} (h : newline ∉ arg) :
    Argument.Reads ⟨ascii name, if arg = [] then ascii "." else inApostrophes arg⟩
      (Call.textField name (Call.credential arg)) := by
  by_cases ha : arg = []
  · simp only [ha, if_true, Call.credential]
    exact .of_value hn (by decide +kernel) (by decide +kernel) (by decide +kernel) (by decide +kernel) (by decide +kernel)
  · simp only [ha, if_false, Call.credential]
    exact .text hn h

theorem Argument.Reads.size {name : Bytes} (hn : IsFieldName name) {n : Nat} (h : n < 2 ^ 64) :
    Argument.Reads ⟨name, decimal n⟩ ⟨name, .integer n⟩ := by
  have hdigit : ∀ c ∈ decimal n, isBlank c = false := fun c hc => not_isBlank_of_isDigit (isDigit_of_mem_decimal hc)
  refine .of_value hn (decimal_ne_nil n) ?_ ?_ ?_ (fieldValueOf_decimal h)
  · exact fun c hc => hdigit c (List.mem_of_head? hc)
  · exact fun c hc => hdigit c (List.mem_of_getLast? hc)
  · exact fun hmem => absurd (isDigit_of_mem_decimal hmem) (by decide)

theorem Argument.Reads.flag {name : Bytes} (hn : IsFieldName name) (b : Bool) :
    Argument.Reads ⟨name, if b then ascii "true" else ascii "false"⟩ ⟨name, .boolean b⟩ := by
  cases b with
  | true => exact .of_value hn (by decide +kernel) (by decide +kernel) (by decide +kernel) (by decide +kernel) (by decide +kernel)
  | false => exact .of_value hn (by decide +kernel) (by decide +kernel) (by decide +kernel) (by decide +kernel) (by decide +kernel)

/-- The fields of a request that stand for a list of arguments, absent ones left out. -/
inductive Transmits : List Argument → List Field → Prop
  | nil : Transmits [] []
  | absent {a : Argument} {as : List Argument} {fs : List Field} (h : a.name = []) (hs : Transmits as fs) :
    Transmits (a :: as) fs
  | present {a : Argument} {as : List Argument} {f : Field} {fs : List Field} (h : a.Reads f)
    (hs : Transmits as fs) : Transmits (a :: as) (f :: fs)

namespace Transmits

variable {as bs : List Argument} {fs gs : List Field}

theorem append (h : Transmits as fs) (h' : Transmits bs gs) : Transmits (as ++ bs) (fs ++ gs) := by
  induction h with
  | nil => exact h'
  | absent ha _ ih => exact .absent ha ih
  | present ha _ ih => exact .present ha ih

theorem one {a : Argument} {f : Field} (h : a.Reads f) : Transmits [a] [f] := .present h .nil

theorem none : Transmits [.absent] [] := .absent rfl .nil

theorem path {arg : Bytes} (h : newline ∉ arg) :
    Transmits [⟨if arg = [] then [] else ascii "path", inApostrophes arg⟩] (Call.pathField arg) := by
  by_cases ha : arg = []
  · simp only [ha, if_true, Call.pathField]
    exact .absent rfl .nil
  · simp only [ha, if_false, Call.pathField]
    exact one (.text (by decide +kernel) h)

theorem flag (name : String) (hn : IsFieldName (ascii name)) {arg : Bytes} (h : Call.IsFlag arg) :
    Transmits [⟨if arg = [] then [] else ascii name, arg⟩] (Call.flagField name arg) := by
  rcases h with rfl | rfl | rfl
  · exact .absent rfl .nil
  · exact one (.flag hn true)
  · exact one (.flag hn false)

theorem lines (h : Transmits as fs) (hlen : ∀ a ∈ as, ¬ a.tooLong) :
    ∃ ls : List Bytes, as.flatMap (·.text) = ls.flatMap (· ++ [newline]) ∧ (∀ l ∈ ls, IsLine l) ∧
      ls.length ≤ as.length ∧ ls.mapM fieldFromString = .ok fs := by
  induction h with
  | nil => exact ⟨[], rfl, by simp, by simp, rfl⟩
  | absent ha _ ih =>
    obtain ⟨ls, htext, hline, hcount, hm⟩ := ih fun a ha => hlen a (by simp [ha])
    refine ⟨ls, ?_, hline, ?_, hm⟩
    · rw [List.flatMap_cons, htext, Argument.text, if_pos ha, List.nil_append]
    · simp only [List.length_cons]
      omega
  | @present a as f fs ha _ ih =>
    obtain ⟨ls, htext, hline, hcount, hm⟩ := ih fun a ha => hlen a (by simp [ha])
    have hshort := hlen a (by simp)
    refine ⟨a.line :: ls, ?_, ?_, ?_, ?_⟩
    · rw [List.flatMap_cons, htext, Argument.text, if_neg ha.named, List.flatMap_cons]
    · intro l hl
      rcases List.mem_cons.mp hl with rfl | hl
      · refine ⟨by simp [Argument.line], ha.separate, ?_⟩
        simp only [Argument.tooLong, bufMaxSize, ge_iff_le, not_le, Argument.line, List.length_append,
          List.length_cons, maxLineLength] at hshort ⊢
        omega
      · exact hline l hl
    · simp only [List.length_cons]
      omega
    · rw [List.mapM_cons, ha.parsed, hm]
      rfl

end Transmits

theorem sendAndGetResponse_text {commandName command : Bytes} {f₁ f₂ f₃ : Argument} {fs : List Field}
    (hs : sendAndGetResponse commandName f₁ f₂ f₃ = some command) (hn : commandName ≠ [] ∧ newline ∉ commandName)
    (hf : Transmits [f₁, f₂, f₃] fs) :
    ∃ t : RequestText, command = t.encode ∧
      Framing.deliver (t.name :: t.fieldLines) = .request ⟨commandName, fs⟩ := by
  rw [sendAndGetResponse] at hs
  split at hs
  · cases hs
  · rename_i hshort
    simp only [not_or, not_lt] at hshort
    obtain ⟨hname, h₁, h₂, h₃⟩ := hshort
    obtain ⟨ls, htext, hline, hcount, hm⟩ := hf.lines (by simp [h₁, h₂, h₃])
    have hfirst : IsLine commandName := ⟨hn.1, hn.2, by rw [maxLineLength]; omega⟩
    have hcommand := (Option.some.inj hs).symm
    have hall : ∀ l ∈ commandName :: ls, IsLine l := List.forall_mem_cons.mpr ⟨hfirst, hline⟩
    have hfew : (commandName :: ls).length + 1 ≤ maxLineCount := by
      simp only [List.length_cons, List.length_nil, maxLineCount] at hcount ⊢
      omega
    refine ⟨⟨commandName, ls, hall, hfew⟩, ?_, ?_⟩
    · simp only [List.flatMap_cons, List.flatMap_nil, List.append_nil] at htext
      rw [hcommand, RequestText.encode, List.flatMap_cons, ← htext]
      simp only [List.append_assoc]
    · simp only [Framing.deliver, hm]

theorem drive_text {t : RequestText} {r : Request} (ht : Framing.deliver (t.name :: t.fieldLines) = .request r)
    {chunks : List Bytes} (h : chunks.flatten = t.encode) : (drive fresh chunks).2 = [(.request r, [])] := by
  have hstream : t.encode = encodeStream [(0, t)] 0 := by simp [encodeStream]
  rw [hstream] at h
  rw [← Framing.ofState_fresh, Framing.drive_ofState (h ▸ Framing.within_encodeStream _ _), h,
    Framing.deliveries_encodeStream]
  simp [Framing.expected, ht, encodeStream]

namespace Call

theorem plain_text {name : String} {command : Bytes} (hs : plain name = some command)
    (hn : ascii name ≠ [] ∧ newline ∉ ascii name) :
    ∃ t : RequestText, command = t.encode ∧
      Framing.deliver (t.name :: t.fieldLines) = .request ⟨ascii name, []⟩ :=
  sendAndGetResponse_text hs hn (Transmits.none.append (Transmits.none.append .none))

theorem request_name (call : Call) : call.request.name ≠ [] ∧ newline ∉ call.request.name := by
  cases call <;> dsimp only [request] <;> decide +kernel

theorem lastSentCommand_text {call : Call} (hc : call.Proper) {command : Bytes}
    (hs : call.lastSentCommand = some command) :
    ∃ t : RequestText, command = t.encode ∧
      Framing.deliver (t.name :: t.fieldLines) = .request call.request := by
  have htwo : Transmits [.absent, .absent] [] := Transmits.none.append .none
  have hn := call.request_name
  have hname : IsFieldName (ascii "name") := by decide +kernel
  have hpath : IsFieldName (ascii "path") := by decide +kernel
  have hsize : IsFieldName (ascii "size") := by decide +kernel
  cases call with
  | closeConnection => exact plain_text hs hn
  | logout => exact plain_text hs hn
  | auth login passwd =>
    have hlogin : IsFieldName (ascii "login") := by decide +kernel
    have hpasswd : IsFieldName (ascii "passwd") := by decide +kernel
    exact sendAndGetResponse_text hs hn (.present (.credential hlogin hc.1) (.present (.credential hpasswd hc.2) .none))
  | mkdir name => exact sendAndGetResponse_text hs hn (.present (.text hname hc) htwo)
  | rm name => exact sendAndGetResponse_text hs hn (.present (.text hname hc) htwo)
  | rename oname nname =>
    have honame : IsFieldName (ascii "oname") := by decide +kernel
    have hnname : IsFieldName (ascii "nname") := by decide +kernel
    exact sendAndGetResponse_text hs hn (.present (.text honame hc.1) (.present (.text hnname hc.2) .none))
  | cp name path =>
    exact sendAndGetResponse_text hs hn (.present (.text hname hc.1) (.present (.text hpath hc.2) .none))
  | mv name path =>
    exact sendAndGetResponse_text hs hn (.present (.text hname hc.1) (.present (.text hpath hc.2) .none))
  | cd path => exact sendAndGetResponse_text hs hn (.present (.text hpath hc) htwo)
  | ls path size mod =>
    have hmod : IsFieldName (ascii "mod") := by decide +kernel
    have hfields := ((Transmits.path hc.1).append (Transmits.flag "size" hsize hc.2.1)).append
      (Transmits.flag "mod" hmod hc.2.2)
    exact sendAndGetResponse_text hs hn hfields
  | tree path =>
    have hfields := (Transmits.path hc).append htwo
    rw [List.append_nil] at hfields
    exact sendAndGetResponse_text hs hn hfields
  | name => exact plain_text hs hn
  | perms => exact plain_text hs hn
  | pwd => exact plain_text hs hn
  | ul name size retry =>
    have hretry : IsFieldName (ascii "retry") := by decide +kernel
    exact sendAndGetResponse_text hs hn
      (.present (.text hname hc.1) (.present (.size hsize hc.2) (.one (.flag hretry retry))))
  | dl name size retry =>
    cases retry with
    | true => exact sendAndGetResponse_text hs hn (.present (.text hname hc.1) (.present (.size hsize hc.2) .none))
    | false => exact sendAndGetResponse_text hs hn (.present (.text hname hc.1) htwo)
  | downloadFileData =>
    refine ⟨⟨ascii "dls", [], ?_, by decide⟩, ?_, rfl⟩
    · intro l hl
      rw [List.mem_singleton.mp hl]
      exact ⟨hn.1, hn.2, by decide⟩
    · rw [← Option.some.inj hs]
      rfl

/-- The server reads every request of the console client as the call means it, whatever the
chunks it arrives in, and each of its lines is within the server's limits. -/
theorem request_agrees (call : Call) (hc : call.Proper) {command : Bytes}
    (hs : call.lastSentCommand = some command) :
    (∀ chunks : List Bytes, chunks.flatten = command →
      (drive fresh chunks).2 = [(.request call.request, [])]) ∧
    ∃ t : RequestText, command = t.encode := by
  obtain ⟨t, rfl, hdeliver⟩ := lastSentCommand_text hc hs
  exact ⟨fun chunks h => drive_text hdeliver h, t, rfl⟩

/-- An apostrophe, a blank and a colon in one argument, only digits in the other, and a cut
inside the second line. -/
theorem request_agrees_rename :
    let chunks := [ascii "rename\noname:'it's ", ascii "a: b'\nnname:'42'\n\n"]
    (drive fresh chunks).2 =
      [(.request ⟨ascii "rename", [textField "oname" (ascii "it's a: b"), textField "nname" (ascii "42")]⟩, [])] :=
  (request_agrees (.rename (ascii "it's a: b") (ascii "42")) ⟨by decide, by decide⟩
    (show _ = some (ascii "rename\noname:'it's a: b'\nnname:'42'\n\n") by decide)).1 _ (by decide +kernel)

end Call

end TDPService

end TinDox
