import TinDox.Collecting
import TinDox.Effects
import TinDox.Fallible
import TinDox.RelativePaths

/-! The lines of the answers: what a request without newlines is answered with has no newlines
either, and which lines are empty or have a NUL. -/

namespace TinDox

open Fallible

def Unbroken (b : Bytes) : Prop := newline ∉ b

theorem Unbroken.append {a b : Bytes} (ha : Unbroken a) (hb : Unbroken b) : Unbroken (a ++ b) :=
  fun hm => (List.mem_append.mp hm).elim ha hb

theorem Unbroken.of_subset {a b : Bytes} (hb : Unbroken b) (h : a ⊆ b) : Unbroken a := fun hm => hb (h hm)

theorem unbroken_nil : Unbroken [] := List.not_mem_nil

theorem unbroken_decimal (n : Nat) : Unbroken (decimal n) := notMem_decimal (by decide)

theorem Unbroken.quoted {b : Bytes} (h : Unbroken b) : Unbroken (quoted b) := by
  intro hm
  simp only [TinDox.quoted, List.cons_append, List.mem_cons, List.mem_append, List.mem_flatMap, List.not_mem_nil,
    or_false] at hm
  rcases hm with hm | ⟨c, hc, hm⟩ | hm
  · exact absurd hm (by decide)
  · split at hm
    · rcases List.mem_cons.mp hm with hm | hm
      · exact absurd hm (by decide)
      · exact h (List.mem_singleton.mp hm ▸ hc)
    · exact h (List.mem_singleton.mp hm ▸ hc)
  · exact absurd hm (by decide)

/-- A line that a client takes for a whole line. -/
def Legible (l : Bytes) : Prop := l ≠ [] ∧ Unbroken l ∧ (0 : Byte) ∉ l

theorem legible_decimal (n : Nat) : Legible (decimal n) := ⟨decimal_ne_nil n, unbroken_decimal n, notMem_decimal (by decide)⟩

/-- The text of an error, which is cut at a NUL, is legible unless it begins with one; a text that
is cut to nothing may only occur when `hidden` holds. -/
def Speaks (hidden : Prop) : Exception → Prop
  | .fatal => True
  | .protocol e => Legible e.what ∨ hidden ∧ e.what = []

theorem Speaks.imp {p q : Prop} {e : Exception} (h : Speaks p e) (hpq : p → q) : Speaks q e := by
  cases e with
  | fatal => trivial
  | protocol e => exact h.imp_right (fun hh => ⟨hpq hh.1, hh.2⟩)

variable {hidden : Prop}

theorem legible_what {code : ProtocolCode} {message : Bytes} {c : Byte} (hhead : message.head? = some c) (hc : c ≠ 0)
    (hm : Unbroken message) : Legible (protocolError code message).what := by
  obtain ⟨m, rfl⟩ : ∃ m, message = c :: m := by
    cases message with
    | nil => simp at hhead
    | cons d m => exact ⟨m, by simpa using hhead⟩
  refine ⟨by simp [protocolError, hc], hm.of_subset (List.takeWhile_subset _), ?_⟩
  intro hz
  have hkept := List.mem_takeWhile_imp hz
  simp at hkept

theorem speaks_refuseWith {code : ProtocolCode} {message : Bytes} {c : Byte} (hhead : message.head? = some c) (hc : c ≠ 0)
    (hm : Unbroken message) : Speaks hidden (refuseWith code message) := .inl (legible_what hhead hc hm)

theorem ascii_ofList (l : List Char) : ascii (String.ofList l) = l.map (fun c => c.toNat.toUInt8) := by
  rw [ascii, String.toList_ofList]

/-- The characters of a literal are compared, not its encoding. -/
theorem unbroken_ascii {l : List Char} (h : l.all (fun c => c.toNat.toUInt8 ≠ newline)) :
    Unbroken (ascii (String.ofList l)) := by
  rw [ascii_ofList]
  intro hm
  obtain ⟨c, hc, he⟩ := List.mem_map.mp hm
  have hne := List.all_eq_true.mp h c hc
  simp [he] at hne

/-- A text of the source that does not begin in a NUL. -/
def Plainly (b : Bytes) : Prop := Unbroken b ∧ ∃ c, b.head? = some c ∧ c ≠ 0

theorem plainly {l : List Char} {c : Char} (hu : l.all (fun c => c.toNat.toUInt8 ≠ newline)) (hc : l.head? = some c)
    (hne : c.toNat.toUInt8 ≠ 0) : Plainly (ascii (String.ofList l)) :=
  ⟨unbroken_ascii hu, c.toNat.toUInt8, by rw [ascii_ofList]; simp [hc], hne⟩

theorem plainly_message (code : ProtocolCode) : Plainly code.message := by
  cases code <;> exact plainly (by decide) rfl (by decide)

theorem speaks_refuse (code : ProtocolCode) : Speaks hidden (refuse code) := by
  obtain ⟨hm, c, hc, hne⟩ := plainly_message code
  exact speaks_refuseWith hc hne hm

theorem speaks_about {code : ProtocolCode} {fieldName rest : Bytes} (h : Plainly fieldName) (hr : Unbroken rest) :
    Speaks hidden (refuseWith code (fieldName ++ rest)) := by
  obtain ⟨hn, c, hc, hne⟩ := h
  exact speaks_refuseWith (by simp [List.head?_append, hc]) hne (hn.append hr)

def Field.Unbroken (f : Field) : Prop := ∀ s, f.getString = some s → TinDox.Unbroken s

def Request.Unbroken (r : Request) : Prop := TinDox.Unbroken r.name ∧ ∀ f ∈ r.fields, f.Unbroken

section Fields

variable {field : Field} {fieldName : Bytes} (hn : Plainly fieldName)
include hn

theorem parseString_meets (hf : field.Unbroken) (current : Option Bytes) :
    Meets (Speaks hidden) Unbroken (parseString fieldName current field) := by
  unfold parseString
  split
  · exact speaks_about hn (unbroken_ascii (by decide))
  · split
    · rename_i value hv
      exact hf value hv
    · exact speaks_about hn (unbroken_ascii (by decide))

theorem parseNameField_meets (hf : field.Unbroken) {typeHint noun : Bytes} (ht : Unbroken typeHint) (hnoun : Unbroken noun)
    (current : Option Path) :
    Meets (Speaks hidden) (Unbroken ·.native) (parseNameField fieldName typeHint noun current field) := by
  unfold parseNameField
  split
  · exact speaks_about hn (unbroken_ascii (by decide))
  · split
    · rw [List.append_assoc]
      exact speaks_about hn ((unbroken_ascii (by decide)).append ht)
    · rename_i value hv
      dsimp only
      split
      · rw [List.append_assoc]
        exact speaks_about hn ((unbroken_ascii (by decide)).append hnoun)
      · exact hf value hv

theorem parseBoolean_meets (field : Field) : Meets (Speaks hidden) (fun _ => True) (parseBoolean fieldName field) := by
  unfold parseBoolean
  split
  · trivial
  · exact speaks_about hn (unbroken_ascii (by decide))

theorem parseInteger_meets (field : Field) : Meets (Speaks hidden) (fun _ => True) (parseInteger fieldName field) := by
  unfold parseInteger
  split
  · trivial
  · exact speaks_about hn (unbroken_ascii (by decide))

end Fields

theorem require_meets {α : Type} {P : α → Prop} {value : Option α} (h : ∀ x ∈ value, P x) {message : Bytes}
    (hm : Plainly message) : Meets (Speaks hidden) P (require value message) := by
  cases value with
  | some x => exact h x rfl
  | none =>
    obtain ⟨hm, c, hc, hne⟩ := hm
    exact speaks_refuseWith hc hne hm

variable {srv : ServerContext} {fs : FileSystem} {c : ClientContext} {fields : List Field}

theorem fsExists_meets (p : Path) : Meets (Speaks hidden) (fun b => fs.pathExists p = b) (fs.fsExists p) := by
  cases hx : fs.fsExists p with
  | error e =>
    obtain ⟨-, rfl⟩ := FileSystem.fsExists_eq_error.mp hx
    trivial
  | ok b => exact (FileSystem.fsExists_eq_ok.mp hx).2

theorem parseExistingName_meets {field : Field} (hf : field.Unbroken) (current : Option Path) :
    Meets (Speaks hidden) (Unbroken ·.native) (parseExistingName fs c current field) := by
  refine (parseNameField_meets (plainly (by decide) rfl (by decide)) hf unbroken_nil
    (unbroken_ascii (by decide)) current).bind ?_
  intro name hname
  unfold getCurrentPath
  cases c.currentPathLock with
  | none => trivial
  | some cur =>
    refine (fsExists_meets (cur / name)).bind (fun found _ => ?_)
    split
    · exact speaks_refuseWith (c := 102) rfl (by decide)
        (((unbroken_ascii (by decide)).append hname.quoted).append (unbroken_ascii (by decide)))
    · exact hname

/-- What the answers rely on: the root and the current directory have no newlines, and the current
directory is absolute. -/
structure ClientContext.Unbroken (srv : ServerContext) (c : ClientContext) : Prop where
  root : TinDox.Unbroken srv.root.path.native
  current : ∀ cur ∈ c.currentPathLock, TinDox.Unbroken cur.native ∧ cur.isAbsolute = true

/-- The path field begins with a NUL and denotes something that is there and is not a directory. -/
def HiddenFile (srv : ServerContext) (fs : FileSystem) (c : ClientContext) (fields : List Field) : Prop :=
  ∃ field value p, findField fields (ascii "path") = some field ∧ field.getString = some value ∧
    value.head? = some 0 ∧ PathBasedCommand.finalPath srv c ⟨value⟩ = .ok p ∧
    PathBasedCommand.isThere srv fs p = .ok true ∧ fs.isDirectory p = false

/-- A path that a command takes as its `path` field. -/
structure Taken (fs : FileSystem) (p : Path) : Prop where
  unbroken : Unbroken p.native
  absolute : p.isAbsolute = true
  there : fs.pathExists p = true

theorem unbroken_lexicallyNormal {p : Path} (hp : p.isAbsolute = true) (h : Unbroken p.native) :
    Unbroken p.lexicallyNormal.native := by
  obtain ⟨tl, htl, hn⟩ := Path.lexicallyNormal_native hp
  intro hm
  rw [hn] at hm
  rcases List.mem_append.mp hm with hm | hm
  · obtain ⟨n, hk, hm⟩ := List.mem_flatMap.mp hm
    rcases List.mem_cons.mp hm with hm | hm
    · exact absurd hm (by decide)
    · obtain ⟨m, hparts, he⟩ := List.mem_map.mp (Path.child_mem_of_mem_key hk)
      obtain ⟨rfl, -⟩ := Path.isName_of_classify (p.parts_no_slash m hparts) he
      exact h (Path.mem_native_of_mem_parts hparts hm)
  · rcases htl with rfl | rfl
    · simp at hm
    · exact absurd (List.mem_singleton.mp hm) (by decide)

theorem unbroken_append {p q : Path} (hp : Unbroken p.native) (hq : Unbroken q.native) : Unbroken (p / q).native := by
  intro hm
  rcases Path.mem_native_append hm with hm | hm | hm
  · exact hp hm
  · exact absurd hm (by decide)
  · exact hq hm

namespace PathBasedCommand

variable (hc : c.Unbroken srv)
include hc

theorem finalPath_meets {value : Bytes} (hv : Unbroken value) :
    Meets (Speaks hidden) (fun p => Unbroken p.native ∧ p.isAbsolute = true) (finalPath srv c ⟨value⟩) := by
  have hroot : srv.root.path.isAbsolute = true := Path.isAbsolute_ofKey _
  unfold finalPath getCurrentPath
  split
  · exact ⟨hc.root.append hv, Path.isAbsolute_concat _ hroot⟩
  · cases hcur : c.currentPathLock with
    | none => trivial
    | some cur =>
      obtain ⟨hcur, habs⟩ := hc.current cur hcur
      have happ : (cur / ⟨value⟩).isAbsolute = true := Path.isAbsolute_append _ habs
      change (Unbroken _ ∧ _)
      split
      · exact ⟨hc.root, hroot⟩
      · exact ⟨unbroken_lexicallyNormal happ (unbroken_append hcur hv), Path.isAbsolute_lexicallyNormal happ⟩

theorem parsePath_meets {field : Field} (hf : field.Unbroken) (hfield : findField fields (ascii "path") = some field) :
    Meets (Speaks (HiddenFile srv fs c fields)) (Taken fs) (parsePath srv fs c field) := by
  unfold parsePath
  split
  · exact speaks_refuseWith (c := 112) rfl (by decide) (unbroken_ascii (by decide))
  · rename_i value hv
    have hvalue := hf value hv
    have hfinal : Meets (Speaks (HiddenFile srv fs c fields)) _ (finalPath srv c ⟨value⟩) := finalPath_meets hc hvalue
    cases hp : finalPath srv c ⟨value⟩ with
    | error e =>
      rw [hp] at hfinal
      exact hfinal
    | ok p =>
      rw [hp] at hfinal
      obtain ⟨hbreak, habs⟩ := hfinal
      change Meets _ _ (isThere srv fs p >>= _)
      cases hfound : isThere srv fs p with
      | error e =>
        rw [isThere_error habs hfound]
        trivial
      | ok found =>
        change Meets _ _ (if _ then _ else if _ then _ else _)
        cases found with
        | false =>
          rw [if_pos (by simp)]
          exact speaks_refuseWith (c := 100) rfl (by decide)
            (((unbroken_ascii (by decide)).append hvalue).append (unbroken_ascii (by decide)))
        | true =>
          rw [if_neg (by simp)]
          split
          · rename_i hdir
            have htext : Unbroken (value ++ ascii " is not a directory") := hvalue.append (unbroken_ascii (by decide))
            cases hhead : value.head? with
            | none =>
              obtain rfl : value = [] := by simpa using hhead
              exact speaks_refuseWith (c := 32) rfl (by decide) htext
            | some c =>
              by_cases hzero : c = 0
              · subst c
                refine .inr ⟨⟨field, value, p, hfield, hv, hhead, hp, hfound, by simpa using hdir⟩, ?_⟩
                obtain ⟨v, rfl⟩ : ∃ v, value = 0 :: v := by
                  cases value with
                  | nil => simp at hhead
                  | cons d v => exact ⟨v, by simpa using hhead⟩
                rfl
              · exact speaks_refuseWith (by simp [List.head?_append, hhead]) hzero htext
          · have hthere := (isThere_eq_ok hfound).2.1
            simp only [Bool.true_eq, Bool.and_eq_true] at hthere
            exact ⟨hbreak, habs, hthere.2⟩

theorem parseFields_meets (hf : ∀ f ∈ fields, f.Unbroken) :
    Meets (Speaks (HiddenFile srv fs c fields)) (fun p => ∀ p' ∈ p, Taken fs p') (parseFields srv fs c fields) := by
  unfold parseFields
  split
  · rintro p' ⟨⟩
  · rename_i field hfield
    refine (parsePath_meets hc (hf field (List.mem_of_find?_eq_some hfield)) hfield).map ?_
    rintro p hp p' ⟨⟩
    exact hp

end PathBasedCommand

/-- The commands that are based on a path. -/
def CommandName.takesPath : CommandName → Bool
  | .cd | .cp | .ls | .mv | .tree => true
  | _ => false

def Command.Unbroken (fs : FileSystem) : Command → Prop
  | .cd path => Taken fs path
  | .cp path n | .mv path n => Taken fs path ∧ TinDox.Unbroken n.native
  | .rename oname nname => TinDox.Unbroken oname.native ∧ TinDox.Unbroken nname.native
  | _ => True

section Parsing

variable (hf : ∀ f ∈ fields, f.Unbroken)
include hf

theorem parseSingleName_meets : Meets (Speaks hidden) (fun _ => True) (parseSingleName fields) := by
  unfold parseSingleName
  refine (Meets.foldlM (P := fun _ => True) trivial ?_).bind fun name _ =>
    require_meets (fun _ _ => trivial) (plainly (by decide) rfl (by decide))
  intro name field hm _
  split
  · exact (parseNameField_meets (plainly (by decide) rfl (by decide)) (hf field hm) unbroken_nil
      (unbroken_ascii (by decide)) name).map fun _ _ => trivial
  · trivial

theorem Auth.parseFields_meets : Meets (Speaks hidden) (Command.Unbroken fs) (Auth.parseFields fields) := by
  unfold Auth.parseFields
  refine (Meets.foldlM (P := fun _ => True) trivial ?_).bind ?_
  · rintro ⟨username, password⟩ field hm -
    dsimp only
    split
    · exact (parseString_meets (plainly (by decide) rfl (by decide)) (hf field hm) username).bind fun _ _ => trivial
    · split
      · exact (parseString_meets (plainly (by decide) rfl (by decide)) (hf field hm) password).bind fun _ _ => trivial
      · trivial
  · rintro ⟨username, password⟩ -
    refine (require_meets (P := fun _ => True) (fun _ _ => trivial) (plainly (by decide) rfl (by decide))).bind ?_
    intro username _
    exact (require_meets (P := fun _ => True) (fun _ _ => trivial) (plainly (by decide) rfl (by decide))).bind
      fun _ _ => trivial

theorem Dl.parseFields_meets : Meets (Speaks hidden) (Command.Unbroken fs) (Dl.parseFields fs c fields) := by
  unfold Dl.parseFields
  refine (Meets.foldlM (P := fun _ => True) trivial ?_).bind ?_
  · rintro ⟨name, offset⟩ field hm -
    dsimp only
    split
    · exact (parseExistingName_meets (hf field hm) name).bind fun _ _ => trivial
    · split
      · exact (parseInteger_meets (plainly (by decide) rfl (by decide)) field).bind fun _ _ => trivial
      · trivial
  · rintro ⟨name, offset⟩ -
    exact (require_meets (P := fun _ => True) (fun _ _ => trivial) (plainly (by decide) rfl (by decide))).bind
      fun _ _ => trivial

theorem Rename.parseFields_meets : Meets (Speaks hidden) (Command.Unbroken fs) (Rename.parseFields fields) := by
  unfold Rename.parseFields
  refine (Meets.foldlM (P := fun names : Option Path × Option Path =>
    (∀ n ∈ names.1, Unbroken n.native) ∧ ∀ n ∈ names.2, Unbroken n.native) (by simp) ?_).bind ?_
  · rintro ⟨oname, nname⟩ field hm ⟨ho, hn⟩
    dsimp only
    split
    · refine (parseNameField_meets (plainly (by decide) rfl (by decide)) (hf field hm) unbroken_nil
        (unbroken_ascii (by decide)) oname).bind fun name hname => ⟨?_, hn⟩
      rintro _ ⟨⟩
      exact hname
    · split
      · refine (parseNameField_meets (plainly (by decide) rfl (by decide)) (hf field hm) unbroken_nil
          (unbroken_ascii (by decide)) nname).bind fun name hname => ⟨ho, ?_⟩
        rintro _ ⟨⟩
        exact hname
      · exact ⟨ho, hn⟩
  · rintro ⟨oname, nname⟩ ⟨ho, hn⟩
    refine (require_meets ho (plainly (by decide) rfl (by decide))).bind fun oname ho => ?_
    exact (require_meets hn (plainly (by decide) rfl (by decide))).bind fun nname hn => ⟨ho, hn⟩

theorem Ul.parseFields_meets : Meets (Speaks hidden) (Command.Unbroken fs) (Ul.parseFields fields) := by
  unfold Ul.parseFields
  refine (Meets.foldlM (P := fun _ => True) trivial ?_).bind ?_
  · rintro parsed field hm -
    unfold Ul.parseField
    split
    · exact (parseNameField_meets (plainly (by decide) rfl (by decide)) (hf field hm) (unbroken_ascii (by decide))
        (unbroken_ascii (by decide)) parsed.name).bind fun _ _ => trivial
    · split
      · exact (parseInteger_meets (plainly (by decide) rfl (by decide)) field).bind fun _ _ => trivial
      · split
        · exact (parseBoolean_meets (plainly (by decide) rfl (by decide)) field).bind fun _ _ => trivial
        · trivial
  · rintro parsed -
    refine (require_meets (P := fun _ => True) (fun _ _ => trivial) (plainly (by decide) rfl (by decide))).bind ?_
    intro name _
    exact (require_meets (P := fun _ => True) (fun _ _ => trivial) (plainly (by decide) rfl (by decide))).bind
      fun _ _ => trivial

variable (hc : c.Unbroken srv)
include hc

theorem Cd.parseFields_meets :
    Meets (Speaks (HiddenFile srv fs c fields)) (Command.Unbroken fs) (Cd.parseFields srv fs c fields) := by
  unfold Cd.parseFields
  refine (PathBasedCommand.parseFields_meets hc hf).bind fun path hpath => ?_
  exact (require_meets hpath (plainly (by decide) rfl (by decide))).bind fun _ hp => hp

theorem Ls.parseFields_meets :
    Meets (Speaks (HiddenFile srv fs c fields)) (Command.Unbroken fs) (Ls.parseFields srv fs c fields) := by
  unfold Ls.parseFields
  refine (PathBasedCommand.parseFields_meets hc hf).bind fun path _ => ?_
  refine (Meets.foldlM (P := fun _ => True) trivial ?_).bind fun _ _ => trivial
  rintro ⟨returnSize, returnMod⟩ field - -
  dsimp only
  split
  · exact (parseBoolean_meets (plainly (by decide) rfl (by decide)) field).bind fun _ _ => trivial
  · split
    · exact (parseBoolean_meets (plainly (by decide) rfl (by decide)) field).bind fun _ _ => trivial
    · trivial

theorem TransportCommand.parseFields_meets :
    Meets (Speaks (HiddenFile srv fs c fields)) (fun p => Taken fs p.1 ∧ Unbroken p.2.native)
      (TransportCommand.parseFields srv fs c fields) := by
  unfold TransportCommand.parseFields
  refine (PathBasedCommand.parseFields_meets hc hf).bind fun path hpath => ?_
  have hrest : ∀ name : Option Path, (∀ n ∈ name, Unbroken n.native) →
      Meets (Speaks (HiddenFile srv fs c fields)) (fun p : Path × Path => Taken fs p.1 ∧ Unbroken p.2.native) (do
        let name ← require name (ascii "name field is missing")
        let path ← require path (ascii "transport commands require path field")
        .ok (path, name)) := by
    intro name hname
    refine (require_meets hname (plainly (by decide) rfl (by decide))).bind fun name hname => ?_
    exact (require_meets hpath (plainly (by decide) rfl (by decide))).bind fun path hpath => ⟨hpath, hname⟩
  dsimp only
  split
  · exact hrest none (by simp)
  · rename_i field hfield
    refine ((parseExistingName_meets (hf field (List.mem_of_find?_eq_some hfield)) none).map (f := some) ?_).bind hrest
    rintro p hp n ⟨⟩
    exact hp

/-- The errors of parsing speak, but for a path field that hides a file. -/
theorem CommandExecutor.parseFields_meets (n : CommandName) :
    Meets (Speaks (n.takesPath = true ∧ HiddenFile srv fs c fields)) (Command.Unbroken fs)
      (parseFields srv fs c fields n) := by
  have htakes {α : Type} {P : α → Prop} {x : Except Exception α} (hn : n.takesPath = true)
      (h : Meets (Speaks (HiddenFile srv fs c fields)) P x) :
      Meets (Speaks (n.takesPath = true ∧ HiddenFile srv fs c fields)) P x :=
    h.imp (fun e he => he.imp fun hh => ⟨hn, hh⟩) (fun _ ha => ha)
  cases n with
  | auth => exact Auth.parseFields_meets hf
  | cd => exact htakes rfl (Cd.parseFields_meets hf hc)
  | cp | mv => exact (htakes rfl (TransportCommand.parseFields_meets hf hc)).map fun _ hp => hp
  | dl => exact Dl.parseFields_meets hf
  | ls => exact htakes rfl (Ls.parseFields_meets hf hc)
  | mkdir | rm => exact (parseSingleName_meets hf).map fun _ _ => trivial
  | rename => exact Rename.parseFields_meets hf
  | tree => exact (htakes rfl (PathBasedCommand.parseFields_meets hc hf)).map fun _ _ => trivial
  | ul => exact Ul.parseFields_meets hf
  | bye | dls | exit | logout | name | perms | pwd => trivial

end Parsing

/-- Names of entries and times as a listing prints them. -/
structure Named (around : Surroundings) (fs : FileSystem) : Prop where
  names : ∀ p, ∀ n ∈ fs.entries p, Unbroken n ∧ (0 : Byte) ∉ n
  times : ∀ p, Unbroken (around.lastWriteTime p) ∧ (0 : Byte) ∉ around.lastWriteTime p

theorem Root.unbroken_names (root : Root) (h : Unbroken root.path.native) : ∀ n ∈ root.names, newline ∉ n := by
  intro n hn hm
  have hne : root.names ≠ [] := List.ne_nil_of_mem hn
  apply h
  rw [Root.path, Path.ofKey_native_of_ne hne]
  exact List.mem_flatMap.mpr ⟨n, hn, List.mem_cons_of_mem slash hm⟩

theorem ClientContext.Unbroken.relative (h : c.Unbroken srv) {p : Path} (hp : p.isAbsolute = true)
    (hn : TinDox.Unbroken p.native) : TinDox.Unbroken (srv.getRelativePathTo fs p).native :=
  ServerContext.notMem_getRelativePathTo hp (by decide) (by decide) (srv.root.unbroken_names h.root) hn

theorem Taken.legible (h : c.Unbroken srv) {p : Path} (hp : Taken fs p) : Legible (srv.getRelativePathTo fs p).native :=
  ⟨srv.getRelativePathTo_ne_nil fs p, h.relative hp.absolute hp.unbroken,
    ServerContext.noNul_getRelativePathTo hp.absolute hp.there⟩

theorem unbroken_errno (e : Errno) : Unbroken e.toBytes := (unbroken_ascii (by decide)).append (unbroken_decimal _)

theorem legible_of_head {l : Bytes} {c : Byte} (hhead : l.head? = some c) (hl : Unbroken l) (hz : (0 : Byte) ∉ l) :
    Legible l := by
  refine ⟨?_, hl, hz⟩
  rintro rfl
  simp at hhead

theorem quotedName_clean {n : Bytes} (h : Unbroken n ∧ (0 : Byte) ∉ n) :
    Unbroken (quotedName n) ∧ (0 : Byte) ∉ quotedName n := by
  constructor
  · intro hm
    simp only [quotedName, List.cons_append, List.mem_cons, List.mem_append, List.not_mem_nil, or_false] at hm
    rcases hm with hm | hm | hm
    · exact absurd hm (by decide)
    · exact h.1 hm
    · exact absurd hm (by decide)
  · intro hm
    simp only [quotedName, List.cons_append, List.mem_cons, List.mem_append, List.not_mem_nil, or_false] at hm
    rcases hm with hm | hm | hm
    · exact absurd hm (by decide)
    · exact h.2 hm
    · exact absurd hm (by decide)

variable {around : Surroundings}

theorem Ls.line_legible (h : Named around fs) {p : Path} {n : Bytes} (hn : n ∈ fs.entries p) (size mod : Bool) :
    Legible (Ls.line around fs p size mod n) := by
  obtain ⟨hname, hnul⟩ := quotedName_clean (h.names p n hn)
  obtain ⟨htime, htnul⟩ := quotedName_clean (h.times (entryPath p n))
  have hblank : Unbroken (ascii " ") ∧ (0 : Byte) ∉ ascii " " := ⟨unbroken_ascii (by decide), by decide⟩
  refine legible_of_head (c := 34) rfl ?_ ?_
  · refine (hname.append ?_).append ?_
    · split
      · refine hblank.1.append ?_
        split
        · exact unbroken_decimal _
        · exact unbroken_ascii (by decide)
      · exact unbroken_nil
    · split
      · exact hblank.1.append htime
      · exact unbroken_nil
  · simp only [Ls.line, List.mem_append, not_or]
    refine ⟨⟨hnul, ?_⟩, ?_⟩
    · split
      · simp only [List.mem_append, not_or]
        refine ⟨hblank.2, ?_⟩
        split
        · exact notMem_decimal (by decide)
        · decide
      · simp
    · split
      · simp only [List.mem_append, not_or]
        exact ⟨hblank.2, htnul⟩
      · simp

theorem Tree.lines_legible (h : Named around fs) (fuel depth : Nat) (p : Path) :
    ∀ l ∈ Tree.lines srv fs fuel depth p, Legible l := by
  have hindent : ∀ depth : Nat, Unbroken (List.replicate depth 32) ∧ (0 : Byte) ∉ List.replicate depth 32 := by
    intro depth
    constructor <;> exact fun hm => absurd (List.eq_of_mem_replicate hm) (by decide)
  have hline : ∀ (depth : Nat) (p : Path) (n mark : Bytes), n ∈ fs.entries p → (mark = [] ∨ mark = ascii " E") →
      Legible (List.replicate depth 32 ++ quotedName n ++ mark) := by
    intro depth p n mark hn hmark
    obtain ⟨hname, hnul⟩ := quotedName_clean (h.names p n hn)
    have hclean : Unbroken mark ∧ (0 : Byte) ∉ mark := by
      rcases hmark with rfl | rfl
      · exact ⟨unbroken_nil, List.not_mem_nil⟩
      · exact ⟨unbroken_ascii (by decide), by decide⟩
    refine ⟨by simp [quotedName], ((hindent depth).1.append hname).append hclean.1, ?_⟩
    simp only [List.mem_append, not_or]
    exact ⟨⟨(hindent depth).2, hnul⟩, hclean.2⟩
  induction fuel generalizing depth p with
  | zero => simp [Tree.lines]
  | succ fuel ih =>
    intro l hl
    obtain ⟨n, hn, hl⟩ := List.mem_flatMap.mp (show l ∈ List.flatMap _ _ from hl)
    dsimp only at hl
    split at hl
    · simp at hl
    · split at hl
      · rcases List.mem_cons.mp hl with rfl | hl
        · refine hline depth p n _ hn ?_
          split
          · exact .inr rfl
          · exact .inl rfl
        · exact ih _ _ l hl
      · rw [List.mem_singleton.mp hl]
        simpa using hline depth p n [] hn (.inl rfl)

theorem ServerContext.uploadFile_speaks (srv : ServerContext) (around : Surroundings) (fs : FileSystem) (p : Path) (size : Nat) :
    Meets (Speaks hidden) (fun _ => True) (srv.uploadFile around fs p size) := by
  unfold ServerContext.uploadFile
  split
  · exact speaks_refuse _
  · split
    · rename_i he
      obtain ⟨-, rfl⟩ := FileSystem.fsExists_eq_error.mp he
      trivial
    · exact speaks_refuse _
    · rename_i he
      obtain ⟨-, rfl⟩ := FileSystem.fsExists_eq_error.mp he
      trivial
    · exact speaks_refuse _
    · rename_i he
      rw [FileSystem.fsSpace_error he]
      trivial
    · split
      · exact speaks_refuse _
      · split
        · exact speaks_refuse _
        · trivial

theorem Surroundings.isPathLocked_error {p : Path} {e : Exception} (h : around.isPathLocked p = .error e) :
    Speaks hidden e := by
  unfold Surroundings.isPathLocked at h
  split at h
  · cases h
    trivial
  · cases h

theorem Ls.directory_error {w : World} {path : Option Path} {e : Exception} (h : Ls.directory w path = .error e) :
    Speaks hidden e := by
  unfold Ls.directory at h
  split at h
  · split at h
    · cases h
    · cases h
      trivial
  · cases h
    trivial

abbrev Answers (result : World × Outcome) : Prop := Meets (Speaks False) (fun lines => ∀ l ∈ lines, Legible l) result.2

variable {w : World}

theorem Auth.execute_answers (u p : Bytes) : Answers (Auth.execute srv around w u p) := by
  have herror : ∀ e, srv.authorizeUser around u p = .error e → Speaks False e := by
    intro e he
    unfold ServerContext.authorizeUser at he
    split at he
    · cases he
      exact speaks_refuse _
    · split at he
      · cases he
        exact speaks_refuse _
      · split at he
        · cases he
          exact speaks_refuse _
        · cases he
  unfold Auth.execute
  split
  · rename_i e he
    split <;> exact herror _ he
  · trivial
  · split
    · rename_i e he
      unfold ClientContext.setAuthToken at he
      split at he
      · cases he
        exact speaks_refuse _
      · cases he
    · split
      · rename_i e he
        unfold ServerContext.lockPath at he
        split at he
        · cases he
        · cases he
          trivial
      · simp [Answers]

theorem Cp.execute_answers (hc : w.client.Unbroken srv) {path name : Path} (hp : Taken w.fs path)
    (hn : Unbroken name.native) : Answers (Cp.execute srv w path name) := by
  unfold Cp.execute
  split
  · trivial
  · split
    · trivial
    · rename_i he
      rw [Cp.freePath_error he]
      trivial
    · split
      · simp [Answers]
      · exact speaks_refuse _
      · exact speaks_refuseWith (c := 34) rfl (by decide) (hn.quoted.append (unbroken_ascii (by decide)))
      · have hrelative : Unbroken (quoted (srv.getRelativePathTo w.fs path).native) :=
          (hc.relative hp.absolute hp.unbroken).quoted
        exact speaks_refuseWith (c := 117) rfl (by decide)
          (((((((unbroken_ascii (by decide)).append hn.quoted).append (unbroken_ascii (by decide))).append hrelative).append
            (unbroken_ascii (by decide))).append (unbroken_errno _)).append (unbroken_ascii (by decide)))

theorem Dl.execute_answers (name : Path) (offset : Nat) : Answers (Dl.execute srv w name offset) := by
  unfold Dl.execute
  split
  · trivial
  · split
    · rename_i e he
      unfold ServerContext.downloadFile at he
      split at he
      · split at he
        · cases he
        · cases he
          exact speaks_refuseWith (c := 105) rfl (by decide) (unbroken_ascii (by decide))
      · cases he
        trivial
    · split
      · exact List.forall_mem_singleton.mpr (legible_decimal _)
      · exact speaks_refuseWith (c := 105) rfl (by decide) (unbroken_ascii (by decide))

theorem renameOutcome_answers {name unknown : Bytes} (hn : Unbroken name) (hu : Unbroken unknown)
    (result : Except Errno FileSystem) : Answers (renameOutcome w name unknown result) := by
  unfold renameOutcome
  split
  · simp [Answers]
  · exact speaks_refuse _
  · exact speaks_refuseWith (c := 34) rfl (by decide) (hn.quoted.append (unbroken_ascii (by decide)))
  · exact speaks_refuseWith (c := 117) rfl (by decide)
      (((((unbroken_ascii (by decide)).append hu).append (unbroken_ascii (by decide))).append (unbroken_errno _)).append
        (unbroken_ascii (by decide)))

theorem Mv.execute_answers (hc : w.client.Unbroken srv) {path name : Path} (hp : Taken w.fs path)
    (hn : Unbroken name.native) : Answers (Mv.execute srv around w path name) := by
  unfold Mv.execute
  split
  · trivial
  · split
    · rename_i e he
      exact Surroundings.isPathLocked_error he
    · exact speaks_refuse _
    · split
      · rename_i he
        obtain ⟨-, rfl⟩ := FileSystem.fsExists_eq_error.mp he
        trivial
      · exact speaks_refuse _
      · exact renameOutcome_answers hn ((((unbroken_ascii (by decide)).append hn.quoted).append (unbroken_ascii (by decide))).append
          (hc.relative hp.absolute hp.unbroken).quoted) _

theorem Rename.execute_answers {oname nname : Path} (ho : Unbroken oname.native) (hn : Unbroken nname.native) :
    Answers (Rename.execute around w oname nname) := by
  unfold Rename.execute
  split
  · trivial
  · split
    · rename_i he
      obtain ⟨-, rfl⟩ := FileSystem.fsExists_eq_error.mp he
      trivial
    · exact speaks_refuse _
    · split
      · rename_i e he
        exact Surroundings.isPathLocked_error he
      · exact speaks_refuse _
      · split
        · simp [Answers]
        · split
          · rename_i he
            obtain ⟨-, rfl⟩ := FileSystem.fsExists_eq_error.mp he
            trivial
          · exact speaks_refuse _
          · exact renameOutcome_answers ho ((((unbroken_ascii (by decide)).append ho.quoted).append
              (unbroken_ascii (by decide))).append hn.quoted) _

theorem Rm.execute_answers (name : Path) : Answers (Rm.execute around w name) := by
  unfold Rm.execute
  split
  · trivial
  · split
    · rename_i he
      obtain ⟨-, rfl⟩ := FileSystem.fsExists_eq_error.mp he
      trivial
    · exact speaks_refuse _
    · split
      · rename_i e he
        exact Surroundings.isPathLocked_error he
      · exact speaks_refuse _
      · split
        · exact List.forall_mem_singleton.mpr (legible_decimal _)
        · trivial

theorem Ul.execute_answers (name : Path) (size : Nat) (retry : Bool) : Answers (Ul.execute srv around w name size retry) := by
  have hresume : ∀ table fs, Meets (Speaks False) (fun _ => True) (Ul.resumeUpload srv around fs table) := by
    intro table fs
    unfold Ul.resumeUpload
    split
    · rename_i path size offset hpath hsize hoffset
      have hspeaks : Meets (Speaks False) _ (srv.uploadFile around fs ⟨path⟩ (toUnsigned size)) :=
        srv.uploadFile_speaks around fs ⟨path⟩ (toUnsigned size)
      split
      · rename_i e he
        rwa [he] at hspeaks
      · trivial
    · exact speaks_refuse _
  have hstart : ∀ cur token, Meets (Speaks False) (fun _ => True)
      (if retry then Ul.retryUpload srv around w token else Ul.startNewUpload srv around w cur name size).2 := by
    intro cur token
    split
    · unfold Ul.retryUpload
      split
      · exact speaks_refuse _
      · split
        · trivial
        · exact hresume _ _
    · exact srv.uploadFile_speaks around w.fs (cur / name) size
  unfold Ul.execute
  split
  · rename_i cur token hcur htoken
    have hspeaks := hstart cur token
    split
    · rename_i w' e he
      rwa [he] at hspeaks
    · exact List.forall_mem_singleton.mpr (legible_decimal _)
  · trivial

/-- Every command but `name`, `perms` and `pwd` answers with legible lines. -/
theorem CommandExecutor.execute_answers {command : Command} (hc : w.client.Unbroken srv) (hcmd : command.Unbroken w.fs)
    (hnamed : Named around w.fs) (hname : command ≠ .name) (hperms : command ≠ .perms) (hpwd : command ≠ .pwd) :
    Answers (execute srv around w command) := by
  cases command with
  | auth u p => exact Auth.execute_answers u p
  | bye | exit | logout => simp [Answers, execute]
  | cd path =>
    rw [execute, Cd.execute]
    split
    · trivial
    · exact List.forall_mem_singleton.mpr (Taken.legible hc hcmd)
  | cp path name => exact Cp.execute_answers hc hcmd.1 hcmd.2
  | dl name offset => exact Dl.execute_answers name offset
  | dls =>
    rw [execute, Dls.execute]
    split
    · simp [Answers]
    · exact speaks_refuse _
  | ls path size mod =>
    rw [execute, Ls.execute]
    split
    · rename_i e he
      exact Ls.directory_error he
    · rename_i p hp
      intro l hl
      obtain ⟨n, hn, rfl⟩ := List.mem_map.mp hl
      exact Ls.line_legible hnamed (List.mem_filter.mp hn).1 size mod
  | tree path =>
    rw [execute, Tree.execute]
    split
    · rename_i e he
      exact Ls.directory_error he
    · exact Tree.lines_legible hnamed _ _ _
  | mkdir name =>
    rw [execute, Mkdir.execute]
    split
    · trivial
    · split
      · rename_i he
        obtain ⟨-, rfl⟩ := FileSystem.fsExists_eq_error.mp he
        trivial
      · exact speaks_refuseWith (c := 116) rfl (by decide) (unbroken_ascii (by decide))
      · split
        · simp [Answers]
        · trivial
  | mv path name => exact Mv.execute_answers hc hcmd.1 hcmd.2
  | rename oname nname => exact Rename.execute_answers hcmd.1 hcmd.2
  | rm name => exact Rm.execute_answers name
  | ul name size retry => exact Ul.execute_answers name size retry
  | name => exact absurd rfl hname
  | perms => exact absurd rfl hperms
  | pwd => exact absurd rfl hpwd

end TinDox
