import TinDox.Accounts
import TinDox.DownloadRetry
import TinDox.SelfDelimiting

/-! The code and the number of lines of an answer. The success code stands for a command that has
been executed, and then the name of the request tells how many lines there are; every refusal
has one. -/

namespace TinDox

open Fallible

theorem refuses_refuse {code : ProtocolCode} (h : code ≠ .ok) : (refuse code).Refuses := h

theorem refuses_refuseWith {code : ProtocolCode} (h : code ≠ .ok) (message : Bytes) :
    (refuseWith code message).Refuses := h

abbrev Refusing {α : Type} (x : Except Exception α) : Prop := Meets Exception.Refuses (fun _ => True) x

theorem Refusing.bind {α β : Type} {x : Except Exception α} {f : α → Except Exception β} (h : Refusing x)
    (hf : ∀ a, Refusing (f a)) : Refusing (x >>= f) :=
  Meets.bind h fun a _ => hf a

theorem Refusing.map {α β : Type} {x : Except Exception α} (h : Refusing x) (f : α → β) : Refusing (x.map f) :=
  Meets.map h fun _ _ => trivial

theorem Refusing.foldlM {α β : Type} {f : β → α → Except Exception β} (hf : ∀ b a, Refusing (f b a)) (l : List α) (b : β) :
    Refusing (l.foldlM f b) :=
  Meets.foldlM trivial fun b a _ _ => hf b a

section Fields

variable {srv : ServerContext} {fs : FileSystem} {c : ClientContext} {fields : List Field}

theorem parseString_refusing (fieldName : Bytes) (current : Option Bytes) (field : Field) :
    Refusing (parseString fieldName current field) := by
  unfold parseString
  split
  · exact refuses_refuseWith (by decide) _
  · split
    · trivial
    · exact refuses_refuseWith (by decide) _

theorem parseNameField_refusing (fieldName typeHint noun : Bytes) (current : Option Path) (field : Field) :
    Refusing (parseNameField fieldName typeHint noun current field) := by
  unfold parseNameField
  split
  · exact refuses_refuseWith (by decide) _
  · split
    · exact refuses_refuseWith (by decide) _
    · dsimp only
      split
      · exact refuses_refuseWith (by decide) _
      · trivial

theorem parseBoolean_refusing (fieldName : Bytes) (field : Field) : Refusing (parseBoolean fieldName field) := by
  unfold parseBoolean
  split
  · trivial
  · exact refuses_refuseWith (by decide) _

theorem parseInteger_refusing (fieldName : Bytes) (field : Field) : Refusing (parseInteger fieldName field) := by
  unfold parseInteger
  split
  · trivial
  · exact refuses_refuseWith (by decide) _

theorem require_refusing {α : Type} (value : Option α) (message : Bytes) : Refusing (require value message) := by
  cases value with
  | some x => trivial
  | none => exact refuses_refuseWith (by decide) _

theorem getCurrentPath_refusing (c : ClientContext) : Refusing (getCurrentPath c) := by
  unfold getCurrentPath
  split <;> trivial

theorem fsExists_refuses {p : Path} {e : Exception} (h : fs.fsExists p = .error e) : e.Refuses := by
  obtain ⟨-, rfl⟩ := FileSystem.fsExists_eq_error.mp h
  trivial

theorem fsExists_refusing (fs : FileSystem) (p : Path) : Refusing (fs.fsExists p) := by
  unfold FileSystem.fsExists
  split <;> trivial

theorem parseExistingName_refusing (fs : FileSystem) (c : ClientContext) (current : Option Path) (field : Field) :
    Refusing (parseExistingName fs c current field) := by
  refine (parseNameField_refusing _ _ _ current field).bind fun name => (getCurrentPath_refusing c).bind fun cur =>
    (fsExists_refusing fs (cur / name)).bind fun found => ?_
  split
  · exact refuses_refuseWith (by decide) _
  · trivial

theorem isPathForbidden_refusing (srv : ServerContext) (path : Path) : Refusing (srv.isPathForbidden path) := by
  unfold ServerContext.isPathForbidden
  split
  · exact refuses_refuseWith (by decide) _
  · trivial

theorem PathBasedCommand.parseFields_refusing (srv : ServerContext) (fs : FileSystem) (c : ClientContext)
    (fields : List Field) : Refusing (PathBasedCommand.parseFields srv fs c fields) := by
  unfold PathBasedCommand.parseFields
  split
  · trivial
  · refine Refusing.map ?_ _
    unfold PathBasedCommand.parsePath
    split
    · exact refuses_refuseWith (by decide) _
    · refine Refusing.bind ?_ fun p => Refusing.bind ?_ fun found => ?_
      · unfold PathBasedCommand.finalPath
        split
        · trivial
        · exact (getCurrentPath_refusing c).bind fun cur => trivial
      · refine (isPathForbidden_refusing srv p).bind fun forbidden => ?_
        split
        · trivial
        · exact fsExists_refusing fs p
      · split
        · exact refuses_refuseWith (by decide) _
        · split
          · exact refuses_refuseWith (by decide) _
          · trivial

theorem TransportCommand.parseFields_refusing (srv : ServerContext) (fs : FileSystem) (c : ClientContext)
    (fields : List Field) : Refusing (TransportCommand.parseFields srv fs c fields) := by
  refine (PathBasedCommand.parseFields_refusing srv fs c fields).bind fun path => ?_
  have hrest : ∀ name : Option Path, Refusing (do
      let name ← require name (ascii "name field is missing")
      let path ← require path (ascii "transport commands require path field")
      .ok (path, name)) := by
    intro name
    exact (require_refusing _ _).bind fun name => (require_refusing _ _).bind fun path => trivial
  dsimp only
  split
  · exact hrest none
  · exact ((parseExistingName_refusing _ _ _ _).map some).bind hrest

theorem parseSingleName_refusing (fields : List Field) : Refusing (parseSingleName fields) := by
  refine (Refusing.foldlM (fun name field => ?_) fields none).bind fun name => require_refusing _ _
  split
  · exact (parseNameField_refusing _ _ _ _ _).map _
  · trivial

/-- No field is refused with the success code. -/
theorem CommandExecutor.parseFields_refusing (srv : ServerContext) (fs : FileSystem) (c : ClientContext)
    (fields : List Field) (n : CommandName) : Refusing (parseFields srv fs c fields n) := by
  cases n with
  | bye | dls | exit | logout | name | perms | pwd => trivial
  | cp | mv => exact (TransportCommand.parseFields_refusing _ _ _ _).map _
  | mkdir | rm => exact (parseSingleName_refusing _).map _
  | tree => exact (PathBasedCommand.parseFields_refusing _ _ _ _).map _
  | cd =>
    exact (PathBasedCommand.parseFields_refusing srv fs c fields).bind fun path =>
      (require_refusing _ _).bind fun path => trivial
  | auth =>
    refine (Refusing.foldlM (fun (username, password) field => ?_) fields _).bind fun (username, password) =>
      (require_refusing _ _).bind fun username => (require_refusing _ _).bind fun password => trivial
    dsimp only
    split
    · exact (parseString_refusing _ _ _).bind fun login => trivial
    · split
      · exact (parseString_refusing _ _ _).bind fun passwd => trivial
      · trivial
  | dl =>
    refine (Refusing.foldlM (fun (name, offset) field => ?_) fields _).bind fun (name, offset) =>
      (require_refusing _ _).bind fun name => trivial
    dsimp only
    split
    · exact (parseExistingName_refusing _ _ _ _).bind fun name => trivial
    · split
      · exact (parseInteger_refusing _ _).bind fun offset => trivial
      · trivial
  | ls =>
    refine (PathBasedCommand.parseFields_refusing srv fs c fields).bind fun path =>
      (Refusing.foldlM (fun (size, mod) field => ?_) fields _).bind fun (size, mod) => trivial
    dsimp only
    split
    · exact (parseBoolean_refusing _ _).bind fun size => trivial
    · split
      · exact (parseBoolean_refusing _ _).bind fun mod => trivial
      · trivial
  | rename =>
    refine (Refusing.foldlM (fun (oname, nname) field => ?_) fields _).bind fun (oname, nname) =>
      (require_refusing _ _).bind fun oname => (require_refusing _ _).bind fun nname => trivial
    dsimp only
    split
    · exact (parseNameField_refusing _ _ _ _ _).bind fun name => trivial
    · split
      · exact (parseNameField_refusing _ _ _ _ _).bind fun name => trivial
      · trivial
  | ul =>
    refine (Refusing.foldlM (fun parsed field => ?_) fields _).bind fun parsed =>
      (require_refusing _ _).bind fun name => (require_refusing _ _).bind fun size => trivial
    unfold Ul.parseField
    split
    · exact (parseNameField_refusing _ _ _ _ _).bind fun name => trivial
    · split
      · exact (parseInteger_refusing _ _).bind fun size => trivial
      · split
        · exact (parseBoolean_refusing _ _).bind fun retry => trivial
        · trivial

end Fields

section Commands

variable {srv : ServerContext} {around : Surroundings} {w : World}

theorem authorizeUser_refusing (srv : ServerContext) (around : Surroundings) (u p : Bytes) :
    Refusing (srv.authorizeUser around u p) := by
  rcases srv.authorizeUser_cases around u p with ⟨-, h⟩ | ⟨-, -, h⟩ | ⟨-, -, token, h, -⟩
  · rw [h]
    exact refuses_refuse (by decide)
  · rw [h]
    exact refuses_refuse (by decide)
  · rw [h]
    trivial

theorem isPathLocked_refuses {path : Path} {e : Exception} (h : around.isPathLocked path = .error e) : e.Refuses := by
  unfold Surroundings.isPathLocked at h
  split at h
  · cases h
    trivial
  · cases h

theorem directory_refuses {path : Option Path} {e : Exception} (h : Ls.directory w path = .error e) : e.Refuses := by
  unfold Ls.directory at h
  split at h
  · split at h
    · cases h
    · cases h
      trivial
  · cases h
    trivial

/-- How many lines an executed command adds to its answer; a listing has one for each entry. -/
def CommandName.lineCount : CommandName → Option Nat
  | auth | bye | exit | logout | cp | dls | mkdir | mv | rename => some 0
  | cd | dl | name | perms | pwd | rm | ul => some 1
  | ls | tree => none

/-- The lines of a command that does not throw, or the error of one that does. -/
abbrev Concise (command : Command) (result : World × Outcome) : Prop :=
  Meets Exception.Refuses (fun lines => ∀ n ∈ command.commandName.lineCount, lines.length = n) result.2

theorem concise_of_length {command : Command} {n : Nat} (hn : command.commandName.lineCount = some n) {lines : List Bytes}
    (h : lines.length = n) : ∀ m ∈ command.commandName.lineCount, lines.length = m := by
  rintro m hm
  rw [hn] at hm
  rw [h, Option.some.inj hm]

theorem Auth.execute_concise (u p : Bytes) : Concise (.auth u p) (Auth.execute srv around w u p) := by
  have hrefusing := authorizeUser_refusing srv around u p
  unfold Auth.execute
  split
  · rename_i e he
    rw [he] at hrefusing
    split <;> exact hrefusing
  · trivial
  · split
    · rename_i e he
      unfold ClientContext.setAuthToken at he
      split at he
      · cases he
        exact refuses_refuse (by decide)
      · cases he
    · split
      · rename_i e he
        unfold ServerContext.lockPath at he
        split at he
        · cases he
        · cases he
          trivial
      · exact concise_of_length rfl rfl

theorem renameOutcome_refuses {name unknown : Bytes} {result : Except Errno FileSystem} :
    Meets Exception.Refuses (· = []) (renameOutcome w name unknown result).2 := by
  unfold renameOutcome
  split
  · exact rfl
  · exact refuses_refuse (by decide)
  · exact refuses_refuseWith (by decide) _
  · exact refuses_refuseWith (by decide) _

theorem Mv.execute_concise (path name : Path) : Concise (.mv path name) (Mv.execute srv around w path name) := by
  unfold Mv.execute
  split
  · trivial
  · split
    · rename_i e he
      exact isPathLocked_refuses he
    · exact refuses_refuse (by decide)
    · split
      · rename_i he
        exact fsExists_refuses he
      · exact refuses_refuse (by decide)
      · exact renameOutcome_refuses.imp (fun _ h => h) fun lines h => concise_of_length rfl (by rw [h]; rfl)

theorem Rename.execute_concise (oname nname : Path) :
    Concise (.rename oname nname) (Rename.execute around w oname nname) := by
  unfold Rename.execute
  split
  · trivial
  · split
    · rename_i he
      exact fsExists_refuses he
    · exact refuses_refuse (by decide)
    · split
      · rename_i e he
        exact isPathLocked_refuses he
      · exact refuses_refuse (by decide)
      · split
        · exact concise_of_length rfl rfl
        · split
          · rename_i he
            exact fsExists_refuses he
          · exact refuses_refuse (by decide)
          · exact renameOutcome_refuses.imp (fun _ h => h) fun lines h => concise_of_length rfl (by rw [h]; rfl)

theorem Rm.execute_concise (name : Path) : Concise (.rm name) (Rm.execute around w name) := by
  unfold Rm.execute
  split
  · trivial
  · split
    · rename_i he
      exact fsExists_refuses he
    · exact refuses_refuse (by decide)
    · split
      · rename_i e he
        exact isPathLocked_refuses he
      · exact refuses_refuse (by decide)
      · split
        · exact concise_of_length rfl rfl
        · trivial

theorem Ul.execute_concise (name : Path) (size : Nat) (retry : Bool) :
    Concise (.ul name size retry) (Ul.execute srv around w name size retry) := by
  rcases hx : Ul.execute srv around w name size retry with ⟨w', (e | -) | lines⟩
  · exact Ul.execute_error hx
  · trivial
  · unfold Ul.execute at hx
    split at hx
    · split at hx
      · cases hx
      · cases hx
        exact concise_of_length rfl rfl
    · cases hx

/-- A command that throws does not do it with the success code, and one that does not has as many
lines as it should. -/
theorem CommandExecutor.execute_concise (command : Command) : Concise command (execute srv around w command) := by
  cases command with
  | auth u p => exact Auth.execute_concise u p
  | bye | exit | logout => exact concise_of_length rfl rfl
  | cd path =>
    rw [execute, Cd.execute]
    split
    · trivial
    · exact concise_of_length rfl rfl
  | cp path name =>
    rw [execute, Cp.execute]
    split
    · trivial
    · split
      · trivial
      · rename_i he
        rw [Cp.freePath_error he]
        trivial
      · split
        · exact concise_of_length rfl rfl
        · exact refuses_refuse (by decide)
        · exact refuses_refuseWith (by decide) _
        · exact refuses_refuseWith (by decide) _
  | dl name offset =>
    rcases hx : Dl.execute srv w name offset with ⟨w', e | lines⟩
    · rw [execute, hx]
      exact Dl.execute_refuses hx
    · rw [execute, hx]
      rcases Dl.execute_cases srv w name offset with ⟨e, h⟩ | ⟨cur, token, -, -, -, h⟩
      · rw [hx] at h
        cases h
      · rw [hx] at h
        cases h
        exact concise_of_length rfl rfl
  | dls =>
    rw [execute, Dls.execute]
    split
    · exact concise_of_length rfl rfl
    · exact refuses_refuse (by decide)
  | ls path size mod =>
    rw [execute, Ls.execute]
    split
    · rename_i e he
      exact directory_refuses he
    · intro n hn
      cases hn
  | tree path =>
    rw [execute, Tree.execute]
    split
    · rename_i e he
      exact directory_refuses he
    · intro n hn
      cases hn
  | mkdir name =>
    rw [execute, Mkdir.execute]
    split
    · trivial
    · split
      · rename_i he
        exact fsExists_refuses he
      · exact refuses_refuseWith (by decide) _
      · split
        · exact concise_of_length rfl rfl
        · trivial
  | mv path name => exact Mv.execute_concise path name
  | name | perms | pwd =>
    rw [execute]
    split
    · exact concise_of_length rfl rfl
    · trivial
  | rename oname nname => exact Rename.execute_concise oname nname
  | rm name => exact Rm.execute_concise name
  | ul name size retry => exact Ul.execute_concise name size retry

end Commands

section Requests

variable {srv : ServerContext} {around : Surroundings} {fs : FileSystem} {s : Session} {r : Request}

/-- The request is for a command that is known and allowed, its fields are accepted, and the command
does not throw. -/
def Session.Executes (srv : ServerContext) (around : Surroundings) (fs : FileSystem) (s : Session) (r : Request)
    (command : Command) (lines : List Bytes) : Prop :=
  CommandExecutor.setCommand s.context r.name = .ok command.commandName ∧
    CommandExecutor.parseFields srv fs s.context r.fields command.commandName = .ok command ∧
    (CommandExecutor.execute srv around ⟨fs, s.context⟩ command).2 = .ok lines

theorem refused_answer {fs' : FileSystem} {s' : Session} {e : Exception} (he : e.Refuses) {a : Answer}
    (h : (Session.refused fs' s' r e).answer = some a) : a.commandName = r.name ∧ a.code ≠ .ok ∧ a.lines.length = 1 := by
  cases e with
  | fatal => cases h
  | protocol e =>
    cases h
    exact ⟨rfl, he, rfl⟩

/-- An answer either reports what its command returned, with as many lines as the command has, or it is a
refusal of one line. -/
theorem executeCommand_answer_cases {a : Answer} (h : (s.executeCommand srv around fs r).answer = some a) :
    a.commandName = r.name ∧
    (a.code = .ok ∧ (∃ command, s.Executes srv around fs r command a.lines ∧
        ∀ n ∈ command.commandName.lineCount, a.lines.length = n) ∨
      a.code ≠ .ok ∧ a.lines.length = 1 ∧ ∀ command lines, ¬ s.Executes srv around fs r command lines) := by
  cases hset : CommandExecutor.setCommand s.context r.name with
  | error e =>
    rw [Session.executeCommand_stopped hset] at h
    have he : e.Refuses := by
      cases e with
      | fatal => trivial
      | protocol e => exact CommandExecutor.setCommand_error hset
    obtain ⟨hname, hcode, hlines⟩ := refused_answer he h
    refine ⟨hname, .inr ⟨hcode, hlines, ?_⟩⟩
    rintro command lines ⟨hset', -⟩
    rw [hset] at hset'
    cases hset'
  | ok n =>
    cases hparse : CommandExecutor.parseFields srv fs s.context r.fields n with
    | error e =>
      rw [Session.executeCommand_unparsed hset hparse] at h
      have he : Refusing (CommandExecutor.parseFields srv fs s.context r.fields n) :=
        CommandExecutor.parseFields_refusing srv fs s.context r.fields n
      rw [hparse] at he
      obtain ⟨hname, hcode, hlines⟩ := refused_answer he h
      refine ⟨hname, .inr ⟨hcode, hlines, ?_⟩⟩
      rintro command lines ⟨hset', hparse', -⟩
      obtain rfl := Except.ok.inj (hset.symm.trans hset')
      rw [hparse] at hparse'
      cases hparse'
    | ok command =>
      obtain rfl := CommandExecutor.parseFields_commandName hparse
      have hconcise : Concise command _ := @CommandExecutor.execute_concise srv around ⟨fs, s.context⟩ command
      rcases hx : CommandExecutor.execute srv around ⟨fs, s.context⟩ command with ⟨w, e | lines⟩
      · rw [Session.executeCommand_throws hset hparse hx] at h
        rw [hx] at hconcise
        obtain ⟨hname, hcode, hlines⟩ := refused_answer hconcise h
        refine ⟨hname, .inr ⟨hcode, hlines, ?_⟩⟩
        rintro command' lines ⟨hset', hparse', hx'⟩
        have hsame := Except.ok.inj (hset.symm.trans hset')
        rw [← hsame] at hparse'
        obtain rfl := Except.ok.inj (hparse.symm.trans hparse')
        rw [hx] at hx'
        cases hx'
      · rw [Session.executeCommand_executed hset hparse hx] at h
        rw [hx] at hconcise
        obtain rfl := accepted_answer h
        exact ⟨rfl, .inl ⟨rfl, command, ⟨hset, hparse, by rw [hx]⟩, hconcise⟩⟩

end Requests

end TinDox
