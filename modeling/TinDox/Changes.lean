import TinDox.ConfigDirectory
import TinDox.Isolation
import TinDox.Storage

/-! What a request does to the file system as clients see it. A request that is carried out makes one
change, which depends on the request and on what is there; one that is refused makes none. -/

namespace TinDox

open Lexical DirTree FileSystem Storage

abbrev FileChange := Change Bytes (Node Bytes)

variable {fs fs' : FileSystem} {p cur : Path} {j k : Key} {n : Bytes}

namespace FileSystem

/-- What `remove_all` does to an entry. The path itself is left when it has no name to be removed by. -/
def removal (fs : FileSystem) (p : Path) : FileChange :=
  match fs.locate p with
  | .ok k => .drop k
  | .error _ => .clear p.cString.key

def cleared (fs : FileSystem) (k : Key) : FileSystem := { fs with tree := DirTree.clear fs.tree k }

theorem get_cleared (fs : FileSystem) (k j : Key) : (fs.cleared k).get j = if k <+: j ∧ j ≠ k then none else fs.get j :=
  get_clear fs.tree k j

theorem get_cleared_self (fs : FileSystem) (k : Key) : (fs.cleared k).get k = fs.get k := by
  rw [get_cleared, if_neg]
  exact fun h => h.2 rfl

theorem view_cleared (fs : FileSystem) (k : Key) : (fs.cleared k).view = Change.apply (.clear k) fs.view := by
  funext j
  show (fs.cleared k).view j = if k <+: j ∧ j ≠ k then none else fs.view j
  by_cases hj : k <+: j ∧ j ≠ k
  · rw [if_pos hj, view_eq_none, get_cleared, if_pos hj]
  · rw [if_neg hj]
    exact view_of_data (by rw [get_cleared, if_neg hj]) rfl

theorem children_cleared (fs : FileSystem) (k : Key) : children (fs.cleared k).tree k = [] := by
  rw [List.eq_nil_iff_forall_not_mem]
  intro a ha
  have hsome : ((fs.cleared k).get (k ++ [a])).isSome := mem_children ha
  rw [get_cleared, if_pos ⟨List.prefix_append k [a], by simp⟩] at hsome
  cases hsome

theorem view_pruned (hk : k ≠ []) : FileSystem.view { fs with tree := prune fs.tree k } = Change.apply (.drop k) fs.view := by
  funext j
  show FileSystem.view _ j = if k <+: j then none else fs.view j
  by_cases hj : k <+: j
  · rw [if_pos hj, view_eq_none]
    exact (get_prune fs.tree hk j).trans (if_pos hj)
  · rw [if_neg hj]
    exact view_of_data ((get_prune fs.tree hk j).trans (if_neg hj)) rfl

theorem drop_clear (k : Key) (s : Store Bytes (Node Bytes)) :
    Change.apply (.drop k) (Change.apply (.clear k) s) = Change.apply (.drop k) s := by
  funext j
  show (if k <+: j then none else if k <+: j ∧ j ≠ k then none else s j) = if k <+: j then none else s j
  by_cases hj : k <+: j
  · rw [if_pos hj, if_pos hj]
  · rw [if_neg hj, if_neg hj, if_neg (fun h => hj h.1)]

theorem parts_ofKey_nil (h : k ≠ []) : (Path.ofKey (k ++ [[]])).parts = (Path.ofKey k).parts ++ [[]] := by
  have hh := Path.parts_concat_slash (spell k) []
  rw [Path.parts_of_no_slash (p := ⟨[]⟩) (by simp), ← Path.ofKey_native_of_ne h] at hh
  rw [Path.parts, Path.ofKey_native_of_ne (by simp), Path.spell_concat, ← Path.ofKey_native_of_ne h]
  exact hh

theorem leaf_ofKey_nil (h : k ≠ []) : (Path.ofKey (k ++ [[]])).leaf = (Path.ofKey k).leaf := by
  rw [Path.leaf, Path.leaf, parts_ofKey_nil h, List.rdropWhile_concat_pos]
  simp

/-- Where a call finds the entry of a name in a plain directory, it finds it by its location. -/
theorem leaf_append (hp : cur.Plain) (hn : slash ∉ n) (hl : fs.locate (cur / ⟨n⟩) = .ok k) :
    (cur / ⟨n⟩).cString.leaf = (Path.ofKey k).leaf := by
  by_cases hcut : n.takeWhile (· ≠ 0) = []
  · have hstring : (cur / ⟨n⟩).cString = Path.ofKey (cur.key ++ [[]]) := by rw [hp.cString_append hn, hcut]
    have hkey : k = cur.key := by
      rw [(locate_ok hl).1, hstring, ← hp.append_name (n := []) (by simp)]
      exact hp.append_nil.2
    subst hkey
    rw [hstring]
    exact leaf_ofKey_nil (locate_ok hl).2.1
  · obtain ⟨-, rfl⟩ := locate_append hp hn hcut hl
    rw [hp.cString_append hn]

/-- It is still found when what stands below it is gone. -/
theorem WellFormed.locate_cleared (hw : fs.WellFormed) (hp : cur.Plain) (hn : slash ∉ n) (hl : fs.locate (cur / ⟨n⟩) = .ok k) :
    (fs.cleared k).locate (cur / ⟨n⟩) = .ok k := by
  obtain ⟨-, hk, hdir, habs⟩ := locate_ok hl
  have hnames := hw.locate_names hl
  have hofKey : (fs.cleared k).locate (Path.ofKey k) = .ok k := by
    apply (hw.clear k).locate_ofKey hk (fun m hm => (hnames m hm).1) (fun m hm => (hnames m hm).2.1)
      (fun m hm => (hnames m (List.mem_of_getLast? hm)).2.2)
    refine (get_cleared fs k k.dropLast).trans ?_
    rw [if_neg]
    · exact hdir
    · intro h
      have hlen := h.1.length_le
      have hpos := List.length_pos_iff.mpr hk
      rw [List.length_dropLast] at hlen
      omega
  rw [locate, Path.cString_ofKey (fun m hm => (hnames m hm).2.1), ← leaf_append hp hn hl, Path.isAbsolute_ofKey] at hofKey
  rw [locate, habs]
  exact hofKey

theorem get_of_resolve_nil (hp : cur.Plain) (h : fs.resolve (cur / ⟨[]⟩) = some k) : fs.get k = some .dir := by
  by_cases hroot : cur.key = []
  · have hk : k = [] := by
      rw [resolve_eq_key h, hp.append_nil.1.cString_eq, hp.append_nil.2, hroot]
    rw [hk]
    rfl
  · have hparts : (cur / ⟨[]⟩).cString.components = (Path.ofKey cur.key).components ++ [.here] := by
      rw [hp.append_nil.1.cString_eq, hp.append_name (by simp), Path.components, parts_ofKey_nil hroot, List.map_append]
      rfl
    rw [resolve, if_pos (isAbsolute_of_resolve h), hparts, walk_append] at h
    obtain ⟨j, -, hj⟩ := Option.bind_eq_some_iff.mp h
    cases hg : DirTree.get fs.tree j with
    | none => simp [walk, hg] at hj
    | some x =>
      cases x with
      | file i => simp [walk, hg] at hj
      | dir =>
        simp only [walk, hg, Option.some.injEq] at hj
        exact hj ▸ hg

theorem WellFormed.cleared (hw : fs.WellFormed) (k : Key) : (fs.cleared k).WellFormed := hw.clear k

/-- So is its path resolved. -/
theorem WellFormed.resolve_cleared (hw : fs.WellFormed) (hp : cur.Plain) (hn : slash ∉ n) (hl : fs.locate (cur / ⟨n⟩) = .ok k)
    (h : fs.resolve (cur / ⟨n⟩) = some k) : (fs.cleared k).resolve (cur / ⟨n⟩) = some k := by
  have hsome : ((fs.cleared k).get k).isSome := by
    rw [get_cleared_self]
    exact hw.get_of_resolve h
  by_cases hcut : n.takeWhile (· ≠ 0) = []
  · have hstring : (cur / ⟨n⟩).cString = cur / ⟨[]⟩ := by
      rw [hp.cString_append hn, hcut, hp.append_name (by simp)]
    rw [← resolve_cString, hstring] at h ⊢
    have hkey : k = (cur / ⟨[]⟩ : Path).key := by rw [resolve_eq_key h, hp.append_nil.1.cString_eq]
    have hdir : (fs.cleared k).get (cur / ⟨[]⟩ : Path).key = some .dir := by
      rw [← hkey, get_cleared_self]
      exact get_of_resolve_nil hp h
    rw [(hw.cleared k).resolve_plain hp.append_nil.1 hdir, ← hkey]
  · obtain ⟨-, hk⟩ := locate_append hp hn hcut hl
    have hnames := hw.locate_names hl
    rw [← resolve_cString, hp.cString_append hn, ← hk]
    exact (hw.cleared k).resolve_ofKey (fun m hm => (hnames m hm).1) (fun m hm => (hnames m hm).2.1) hsome

theorem removeAll_fst (h : fs.resolve p = some k) : (fs.removeAll p).1 = match (fs.cleared k).remove p with
    | .ok (fs', _) => fs'
    | .error _ => fs.cleared k := by
  rw [removeAll, h]
  show Prod.fst (match (fs.cleared k).remove p with | .ok (fs', removed) => _ | .error e => _) = _
  rcases (fs.cleared k).remove p with e | ⟨fs', removed⟩
  · rfl
  · rfl

theorem locate_of_cleared (hl : (fs.cleared k).locate p = .ok j) : fs.locate p = .ok j := by
  have hget : ∀ i x, (fs.cleared k).get i = some x → fs.get i = some x := by
    intro i x hi
    rw [get_cleared] at hi
    split at hi
    · cases hi
    · exact hi
  apply locate_mono (fun i => hget i .dir) ?_ hl
  intro i hi
  obtain ⟨x, hx⟩ := Option.isSome_iff_exists.mp hi
  rw [hget i x hx]
  rfl

theorem WellFormed.view_removeAll (hw : fs.WellFormed) (hp : cur.Plain) (hn : slash ∉ n)
    (hexists : fs.pathExists (cur / ⟨n⟩) = true) :
    (fs.removeAll (cur / ⟨n⟩)).1.view = (fs.removal (cur / ⟨n⟩)).apply fs.view := by
  obtain ⟨k, hk⟩ := Option.isSome_iff_exists.mp hexists
  have hkey := resolve_eq_key hk
  rw [removeAll_fst hk, removal]
  cases hl : fs.locate (cur / ⟨n⟩) with
  | error e =>
    have hkept : ∀ fs' removed, (fs.cleared k).remove (cur / ⟨n⟩) = .ok (fs', removed) → fs' = fs.cleared k := by
      intro fs' removed hr
      rcases remove_ok hr with ⟨rfl, -⟩ | ⟨-, hl', -⟩
      · rfl
      · have hfound := locate_of_cleared hl'
        rw [hl] at hfound
        cases hfound
    rcases hr : (fs.cleared k).remove (cur / ⟨n⟩) with e' | ⟨fs', removed⟩
    · simp only [hr, ← hkey]
      exact view_cleared fs k
    · simp only [hr, ← hkey]
      rw [hkept fs' removed hr]
      exact view_cleared fs k
  | ok k' =>
    obtain rfl : k' = k := (locate_ok hl).1.trans hkey.symm
    have hgone : (fs.cleared k').remove (cur / ⟨n⟩) =
        .ok ({ fs.cleared k' with tree := DirTree.prune (fs.cleared k').tree k' }, true) := by
      rw [FileSystem.remove, hw.resolve_cleared hp hn hl hk, hw.locate_cleared hp hn hl]
      simp only [children_cleared, if_true]
    rw [hgone]
    simp only
    rw [view_pruned (locate_ok hl).2.1, view_cleared, drop_clear]

theorem WellFormed.view_rename (hw : fs.WellFormed) {old new : Path} (h : fs.rename old new = .ok fs')
    (hfree : fs.pathExists new = false) : fs'.view = Change.apply (.move old.cString.key new.cString.key) fs.view := by
  obtain ⟨-, ⟨-, hsame⟩ | hmoves⟩ := hw.rename h
  · have hsome := (rename_ok h).2.2.1
    rw [hsame, rename_free h hfree] at hsome
    cases hsome
  · funext j
    exact hmoves.view_eq j

end FileSystem

/-- What a command does to the file system when it returns. -/
def Command.change (fs : FileSystem) (cur : Path) : Command → FileChange
  | .cp path filename =>
    match fs.view (cur / filename).cString.key, Cp.newPath fs path filename with
    | some x, some (.ok new) => .put new.cString.key x
    | _, _ => .keep
  | .mkdir filename => .put (cur / filename).cString.key .dir
  | .mv path filename => .move (cur / filename).cString.key (path / filename).cString.key
  | .rename oname nname =>
    if (cur / oname).equal (cur / nname) then .keep else .move (cur / oname).cString.key (cur / nname).cString.key
  | .rm filename => if fs.pathExists (cur / filename) then fs.removal (cur / filename) else .keep
  | _ => .keep

/-- When `rm` throws, `remove_all` has removed what it could. -/
def Command.changes (command : Command) : Outcome → Bool
  | .ok _ => true
  | .error (.protocol _) => false
  | .error .fatal =>
    match command with
    | .rm _ => true
    | _ => false

variable {srv : ServerContext} {around : Surroundings} {w : World}

/-- What is seen after a command has worked on the file system. -/
def Command.SeenAfter (command : Command) (w : World) (cur : Path) (result : World × Outcome) : Prop :=
  result.1.fs.view = (if command.changes result.2 then command.change w.fs cur else .keep).apply w.fs.view

theorem Command.seenAfter_error (command : Command) (w : World) (cur : Path) {e : Exception}
    (h : command.changes (.error e) = false) : command.SeenAfter w cur (w, .error e) := by
  rw [Command.SeenAfter, h]
  rfl

theorem Mkdir.seenAfter {name : Path} (hc : w.client.currentPathLock = some cur) :
    Command.SeenAfter (.mkdir name) w cur (Mkdir.execute w name) := by
  rcases Mkdir.execute_cases w name with ⟨e, h⟩ | ⟨cur', fs', hc', hfree, hmade, h⟩
  · rw [h]
    exact Command.seenAfter_error _ w cur (by cases e <;> rfl)
  · obtain rfl : cur' = cur := Option.some.inj (hc'.symm.trans hc)
    rw [h]
    funext j
    rcases createDirectory_ok hmade with hsame | ⟨hl, hf, rfl⟩
    · obtain ⟨k, hk, -⟩ := isDirectory_resolve (isDirectory_createDirectory hmade)
      rw [pathExists, ← hsame, hk] at hfree
      cases hfree
    · exact view_insert (locate_ok hl).2.1 hf j

theorem Cp.seenAfter (hw : w.fs.WellFormed) {path name : Path} (hc : w.client.currentPathLock = some cur) :
    Command.SeenAfter (.cp path name) w cur (Cp.execute srv w path name) := by
  rcases Cp.execute_cases srv w path name with ⟨e, h⟩ | ⟨-, h⟩ | ⟨cur', new, fs', hc', hnew, hcopy, h⟩
  · rw [h]
    exact Command.seenAfter_error _ w cur (by cases e <;> rfl)
  · rw [h]
    rfl
  · obtain rfl : cur' = cur := Option.some.inj (hc'.symm.trans hc)
    obtain ⟨i, hstatus, hl, hf, rfl⟩ := copyFile_ok hcopy
    obtain ⟨k, hk, hget⟩ := Option.bind_eq_some_iff.mp hstatus
    obtain rfl := resolve_eq_key hk
    have hchange : Command.change w.fs cur' (.cp path name) = .put new.cString.key (.file (w.fs.contents i)) := by
      simp only [Command.change, view_file hget, hnew]
    rw [h, Command.SeenAfter]
    simp only [Command.changes, hchange, if_true]
    funext j
    exact hw.view_create (locate_ok hl).2.1 hf _ j

theorem Mv.seenAfter (hw : w.fs.WellFormed) {path name : Path} (hc : w.client.currentPathLock = some cur) :
    Command.SeenAfter (.mv path name) w cur (Mv.execute srv around w path name) := by
  rcases Mv.execute_cases srv around w path name with ⟨e, h⟩ | ⟨cur', fs', hc', -, hfree, hmoved, h⟩
  · rw [h]
    exact Command.seenAfter_error _ w cur (by cases e <;> rfl)
  · obtain rfl : cur' = cur := Option.some.inj (hc'.symm.trans hc)
    rw [h]
    exact hw.view_rename hmoved hfree

theorem renameOutcome_seenAfter (hw : w.fs.WellFormed) {command : Command} {old new : Path} {name unknown : Bytes}
    (hchange : command.change w.fs cur = .move old.cString.key new.cString.key) (hrm : ∀ e, command.changes (.error e) = false)
    (hfree : w.fs.pathExists new = false) :
    command.SeenAfter w cur (renameOutcome w name unknown (w.fs.rename old new)) := by
  rcases renameOutcome_cases w name unknown (w.fs.rename old new) with ⟨e, h⟩ | ⟨fs', hmoved, h⟩
  · rw [h]
    exact Command.seenAfter_error _ w cur (hrm e)
  · rw [h, Command.SeenAfter, hchange]
    exact hw.view_rename hmoved hfree

theorem Rename.seenAfter (hw : w.fs.WellFormed) {oname nname : Path} (hc : w.client.currentPathLock = some cur) :
    Command.SeenAfter (.rename oname nname) w cur (Rename.execute around w oname nname) := by
  have hrm : ∀ e, Command.changes (.rename oname nname) (.error e) = false := by
    intro e
    cases e <;> rfl
  unfold Rename.execute
  rw [hc]
  simp only
  rcases w.fs.fsExists (cur / oname) with e | - | -
  · exact Command.seenAfter_error _ w cur (hrm e)
  · exact Command.seenAfter_error _ w cur rfl
  · rcases around.isPathLocked (cur / oname) with e | - | -
    · exact Command.seenAfter_error _ w cur (hrm e)
    · by_cases hsame : (cur / oname).equal (cur / nname) = true
      · simp only [hsame, if_true]
        rw [Command.SeenAfter, Command.changes, Command.change, if_pos rfl, if_pos hsame]
        rfl
      · simp only [hsame, Bool.false_eq_true, if_false]
        rcases hfree : w.fs.fsExists (cur / nname) with e | - | -
        · exact Command.seenAfter_error _ w cur (hrm e)
        · apply renameOutcome_seenAfter hw ?_ hrm (fsExists_eq_ok.mp hfree).2
          rw [Command.change, if_neg hsame]
        · exact Command.seenAfter_error _ w cur rfl
    · rfl

theorem Rm.seenAfter (hw : w.fs.WellFormed) {name : Path} (hc : w.client.currentPathLock = some cur) (hp : cur.Plain)
    (hn : slash ∉ name.native) : Command.SeenAfter (.rm name) w cur (Rm.execute around w name) := by
  have hunlocked : ∀ e, around.isPathLocked (cur / name) ≠ .error e := by
    intro e he
    rw [Surroundings.isPathLocked, if_neg] at he
    · cases he
    · rintro ⟨-, habs⟩
      exact habs (Path.isAbsolute_append _ hp.isAbsolute)
  unfold Rm.execute
  rw [hc]
  simp only
  rcases hexists : w.fs.fsExists (cur / name) with e | - | -
  · obtain ⟨hlong, rfl⟩ := fsExists_eq_error.mp hexists
    have hgone : w.fs.pathExists (cur / name) = false := hw.pathExists_of_tooLong hlong
    simp only [Command.SeenAfter, Command.changes, Command.change, hgone]
    rfl
  · rfl
  · have hthere := (fsExists_eq_ok.mp hexists).2
    have hview : (w.fs.removeAll (cur / name)).1.view = _ := hw.view_removeAll hp hn hthere
    rcases hl : around.isPathLocked (cur / name) with e | - | -
    · exact absurd hl (hunlocked e)
    · simp only [Command.SeenAfter, Command.change, hthere, if_true]
      rcases hr : w.fs.removeAll (cur / name) with ⟨fs', e | count⟩
      · rw [hr] at hview
        exact hview
      · rw [hr] at hview
        exact hview
    · rfl

/-- The requests that change what clients see. -/
def changingCommands : List Bytes := [ascii "cp", ascii "mkdir", ascii "mv", ascii "rename", ascii "rm"]

theorem Command.change_keep {command : Command} (h : command.commandName.toBytes ∉ changingCommands) (fs : FileSystem)
    (cur : Path) : command.change fs cur = .keep := by
  cases command with
  | cp | mkdir | mv | rename | rm =>
    apply absurd _ h
    simp only [Command.commandName]
    decide
  | auth | bye | cd | dl | dls | exit | logout | ls | name | perms | pwd | tree | ul => rfl

theorem Command.isPlain_of_changing {command : Command} (h : command.commandName.toBytes ∈ changingCommands) :
    command.isPlain = true := by
  cases command with
  | auth | logout | dls | ul =>
    apply absurd h
    simp only [Command.commandName]
    decide
  | bye | cd | cp | dl | exit | ls | mkdir | mv | name | perms | pwd | rename | rm | tree => rfl

variable {s s' : Session} {r : Request}

theorem Effect.keeps (h : Effect srv around fs s r fs' s') (hw : fs.WellFormed) (hs : s.Accounted srv)
    (hname : r.name ∉ changingCommands) : Bookkeeping srv fs fs' := by
  have hne : ∀ name ∈ changingCommands, r.name ≠ name := by
    intro name hmem hr
    exact hname (hr ▸ hmem)
  cases h.edit hw hs with
  | own kept => exact kept
  | made makes =>
    cases makes with
    | mkdir _ command _ => exact absurd command (hne _ (by decide))
    | cp _ command _ => exact absurd command (hne _ (by decide))
  | moved moves =>
    cases moves with
    | rename _ command _ => exact absurd command (hne _ (by decide))
    | mv _ command _ => exact absurd command (hne _ (by decide))
  | removed removes =>
    cases removes with
    | rm _ command _ => exact absurd command (hne _ (by decide))

namespace CommandExecutor

variable {command : Command}

theorem execute_nowhere (h : command.commandName.toBytes ∈ changingCommands) (hc : w.client.currentPathLock = none) :
    (execute srv around w command).1 = w := by
  cases command with
  | cp | mkdir | mv | rename | rm =>
    simp only [execute, Cp.execute, Mkdir.execute, Mv.execute, Rename.execute, Rm.execute, hc]
  | auth | bye | cd | dl | dls | exit | logout | ls | name | perms | pwd | tree | ul =>
    apply absurd h
    simp only [Command.commandName]
    decide

theorem execute_seenAfter (h : command.commandName.toBytes ∈ changingCommands) (hw : w.fs.WellFormed)
    (hc : w.client.currentPathLock = some cur) (hp : cur.Plain) {fields : List Field}
    (hparse : parseFields srv w.fs w.client fields command.commandName = .ok command) :
    command.SeenAfter w cur (execute srv around w command) := by
  cases command with
  | cp path name => exact Cp.seenAfter hw hc
  | mkdir name => exact Mkdir.seenAfter hc
  | mv path name => exact Mv.seenAfter hw hc
  | rename oname nname => exact Rename.seenAfter hw hc
  | rm name =>
    simp only [Command.commandName, parseFields, map_eq_ok] at hparse
    obtain ⟨n, hn, he⟩ := hparse
    cases he
    exact Rm.seenAfter hw hc hp (parseSingleName_ok hn)
  | auth | bye | cd | dl | dls | exit | logout | ls | name | perms | pwd | tree | ul =>
    apply absurd h
    simp only [Command.commandName]
    decide

end CommandExecutor

theorem Session.concluded_fs (srv : ServerContext) (s : Session) (r : Request) {result : World × Outcome}
    (hm : result.1.client.mode = .command) : (s.concluded srv r result).fs = result.1.fs := by
  obtain ⟨w, e | lines⟩ := result
  · cases e <;> rfl
  · have hm' : w.client.mode = .command := hm
    simp only [Session.concluded, Session.accepted, hm']

theorem Session.executeCommand_concluded {n : CommandName} {command : Command} (hset : CommandExecutor.setCommand s.context r.name = .ok n)
    (hparse : CommandExecutor.parseFields srv fs s.context r.fields n = .ok command) :
    s.executeCommand srv around fs r = s.concluded srv r (CommandExecutor.execute srv around ⟨fs, s.context⟩ command) := by
  simp only [Session.executeCommand, hset, hparse]
  rfl

/-- What a request does to the visible file system, if it is carried out. -/
def Session.change (srv : ServerContext) (around : Surroundings) (fs : FileSystem) (s : Session) (r : Request) : FileChange :=
  match CommandExecutor.setCommand s.context r.name with
  | .error _ => .keep
  | .ok commandName =>
    match CommandExecutor.parseFields srv fs s.context r.fields commandName, s.context.currentPathLock with
    | .ok command, some cur =>
      if command.changes (CommandExecutor.execute srv around ⟨fs, s.context⟩ command).2 then command.change fs cur
      else .keep
    | _, _ => .keep

theorem Bookkeeping.sameOutside (h : Bookkeeping srv fs fs') : SameOutside srv.configKey fs'.view fs.view :=
  fun k hk => h.view_eq k (ServerContext.not_ownPlace_of_outside hk)

theorem Session.change_keep (h : r.name ∉ changingCommands) (around : Surroundings) (fs : FileSystem) (s : Session) :
    s.change srv around fs r = .keep := by
  unfold Session.change
  cases hset : CommandExecutor.setCommand s.context r.name with
  | error e => rfl
  | ok n =>
    simp only
    split
    · rename_i command cur hparse hc
      rw [Command.change_keep]
      · split <;> rfl
      · rw [CommandExecutor.parseFields_commandName hparse, ← (CommandExecutor.setCommand_ok hset).1]
        exact h
    · rfl

/-- What is seen after a request. -/
theorem Session.change_seen (hm : s.context.mode = .command) (hw : fs.WellFormed) (hs : s.Accounted srv)
    (hcur : ∀ cur ∈ s.context.currentPathLock, cur.Plain) :
    SameOutside srv.configKey (s.executeCommand srv around fs r).fs.view ((s.change srv around fs r).apply fs.view) := by
  by_cases hname : r.name ∈ changingCommands
  · unfold Session.change
    cases hset : CommandExecutor.setCommand s.context r.name with
    | error e =>
      rw [Session.executeCommand_stopped hset]
      cases e <;> exact .refl _ _
    | ok n =>
      simp only
      cases hparse : CommandExecutor.parseFields srv fs s.context r.fields n with
      | error e =>
        rw [Session.executeCommand_unparsed hset hparse]
        cases e <;> exact .refl _ _
      | ok command =>
        obtain rfl := CommandExecutor.parseFields_commandName hparse
        have hchanging : command.commandName.toBytes ∈ changingCommands := (CommandExecutor.setCommand_ok hset).1 ▸ hname
        have hmode : (CommandExecutor.execute srv around ⟨fs, s.context⟩ command).1.client.mode = .command :=
          (CommandExecutor.execute_isPlain (Command.isPlain_of_changing hchanging) _).1.trans hm
        rw [Session.executeCommand_concluded hset hparse, Session.concluded_fs srv s r hmode]
        cases hc : s.context.currentPathLock with
        | none =>
          rw [CommandExecutor.execute_nowhere hchanging hc]
          exact .refl _ _
        | some cur =>
          have hseen : command.SeenAfter ⟨fs, s.context⟩ cur (CommandExecutor.execute srv around ⟨fs, s.context⟩ command) :=
            CommandExecutor.execute_seenAfter hchanging hw hc (hcur cur hc) hparse
          rw [Command.SeenAfter] at hseen
          rw [hseen]
          exact .refl _ _
  · rw [Session.change_keep hname]
    exact ((executeCommand_effect srv around fs s r hm).keeps hw hs hname).sameOutside

end TinDox
