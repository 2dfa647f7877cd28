import TinDox.Collecting
import TinDox.Listings
import TinDox.Loops
import Mathlib.Data.List.Nodup
import Mathlib.Data.List.Perm.Subperm
import Mathlib.Data.Nat.Find

/-! The name under which `cp` copies. The loop tries the name and then its numbered copies; in a finite
directory one of them is free, unless the kernel sees the same name every time, and the loop comes to it
unless a name before it is too long to be looked up. -/

namespace TinDox

open FileSystem DirTree Loops

variable {srv : ServerContext} {fs fs' : FileSystem} {w : World} {path name cur : Path} {k : Key} {n : Bytes}

theorem FileSystem.fsExists_cString (fs : FileSystem) (p : Path) : fs.fsExists p.cString = fs.fsExists p := by
  have hc : p.cString.cString = p.cString := Path.cString_eq_self p.noNul_cString
  have hlong : fs.tooLong p.cString = fs.tooLong p := by rw [tooLong, tooLong, Path.isAbsolute_cString, hc]
  rw [fsExists, fsExists, hlong, pathExists, pathExists, resolve_cString]

/-- Distinct names of a list are no more than the list is long. -/
theorem le_length_of_injective {α : Type*} {f : Nat → α} (hf : Function.Injective f) {l : List α} {m : Nat}
    (h : ∀ j < m, f j ∈ l) : m ≤ l.length := by
  have hnodup : ((List.range m).map f).Nodup := List.nodup_range.map hf
  have hsubset : (List.range m).map f ⊆ l := by
    intro a ha
    obtain ⟨j, hj, rfl⟩ := List.mem_map.mp ha
    exact h j (List.mem_range.mp hj)
  simpa using (List.subperm_of_subset hnodup hsubset).length_le

theorem FileSystem.mem_entries_of_pathExists (hdir : fs.isDirectory path = true) (hz : (0 : Byte) ∉ path.native)
    (hn : IsName n) (hz' : (0 : Byte) ∉ n) (h : fs.pathExists (path / ⟨n⟩) = true) : n ∈ fs.entries path := by
  obtain ⟨k, hk, hget⟩ := isDirectory_resolve hdir
  have hdirectory : DirTree.get fs.tree k = some .dir := hget
  rw [pathExists, resolve_append hz hz' hn.2.2.2 hk, Path.classify_name hn] at h
  rw [entries, hk]
  apply mem_children_of_get
  by_contra hnone
  simp [walk, hdirectory, hnone] at h

theorem FileSystem.isName_of_file (hw : fs.WellFormed) (hdir : fs.isDirectory cur = true) (hs : slash ∉ n)
    (hz : (0 : Byte) ∉ n) (h : fs.isRegularFile (cur / ⟨n⟩) = true) : IsName n := by
  obtain ⟨k, hk, hget⟩ := isDirectory_resolve hdir
  have hdirectory : DirTree.get fs.tree k = some .dir := hget
  have hparent : fs.get k.dropLast = some .dir := by
    by_cases hnil : k = []
    · rw [hnil]
      rfl
    · exact hw.closed k hnil (by simp [hdirectory])
  by_contra hnot
  have hfile : ∀ j, fs.resolve (cur / ⟨n⟩) = some j → fs.get j ≠ some .dir := by
    intro j hj hd
    simp [isRegularFile, status, hj, hd] at h
  by_cases hzero : (0 : Byte) ∈ cur.native
  · exact hfile k (by rw [resolve_append_nul hzero hs, hk]) hget
  · have hresolve := resolve_append hzero hz hs hk
    rcases Path.classify_of_not_name hs hnot with hc | hc
    · exact hfile k (by simp [hresolve, hc, walk, hdirectory]) hget
    · exact hfile k.dropLast (by simp [hresolve, hc, walk, hdirectory]) hparent

namespace Cp

/-- The renaming loop over `copy_number` and `new_path`, which also ends when `fs::exists` throws. -/
def renamingStep (fs : FileSystem) (path name : Path) : Nat × Path → (Nat × Path) ⊕ Except Exception Path
  | (copyNumber, newPath) =>
    match fs.fsExists newPath with
    | .error e => .inr (.error e)
    | .ok true => .inl (copyNumber + 1, path / copyName name copyNumber)
    | .ok false => .inr (.ok newPath)

/-- The loop ends when it is entered. -/
def Renames (fs : FileSystem) (path name : Path) : Prop := Terminates (renamingStep fs path name) (1, path / name)

def candidate (name : Path) : Nat → Path
  | 0 => name
  | k + 1 => copyName name (k + 1)

theorem renamingStep_runsThrough (fs : FileSystem) (path name : Path) :
    RunsThrough (renamingStep fs path name) (fun k => (k + 1, path / candidate name k))
      (fun k => fs.fsExists (path / candidate name k) ≠ .ok true)
      (fun k => (fs.fsExists (path / candidate name k)).map (fun _ => path / candidate name k)) where
  go := by
    intro k hk
    rw [not_not] at hk
    simp only [renamingStep, hk]
    rfl
  leave := by
    intro k hk
    rcases hx : fs.fsExists (path / candidate name k) with e | - | -
    · simp [renamingStep, hx, Except.map]
    · simp [renamingStep, hx, Except.map]
    · exact absurd hx hk

/-- What the executable loop finds, the loop finds. -/
theorem freePath_leaves {fuel copyNumber : Nat} {newPath : Path} {r : Except Exception Path}
    (h : freePath fs path name fuel copyNumber newPath = some r) :
    Leaves (renamingStep fs path name) (copyNumber, newPath) r := by
  induction fuel generalizing copyNumber newPath with
  | zero => cases h
  | succ fuel ih =>
    rw [freePath] at h
    rcases hx : fs.fsExists newPath with e | - | -
    · simp only [hx, Option.some.injEq] at h
      exact ⟨_, .refl, by simp [renamingStep, hx, h]⟩
    · simp only [hx, Option.some.injEq] at h
      exact ⟨_, .refl, by simp [renamingStep, hx, h]⟩
    · simp only [hx] at h
      obtain ⟨t, ht, hr⟩ := ih h
      exact ⟨t, .head (by simp [Next, renamingStep, hx]) ht, hr⟩

theorem exists_of_freePath_none {fuel i : Nat}
    (h : freePath fs path name fuel (i + 1) (path / candidate name i) = none) :
    ∀ j < fuel, fs.fsExists (path / candidate name (i + j)) = .ok true := by
  induction fuel generalizing i with
  | zero => exact fun j hj => absurd hj (Nat.not_lt_zero j)
  | succ fuel ih =>
    rw [freePath] at h
    rcases hx : fs.fsExists (path / candidate name i) with e | - | -
    · simp [hx] at h
    · simp [hx] at h
    · simp only [hx] at h
      intro j hj
      cases j with
      | zero => exact hx
      | succ j =>
        have hnext := ih h j (Nat.succ_lt_succ_iff.mp hj)
        rwa [show i + (j + 1) = i + 1 + j by omega]

theorem copyName_injective (name : Path) : Function.Injective (copyName name) := by
  intro i j h
  have hdecimal : decimal i = decimal j := by simpa [copyName] using h
  have hvalue := congrArg digitsValue hdecimal
  rwa [digitsValue_decimal, digitsValue_decimal] at hvalue

theorem lt_length_copyName (name : Path) (i : Nat) :
    name.native.length < (copyName name i).native.length ∧ 2 < (copyName name i).native.length := by
  have hcopy : (ascii " (copy ").length = 7 := by decide
  simp only [copyName, List.length_append, hcopy]
  omega

theorem candidate_injective (name : Path) : Function.Injective (candidate name) := by
  have hne : ∀ i, copyName name i ≠ name := by
    intro i he
    have hlength := (lt_length_copyName name i).1
    rw [he] at hlength
    exact Nat.lt_irrefl _ hlength
  intro i j h
  cases i with
  | zero =>
    cases j with
    | zero => rfl
    | succ j => exact absurd h.symm (hne (j + 1))
  | succ i =>
    cases j with
    | zero => exact absurd h (hne (i + 1))
    | succ j => exact copyName_injective name h

theorem native_injective {f : Nat → Path} (hf : Function.Injective f) : Function.Injective (fun i => (f i).native) := by
  intro i j h
  exact hf (congrArg Path.mk h)

theorem slash_not_mem_copyName (hs : slash ∉ name.native) (i : Nat) : slash ∉ (copyName name i).native := by
  simp only [copyName, List.mem_append, not_or]
  exact ⟨⟨⟨hs, by decide⟩, decimal_no_slash i⟩, by decide⟩

theorem isName_copyName (hs : slash ∉ name.native) (i : Nat) : IsName (copyName name i).native := by
  have hlong := (lt_length_copyName name i).2
  refine ⟨?_, ?_, ?_, slash_not_mem_copyName hs i⟩
  all_goals
    intro h
    rw [h] at hlong
    exact absurd hlong (by decide)

theorem noNul_copyName (hz : (0 : Byte) ∉ name.native) (i : Nat) : (0 : Byte) ∉ (copyName name i).native := by
  simp only [copyName, List.mem_append, not_or]
  exact ⟨⟨⟨hz, by decide⟩, notMem_decimal (by decide)⟩, by decide⟩

/-- The target is the name itself if that is free, and else the copy of the least number that is free. -/
def Chosen (fs : FileSystem) (path name newPath : Path) : Prop :=
  fs.pathExists newPath = false ∧
    (newPath = path / name ∨
      fs.pathExists (path / name) = true ∧ ∃ k, 1 ≤ k ∧ newPath = path / copyName name k ∧
        ∀ j, 1 ≤ j → j < k → fs.pathExists (path / copyName name j) = true)

/-- One entry more, with the content of a file; the entries there were are as they were. -/
def AddsCopy (fs fs' : FileSystem) (oldPath newPath : Path) : Prop :=
  ∃ n, fs.locate newPath = .ok n ∧ fs.get n = none ∧ (fs.readFile oldPath).isSome ∧
    fs'.read n = fs.readFile oldPath ∧ ∀ k ≠ n, fs'.get k = fs.get k ∧ fs'.read k = fs.read k

/-- The loop ends, before its counter leaves the range of an `int`, with the name that is to be chosen; a copy
that succeeds adds that entry and changes no other. -/
structure FindsFreshName (srv : ServerContext) (w : World) (cur path name : Path) : Prop where
  terminates : Renames w.fs path name
  fits : w.fs.isDirectory cur = true →
    ∀ s, Reaches (renamingStep w.fs path name) (1, path / name) s → s.1 < 2 ^ 31
  chosen : ∀ result, Leaves (renamingStep w.fs path name) (1, path / name) result →
    ∃ newPath, result = .ok newPath ∧ Chosen w.fs path name newPath
  copied : ∀ w' lines, execute srv w path name = (w', .ok lines) →
    ∃ newPath, Leaves (renamingStep w.fs path name) (1, path / name) (.ok newPath) ∧
      AddsCopy w.fs w'.fs (cur / name) newPath

theorem addsCopy_of_copyFile {oldPath newPath : Path} (hw : fs.WellFormed)
    (h : fs.copyFile oldPath newPath = .ok fs') : AddsCopy fs fs' oldPath newPath := by
  obtain ⟨i, hstatus, hlocate, hnone, rfl⟩ := copyFile_ok h
  obtain ⟨-, hne, -⟩ := locate_ok hlocate
  obtain ⟨k, hk, hget⟩ := Option.bind_eq_some_iff.mp hstatus
  have hread : fs.readFile oldPath = some (fs.contents i) := by simp [readFile, hk, FileSystem.read, hget]
  refine ⟨newPath.cString.key, hlocate, hnone, by simp [hread], ?_, ?_⟩
  · rw [hread, FileSystem.read, get_create hne hnone, if_pos rfl]
    simp [contents_create_new]
  · intro j hj
    have hsame : (fs.create newPath.cString.key (fs.contents i)).get j = fs.get j := by
      rw [get_create hne hnone, if_neg hj]
    refine ⟨hsame, ?_⟩
    rw [FileSystem.read, FileSystem.read, hsame]
    split
    · rename_i b hb
      rw [contents_create _ _ (hw.inodes j b hb)]
    · rfl

/-- All there is to know about the loop: the first candidate that is free, and how far it is. -/
theorem findsFreshName_of_free {m : Nat} (hw : w.fs.WellFormed) (hcur : w.client.currentPathLock = some cur)
    (hfree : w.fs.fsExists (path / candidate name m) = .ok false)
    (htaken : ∀ j < m, w.fs.fsExists (path / candidate name j) = .ok true)
    (hfits : w.fs.isDirectory cur = true → m < 2 ^ 31 - 1) : FindsFreshName srv w cur path name := by
  have hloop := renamingStep_runsThrough w.fs path name
  have hstop : w.fs.fsExists (path / candidate name m) ≠ .ok true := by simp [hfree]
  have hleaves : Leaves (renamingStep w.fs path name) (1, path / name) (.ok (path / candidate name m)) :=
    hloop.leaves_iff.mpr ⟨m, by simp [hfree, Except.map], hstop, fun j hj => not_not.mpr (htaken j hj)⟩
  refine ⟨hloop.terminates_iff.mpr ⟨m, hstop⟩, ?_, ?_, ?_⟩
  · intro hd s hs
    obtain ⟨k, rfl, hk⟩ := hloop.reaches_iff.mp hs
    have hkm : k ≤ m := by
      by_contra hlt
      exact hk m (Nat.lt_of_not_le hlt) hstop
    have hbound := hfits hd
    show k + 1 < 2 ^ 31
    omega
  · intro result hresult
    obtain rfl := hleaves.unique hresult
    refine ⟨_, rfl, (fsExists_eq_ok.mp hfree).2, ?_⟩
    cases m with
    | zero => exact .inl rfl
    | succ m =>
      refine .inr ⟨(fsExists_eq_ok.mp (htaken 0 (Nat.succ_pos m))).2, m + 1, Nat.succ_pos m, rfl, ?_⟩
      intro j hj hlt
      obtain ⟨j, rfl⟩ := Nat.exists_eq_succ_of_ne_zero (Nat.pos_iff_ne_zero.mp hj)
      exact (fsExists_eq_ok.mp (htaken (j + 1) hlt)).2
  · intro w' lines hexec
    rcases execute_cases srv w path name with ⟨e, he⟩ | ⟨-, he⟩ | ⟨cur', new, fs', hcur', hnew, hcopy, he⟩
    · rw [hexec] at he
      cases he
    · rw [hexec] at he
      cases he
    · rw [hexec] at he
      cases he
      obtain rfl := Option.some.inj (hcur.symm.trans hcur')
      exact ⟨new, freePath_leaves hnew, addsCopy_of_copyFile hw hcopy⟩

theorem entries_length_le (fs : FileSystem) (path : Path) : (fs.entries path).length ≤ fs.tree.length := by
  unfold entries
  split
  · exact List.length_filterMap_le _ _
  · exact Nat.zero_le _

/-- Without NULs the loop ends at some candidate, since every one before it is an entry of the directory. -/
theorem exists_last_candidate (hdir : fs.isDirectory path = true) (hz : (0 : Byte) ∉ path.native)
    (hs : slash ∉ name.native) (hz' : (0 : Byte) ∉ name.native) :
    ∃ m, fs.fsExists (path / candidate name m) ≠ .ok true ∧
      (∀ j < m, fs.fsExists (path / candidate name j) = .ok true) ∧ m ≤ (fs.entries path).length + 1 ∧
      (IsName name.native → m ≤ (fs.entries path).length) := by
  have hentry : ∀ i, fs.fsExists (path / copyName name i) = .ok true → (copyName name i).native ∈ fs.entries path :=
    fun i hi => mem_entries_of_pathExists hdir hz (isName_copyName hs i) (noNul_copyName hz' i) (fsExists_eq_ok.mp hi).2
  have hinj : Function.Injective (fun i => (copyName name (i + 1)).native) :=
    (native_injective (copyName_injective name)).comp Nat.succ_injective
  have hex : ∃ m, fs.fsExists (path / candidate name m) ≠ .ok true := by
    by_contra hall
    simp only [not_exists, not_not] at hall
    have hle := le_length_of_injective (m := (fs.entries path).length + 1) hinj
      (fun j _ => hentry (j + 1) (hall (j + 1)))
    omega
  have hbefore : ∀ j < Nat.find hex, fs.fsExists (path / candidate name j) = .ok true :=
    fun j hj => not_not.mp (Nat.find_min hex hj)
  refine ⟨Nat.find hex, Nat.find_spec hex, hbefore, ?_, ?_⟩
  · have hle : Nat.find hex - 1 ≤ (fs.entries path).length := by
      apply le_length_of_injective hinj
      intro j hj
      exact hentry (j + 1) (hbefore (j + 1) (by omega))
    omega
  · intro hn
    refine le_length_of_injective (native_injective (candidate_injective name)) ?_
    intro j hj
    cases j with
    | zero => exact mem_entries_of_pathExists hdir hz hn hz' (fsExists_eq_ok.mp (hbefore 0 hj)).2
    | succ j => exact hentry (j + 1) (hbefore (j + 1) hj)

theorem native_candidate (path : Path) (hs : slash ∉ name.native) (i : Nat) :
    ∃ tail, (path / candidate name i).native = (path / name).native ++ tail := by
  cases i with
  | zero => exact ⟨[], (List.append_nil _).symm⟩
  | succ i =>
    refine ⟨ascii " (copy " ++ decimal (i + 1) ++ ascii ")", ?_⟩
    have hcopy := Path.append_no_slash path (slash_not_mem_copyName hs (i + 1))
    have hname := Path.append_no_slash path hs
    change (path / copyName name (i + 1)).native = _
    rw [hcopy, hname]
    split
    · simp [copyName]
    · simp [copyName]

/-- The candidates differ behind a NUL, where the kernel does not look. -/
theorem fsExists_candidate (hs : slash ∉ name.native) (hz : (0 : Byte) ∈ path.native ∨ (0 : Byte) ∈ name.native)
    (i : Nat) : fs.fsExists (path / candidate name i) = fs.fsExists (path / name) := by
  have hzero : (0 : Byte) ∈ (path / name).native := by
    rw [Path.append_no_slash path hs]
    split
    · exact List.mem_append.mpr hz
    · exact List.mem_append.mpr (hz.imp_right (List.mem_cons_of_mem _))
  obtain ⟨tail, htail⟩ := native_candidate path hs i
  have hsame : (path / candidate name i).cString = (path / name).cString := by
    rw [← Path.cString_native_append hzero tail, ← htail]
  rw [← fsExists_cString, hsame, fsExists_cString]

/-- The loop does not end exactly when the kernel finds the same entry under every name. -/
theorem renames_iff (hdir : fs.isDirectory path = true) (hs : slash ∉ name.native) :
    Renames fs path name ↔
      ¬ (fs.fsExists (path / name) = .ok true ∧ ((0 : Byte) ∈ path.native ∨ (0 : Byte) ∈ name.native)) := by
  have hloop := renamingStep_runsThrough fs path name
  constructor
  · rintro h ⟨hthere, hz⟩
    obtain ⟨m, hm⟩ := hloop.terminates_iff.mp h
    rw [fsExists_candidate hs hz, hthere] at hm
    exact hm rfl
  · intro h
    by_cases hthere : fs.fsExists (path / name) = .ok true
    · have hz : (0 : Byte) ∉ path.native ∧ (0 : Byte) ∉ name.native := not_or.mp (fun hz => h ⟨hthere, hz⟩)
      obtain ⟨m, hm, -⟩ := exists_last_candidate hdir hz.1 hs hz.2
      exact hloop.terminates_iff.mpr ⟨m, hm⟩
    · exact hloop.terminates_iff.mpr ⟨0, hthere⟩

/-- The executable loop runs out of fuel exactly when the loop does not end. -/
theorem newPath_eq_none_iff (hdir : fs.isDirectory path = true) (hs : slash ∉ name.native) :
    newPath fs path name = none ↔ ¬ Renames fs path name := by
  constructor
  · intro hnone
    have hall := exists_of_freePath_none (i := 0) hnone
    rw [renames_iff hdir hs, not_not]
    refine ⟨hall 0 (by omega), ?_⟩
    by_contra hz
    obtain ⟨hz, hz'⟩ := not_or.mp hz
    obtain ⟨m, hm, -, hle, -⟩ := exists_last_candidate hdir hz hs hz'
    have hlength := entries_length_le fs path
    have hexists := hall m (by omega)
    rw [Nat.zero_add] at hexists
    exact hm hexists
  · intro h
    cases hnew : newPath fs path name with
    | none => rfl
    | some r =>
      exact absurd (Terminates.of_leaves (freePath_leaves hnew)) h

theorem newPath_eq_some_iff {r : Except Exception Path} (hdir : fs.isDirectory path = true) (hs : slash ∉ name.native) :
    newPath fs path name = some r ↔ Leaves (renamingStep fs path name) (1, path / name) r := by
  constructor
  · exact freePath_leaves
  · intro h
    cases hnew : newPath fs path name with
    | none => exact absurd (Terminates.of_leaves h) ((newPath_eq_none_iff hdir hs).mp hnew)
    | some r' => rw [(freePath_leaves hnew).unique h]

/-- No name is too long that is tried while those before it are taken. -/
def TriesShortNames (fs : FileSystem) (path name : Path) : Prop :=
  ∀ k, (∀ j < k, fs.pathExists (path / candidate name j) = true) → (candidate name k).native.length ≤ nameMax

/-- `cp` finds a fresh name exactly when the name itself is free, or neither it nor the path has a NUL and the
names that are tried are not too long. -/
theorem findsFreshName_iff (fields : List Field) (hw : w.fs.WellFormed) (hcur : w.client.currentPathLock = some cur)
    (hparse : TransportCommand.parseFields srv w.fs w.client fields = .ok (path, name))
    (hsource : w.fs.isRegularFile (cur / name) = true) (hfinite : (w.fs.entries path).length < 2 ^ 31 - 1) :
    FindsFreshName srv w cur path name ↔
      w.fs.fsExists (path / name) = .ok false ∨
      ((0 : Byte) ∉ path.native ∧ (0 : Byte) ∉ name.native) ∧ TriesShortNames w.fs path name := by
  obtain ⟨hdir, hs⟩ := TransportCommand.parseFields_target hparse
  have hloop := renamingStep_runsThrough w.fs path name
  have hlong {k : Nat} (hz : (0 : Byte) ∉ path.native ∧ (0 : Byte) ∉ name.native) :
      w.fs.tooLong (path / candidate name k) = decide (nameMax < (candidate name k).native.length) := by
    obtain ⟨d, hd, hget⟩ := isDirectory_resolve hdir
    refine tooLong_append hw hz.1 ?_ ?_ hd hget
    · cases k with
      | zero => exact hz.2
      | succ k => exact noNul_copyName hz.2 _
    · cases k with
      | zero => exact hs
      | succ k => exact slash_not_mem_copyName hs _
  constructor
  · intro h
    by_contra hnot
    obtain ⟨hfree, hnot⟩ := not_or.mp hnot
    obtain ⟨result, hleaves⟩ := h.terminates.leaves
    obtain ⟨newPath, rfl, hchosen⟩ := h.chosen result hleaves
    obtain ⟨m, hm, hstop, hbefore⟩ := hloop.leaves_iff.mp hleaves
    have hmfree : w.fs.fsExists (path / candidate name m) = .ok false := by
      rcases hx : w.fs.fsExists (path / candidate name m) with e | - | -
      · simp [hx, Except.map] at hm
      · rfl
      · exact absurd hx hstop
    have hz : (0 : Byte) ∉ path.native ∧ (0 : Byte) ∉ name.native := by
      rw [← not_or]
      intro hz
      rw [fsExists_candidate hs hz] at hmfree
      exact hfree hmfree
    refine hnot ⟨hz, fun k hk => ?_⟩
    have hkm : k ≤ m := by
      by_contra hlt
      have hthere := hk m (Nat.lt_of_not_le hlt)
      rw [(fsExists_eq_ok.mp hmfree).2] at hthere
      cases hthere
    have hshort : w.fs.tooLong (path / candidate name k) = false := by
      rcases Nat.eq_or_lt_of_le hkm with rfl | hlt
      · exact (fsExists_eq_ok.mp hmfree).1
      · exact (fsExists_eq_ok.mp (not_not.mp (hbefore k hlt))).1
    rw [hlong hz, decide_eq_false_iff_not] at hshort
    exact Nat.not_lt.mp hshort
  · rintro (hfree | ⟨hz, hshort⟩)
    · exact findsFreshName_of_free (m := 0) hw hcur hfree (fun j hj => absurd hj (Nat.not_lt_zero j)) (fun _ => by decide)
    · obtain ⟨m, hstop, htaken, -, hm⟩ := exists_last_candidate hdir hz.1 hs hz.2
      have hfree : w.fs.fsExists (path / candidate name m) = .ok false := by
        have hlength := hshort m (fun j hj => (fsExists_eq_ok.mp (htaken j hj)).2)
        have hmlong : w.fs.tooLong (path / candidate name m) = false := by
          rw [hlong hz, decide_eq_false_iff_not]
          exact Nat.not_lt.mpr hlength
        cases hexists : w.fs.pathExists (path / candidate name m) with
        | false => exact fsExists_eq_ok.mpr ⟨hmlong, hexists⟩
        | true => exact absurd (fsExists_eq_ok.mpr ⟨hmlong, hexists⟩) hstop
      refine findsFreshName_of_free hw hcur hfree htaken ?_
      intro hd
      have hle := hm (isName_of_file hw hd hs hz.2 hsource)
      omega

end Cp

namespace Sample

/-- The file `x`, and a directory that holds its name and its first copy. -/
def copying : World where
  fs := ⟨tree [([ascii "r", ascii "x"], .file 0), ([ascii "r", ascii "d"], .dir),
    ([ascii "r", ascii "d", ascii "x"], .file 1), ([ascii "r", ascii "d", ascii "x (copy 1)"], .file 2)],
    [ascii "abc", [], []]⟩
  client := session.context

def cut : Path := ⟨ascii "x" ++ 0 :: ascii "y"⟩

end Sample

theorem Cp.findsFreshName_iff_second :
    FindsFreshName Sample.server Sample.copying ⟨ascii "/r"⟩ ⟨ascii "/r/d"⟩ ⟨ascii "x"⟩ ↔
      Sample.copying.fs.fsExists (⟨ascii "/r/d"⟩ / ⟨ascii "x"⟩) = .ok false ∨
        ((0 : Byte) ∉ ascii "/r/d" ∧ (0 : Byte) ∉ ascii "x") ∧
          TriesShortNames Sample.copying.fs ⟨ascii "/r/d"⟩ ⟨ascii "x"⟩ :=
  findsFreshName_iff [Sample.string "path" "/d", Sample.string "name" "x"] (by decide) (by decide)
    (by decide) (by decide) (by decide)

/-- The copy stays in the directory of the file, and every name that is tried is read as its name. -/
theorem Cp.never_finds_fresh_name :
    Sample.copying.fs.WellFormed ∧ Sample.copying.client.currentPathLock = some ⟨ascii "/r"⟩ ∧
      TransportCommand.parseFields Sample.server Sample.copying.fs Sample.copying.client
        [Sample.string "path" "/", ⟨ascii "name", .string Sample.cut.native⟩] = .ok (⟨ascii "/r/"⟩, Sample.cut) ∧
      Sample.copying.fs.isRegularFile (⟨ascii "/r"⟩ / Sample.cut) = true ∧
      (Sample.copying.fs.entries ⟨ascii "/r/"⟩).length < 2 ^ 31 - 1 ∧
      ¬ Renames Sample.copying.fs ⟨ascii "/r/"⟩ Sample.cut := by
  refine ⟨by decide, by decide, by decide, by decide, by decide, ?_⟩
  rw [renames_iff (by decide) (by decide), not_not]
  exact ⟨by decide, .inr (by decide)⟩

end TinDox
