import TinDox.FileSpecs

/-! What a user sees of the file system: at each place nothing, a directory, or a file with its
content. The operations are restated in these terms, each with the places it leaves alone. -/

namespace TinDox

open Lexical DirTree

namespace FileSystem

variable {fs fs' : FileSystem} {p : Path} {j k : Key} {i : Nat}

def view (fs : FileSystem) (k : Key) : Option (Node Bytes) :=
  match fs.get k with
  | none => none
  | some .dir => some .dir
  | some (.file i) => some (.file (fs.contents i))

theorem view_file (h : fs.get k = some (.file i)) : fs.view k = some (.file (fs.contents i)) := by
  simp [view, h]

theorem view_eq_none : fs.view k = none ↔ fs.get k = none := by
  unfold view
  split <;> simp [*]

theorem view_eq_dir : fs.view k = some .dir ↔ fs.get k = some .dir := by
  unfold view
  split <;> simp [*]

theorem view_eq_file {b : Bytes} :
    fs.view k = some (.file b) ↔ ∃ i, fs.get k = some (.file i) ∧ fs.contents i = b := by
  unfold view
  split <;> simp [*]

theorem read_eq_some {b : Bytes} : fs.read k = some b ↔ fs.view k = some (.file b) := by
  unfold view read
  cases fs.get k with
  | none => simp
  | some x => cases x <;> simp

theorem view_congr (hg : fs'.get j = fs.get j)
    (hc : ∀ i, fs.get j = some (.file i) → fs'.contents i = fs.contents i) : fs'.view j = fs.view j := by
  unfold view
  rw [hg]
  split
  · rfl
  · rfl
  · rename_i i hi
    rw [hc i hi]

theorem view_of_data (hg : fs'.get j = fs.get j) (hd : fs'.data = fs.data) : fs'.view j = fs.view j :=
  view_congr hg (fun i _ => by rw [contents, contents, hd])

theorem OnDisk.get {stream : Option Nat} {disk : FileSystem} (h : OnDisk stream fs disk) (k : Key) :
    disk.get k = fs.get k := by rw [FileSystem.get, FileSystem.get, h.tree]

theorem OnDisk.view {stream : Option Nat} {disk : FileSystem} (h : OnDisk stream fs disk)
    (hk : ∀ i ∈ stream, fs.get k ≠ some (.file i)) : disk.view k = fs.view k :=
  view_congr (h.get k) (fun i hi => h.others i (fun hs => hk i hs.symm hi))

/-- Without an open stream everything is on the disk. -/
theorem OnDisk.eq {disk : FileSystem} (h : OnDisk none fs disk) : disk = fs := by
  have hdata : disk.data = fs.data := by
    refine List.ext_getElem h.inodes (fun i hi hi' => ?_)
    have hsame := h.others i (by simp)
    simpa [contents, hi, hi'] using hsame
  cases disk
  cases fs
  simp only [FileSystem.mk.injEq]
  exact ⟨h.tree, hdata⟩

theorem view_insert (hk : k ≠ []) (hf : fs.get k = none) (j : Key) :
    (fs.insert k .dir).view j = if j = k then some .dir else fs.view j := by
  by_cases hj : j = k
  · subst j
    simpa using view_eq_dir.mpr (by simp [get_insert hk hf])
  · rw [if_neg hj]
    exact view_of_data (by simp [get_insert hk hf, hj]) rfl

theorem WellFormed.view_create (hw : fs.WellFormed) (hk : k ≠ []) (hf : fs.get k = none) (b : Bytes) (j : Key) :
    (fs.create k b).view j = if j = k then some (.file b) else fs.view j := by
  by_cases hj : j = k
  · subst j
    rw [if_pos rfl]
    exact view_eq_file.mpr ⟨fs.data.length, by simp [get_create hk hf], contents_create_new fs _ b⟩
  · rw [if_neg hj]
    exact view_congr (by simp [get_create hk hf, hj]) (fun i hi => contents_create _ _ (hw.inodes _ _ hi))

theorem view_isSome {x : Node Bytes} (h : fs.view k = some x) : fs.get k ≠ none := fun hg => by simp [view_eq_none.mpr hg] at h

theorem WellFormed.view_made (hw : fs.WellFormed) {x : Node Bytes} (hj : j ≠ []) (hf : fs.get j = none)
    (he : fs' = fs.insert j .dir ∨ ∃ b, fs' = fs.create j b) (h : fs.view k = some x) : fs'.view k = some x := by
  have hne : k ≠ j := fun hh => view_isSome h (hh ▸ hf)
  rcases he with rfl | ⟨b, rfl⟩
  · rw [view_insert hj hf, if_neg hne, h]
  · rw [hw.view_create hj hf, if_neg hne, h]

theorem view_write_of_ne (b : Bytes) (h : fs.get j ≠ some (.file i)) : (fs.write i b).view j = fs.view j := by
  refine view_congr (by simp) (fun i' hi' => ?_)
  rw [contents_write, if_neg]
  rintro ⟨rfl, -⟩
  exact h hi'

theorem WellFormed.view_write (hw : fs.WellFormed) (hk : fs.get k = some (.file i)) (b : Bytes) (j : Key) :
    (fs.write i b).view j = if j = k then some (.file (fs.contents i ++ b)) else fs.view j := by
  by_cases hj : j = k
  · subst j
    rw [if_pos rfl]
    exact view_eq_file.mpr ⟨i, by simpa using hk, by simp [contents_write, hw.inodes _ _ hk]⟩
  · rw [if_neg hj]
    exact view_write_of_ne b (fun hh => hj (hw.unique _ _ _ hh hk))

theorem WellFormed.view_openWrite (hw : fs.WellFormed) {trunc : Bool} (h : fs.openWrite p trunc = some (fs', i))
    (hj : j ≠ p.cString.key) : fs'.view j = fs.view j := by
  obtain ⟨hw', hg, -, hget, hc⟩ := hw.openWrite h
  refine view_congr (hget j hj) (fun i' hi' => hc i' (hw.inodes _ _ hi') ?_)
  rintro rfl
  exact hj (hw'.unique _ _ _ ((hget j hj).trans hi') hg)

theorem WellFormed.contents_openWrite (hw : fs.WellFormed) {trunc : Bool}
    (h : fs.openWrite p trunc = some (fs', i)) :
    fs'.contents i = [] ∧ (trunc = true ∨ fs.get p.cString.key = none) ∨
      trunc = false ∧ fs' = fs ∧ fs.get p.cString.key = some (.file i) := by
  rcases openWrite_some h with ⟨-, hg, rfl⟩ | ⟨hr, hl, he, rfl, rfl⟩
  · have hi := hw.inodes _ _ hg
    cases trunc with
    | false => exact .inr ⟨rfl, rfl, hg⟩
    | true => exact .inl ⟨by simp [contents, hi], .inl rfl⟩
  · exact .inl ⟨contents_create_new fs _ _, .inr (get_none_of_resolve_none hr hl he)⟩

theorem locate_mono (hdir : ∀ j, fs.get j = some .dir → fs'.get j = some .dir)
    (hsome : ∀ j, (fs.get j).isSome → (fs'.get j).isSome) (hl : fs.locate p = .ok k) : fs'.locate p = .ok k := by
  obtain ⟨dirs, last, d, hleaf, hn, ha, hwalk, hg, hk⟩ := locate_eq_ok.mp hl
  exact locate_eq_ok.mpr ⟨dirs, last, d, hleaf, hn, ha, walk_mono hdir hsome hwalk, hdir d hg, hk⟩

theorem isDirectory_of_locate (hl : fs.locate p = .ok k) (hd : fs.get k = some .dir) : fs.isDirectory p = true := by
  simp [isDirectory, status, resolve_of_locate_dir hl hd, hd]

theorem isDirectory_createDirectory (h : fs.createDirectory p = .ok fs') : fs'.isDirectory p = true := by
  cases hl : fs.locate p with
  | error e => simp [createDirectory, hl] at h
  | ok k =>
    obtain ⟨-, hk, -⟩ := locate_ok hl
    simp only [createDirectory, hl] at h
    split at h
    · rename_i hf
      obtain rfl := Except.ok.inj h
      have hget : ∀ j, (fs.insert k .dir).get j = if j = k then some .dir else fs.get j := get_insert hk hf _
      have hdir : ∀ j, fs.get j = some .dir → (fs.insert k .dir).get j = some .dir := by
        intro j hj
        rw [hget, hj]
        split <;> rfl
      have hsome : ∀ j, (fs.get j).isSome → ((fs.insert k .dir).get j).isSome := by
        intro j hj
        rw [hget]
        split
        · rfl
        · exact hj
      exact isDirectory_of_locate (locate_mono hdir hsome hl) (by simp [hget])
    · rename_i hd
      obtain rfl := Except.ok.inj h
      exact isDirectory_of_locate hl hd
    · cases h

theorem resolve_create (hr : fs.resolve p = none) (hl : fs.locate p = .ok k) (hs : p.cString.endsInSlash = false)
    (b : Bytes) : (fs.create k b).resolve p = some k := by
  have hf := get_none_of_resolve_none hr hl hs
  obtain ⟨-, hk, -⟩ := locate_ok hl
  obtain ⟨dirs, last, d, hleaf, hn, ha, hwalk, hg, -, rfl⟩ := locate_eq_ok.mp hl
  have hget : ∀ j, (fs.create (d ++ [last]) b).get j =
      if j = d ++ [last] then some (.file fs.data.length) else fs.get j := get_create hk hf b
  have hdir : ∀ j, fs.get j = some .dir → (fs.create (d ++ [last]) b).get j = some .dir := by
    intro j hj
    rw [hget, if_neg, hj]
    rintro rfl
    simp [hf] at hj
  have hsome : ∀ j, (fs.get j).isSome → ((fs.create (d ++ [last]) b).get j).isSome := by
    intro j hj
    rw [hget]
    split
    · rfl
    · exact hj
  have hwalk' := walk_mono hdir hsome hwalk
  have hd := hdir d hg
  have hnew := hget (d ++ [last])
  rw [if_pos rfl] at hnew
  simp only [get] at hd hnew
  rw [resolve, if_pos ha, Path.components_of_leaf_no_slash hleaf hs, walk_append, hwalk', Path.classify_name hn]
  simp [walk, hd, hnew]

/-- A file that is written from its beginning holds what was written. -/
theorem WellFormed.readFile_write (hw : fs.WellFormed) (h : fs.openWrite p true = some (fs', i)) (b : Bytes) :
    (fs'.write i b).readFile p = some b := by
  obtain ⟨-, hg, hi, -⟩ := hw.openWrite h
  have hempty : fs'.contents i = [] := by
    rcases hw.contents_openWrite h with ⟨he, -⟩ | ⟨ht, -⟩
    · exact he
    · cases ht
  have hres : fs'.resolve p = some p.cString.key := by
    rcases openWrite_some h with ⟨hr, -, rfl⟩ | ⟨hr, hl, hs, -, rfl⟩
    · exact hr
    · exact resolve_create hr hl hs []
  have hres' : (fs'.write i b).resolve p = some p.cString.key := hres
  rw [readFile, hres', Option.bind_some, read, get_write, hg]
  simp [contents_write, hi, hempty]

theorem WellFormed.view_remove (hw : fs.WellFormed) {removed : Bool} (h : fs.remove p = .ok (fs', removed))
    (hj : j ≠ p.cString.key) : fs'.view j = fs.view j := by
  obtain ⟨-, hd, hg⟩ := hw.remove h
  exact view_of_data (hg j hj) hd

theorem Moves.view_eq {o n : Key} (h : Moves fs fs' o n) (j : Key) :
    fs'.view j = if n <+: j then fs.view (o ++ j.drop n.length) else if o <+: j then none else fs.view j := by
  have hc : ∀ i, fs'.contents i = fs.contents i := fun i => by rw [contents, contents, h.data]
  have hview : ∀ j, fs'.view j = match fs'.get j with
      | none => none
      | some .dir => some .dir
      | some (.file i) => some (.file (fs.contents i)) := by
    intro j
    simp only [view, hc]
  rw [hview, h.get_eq]
  by_cases hn : n <+: j
  · simp only [hn, if_true]
    rfl
  · by_cases ho : o <+: j
    · simp [hn, ho]
    · simp only [hn, ho, if_false]
      rfl

end FileSystem

end TinDox
