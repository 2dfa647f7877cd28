import TinDox.FileSystem

/-! What the file operations do, location by location, and that they keep the file system well
formed. -/

namespace TinDox

open Lexical DirTree

open FileSystem

namespace Path

theorem isAbsolute_cString (p : Path) : p.cString.isAbsolute = p.isAbsolute := by
  obtain ⟨b⟩ := p
  cases b with
  | nil => rfl
  | cons c b =>
    by_cases hc : c = 0
    · simp [cString, isAbsolute, hc, slash]
    · simp [cString, isAbsolute, hc]

theorem cString_eq_self {p : Path} (h : (0 : Byte) ∉ p.native) : p.cString = p := by
  obtain ⟨b⟩ := p
  simp only [cString, mk.injEq, List.takeWhile_eq_self_iff]
  intro c hc
  simpa using fun he : c = 0 => h (he ▸ hc)

theorem key_noNul {p : Path} (h : (0 : Byte) ∉ p.native) : ∀ n ∈ p.key, (0 : Byte) ∉ n := by
  intro n hn hz
  obtain ⟨part, hpart, hc⟩ := List.mem_map.mp (child_mem_of_mem_key hn)
  obtain ⟨rfl, -⟩ := isName_of_classify (p.parts_no_slash part hpart) hc
  exact h (mem_native_of_mem_parts hpart hz)

theorem noNul_cString (p : Path) : (0 : Byte) ∉ p.cString.native := by
  intro h
  simpa using List.mem_takeWhile_imp h

theorem noNul_key_cString (p : Path) : ∀ n ∈ p.cString.key, (0 : Byte) ∉ n := key_noNul p.noNul_cString

theorem components_of_leaf {p : Path} {dirs : List (Component Bytes)} {last : Bytes}
    (h : p.leaf = some (dirs, last)) :
    ∃ n, p.components = dirs ++ classify last :: List.replicate n .here := by
  unfold leaf at h
  obtain ⟨last', hl, he⟩ := Option.map_eq_some_iff.mp h
  simp only [Prod.mk.injEq] at he
  obtain ⟨hd, rfl⟩ := he
  have hsplit := List.rdropWhile_append_rtakeWhile (p := fun x : Bytes => decide (x = [])) (l := p.parts)
  have htail : ∀ x ∈ p.parts.rtakeWhile (fun x : Bytes => decide (x = [])), x = [] :=
    fun x hx => by simpa using List.mem_rtakeWhile_imp hx
  have hlast := List.dropLast_append_getLast? _ hl
  generalize p.parts.rtakeWhile (fun x : Bytes => decide (x = [])) = tail at hsplit htail
  have hhere : tail.map classify = List.replicate tail.length .here := by
    rw [List.eq_replicate_iff]
    refine ⟨by simp, fun c hc => ?_⟩
    obtain ⟨x, hx, rfl⟩ := List.mem_map.mp hc
    simp [htail x hx, classify]
  refine ⟨tail.length, ?_⟩
  rw [components, ← hsplit, ← hlast, List.map_append, List.map_append, hd, hhere]
  simp

theorem filename_native_nil {b : Bytes} (h : (Path.mk b).filename.native = []) :
    b = [] ∨ (Path.mk b).endsInSlash = true := by
  rcases List.eq_nil_or_concat b with rfl | ⟨d, x, rfl⟩
  · exact .inl rfl
  · have hx : x = slash := by
      by_contra hne
      simp [filename, List.rtakeWhile_concat_pos, hne] at h
    exact .inr (by simp [endsInSlash, hx])

theorem parts_eq_append_filename (p : Path) : ∃ l, p.parts = l ++ [p.filename.native] := by
  obtain ⟨b⟩ := p
  have hsplit := List.rdropWhile_append_rtakeWhile (p := fun x : Byte => decide (x ≠ slash)) (l := b)
  have hf : slash ∉ (Path.mk b).filename.native := filename_no_slash _
  change b.rdropWhile (fun x => decide (x ≠ slash)) ++ (Path.mk b).filename.native = b at hsplit
  rcases List.eq_nil_or_concat (b.rdropWhile (fun x => decide (x ≠ slash))) with hd | ⟨d, x, hd⟩
  · rw [hd, List.nil_append] at hsplit
    exact ⟨[], by simpa [hsplit] using parts_of_no_slash (p := ⟨b⟩) (hsplit ▸ hf)⟩
  · have hx : x = slash := by
      have hne : b.rdropWhile (fun x => decide (x ≠ slash)) ≠ [] := by rw [hd]; simp
      have hh := List.rdropWhile_last_not (fun x : Byte => decide (x ≠ slash)) b hne
      simp only [hd, List.concat_eq_append, List.getLast_append_singleton] at hh
      simpa using hh
    refine ⟨parts ⟨d⟩, ?_⟩
    have hparts := parts_concat_slash d (Path.mk b).filename.native
    rw [hd, hx, List.concat_eq_append, List.append_assoc, List.singleton_append] at hsplit
    rw [hsplit] at hparts
    rw [hparts, parts_of_no_slash hf]

theorem components_of_leaf_no_slash {p : Path} {dirs : List (Component Bytes)} {last : Bytes}
    (h : p.leaf = some (dirs, last)) (hs : p.endsInSlash = false) :
    p.components = dirs ++ [classify last] := by
  obtain ⟨l, hl⟩ := p.parts_eq_append_filename
  have hne : p.filename.native ≠ [] := by
    intro hf
    rcases filename_native_nil hf with hb | hb
    · have hp : p.parts = [[]] := by simp [parts, hb, List.splitOn_eq_splitOnP]
      simp [leaf, hp, List.rdropWhile_singleton] at h
    · simp [hs] at hb
  have hdrop : (l ++ [p.filename.native]).rdropWhile (fun x : Bytes => decide (x = [])) =
      l ++ [p.filename.native] := by
    rw [List.rdropWhile_concat]
    simp [hne]
  rw [leaf, hl, hdrop] at h
  simp only [List.getLast?_append_cons, List.getLast?_singleton, Option.map_some, List.dropLast_concat,
    Option.some.injEq, Prod.mk.injEq] at h
  rw [components, hl, ← h.1, ← h.2, List.map_append, List.map_singleton]

theorem follow_replicate_here (k : List Bytes) (n : Nat) : follow k (List.replicate n .here) = k := by
  induction n with
  | zero => rfl
  | succ n ih => simpa [List.replicate_succ, follow] using ih

end Path

namespace FileSystem

variable {fs fs' : FileSystem} {p old new : Path} {k : Key}

theorem isAbsolute_of_resolve (h : fs.resolve p = some k) : p.isAbsolute = true := by
  by_contra hne
  simp [resolve, hne] at h

theorem resolve_eq_key (h : fs.resolve p = some k) : k = p.cString.key := by
  unfold resolve at h
  split at h
  · exact walk_eq_follow h
  · simp at h

theorem isDirectory_resolve (h : fs.isDirectory p = true) : ∃ k, fs.resolve p = some k ∧ fs.get k = some .dir := by
  simp only [isDirectory, status, beq_iff_eq] at h
  exact Option.bind_eq_some_iff.mp h

theorem isDirectory_get (h : fs.isDirectory p = true) : fs.get p.cString.key = some .dir := by
  obtain ⟨k, hk, hg⟩ := isDirectory_resolve h
  rwa [resolve_eq_key hk] at hg

theorem isRegularFile_get (h : fs.isRegularFile p = true) : ∃ i, fs.get p.cString.key = some (.file i) := by
  unfold isRegularFile at h
  split at h
  · rename_i i hstatus
    obtain ⟨k, hk, hg⟩ := Option.bind_eq_some_iff.mp hstatus
    exact ⟨i, resolve_eq_key hk ▸ hg⟩
  · simp at h

theorem WellFormed.get_of_resolve (hw : fs.WellFormed) (h : fs.resolve p = some k) : (fs.get k).isSome := by
  unfold resolve at h
  split at h
  · exact hw.closed.walk_isSome (by simp) h
  · simp at h

/-- A path that leads somewhere has no name on it that is too long. -/
theorem WellFormed.tooLong_of_resolve (hw : fs.WellFormed) (h : fs.resolve p = some k) : fs.tooLong p = false := by
  have habs := isAbsolute_of_resolve h
  rw [resolve, if_pos habs] at h
  rw [tooLong, habs, Bool.true_and]
  refine comesTo_of_walk (fun j a ha => ?_) h
  have hname := hw.names (j ++ [a]) ha a (by simp)
  simpa using hname.2.2

theorem WellFormed.pathExists_of_tooLong (hw : fs.WellFormed) (h : fs.tooLong p = true) : fs.pathExists p = false := by
  cases hr : fs.resolve p with
  | none => simp [pathExists, hr]
  | some k => rw [hw.tooLong_of_resolve hr] at h; cases h

theorem locate_eq_ok : fs.locate p = .ok k ↔ ∃ dirs last d, p.cString.leaf = some (dirs, last) ∧ IsName last ∧
    p.isAbsolute = true ∧ walk fs.tree [] dirs = some d ∧ fs.get d = some .dir ∧ last.length ≤ nameMax ∧
      k = d ++ [last] := by
  constructor
  · intro h
    unfold locate at h
    split at h
    · simp at h
    · rename_i dirs last hleaf
      by_cases hn : IsName last
      · by_cases ha : p.isAbsolute = true
        · simp only [hn, ha, not_true_eq_false, if_false] at h
          split at h
          · simp at h
          · rename_i d hwalk
            by_cases hg : fs.get d = some .dir
            · by_cases hlong : nameMax < last.length
              · simp [hg, hlong] at h
              · simp only [hg, ne_eq, not_true_eq_false, if_false, hlong, Except.ok.injEq] at h
                exact ⟨dirs, last, d, hleaf, hn, ha, hwalk, hg, Nat.le_of_not_lt hlong, h.symm⟩
            · simp [hg] at h
        · simp [hn, ha] at h
      · simp [hn] at h
  · rintro ⟨dirs, last, d, hleaf, hn, ha, hwalk, hg, hlong, rfl⟩
    simp [locate, hleaf, hn, ha, hwalk, hg, Nat.not_lt.mpr hlong]

theorem locate_ok (h : fs.locate p = .ok k) :
    k = p.cString.key ∧ k ≠ [] ∧ fs.get k.dropLast = some .dir ∧ p.isAbsolute = true := by
  obtain ⟨dirs, last, d, hleaf, hn, ha, hwalk, hg, -, rfl⟩ := locate_eq_ok.mp h
  obtain ⟨n, hc⟩ := Path.components_of_leaf hleaf
  have hkey : d ++ [last] = p.cString.key := by
    rw [Path.key, hc, follow_append, ← walk_eq_follow hwalk, Path.classify_name hn]
    simp [follow, Path.follow_replicate_here]
  exact ⟨hkey, by simp, by simpa using hg, ha⟩

/-- The names on the way are those of entries, and the last one fits. -/
theorem WellFormed.locate_names (hw : fs.WellFormed) (h : fs.locate p = .ok k) : ∀ n ∈ k, IsEntryName n := by
  obtain ⟨rfl, -⟩ := locate_ok h
  obtain ⟨dirs, last, d, -, hn, -, -, hg, hlong, hkey⟩ := locate_eq_ok.mp h
  intro n hmem
  have hzero := p.noNul_key_cString n hmem
  rw [hkey] at hmem
  rcases List.mem_append.mp hmem with hmem | hmem
  · exact hw.names d (by simp [hg]) n hmem
  · obtain rfl := List.mem_singleton.mp hmem
    exact ⟨hn, hzero, hlong⟩

@[simp] theorem get_nil (fs : FileSystem) : fs.get [] = some .dir := rfl

theorem get_insert (hk : k ≠ []) (hf : fs.get k = none) (x : Node Nat) (j : Key) :
    (fs.insert k x).get j = if j = k then some x else fs.get j :=
  DirTree.get_insert hk hf x j

theorem get_create (hk : k ≠ []) (hf : fs.get k = none) (b : Bytes) (j : Key) :
    (fs.create k b).get j = if j = k then some (.file fs.data.length) else fs.get j :=
  DirTree.get_insert hk hf _ j

theorem contents_create_new (fs : FileSystem) (k : Key) (b : Bytes) :
    (fs.create k b).contents fs.data.length = b := by
  simp [create, contents]

theorem contents_create (k : Key) (b : Bytes) {i : Nat} (hi : i < fs.data.length) :
    (fs.create k b).contents i = fs.contents i := by
  simp [create, contents, List.getElem?_append_left hi]

theorem contents_write (fs : FileSystem) (i j : Nat) (b : Bytes) :
    (fs.write i b).contents j = if i = j ∧ j < fs.data.length then fs.contents j ++ b else fs.contents j := by
  by_cases hj : j < fs.data.length
  · by_cases hij : i = j <;> simp [write, contents, hj, hij]
  · simp [write, contents, hj]

@[simp] theorem get_write (fs : FileSystem) (i : Nat) (b : Bytes) (k : Key) : (fs.write i b).get k = fs.get k :=
  rfl

theorem WellFormed.sub (hw : fs.WellFormed) (hc : Closed fs'.tree) (hd : fs.data.length ≤ fs'.data.length)
    (hs : ∀ k x, fs'.get k = some x → fs.get k = some x) : fs'.WellFormed where
  closed := hc
  names k hk := by
    obtain ⟨x, hx⟩ := Option.isSome_iff_exists.mp hk
    exact hw.names k (by simp [hs k x hx])
  inodes k i hi := Nat.lt_of_lt_of_le (hw.inodes k i (hs k _ hi)) hd
  unique j k i hj hk := hw.unique j k i (hs j _ hj) (hs k _ hk)

theorem WellFormed.prune (hw : fs.WellFormed) (hk : k ≠ []) :
    WellFormed { fs with tree := DirTree.prune fs.tree k } := by
  refine hw.sub (hw.closed.prune k) (Nat.le_refl _) (fun j x hj => ?_)
  rw [get, get_prune fs.tree hk] at hj
  split at hj
  · simp at hj
  · exact hj

theorem WellFormed.clear (hw : fs.WellFormed) (k : Key) :
    WellFormed { fs with tree := DirTree.clear fs.tree k } := by
  refine hw.sub (hw.closed.clear k) (Nat.le_refl _) (fun j x hj => ?_)
  rw [get, get_clear fs.tree] at hj
  split at hj
  · simp at hj
  · exact hj

theorem WellFormed.write (hw : fs.WellFormed) (i : Nat) (b : Bytes) : (fs.write i b).WellFormed :=
  hw.sub hw.closed (by simp [FileSystem.write]) (fun _ _ h => h)

theorem WellFormed.setData (hw : fs.WellFormed) (i : Nat) (b : Bytes) :
    WellFormed { fs with data := fs.data.set i b } :=
  hw.sub hw.closed (by simp) (fun _ _ h => h)

theorem WellFormed.insertDir (hw : fs.WellFormed) (hk : k ≠ []) (hf : fs.get k = none)
    (hd : fs.get k.dropLast = some .dir) (hn : ∀ n ∈ k, IsEntryName n) : (fs.insert k .dir).WellFormed where
  closed := hw.closed.insert hk hf hd _
  names j hj := by
    rw [get_insert hk hf] at hj
    split at hj
    · rename_i he
      exact he ▸ hn
    · exact hw.names j hj
  inodes j i hj := by
    rw [get_insert hk hf] at hj
    split at hj
    · simp at hj
    · exact hw.inodes j i hj
  unique j j' i hj hj' := by
    rw [get_insert hk hf] at hj hj'
    split at hj
    · simp at hj
    · split at hj'
      · simp at hj'
      · exact hw.unique j j' i hj hj'

theorem WellFormed.create (hw : fs.WellFormed) (hk : k ≠ []) (hf : fs.get k = none)
    (hd : fs.get k.dropLast = some .dir) (hn : ∀ n ∈ k, IsEntryName n) (b : Bytes) :
    (fs.create k b).WellFormed where
  closed := hw.closed.insert hk hf hd _
  names j hj := by
    rw [get_create hk hf] at hj
    split at hj
    · rename_i he
      exact he ▸ hn
    · exact hw.names j hj
  inodes j i hj := by
    rw [get_create hk hf] at hj
    simp only [FileSystem.create, List.length_append, List.length_singleton]
    split at hj
    · simp only [Option.some.injEq, Node.file.injEq] at hj
      omega
    · have hh := hw.inodes j i hj
      omega
  unique j j' i hj hj' := by
    rw [get_create hk hf] at hj hj'
    split at hj <;> split at hj'
    · simp_all
    · simp only [Option.some.injEq, Node.file.injEq] at hj
      have hh := hw.inodes j' i hj'
      omega
    · simp only [Option.some.injEq, Node.file.injEq] at hj'
      have hh := hw.inodes j i hj
      omega
    · exact hw.unique j j' i hj hj'

/-- The file system after the subtree at `o` has moved to the fresh place `n`. -/
def moved (fs : FileSystem) (o n : Key) : FileSystem := { fs with tree := graft fs.tree o n }

theorem get_moved (hw : fs.WellFormed) {o n : Key} (ho : o ≠ []) (hn : n ≠ []) (hf : fs.get n = none)
    (j : Key) : (fs.moved o n).get j =
      if n <+: j then fs.get (o ++ j.drop n.length) else if o <+: j then none else fs.get j :=
  get_graft hw.closed ho hn hf j

/-- Where an entry of the moved tree was before. -/
theorem moved_origin (hw : fs.WellFormed) {o n : Key} (ho : o ≠ []) (hn : n ≠ []) (hf : fs.get n = none)
    {j : Key} {x : Node Nat} (h : (fs.moved o n).get j = some x) :
    (∃ s, j = n ++ s ∧ fs.get (o ++ s) = some x) ∨ (¬ n <+: j ∧ ¬ o <+: j ∧ fs.get j = some x) := by
  rw [get_moved hw ho hn hf] at h
  split at h
  · rename_i hp
    obtain ⟨s, rfl⟩ := hp
    exact .inl ⟨s, rfl, by simpa using h⟩
  · rename_i hp
    split at h
    · simp at h
    · rename_i hp'
      exact .inr ⟨hp, hp', h⟩

theorem WellFormed.moved (hw : fs.WellFormed) {o n : Key} (ho : o ≠ []) (hn : n ≠ []) (hf : fs.get n = none)
    (hd : fs.get n.dropLast = some .dir) (hon : ¬ o <+: n) (hnames : ∀ a ∈ n, IsEntryName a) :
    (fs.moved o n).WellFormed where
  closed := hw.closed.graft ho hn hf hd hon
  names j hj := by
    obtain ⟨x, hx⟩ := Option.isSome_iff_exists.mp hj
    rcases moved_origin hw ho hn hf hx with ⟨s, rfl, hs⟩ | ⟨-, -, hs⟩
    · intro a ha
      rcases List.mem_append.mp ha with ha | ha
      · exact hnames a ha
      · exact hw.names (o ++ s) (by simp [hs]) a (by simp [ha])
    · exact hw.names j (by simp [hs])
  inodes j i hj := by
    rcases moved_origin hw ho hn hf hj with ⟨s, rfl, hs⟩ | ⟨-, -, hs⟩
    · exact hw.inodes _ i hs
    · exact hw.inodes j i hs
  unique j j' i hj hj' := by
    rcases moved_origin hw ho hn hf hj with ⟨s, rfl, hs⟩ | ⟨hnj, hoj, hs⟩ <;>
      rcases moved_origin hw ho hn hf hj' with ⟨s', rfl, hs'⟩ | ⟨hnj', hoj', hs'⟩
    · have hh := hw.unique _ _ i hs hs'
      simpa using hh
    · have hh := hw.unique _ _ i hs hs'
      exact absurd (hh ▸ List.prefix_append o s) hoj'
    · have hh := hw.unique _ _ i hs hs'
      exact absurd (hh ▸ List.prefix_append o s') hoj
    · exact hw.unique j j' i hs hs'

/-- A new directory is one whose name was not too long. -/
theorem tooLong_insert (hl : fs.locate p = .ok k) (hf : fs.get k = none) (hlong : fs.tooLong p = false) :
    (fs.insert k .dir).tooLong p = false := by
  obtain ⟨dirs, last, d, hleaf, hn, ha, hwalk, hd, hlast, rfl⟩ := locate_eq_ok.mp hl
  obtain ⟨n, hc⟩ := Path.components_of_leaf hleaf
  have hget (j : Key) : DirTree.get (fs.insert (d ++ [last]) .dir).tree j = if j = d ++ [last] then some .dir else fs.get j :=
    get_insert (by simp) hf .dir j
  have hdir : ∀ j, DirTree.get fs.tree j = some .dir → DirTree.get (fs.insert (d ++ [last]) .dir).tree j = some .dir := by
    intro j hj
    rw [hget]
    split
    · rfl
    · exact hj
  have hsome : ∀ j, (DirTree.get fs.tree j).isSome → (DirTree.get (fs.insert (d ++ [last]) .dir).tree j).isSome := by
    intro j hj
    rw [hget]
    split
    · rfl
    · exact hj
  rw [tooLong, ha, Bool.true_and, hc, comesTo_append] at hlong ⊢
  rw [Bool.or_eq_false_iff] at hlong
  have hnew := hget (d ++ [last])
  rw [if_pos rfl] at hnew
  rw [comesTo_mono hdir hsome _ hwalk, hlong.1, walk_mono hdir hsome hwalk, Path.classify_name hn]
  have hshort : ¬ nameMax < last.length := Nat.not_lt.mpr hlast
  simp [comesTo, hdir d hd, hshort, comesTo_replicate_here]

theorem createDirectory_ok (h : fs.createDirectory p = .ok fs') :
    fs' = fs ∨ fs.locate p = .ok p.cString.key ∧ fs.get p.cString.key = none ∧
      fs' = fs.insert p.cString.key .dir := by
  unfold createDirectory at h
  cases hl : fs.locate p with
  | error e => simp [hl] at h
  | ok k =>
    obtain ⟨rfl, -⟩ := locate_ok hl
    simp only [hl] at h
    split at h
    · rename_i hg
      exact .inr ⟨rfl, hg, by simpa using h.symm⟩
    · exact .inl (by simpa using h.symm)
    · simp at h

theorem WellFormed.createDirectory (hw : fs.WellFormed) (h : fs.createDirectory p = .ok fs') :
    fs'.WellFormed := by
  rcases createDirectory_ok h with rfl | ⟨hl, hf, rfl⟩
  · exact hw
  · obtain ⟨-, hk, hd, -⟩ := locate_ok hl
    exact hw.insertDir hk hf hd (hw.locate_names hl)

theorem copyFile_ok {src dst : Path} (h : fs.copyFile src dst = .ok fs') :
    ∃ i, fs.status src = some (.file i) ∧ fs.locate dst = .ok dst.cString.key ∧
      fs.get dst.cString.key = none ∧ fs' = fs.create dst.cString.key (fs.contents i) := by
  unfold copyFile at h
  split at h
  · simp at h
  · simp at h
  · rename_i i hs
    cases hl : fs.locate dst with
    | error e => simp [hl] at h
    | ok k =>
      obtain ⟨rfl, -⟩ := locate_ok hl
      by_cases hg : (fs.get dst.cString.key).isSome = true
      · simp [hl, hg] at h
      · simp only [hl, hg, if_false, Bool.false_eq_true] at h
        split at h
        · simp at h
        · exact ⟨i, hs, rfl, by simpa using hg, by simpa using h.symm⟩

theorem WellFormed.copyFile (hw : fs.WellFormed) {src dst : Path} (h : fs.copyFile src dst = .ok fs') :
    fs'.WellFormed := by
  obtain ⟨i, -, hl, hf, rfl⟩ := copyFile_ok h
  obtain ⟨-, hk, hd, -⟩ := locate_ok hl
  exact hw.create hk hf hd (hw.locate_names hl) _

/-- What a successful `rename` has done: nothing, or a move to a place that was free or has been
freed of a file or an empty directory. -/
theorem rename_ok (h : fs.rename old new = .ok fs') :
    fs.locate old = .ok old.cString.key ∧ fs.locate new = .ok new.cString.key ∧
    (fs.get old.cString.key).isSome ∧
    (fs.get old.cString.key ≠ some .dir → new.cString.endsInSlash = false) ∧
    (fs' = fs ∧ old.cString.key = new.cString.key ∨
      ¬ old.cString.key <+: new.cString.key ∧
      (fs.get new.cString.key = none ∧ fs' = fs.moved old.cString.key new.cString.key ∨
        (∃ i j, fs.get new.cString.key = some (.file i) ∧ fs.get old.cString.key = some (.file j)) ∧
          fs' = moved { fs with tree := DirTree.prune fs.tree new.cString.key }
            old.cString.key new.cString.key ∨
        (fs.get new.cString.key = some .dir ∧ fs.get old.cString.key = some .dir) ∧
          children fs.tree new.cString.key = [] ∧
          fs' = moved { fs with tree := DirTree.prune fs.tree new.cString.key }
            old.cString.key new.cString.key)) := by
  unfold rename at h
  cases ho : fs.locate old with
  | error e => simp [ho] at h
  | ok o =>
    cases hn : fs.locate new with
    | error e => simp [ho, hn] at h
    | ok n =>
      obtain ⟨rfl, -⟩ := locate_ok ho
      obtain ⟨rfl, -⟩ := locate_ok hn
      refine ⟨rfl, rfl, ?_⟩
      simp only [ho, hn] at h
      cases hx : fs.get old.cString.key with
      | none => simp [hx] at h
      | some x =>
        simp only [hx] at h
        split at h
        · simp at h
        · rename_i hslash
          have hslash' : some x ≠ some .dir → new.cString.endsInSlash = false := by
            intro hne
            have hne' : x ≠ .dir := fun he => hne (by rw [he])
            simpa using fun he => hslash ⟨hne', .inr he⟩
          refine ⟨rfl, hslash', ?_⟩
          split at h
          · rename_i he
            exact .inl ⟨by simpa using h.symm, he⟩
          · split at h
            · simp at h
            · rename_i hp
              refine .inr ⟨hp, ?_⟩
              cases hg : fs.get new.cString.key with
              | none => exact .inl ⟨rfl, by simpa [hg, moved] using h.symm⟩
              | some y =>
                cases y with
                | file i =>
                  cases x with
                  | dir => simp [hg] at h
                  | file j => exact .inr (.inl ⟨⟨i, j, rfl, rfl⟩, by simpa [hg, moved] using h.symm⟩)
                | dir =>
                  cases x with
                  | file j => simp [hg] at h
                  | dir =>
                    by_cases hc : children fs.tree new.cString.key = []
                    · exact .inr (.inr ⟨⟨rfl, rfl⟩, hc, by simpa [hg, hc, moved] using h.symm⟩)
                    · simp [hg, hc] at h

/-- The move of the subtree at `o` to `n`, where there is at most an entry with nothing below
it that gives way. -/
structure Moves (fs fs' : FileSystem) (o n : Key) : Prop where
  source_ne : o ≠ []
  target_ne : n ≠ []
  apart : ¬ o <+: n
  source : (fs.get o).isSome
  parent : fs.get n.dropLast = some .dir
  names : ∀ a ∈ n, IsEntryName a
  empty : ∀ s, s ≠ [] → fs.get (n ++ s) = none
  replaced : fs.get n = none ∨ (∃ i j, fs.get n = some (.file i) ∧ fs.get o = some (.file j)) ∨
    fs.get n = some .dir ∧ fs.get o = some .dir
  data : fs'.data = fs.data
  get_eq : ∀ j, fs'.get j =
    if n <+: j then fs.get (o ++ j.drop n.length) else if o <+: j then none else fs.get j

theorem moves_of_pruned (hw : fs.WellFormed) {o n : Key} (ho : o ≠ []) (hn : n ≠ []) (hon : ¬ o <+: n)
    (hs : (fs.get o).isSome) (hd : fs.get n.dropLast = some .dir) (hnames : ∀ a ∈ n, IsEntryName a)
    (he : ∀ s, s ≠ [] → fs.get (n ++ s) = none)
    (hr : fs.get n = none ∨ (∃ i j, fs.get n = some (.file i) ∧ fs.get o = some (.file j)) ∨
      fs.get n = some .dir ∧ fs.get o = some .dir) :
    (moved { fs with tree := DirTree.prune fs.tree n } o n).WellFormed ∧
      Moves fs (moved { fs with tree := DirTree.prune fs.tree n } o n) o n := by
  have hp := hw.prune hn
  have hno : ¬ n <+: o := by
    rintro ⟨s, rfl⟩
    have hs' : s ≠ [] := fun hs' => hon (by simp [hs'])
    simp [he s hs'] at hs
  have hget : ∀ j, get { fs with tree := DirTree.prune fs.tree n } j = if n <+: j then none else fs.get j :=
    get_prune fs.tree hn
  have hfree : get { fs with tree := DirTree.prune fs.tree n } n = none := by simp [hget]
  have hd' : get { fs with tree := DirTree.prune fs.tree n } n.dropLast = some .dir := by
    rw [hget, if_neg, hd]
    intro hh
    have hlen := hh.length_le
    have hpos := List.length_pos_of_ne_nil hn
    simp only [List.length_dropLast] at hlen
    omega
  refine ⟨hp.moved ho hn hfree hd' hon hnames, ho, hn, hon, hs, hd, hnames, he, hr, rfl, fun j => ?_⟩
  rw [get_moved hp ho hn hfree, hget, hget]
  by_cases hnj : n <+: j
  · have hnot : ¬ n <+: o ++ j.drop n.length := fun hh => by
      rcases List.prefix_or_prefix_of_prefix hh (List.prefix_append o _) with h1 | h1
      · exact hno h1
      · exact hon h1
    simp [hnj, hnot]
  · simp [hnj]

theorem WellFormed.rename (hw : fs.WellFormed) (h : fs.rename old new = .ok fs') :
    fs'.WellFormed ∧ (fs' = fs ∧ old.cString.key = new.cString.key ∨
      Moves fs fs' old.cString.key new.cString.key) := by
  obtain ⟨ho, hn, hs, -, hcases⟩ := rename_ok h
  obtain ⟨-, hone, -, -⟩ := locate_ok ho
  obtain ⟨-, hnne, hnd, -⟩ := locate_ok hn
  have hnn := hw.locate_names hn
  rcases hcases with ⟨rfl, he⟩ | ⟨hon, ⟨hf, rfl⟩ | ⟨⟨i, j, hi, hj⟩, rfl⟩ | ⟨hdir, hc, rfl⟩⟩
  · exact ⟨hw, .inl ⟨rfl, he⟩⟩
  · exact ⟨hw.moved hone hnne hf hnd hon hnn, .inr ⟨hone, hnne, hon, hs, hnd, hnn,
      fun s _ => hw.closed.fresh_below hf s, .inl hf, rfl, get_moved hw hone hnne hf⟩⟩
  · have hempty : ∀ s, s ≠ [] → fs.get (new.cString.key ++ s) = none := by
      intro s hs'
      by_contra hne
      have hh := hw.closed.ancestor hs' (Option.isSome_iff_ne_none.mpr hne)
      rw [get] at hi
      simp [hi] at hh
    have hh := moves_of_pruned hw hone hnne hon hs hnd hnn hempty (.inr (.inl ⟨i, j, hi, hj⟩))
    exact ⟨hh.1, .inr hh.2⟩
  · have hh := moves_of_pruned hw hone hnne hon hs hnd hnn (fun s hs' => hw.closed.children_nil hc hs')
      (.inr (.inr hdir))
    exact ⟨hh.1, .inr hh.2⟩

theorem remove_ok {removed : Bool} (h : fs.remove p = .ok (fs', removed)) :
    fs' = fs ∧ fs.resolve p = none ∨
    fs.resolve p = some p.cString.key ∧ fs.locate p = .ok p.cString.key ∧
      children fs.tree p.cString.key = [] ∧ fs' = { fs with tree := DirTree.prune fs.tree p.cString.key } := by
  unfold remove at h
  cases hr : fs.resolve p with
  | none =>
    simp only [hr, Except.ok.injEq, Prod.mk.injEq] at h
    exact .inl ⟨h.1.symm, rfl⟩
  | some k =>
    cases hl : fs.locate p with
    | error e => simp [hr, hl] at h
    | ok k' =>
      have hk := resolve_eq_key hr
      obtain ⟨hk', -⟩ := locate_ok hl
      subst hk hk'
      by_cases hc : children fs.tree p.cString.key = []
      · simp only [hr, hl, hc, if_true, Except.ok.injEq, Prod.mk.injEq] at h
        exact .inr ⟨rfl, rfl, hc, h.1.symm⟩
      · simp [hr, hl, hc] at h

theorem WellFormed.remove (hw : fs.WellFormed) {removed : Bool} (h : fs.remove p = .ok (fs', removed)) :
    fs'.WellFormed ∧ fs'.data = fs.data ∧ ∀ j, j ≠ p.cString.key → fs'.get j = fs.get j := by
  rcases remove_ok h with ⟨rfl, -⟩ | ⟨-, hl, hc, rfl⟩
  · exact ⟨hw, rfl, fun _ _ => rfl⟩
  · obtain ⟨-, hne, -⟩ := locate_ok hl
    refine ⟨hw.prune hne, rfl, fun j hj => ?_⟩
    rw [get, get_prune fs.tree hne]
    split
    · rename_i hp
      obtain ⟨s, rfl⟩ := hp
      exact (hw.closed.children_nil hc (by simpa using hj)).symm
    · rfl

/-- What is left after `remove_all`: everything outside of the path, and below it nothing. -/
theorem WellFormed.removeAll (hw : fs.WellFormed) (p : Path) :
    (fs.removeAll p).1.WellFormed ∧ (fs.removeAll p).1.data = fs.data ∧
    ∀ j, ¬ p.cString.key <+: j → (fs.removeAll p).1.get j = fs.get j := by
  unfold FileSystem.removeAll
  cases hr : fs.resolve p with
  | none => exact ⟨hw, rfl, fun _ _ => rfl⟩
  | some k =>
    have hk := resolve_eq_key hr
    subst hk
    have hc := hw.clear p.cString.key
    have hget : ∀ j, ¬ p.cString.key <+: j →
        get { fs with tree := DirTree.clear fs.tree p.cString.key } j = fs.get j := by
      intro j hj
      rw [get, get_clear, if_neg (fun hh => hj hh.1)]
      rfl
    simp only
    split
    · rename_i fs'' removed h
      obtain ⟨hw', hd, hg⟩ := hc.remove h
      exact ⟨hw', hd, fun j hj => (hg j (fun he => hj (he ▸ List.prefix_refl _))).trans (hget j hj)⟩
    · exact ⟨hc, rfl, hget⟩

theorem openWrite_some {trunc : Bool} {i : Nat} (h : fs.openWrite p trunc = some (fs', i)) :
    (fs.resolve p = some p.cString.key ∧ fs.get p.cString.key = some (.file i) ∧
      fs' = if trunc then { fs with data := fs.data.set i [] } else fs) ∨
    (fs.resolve p = none ∧ fs.locate p = .ok p.cString.key ∧ p.cString.endsInSlash = false ∧
      i = fs.data.length ∧ fs' = fs.create p.cString.key []) := by
  unfold openWrite at h
  cases hr : fs.resolve p with
  | some k =>
    have hk := resolve_eq_key hr
    subst hk
    simp only [hr] at h
    split at h
    · rename_i i' hg
      simp only [Option.some.injEq, Prod.mk.injEq] at h
      obtain ⟨rfl, rfl⟩ := h
      exact .inl ⟨rfl, hg, rfl⟩
    · simp at h
  | none =>
    cases hl : fs.locate p with
    | error e => simp [hr, hl] at h
    | ok k =>
      obtain ⟨rfl, -⟩ := locate_ok hl
      by_cases he : p.cString.endsInSlash = true
      · simp [hr, hl, he] at h
      · simp only [hr, hl, he, if_false, Bool.false_eq_true, Option.some.injEq, Prod.mk.injEq] at h
        exact .inr ⟨rfl, rfl, by simpa using he, h.2.symm, h.1.symm⟩

theorem get_none_of_resolve_none (hr : fs.resolve p = none) (hl : fs.locate p = .ok k)
    (hs : p.cString.endsInSlash = false) : fs.get k = none := by
  obtain ⟨dirs, last, d, hleaf, hn, ha, hwalk, hg, -, rfl⟩ := locate_eq_ok.mp hl
  have hc := Path.components_of_leaf_no_slash hleaf hs
  rw [resolve, if_pos ha, hc, walk_append, hwalk, Path.classify_name hn] at hr
  by_contra hne
  have hg' : DirTree.get fs.tree d = some .dir := hg
  have hsome : (DirTree.get fs.tree (d ++ [last])).isSome = true := Option.isSome_iff_ne_none.mpr hne
  simp [walk, hg', hsome] at hr

theorem resolve_of_locate_dir (hl : fs.locate p = .ok k) (hd : fs.get k = some .dir) : fs.resolve p = some k := by
  obtain ⟨dirs, last, d, hleaf, hn, ha, hwalk, hg, -, rfl⟩ := locate_eq_ok.mp hl
  obtain ⟨n, hc⟩ := Path.components_of_leaf hleaf
  have hg' : DirTree.get fs.tree d = some .dir := hg
  have hd' : DirTree.get fs.tree (d ++ [last]) = some .dir := hd
  rw [resolve, if_pos ha, hc, walk_append, hwalk, Path.classify_name hn]
  simpa [walk, hg', hd'] using walk_replicate_here hd' n

theorem rename_free (h : fs.rename old new = .ok fs') (hfree : fs.pathExists new = false) :
    fs.get new.cString.key = none := by
  obtain ⟨-, hn, -, hslash, hcases⟩ := rename_ok h
  have hr : fs.resolve new = none := by simpa [pathExists] using hfree
  by_cases hs : new.cString.endsInSlash = false
  · exact get_none_of_resolve_none hr hn hs
  · have hdir : fs.get old.cString.key = some .dir := by
      by_contra hne
      exact hs (hslash hne)
    have hnot : fs.get new.cString.key ≠ some .dir := by
      intro hd
      simp [resolve_of_locate_dir hn hd] at hr
    rcases hcases with ⟨-, he⟩ | ⟨-, ⟨hf, -⟩ | ⟨⟨i, j, -, hj⟩, -⟩ | ⟨⟨hd, -⟩, -⟩⟩
    · exact absurd (he ▸ hdir) hnot
    · exact hf
    · simp [hdir] at hj
    · exact absurd hd hnot

theorem WellFormed.openWrite (hw : fs.WellFormed) {trunc : Bool} {i : Nat}
    (h : fs.openWrite p trunc = some (fs', i)) :
    fs'.WellFormed ∧ fs'.get p.cString.key = some (.file i) ∧ i < fs'.data.length ∧
    (∀ j, j ≠ p.cString.key → fs'.get j = fs.get j) ∧
    (∀ j, j < fs.data.length → j ≠ i → fs'.contents j = fs.contents j) := by
  rcases openWrite_some h with ⟨-, hg, rfl⟩ | ⟨hr, hl, he, rfl, rfl⟩
  · have hi := hw.inodes _ _ hg
    cases trunc with
    | false => exact ⟨hw, hg, hi, fun _ _ => rfl, fun _ _ _ => rfl⟩
    | true =>
      refine ⟨hw.setData i [], hg, by simpa using hi, fun _ _ => rfl, fun j _ hj => ?_⟩
      simp [contents, Ne.symm hj]
  · have hf := get_none_of_resolve_none hr hl he
    obtain ⟨-, hk, hd, -⟩ := locate_ok hl
    refine ⟨hw.create hk hf hd (hw.locate_names hl) [], by simp [get_create hk hf], by simp [FileSystem.create],
      fun j hj => ?_, fun j hj _ => ?_⟩
    · simp [get_create hk hf, hj]
    · exact contents_create _ _ hj

def inode (fs : FileSystem) (k : Key) : Option Nat :=
  match fs.get k with
  | some (.file i) => some i
  | _ => none

theorem inode_eq_some {i : Nat} : i ∈ fs.inode k ↔ fs.get k = some (.file i) := by
  unfold inode
  cases fs.get k with
  | none => simp
  | some x => cases x <;> simp

theorem wellFormed_iff : fs.WellFormed ↔
    (∀ e ∈ fs.tree, e.1 ≠ [] → fs.get e.1.dropLast = some .dir ∧ ∀ n ∈ e.1, IsEntryName n) ∧
    (∀ e ∈ fs.tree, ∀ i ∈ fs.inode e.1, i < fs.data.length) ∧
    ∀ e ∈ fs.tree, ∀ f ∈ fs.tree, ∀ i ∈ fs.inode e.1, i ∈ fs.inode f.1 → e.1 = f.1 := by
  simp only [inode_eq_some]
  have hmem : ∀ k, k ≠ [] → ((fs.get k).isSome ↔ ∃ e ∈ fs.tree, e.1 = k) := fun k hk => get_isSome_iff hk
  have hfile : ∀ {k i}, fs.get k = some (.file i) → ∃ e ∈ fs.tree, e.1 = k := by
    intro k i h
    refine (hmem k ?_).mp (by simp [h])
    rintro rfl
    simp [get] at h
  constructor
  · intro hw
    refine ⟨fun e he hne => ?_, fun e _ i h => hw.inodes _ i h, fun e _ f _ i h h' => hw.unique _ _ i h h'⟩
    have hsome := (hmem e.1 hne).mpr ⟨e, he, rfl⟩
    exact ⟨hw.closed e.1 hne hsome, hw.names e.1 hsome⟩
  · rintro ⟨hentry, hinode, hunique⟩
    refine ⟨fun k hk h => ?_, fun k h n hn => ?_, fun k i h => ?_, fun j k i h h' => ?_⟩
    · obtain ⟨e, he, rfl⟩ := (hmem k hk).mp h
      exact (hentry e he hk).1
    · have hk : k ≠ [] := List.ne_nil_of_mem hn
      obtain ⟨e, he, rfl⟩ := (hmem k hk).mp h
      exact (hentry e he hk).2 n hn
    · obtain ⟨e, he, rfl⟩ := hfile h
      exact hinode e he i h
    · obtain ⟨e, he, rfl⟩ := hfile h
      obtain ⟨f, hf, rfl⟩ := hfile h'
      exact hunique e he f hf i h h'

instance (fs : FileSystem) : Decidable fs.WellFormed := decidable_of_iff _ wellFormed_iff.symm

end FileSystem

end TinDox
