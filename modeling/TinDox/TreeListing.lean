import TinDox.Collecting
import TinDox.Forest
import TinDox.Listings

/-! What the lines of `tree` say. A line tells its depth by the blanks before the first quote, the name
by the quotes around it, and an empty directory by its last byte; read together, the lines tell the tree. -/

namespace DirTree

variable {α β : Type*} [DecidableEq α] {t : Table α β} {k : List α}

def countBelow (t : Table α β) (k : List α) : Nat := t.countP (fun e => k <+: e.1 ∧ e.1 ≠ k)

theorem countBelow_child {a : α} (h : (get t (k ++ [a])).isSome) : countBelow t (k ++ [a]) < countBelow t k := by
  obtain ⟨e, he, hek⟩ := (get_isSome_iff (by simp)).mp h
  obtain ⟨l₁, l₂, rfl⟩ := List.append_of_mem he
  have hmono : ∀ l : Table α β, countBelow l (k ++ [a]) ≤ countBelow l k := by
    intro l
    apply List.countP_mono_left
    intro x _ hx
    simp only [decide_eq_true_eq] at hx ⊢
    refine ⟨(List.prefix_append k [a]).trans hx.1, ?_⟩
    intro hk
    have hlength := hx.1.length_le
    rw [hk, List.length_append, List.length_singleton] at hlength
    exact Nat.not_succ_le_self _ hlength
  have h₁ := hmono l₁
  have h₂ := hmono l₂
  unfold countBelow at h₁ h₂ ⊢
  rw [List.countP_append, List.countP_append, List.countP_cons_of_neg (by simp [hek]),
    List.countP_cons_of_pos (by simp [hek])]
  omega

end DirTree

namespace TinDox

open FileSystem DirTree Forest

variable {srv srv' : ServerContext} {fs : FileSystem} {w w' : World} {path path' : Option Path} {directory : Path}
  {names : List Bytes} {t t' : Forest Bytes}

namespace Tree

/-- Those entries of a directory, in the order of the iterator, with what is below them; none of them is
forbidden. -/
def Holds (srv : ServerContext) (fs : FileSystem) : Path → List Bytes → Forest Bytes → Prop
  | _, [], .nil => True
  | directory, n :: names, .leaf m rest =>
    n = m ∧ (entryPath directory n).startsWith srv.configDirectory = false ∧
      fs.isDirectory (entryPath directory n) = false ∧ Holds srv fs directory names rest
  | directory, n :: names, .node m below rest =>
    n = m ∧ (entryPath directory n).startsWith srv.configDirectory = false ∧
      fs.isDirectory (entryPath directory n) = true ∧
      Holds srv fs (entryPath directory n) (fs.entries (entryPath directory n)) below ∧
      Holds srv fs directory names rest
  | _, _, _ => False

/-- The listed directory holds that tree. -/
structure Pictured (srv : ServerContext) (w : World) (path : Option Path) (t : Forest Bytes) : Prop where
  wellFormed : w.fs.WellFormed
  holds : ∃ directory, Ls.directory w path = .ok directory ∧ Holds srv w.fs directory (w.fs.entries directory) t
  unbroken : ∀ n ∈ t.labels, newline ∉ n

def line (i : Item Bytes) : Bytes :=
  List.replicate i.depth 32 ++ quotedName i.label ++ (if i.empty then ascii " E" else [])

def readLine (l : Bytes) : Item Bytes :=
  let name := (l.dropWhile (· = 32)).drop 1
  let empty : Bool := name.getLast? = some 69
  ⟨(l.takeWhile (· = 32)).length, if empty then name.take (name.length - 3) else name.dropLast, empty⟩

def decode (lines : List Bytes) : Forest Bytes := readItems (lines.map readLine) 0

theorem Holds.isNil_iff (h : Holds srv fs directory names t) : names = [] ↔ t.isNil = true := by
  cases names with
  | nil =>
    cases t with
    | nil => simp [Forest.isNil]
    | leaf => exact h.elim
    | node => exact h.elim
  | cons n names =>
    cases t with
    | nil => exact h.elim
    | leaf => simp [Forest.isNil]
    | node => simp [Forest.isNil]

theorem readLine_line (i : Item Bytes) : readLine (line i) = i := by
  obtain ⟨d, n, e⟩ := i
  have hblanks : ∀ b ∈ List.replicate d (32 : Byte), decide (b = 32) = true := by
    intro b hb
    simp [List.eq_of_mem_replicate hb]
  have hline : line ⟨d, n, e⟩ = List.replicate d 32 ++ (34 :: (n ++ 34 :: (if e then ascii " E" else []))) := by
    simp [line, quotedName]
  have htake : (line ⟨d, n, e⟩).takeWhile (· = 32) = List.replicate d 32 := by
    rw [hline, List.takeWhile_append_of_pos hblanks, List.takeWhile_cons_of_neg (by decide), List.append_nil]
  have hdrop : ((line ⟨d, n, e⟩).dropWhile (· = 32)).drop 1 = n ++ 34 :: (if e then ascii " E" else []) := by
    rw [hline, List.dropWhile_append_of_pos hblanks, List.dropWhile_cons_of_neg (by decide), List.drop_one,
      List.tail_cons]
  rw [readLine, htake, hdrop, List.length_replicate]
  cases e with
  | true =>
    have hmark : (34 :: ascii " E" : Bytes).getLast? = some 69 := by decide
    have hlast : (n ++ 34 :: ascii " E").getLast? = some 69 := by
      rw [List.getLast?_append, hmark, Option.some_or]
    have hname : (n ++ 34 :: ascii " E").take ((n ++ 34 :: ascii " E").length - 3) = n := by
      rw [List.length_append, show (34 :: ascii " E" : Bytes).length = 3 by decide, Nat.add_sub_cancel,
        List.take_left]
    simp only [if_true, hlast, hname, decide_true]
  | false =>
    have hlast : (n ++ [34] : Bytes).getLast? = some 34 := List.getLast?_concat
    have hne : (34 : Byte) ≠ 69 := by decide
    simp [hne]

theorem decode_lines (t : Forest Bytes) : decode ((outline 0 t).map line) = t := by
  have hitems : ((outline 0 t).map line).map readLine = outline 0 t := by
    rw [List.map_map]
    exact (List.map_congr_left (fun i _ => readLine_line i)).trans (List.map_id _)
  rw [decode, hitems]
  exact readItems_outline t

/-- The recursive iteration, as long as it is not cut off, visits the tree in the order of its outline. -/
theorem lines_of_holds {fuel depth : Nat} (h : Holds srv fs directory names t) (hheight : t.height ≤ fuel + 1) :
    names.flatMap (fun n =>
      let entry := entryPath directory n
      if entry.startsWith srv.configDirectory then []
      else if fs.isDirectory entry then
        (List.replicate depth 32 ++ quotedName n ++ (if fs.entries entry = [] then ascii " E" else [])) ::
          lines srv fs fuel (depth + 1) entry
      else [List.replicate depth 32 ++ quotedName n]) = (outline depth t).map line := by
  induction t generalizing fuel depth directory names with
  | nil =>
    cases names with
    | nil => rfl
    | cons n names => exact h.elim
  | leaf a rest ih =>
    cases names with
    | nil => exact h.elim
    | cons n names =>
      obtain ⟨rfl, hshown, hfile, hrest⟩ := h
      have hrestHeight : rest.height ≤ fuel + 1 := (Nat.le_max_right 1 rest.height).trans hheight
      rw [List.flatMap_cons, ih hrest hrestHeight, outline, List.map_cons]
      simp [hshown, hfile, line]
  | node a below rest ihb ihr =>
    cases names with
    | nil => exact h.elim
    | cons n names =>
      obtain ⟨rfl, hshown, hdir, hbelow, hrest⟩ := h
      have hboth : below.height + 1 ≤ fuel + 1 ∧ rest.height ≤ fuel + 1 := Nat.max_le.mp hheight
      have hlines : lines srv fs fuel (depth + 1) (entryPath directory n) = (outline (depth + 1) below).map line := by
        cases fuel with
        | zero =>
          cases below with
          | nil => rfl
          | leaf b rest => simp [Forest.height] at hboth
          | node b below rest => simp [Forest.height] at hboth
        | succ fuel =>
          rw [lines]
          exact ihb hbelow (by omega)
      rw [List.flatMap_cons, ihr hrest hboth.2, outline, List.map_cons, List.map_append, ← hlines]
      simp [hshown, hdir, line, hbelow.isNil_iff]

/-- Behind a NUL in the path every entry is the directory itself, so that nothing finite is below it. -/
theorem not_holds_of_nul (hw : fs.WellFormed) (hdir : fs.isDirectory directory = true)
    (hz : (0 : Byte) ∈ directory.native) (hne : names ≠ []) (hsub : ∀ n ∈ names, n ∈ fs.entries directory) :
    ¬ Holds srv fs directory names t := by
  intro h
  induction t generalizing directory names with
  | nil =>
    cases names with
    | nil => exact hne rfl
    | cons n names => exact h
  | leaf a rest _ =>
    cases names with
    | nil => exact h
    | cons n names =>
      obtain ⟨-, -, hfile, -⟩ := h
      have hslash := (isEntryName_of_mem_entries hw (hsub n List.mem_cons_self)).1.2.2.2
      rw [isDirectory, status, entryPath, resolve_append_nul hz hslash] at hfile
      rw [isDirectory, status, hfile] at hdir
      cases hdir
  | node a below rest ihb _ =>
    cases names with
    | nil => exact h
    | cons n names =>
      obtain ⟨-, -, hd, hbelow, -⟩ := h
      have hn := hsub n List.mem_cons_self
      have hslash := (isEntryName_of_mem_entries hw hn).1.2.2.2
      have hsame : fs.entries (entryPath directory n) = fs.entries directory := by
        rw [entries, entries, entryPath, resolve_append_nul hz hslash]
      have hz' : (0 : Byte) ∈ (entryPath directory n).native := by
        rw [entryPath, Path.append_no_slash directory hslash]
        split
        · exact List.mem_append_left _ hz
        · exact List.mem_append_left _ hz
      exact ihb hd hz' (by rw [hsame]; exact List.ne_nil_of_mem hn) (fun m hm => hm) hbelow

/-- A tree of directories is no higher than there are entries below its topmost one. -/
theorem height_le {k : Key} (hw : fs.WellFormed) (hz : (0 : Byte) ∉ directory.native)
    (hk : fs.resolve directory = some k) (hget : fs.get k = some .dir) (hsub : ∀ n ∈ names, n ∈ fs.entries directory)
    (h : Holds srv fs directory names t) : t.height ≤ countBelow fs.tree k := by
  induction t generalizing directory names k with
  | nil => exact Nat.zero_le _
  | leaf a rest ih =>
    cases names with
    | nil => exact h.elim
    | cons n names =>
      obtain ⟨-, -, -, hrest⟩ := h
      have hlt := countBelow_child (mem_entries_get hk (hsub n List.mem_cons_self))
      have hle := ih hz hk hget (fun m hm => hsub m (List.mem_cons_of_mem n hm)) hrest
      exact Nat.max_le.mpr ⟨Nat.lt_of_le_of_lt (Nat.zero_le _) hlt, hle⟩
  | node a below rest ihb ihr =>
    cases names with
    | nil => exact h.elim
    | cons n names =>
      obtain ⟨-, -, hd, hbelow, hrest⟩ := h
      have hn := hsub n List.mem_cons_self
      have hlt := countBelow_child (mem_entries_get hk hn)
      have hle := ihr hz hk hget (fun m hm => hsub m (List.mem_cons_of_mem n hm)) hrest
      have hresolve := resolve_entry hw hz hk hget hn
      have hchild : fs.get (k ++ [n]) = some .dir := by simpa [isDirectory, status, hresolve] using hd
      have hz' : (0 : Byte) ∉ (entryPath directory n).native := by
        intro hm
        rcases Path.mem_native_append hm with hm | hm | hm
        · exact hz hm
        · exact absurd hm (by decide)
        · exact (isEntryName_of_mem_entries hw hn).2.1 hm
      have hdeep := ihb hz' hresolve hchild (fun m hm => hm) hbelow
      exact Nat.max_le.mpr ⟨Nat.lt_of_le_of_lt hdeep hlt, hle⟩

theorem execute_of_pictured (h : Pictured srv w path t) :
    Tree.execute srv w path = (w, .ok ((outline 0 t).map line)) := by
  obtain ⟨directory, hstart, hholds⟩ := h.holds
  have hdir : w.fs.isDirectory directory = true := by
    unfold Ls.directory at hstart
    split at hstart
    · split at hstart
      · rename_i hd
        obtain rfl := Except.ok.inj hstart
        exact hd
      · cases hstart
    · cases hstart
  obtain ⟨k, hk, hget⟩ := isDirectory_resolve hdir
  have hheight : t.height ≤ w.fs.tree.length + 1 := by
    by_cases hz : (0 : Byte) ∈ directory.native
    · have hempty : w.fs.entries directory = [] := by
        by_contra hne
        exact not_holds_of_nul h.wellFormed hdir hz hne (fun n hn => hn) hholds
      rw [hempty] at hholds
      cases t with
      | nil => exact Nat.zero_le _
      | leaf => exact hholds.elim
      | node => exact hholds.elim
    · have hle := height_le h.wellFormed hz hk hget (fun n hn => hn) hholds
      have hcount : countBelow w.fs.tree k ≤ w.fs.tree.length := List.countP_le_length
      omega
  rw [Tree.execute, hstart]
  simp only [lines]
  rw [lines_of_holds hholds hheight]

theorem line_unbroken {i : Item Bytes} (h : newline ∉ i.label) : newline ∉ line i := by
  have hmark : newline ∉ (if i.empty then ascii " E" else []) := by
    cases i.empty with
    | true => exact show newline ∉ ascii " E" by decide
    | false => exact List.not_mem_nil
  have hblanks : newline ∉ List.replicate i.depth (32 : Byte) :=
    fun hm => absurd (List.eq_of_mem_replicate hm) (by decide)
  have hquote : newline ≠ 34 := by decide
  simp [line, quotedName, h, hblanks, hquote, hmark]

/-- The answers to two listings are different when the trees are: the lines tell the tree, and the bytes of
the response tell the lines. -/
theorem listing_tells_tree (h : Pictured srv w path t) (h' : Pictured srv' w' path' t') :
    ∃ lines lines', Tree.execute srv w path = (w, .ok lines) ∧ Tree.execute srv' w' path' = (w', .ok lines') ∧
      decode lines = t ∧ decode lines' = t' ∧
      (t ≠ t' → lines ≠ lines' ∧
        (buildResponse .ok (ascii "tree") lines).data ≠ (buildResponse .ok (ascii "tree") lines').data) := by
  refine ⟨_, _, execute_of_pictured h, execute_of_pictured h', decode_lines t, decode_lines t', ?_⟩
  intro hne
  have hlines : (outline 0 t).map line ≠ (outline 0 t').map line := by
    intro he
    have hdecode := congrArg decode he
    rw [decode_lines, decode_lines] at hdecode
    exact hne hdecode
  have hheader : newline ∉ decimal ProtocolCode.ok.value ++ ascii " " ++ ascii "tree" := by decide
  have hblocks : ∀ {t : Forest Bytes}, (∀ n ∈ t.labels, newline ∉ n) → ∀ b ∈
      (decimal ProtocolCode.ok.value ++ ascii " " ++ ascii "tree") :: (outline 0 t).map line, newline ∉ b := by
    intro t ht b hb
    rcases List.mem_cons.mp hb with rfl | hb
    · exact hheader
    · obtain ⟨i, hi, rfl⟩ := List.mem_map.mp hb
      exact line_unbroken (ht i.label (label_mem_of_outline hi))
  refine ⟨hlines, ?_⟩
  intro he
  rw [buildResponse_encode, buildResponse_encode] at he
  exact hlines (List.cons.inj (Delimited.encode_inj (hblocks h.unbroken) (hblocks h'.unbroken) he)).2

end Tree

namespace Sample

def holding (n : Bytes) (x : Node Nat) : World where
  fs := ⟨tree [([ascii "r", ascii "d"], .dir), ([ascii "r", ascii "d", n], x)], [[]]⟩
  client := session.context

theorem holds_dir : Tree.Holds server (holding (ascii "x") .dir).fs ⟨ascii "/r/d"⟩ [ascii "x"]
    (.node (ascii "x") .nil .nil) := by
  have hempty : (holding (ascii "x") .dir).fs.entries (entryPath ⟨ascii "/r/d"⟩ (ascii "x")) = [] := by decide
  refine ⟨rfl, by decide, by decide, ?_, trivial⟩
  rw [hempty]
  trivial

theorem holds_file : Tree.Holds server (holding (ascii "x\" E") (.file 0)).fs ⟨ascii "/r/d"⟩ [ascii "x\" E"]
    (.leaf (ascii "x\" E") .nil) :=
  ⟨rfl, by decide, by decide, trivial⟩

end Sample

theorem Tree.listing_tells_tree_mark :
    ∃ lines lines', Tree.execute Sample.server (Sample.holding (ascii "x") .dir) (some ⟨ascii "/r/d"⟩) =
        (Sample.holding (ascii "x") .dir, .ok lines) ∧
      Tree.execute Sample.server (Sample.holding (ascii "x\" E") (.file 0)) (some ⟨ascii "/r/d"⟩) =
        (Sample.holding (ascii "x\" E") (.file 0), .ok lines') ∧
      decode lines = .node (ascii "x") .nil .nil ∧ decode lines' = .leaf (ascii "x\" E") .nil ∧
      ((Forest.node (ascii "x") .nil .nil : Forest Bytes) ≠ .leaf (ascii "x\" E") .nil → lines ≠ lines' ∧
        (buildResponse .ok (ascii "tree") lines).data ≠ (buildResponse .ok (ascii "tree") lines').data) :=
  listing_tells_tree ⟨by decide, ⟨⟨ascii "/r/d"⟩, by decide, Sample.holds_dir⟩, by decide⟩
    ⟨by decide, ⟨⟨ascii "/r/d"⟩, by decide, Sample.holds_file⟩, by decide⟩

end TinDox
