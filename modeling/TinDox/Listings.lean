import TinDox.Accesses
import TinDox.Answers
import TinDox.FilesEntries

/-! A listing on its way to the console client: the lines of `ls` with sizes and times, the path of
`pwd`, and the files that `Tui::updateFilesEntries` shows. -/

namespace TinDox

open Words FileSystem DirTree TDPService

variable {srv : ServerContext} {around : Surroundings} {fs : FileSystem} {w w' : World} {dir p : Path}
  {path : Option Path} {n cur : Bytes}

theorem Path.append_no_slash (p : Path) (hn : slash ∉ n) :
    p / ⟨n⟩ = if p.filename.native = [] then ⟨p.native ++ n⟩ else ⟨p.native ++ slash :: n⟩ := by
  have habs : Path.isAbsolute ⟨n⟩ = false := Path.isAbsolute_false_of_no_slash hn
  change Path.append p ⟨n⟩ = _
  rw [Path.append, habs, if_neg Bool.false_ne_true]

/-- What stands behind a NUL is not seen. -/
theorem Path.cString_native_append (h : (0 : Byte) ∈ p.native) (tail : Bytes) :
    (Path.mk (p.native ++ tail)).cString = p.cString := by
  rw [Path.cString, Path.cString, List.takeWhile_append, if_neg]
  intro hlen
  have hall := (List.takeWhile_prefix (· ≠ (0 : Byte))).eq_of_length hlen
  have hzero := List.mem_takeWhile_imp (hall ▸ h)
  simp at hzero

theorem Path.cString_append_nul (h : (0 : Byte) ∈ p.native) (hn : slash ∉ n) : (p / ⟨n⟩).cString = p.cString := by
  rw [Path.append_no_slash p hn]
  split
  · exact cString_native_append h n
  · exact cString_native_append h (slash :: n)

/-- What is appended follows the components of the directory, or takes the place of the empty part behind
a final slash. -/
theorem Path.components_append (hp : p.native ≠ []) (hn : slash ∉ n) :
    (p / ⟨n⟩).components = p.components ++ [Path.classify n] ∨
    ∃ cs, p.components = cs ++ [.here] ∧ (p / ⟨n⟩).components = cs ++ [Path.classify n] := by
  have hparts : Path.parts ⟨n⟩ = [n] := Path.parts_of_no_slash hn
  rw [Path.append_no_slash p hn]
  split
  · rename_i hf
    obtain ⟨d, c, hd⟩ := List.eq_nil_or_concat p.native |>.resolve_left hp
    have hc : c = slash := by
      by_contra hne
      simp [Path.filename, hd, List.rtakeWhile_concat_pos, hne] at hf
    have hnative : p.native = d ++ [slash] := by rw [hd, hc, List.concat_eq_append]
    refine .inr ⟨(Path.parts ⟨d⟩).map Path.classify, ?_, ?_⟩
    · have hsplit : p.parts = Path.parts ⟨d⟩ ++ [[]] := by
        rw [Path.parts, hnative]
        exact Path.parts_concat_slash d []
      rw [Path.components, hsplit, List.map_append]
      rfl
    · have hsplit : Path.parts ⟨p.native ++ n⟩ = Path.parts ⟨d⟩ ++ [n] := by
        rw [hnative, List.append_assoc, ← hparts]
        exact Path.parts_concat_slash d n
      rw [Path.components, hsplit, List.map_append, List.map_singleton]
  · left
    rw [Path.components, Path.parts_concat_slash, List.map_append, hparts, List.map_singleton]
    rfl

theorem Path.cString_append_noNul (hz : (0 : Byte) ∉ p.native) (hz' : (0 : Byte) ∉ n) : (p / ⟨n⟩).cString = p / ⟨n⟩ := by
  refine Path.cString_eq_self fun hm => ?_
  rcases Path.mem_native_append hm with hm | hm | hm
  · exact hz hm
  · exact absurd hm (by decide)
  · exact hz' hm

/-- The kernel takes one step from the directory. -/
theorem FileSystem.resolve_append {k : Key} (hz : (0 : Byte) ∉ p.native) (hz' : (0 : Byte) ∉ n) (hn : slash ∉ n)
    (h : fs.resolve p = some k) : fs.resolve (p / ⟨n⟩) = walk fs.tree k [Path.classify n] := by
  have habs := isAbsolute_of_resolve h
  have hne : p.native ≠ [] := by
    obtain ⟨b, hb⟩ := Path.isAbsolute_iff.mp habs
    simp [hb]
  rw [resolve, if_pos habs, Path.cString_eq_self hz] at h
  rw [resolve, if_pos (Path.isAbsolute_append ⟨n⟩ habs), Path.cString_append_noNul hz hz']
  rcases Path.components_append hne hn with hcs | ⟨cs, hcs, hcs'⟩
  · rw [hcs, walk_append, h]
    rfl
  · rw [hcs, walk_append] at h
    obtain ⟨j, hj, hhere⟩ := Option.bind_eq_some_iff.mp h
    have hjk : k = j := walk_eq_follow hhere
    rw [hcs', walk_append, hj, ← hjk]
    rfl

/-- In a directory a name is too long by itself. -/
theorem FileSystem.tooLong_append {k : Key} (hw : fs.WellFormed) (hz : (0 : Byte) ∉ p.native) (hz' : (0 : Byte) ∉ n)
    (hn : slash ∉ n) (h : fs.resolve p = some k) (hdir : DirTree.get fs.tree k = some .dir) :
    fs.tooLong (p / ⟨n⟩) = decide (nameMax < n.length) := by
  have habs := isAbsolute_of_resolve h
  have hne : p.native ≠ [] := by
    obtain ⟨b, hb⟩ := Path.isAbsolute_iff.mp habs
    simp [hb]
  have hshort := hw.tooLong_of_resolve h
  have hwalk : walk fs.tree [] p.components = some k := by
    rw [resolve, if_pos habs, Path.cString_eq_self hz] at h
    exact h
  rw [tooLong, habs, Bool.true_and, Path.cString_eq_self hz] at hshort
  have hlast : comesTo fs.tree (fun m => nameMax < m.length) k [Path.classify n] = decide (nameMax < n.length) := by
    by_cases hname : IsName n
    · simp [Path.classify_name hname, comesTo, hdir]
    · have hlength : ¬ nameMax < n.length := by
        intro hlong
        apply hname
        have hlong' : 2 < n.length := (show 2 < nameMax by decide).trans hlong
        refine ⟨?_, ?_, ?_, hn⟩
        all_goals
          rintro rfl
          revert hlong'
          decide
      rcases Path.classify_of_not_name hn hname with hc | hc
      · simp [hc, comesTo, hdir, hlength]
      · simp [hc, comesTo, hdir, hlength]
  rw [tooLong, Path.isAbsolute_append ⟨n⟩ habs, Bool.true_and, Path.cString_append_noNul hz hz', ← hlast]
  rcases Path.components_append hne hn with hcs | ⟨cs, hcs, hcs'⟩
  · rw [hcs, comesTo_append, hshort, hwalk]
    rfl
  · rw [hcs, walk_append] at hwalk
    obtain ⟨j, hj, hhere⟩ := Option.bind_eq_some_iff.mp hwalk
    have hjk : k = j := walk_eq_follow hhere
    rw [hcs, comesTo_append, Bool.or_eq_false_iff] at hshort
    rw [hcs', comesTo_append, hshort.1, hj, ← hjk]
    rfl

/-- Behind a NUL no step is taken. -/
theorem FileSystem.resolve_append_nul (hz : (0 : Byte) ∈ p.native) (hn : slash ∉ n) :
    fs.resolve (p / ⟨n⟩) = fs.resolve p := by
  rw [← resolve_cString, Path.cString_append_nul hz hn, resolve_cString]

theorem FileSystem.mem_entries_get {k : Key} (hk : fs.resolve dir = some k) (hn : n ∈ fs.entries dir) :
    (DirTree.get fs.tree (k ++ [n])).isSome := by
  rw [entries, hk] at hn
  exact mem_children hn

theorem FileSystem.resolve_entry {k : Key} (hw : fs.WellFormed) (hz : (0 : Byte) ∉ dir.native)
    (hk : fs.resolve dir = some k) (hget : fs.get k = some .dir) (hn : n ∈ fs.entries dir) :
    fs.resolve (entryPath dir n) = some (k ++ [n]) := by
  obtain ⟨hname, hnul, -⟩ := isEntryName_of_mem_entries hw hn
  have hdir : DirTree.get fs.tree k = some .dir := hget
  rw [entryPath, resolve_append hz hnul hname.2.2.2 hk, Path.classify_name hname]
  simp [walk, hdir, mem_entries_get hk hn]

theorem FileSystem.status_entry (hw : fs.WellFormed) (hd : fs.isDirectory dir = true) (hn : n ∈ fs.entries dir) :
    (fs.status (entryPath dir n)).isSome := by
  obtain ⟨k, hk, hget⟩ := isDirectory_resolve hd
  by_cases hzero : (0 : Byte) ∈ dir.native
  · rw [status, entryPath, resolve_append_nul hzero (isEntryName_of_mem_entries hw hn).1.2.2.2, hk, Option.bind_some,
      hget]
    rfl
  · rw [status, resolve_entry hw hzero hk hget hn]
    exact mem_entries_get hk hn

namespace Ls

def visible (srv : ServerContext) (fs : FileSystem) (dir : Path) : List Bytes :=
  (fs.entries dir).filter (fun n => ¬ (entryPath dir n).startsWith srv.configDirectory)

def sizeText (fs : FileSystem) (entry : Path) : Bytes :=
  match fs.isRegularFile entry, fs.readFile entry with
  | true, some b => decimal b.length
  | _, _ => ascii "-"

theorem execute_lines (h : Ls.directory w path = .ok dir) :
    Ls.execute srv around w path true true = (w, .ok ((visible srv w.fs dir).map (Ls.line around w.fs dir true true))) := by
  rw [Ls.execute, h]
  rfl

theorem sizeText_cases (h : (fs.status p).isSome) :
    fs.isDirectory p = true ∧ fs.readFile p = none ∧ sizeText fs p = ascii "-" ∨
    ∃ b, fs.isDirectory p = false ∧ fs.readFile p = some b ∧ sizeText fs p = decimal b.length := by
  obtain ⟨x, hx⟩ := Option.isSome_iff_exists.mp h
  obtain ⟨k, hk, hget⟩ := Option.bind_eq_some_iff.mp hx
  cases x with
  | dir =>
    have hread : fs.readFile p = none := by simp [readFile, hk, FileSystem.read, hget]
    refine .inl ⟨by simp [isDirectory, hx], hread, ?_⟩
    simp [sizeText, hread]
  | file i =>
    have hread : fs.readFile p = some (fs.contents i) := by simp [readFile, hk, FileSystem.read, hget]
    refine .inr ⟨fs.contents i, by simp [isDirectory, hx], hread, ?_⟩
    simp [sizeText, isRegularFile, hx, hread]

end Ls

theorem free_decimal (m : Nat) : Free isSpace (decimal m) := fun _ hc => not_isSpace_of_isDigit (isDigit_of_mem_decimal hc)

theorem length_decimal_le_iff {m k : Nat} (hk : 0 < k) : (decimal m).length ≤ k ↔ m < 10 ^ k := by
  rw [decimal, List.length_map]
  exact Nat.length_toDigits_le_iff (by omega) hk

namespace Tui

/-- A time as it is formatted: a day and a time of day with a blank between them. -/
def Formatted (time : Bytes) : Prop := ∃ day hour, time = day ++ 32 :: hour ∧ Free isSpace day ∧ Free isSpace hour

/-- The path that the server sent, and behind an entry for the parent the name of each visible entry
in the order of the listing, with a slash behind a directory. -/
structure Displays (srv : ServerContext) (fs : FileSystem) (dir : Path) (cur : Bytes) (view : FilesView) : Prop where
  path : view.path = cur
  names : view.fNames = (if cur ≠ ascii "/" then [ascii "../"] else []) ++
    (Ls.visible srv fs dir).map (fun n => if fs.isDirectory (entryPath dir n) then n ++ [slash] else n)
  entries : view.entries.length = view.fNames.length

/-- An entry that the client can list. -/
structure Listable (fs : FileSystem) (dir : Path) (n : Bytes) : Prop where
  intact : Intact n
  short : n.length ≤ 40
  size : ∀ b, fs.readFile (entryPath dir n) = some b → b.length < 10 ^ 15

theorem extractPath_iff : extractPath (cur ++ [newline] ++ [newline]) = some cur ↔ Spaced isSpace 32 cur := by
  have hnewline : isSpace newline = true := by decide
  have hwords : words isSpace (cur ++ [newline] ++ [newline]) = words isSpace cur := by
    rw [words_append_cons _ [] hnewline, words_append_cons _ [] hnewline]
    simp
  rw [← join_words_iff (by decide : isSpace 32 = true), extractPath, hwords]
  by_cases hnone : words isSpace cur = []
  · simp [hnone]
  · obtain ⟨l, hl, -⟩ := join_spaced (by decide : isSpace 32 = true) (fun w hw => mem_words hw) hnone
    simp [hl]

/-- The line of an entry as the client sees it. -/
def row (fs : FileSystem) (dir : Path) (day hour : Bytes → Bytes) (n : Bytes) : Row :=
  ⟨n, Ls.sizeText fs (entryPath dir n), day n, hour n⟩

section Rows

variable {day hour : Bytes → Bytes} (hw : fs.WellFormed) (hd : fs.isDirectory dir = true)
  (htime : ∀ n ∈ Ls.visible srv fs dir, around.lastWriteTime (entryPath dir n) = day n ++ 32 :: hour n ∧
    Free isSpace (day n) ∧ Free isSpace (hour n))
include hw hd htime

theorem row_spec (hn : n ∈ Ls.visible srv fs dir) :
    (row fs dir day hour n).Valid ∧ Ls.line around fs dir true true n = (row fs dir day hour n).text ∧
    (row fs dir day hour n).shown = (if fs.isDirectory (entryPath dir n) then n ++ [slash] else n) ∧
    ((row fs dir day hour n).Fits ↔ Listable fs dir n) := by
  have hentry : n ∈ fs.entries dir := (List.mem_filter.mp hn).1
  obtain ⟨htext, hday, hhour⟩ := htime n hn
  have hname := (isEntryName_of_mem_entries hw hentry).1
  have hdash : Free isSpace (ascii "-") := by decide
  have hline : Ls.line around fs dir true true n = (row fs dir day hour n).text := by
    rw [Ls.line, htext]
    simp only [if_true, Row.text, row, Ls.sizeText, List.append_assoc]
    rfl
  rcases Ls.sizeText_cases (status_entry hw hd hentry) with ⟨hdir, hread, hsize⟩ | ⟨b, hdir, hread, hsize⟩
  · have hrow : (row fs dir day hour n).size = ascii "-" := hsize
    refine ⟨⟨hname.2.2.2, hrow ▸ ⟨hdash, by decide⟩, hday, hhour⟩, hline, ?_, ?_⟩
    · rw [Row.shown, if_pos hrow, if_pos hdir]
      rfl
    · constructor
      · intro h
        exact ⟨h.intact, h.short, by simp [hread]⟩
      · intro h
        exact ⟨h.intact, h.short, by rw [hrow]; decide⟩
  · have hrow : (row fs dir day hour n).size = decimal b.length := hsize
    have hdigits : decimal b.length ≠ ascii "-" := by
      intro heq
      have hdigit := isDigit_of_mem_decimal (heq ▸ (by decide : (45 : Byte) ∈ ascii "-") : (45 : Byte) ∈ decimal b.length)
      exact absurd hdigit (by decide)
    refine ⟨⟨hname.2.2.2, hrow ▸ ⟨free_decimal _, decimal_ne_nil _⟩, hday, hhour⟩, hline, ?_, ?_⟩
    · rw [Row.shown, if_neg (hrow ▸ hdigits), if_neg (by simp [hdir])]
      rfl
    · constructor
      · intro h
        refine ⟨h.intact, h.short, fun b' hb' => ?_⟩
        obtain rfl := Option.some.inj (hread.symm.trans hb')
        exact (length_decimal_le_iff (by decide)).mp (hrow ▸ h.digits)
      · intro h
        exact ⟨h.intact, h.short, hrow ▸ (length_decimal_le_iff (by decide)).mpr (h.size b hread)⟩

end Rows

/-- The client shows what the server has listed exactly when the path it was told is spaced and it
can list every entry. -/
theorem updateFilesEntries_iff {lines : List Bytes} {ls : Bytes → Option Bytes} (hw : w.fs.WellFormed)
    (hdir : Ls.directory w path = .ok dir) (hls : Ls.execute srv around w path true true = (w', .ok lines))
    (htime : ∀ n ∈ Ls.visible srv w.fs dir, Formatted (around.lastWriteTime (entryPath dir n)))
    (hask : ls cur = some ((Call.ls cur (ascii "true") (ascii "true")).keptBody .ok lines)) :
    (∃ view, updateFilesEntries (some (Call.pwd.keptBody .ok [cur])) ls = some view ∧
      Displays srv w.fs dir cur view) ↔
      Spaced isSpace 32 cur ∧ ∀ n ∈ Ls.visible srv w.fs dir, Listable w.fs dir n := by
  choose! day hour htime using htime
  have hd : w.fs.isDirectory dir = true := by
    unfold Ls.directory at hdir
    split at hdir
    · split at hdir
      · rename_i h
        exact Except.ok.inj hdir ▸ h
      · cases hdir
    · cases hdir
  have hrow := fun n hn => row_spec (n := n) hw hd htime hn
  let rows := (Ls.visible srv w.fs dir).map (row w.fs dir day hour)
  have hlines : lines = rows.map Row.text := by
    rw [Ls.execute_lines hdir] at hls
    rw [← Except.ok.inj (Prod.mk.inj hls).2, List.map_map]
    exact List.map_congr_left fun n hn => (hrow n hn).2.1
  have hbody : (Call.ls cur (ascii "true") (ascii "true")).keptBody .ok lines = body rows := by
    rw [Call.keptBody, if_neg (by simp [Call.answer]), hlines, body, List.flatMap_map]
  have hvalid : ∀ r ∈ rows, r.Valid := by
    intro r hr
    obtain ⟨n, hn, rfl⟩ := List.mem_map.mp hr
    exact (hrow n hn).1
  have hshown : rows.map Row.shown =
      (Ls.visible srv w.fs dir).map (fun n => if w.fs.isDirectory (entryPath dir n) then n ++ [slash] else n) := by
    rw [List.map_map]
    exact List.map_congr_left fun n hn => (hrow n hn).2.2.1
  have hfits : (∀ r ∈ rows, r.Fits) ↔ ∀ n ∈ Ls.visible srv w.fs dir, Listable w.fs dir n := by
    rw [List.forall_mem_map]
    exact forall₂_congr fun n hn => (hrow n hn).2.2.2
  rw [hbody] at hask
  have hpwd : Call.pwd.keptBody .ok [cur] = cur ++ [newline] ++ [newline] := by
    rw [Call.keptBody, if_neg (by simp [Call.answer]), List.flatMap_singleton]
  rw [hpwd, ← hfits, ← run_iff (ready_start cur) hvalid, ← extractPath_iff]
  have hsame : (start cur).entries.length = (start cur).fNames.length := rfl
  have hcount : (rows.map Row.shown).length = rows.length := List.length_map ..
  constructor
  · rintro ⟨view, hview, hdisplays⟩
    obtain ⟨path, responseBody, s, hpath, hasked, hrun, hin, rfl⟩ := updateFilesEntries_some.mp hview
    obtain rfl : path = cur := hdisplays.path
    obtain rfl := Option.some.inj (hask.symm.trans hasked)
    have hnames : s.fNames = (start path).fNames ++ rows.map Row.shown := hdisplays.names.trans (by rw [hshown]; rfl)
    refine ⟨hpath, s, hrun, hin, hnames, ?_⟩
    rw [hsame, ← hcount, ← List.length_append, ← hnames]
    exact hdisplays.entries
  · rintro ⟨hpath, s, hrun, hlists⟩
    refine ⟨⟨cur, s.entries, s.fNames⟩,
      updateFilesEntries_some.mpr ⟨cur, body rows, s, hpath, hask, hrun, hlists.outside, rfl⟩, rfl, ?_, ?_⟩
    · rw [← hshown]
      exact hlists.names
    · show s.entries.length = s.fNames.length
      rw [hlists.entries, hlists.names, List.length_append, hcount, hsame]

end Tui

namespace Sample

def listed (name : String) : World := ⟨⟨tree [([ascii "r", ascii name], .file 0)], [ascii "abc"]⟩, session.context⟩

def dated : Surroundings := { Sample.around with lastWriteTime := fun _ => ascii "25.10.2021 09:24:14" }

def listing (name : String) : List Bytes := [quotedName (ascii name) ++ ascii " 3 \"25.10.2021 09:24:14\""]

def responses (name : String) (_ : Bytes) : Option Bytes :=
  some ((Call.ls (ascii "/") (ascii "true") (ascii "true")).keptBody .ok (listing name))

end Sample

namespace Tui

theorem updateFilesEntries_iff_blank :
    (Sample.listed "my file").fs.WellFormed ∧
    Ls.execute Sample.server Sample.dated (Sample.listed "my file") none true true =
      (Sample.listed "my file", .ok (Sample.listing "my file")) ∧
    ((∃ view, updateFilesEntries (some (Call.pwd.keptBody .ok [ascii "/"])) (Sample.responses "my file") = some view ∧
        Displays Sample.server (Sample.listed "my file").fs ⟨ascii "/r"⟩ (ascii "/") view) ↔
      Spaced isSpace 32 (ascii "/") ∧
        ∀ n ∈ Ls.visible Sample.server (Sample.listed "my file").fs ⟨ascii "/r"⟩,
          Listable (Sample.listed "my file").fs ⟨ascii "/r"⟩ n) := by
  have hw : (Sample.listed "my file").fs.WellFormed := by decide +kernel
  have hdir : Ls.directory (Sample.listed "my file") none = .ok ⟨ascii "/r"⟩ := by decide
  have hlines : (Ls.visible Sample.server (Sample.listed "my file").fs ⟨ascii "/r"⟩).map
      (Ls.line Sample.dated (Sample.listed "my file").fs ⟨ascii "/r"⟩ true true) = Sample.listing "my file" := by
    decide +kernel
  have hls : Ls.execute Sample.server Sample.dated (Sample.listed "my file") none true true =
      (Sample.listed "my file", .ok (Sample.listing "my file")) := by
    rw [Ls.execute_lines hdir, hlines]
  refine ⟨hw, hls, updateFilesEntries_iff hw hdir hls ?_ rfl⟩
  intro n _
  exact ⟨ascii "25.10.2021", ascii "09:24:14",
    show ascii "25.10.2021 09:24:14" = _ by decide, by decide, by decide⟩

/-- Two blanks in a row become one. -/
theorem updateFilesEntries_misread :
    Ls.execute Sample.server Sample.dated (Sample.listed "my  file") none true true =
      (Sample.listed "my  file", .ok (Sample.listing "my  file")) ∧
    (updateFilesEntries (some (Call.pwd.keptBody .ok [ascii "/"])) (Sample.responses "my  file")).map (·.fNames) =
      some [ascii "my file"] ∧
    ¬ ∃ view, updateFilesEntries (some (Call.pwd.keptBody .ok [ascii "/"])) (Sample.responses "my  file") = some view ∧
      Displays Sample.server (Sample.listed "my  file").fs ⟨ascii "/r"⟩ (ascii "/") view := by
  have hdir : Ls.directory (Sample.listed "my  file") none = .ok ⟨ascii "/r"⟩ := by decide
  have hlines : (Ls.visible Sample.server (Sample.listed "my  file").fs ⟨ascii "/r"⟩).map
      (Ls.line Sample.dated (Sample.listed "my  file").fs ⟨ascii "/r"⟩ true true) = Sample.listing "my  file" := by
    decide +kernel
  have hnames : (updateFilesEntries (some (Call.pwd.keptBody .ok [ascii "/"])) (Sample.responses "my  file")).map
      (·.fNames) = some [ascii "my file"] := by decide +kernel
  refine ⟨?_, hnames, ?_⟩
  · rw [Ls.execute_lines hdir, hlines]
  · rintro ⟨view, hview, hdisplays⟩
    rw [hview, Option.map_some, Option.some.injEq, hdisplays.names] at hnames
    exact absurd hnames (by decide +kernel)

end Tui

end TinDox
