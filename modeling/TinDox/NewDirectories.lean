import TinDox.Confinement
import TinDox.UploadRequest
import TinDox.WorkingDirectory

/-! New directories. What may be made is decided by the name alone, what is shown and entered by the
spelling of the path: a client can make directories that it can neither see nor enter. -/

namespace TinDox

open Lexical DirTree FileSystem PathBasedCommand

variable {srv : ServerContext} {around : Surroundings} {fs fs' : FileSystem} {s : Session} {r : Request}
  {p cur : Path} {k : Key} {n : Bytes}

theorem spell_slash_unique {a b x y : Bytes} (hx : slash ∉ x) (hy : slash ∉ y) (h : a ++ slash :: x = b ++ slash :: y) :
    a = b ∧ x = y := by
  have hname : x = y := by
    rw [← Path.filename_append_slash (b := a) hx, h, Path.filename_append_slash hy]
  subst hname
  exact ⟨List.append_cancel_right h, rfl⟩

/-- A name that is appended stands behind exactly one separator. -/
theorem Path.append_slash_native (ha : p.isAbsolute = true) (hn : slash ∉ n) :
    ∃ base, (p / ⟨n⟩ : Path).native = base ++ slash :: n ∧ (p.native = base ∨ p.native = base ++ [slash]) := by
  rw [Path.append_no_slash p hn]
  split
  · rename_i hf
    rcases Path.filename_native_nil hf with hnil | hslash
    · obtain ⟨b, hb⟩ := Path.isAbsolute_iff.mp ha
      simp [hb] at hnil
    · obtain ⟨base, hbase⟩ := List.getLast?_eq_some_iff.mp (beq_iff_eq.mp hslash)
      have hp : p.native = base ++ [slash] := hbase
      exact ⟨base, by simp [hp], .inr hp⟩
  · exact ⟨p.native, rfl, .inl rfl⟩

theorem Path.key_of_spelled {names : List Bytes} (ha : p.isAbsolute = true) (hn : ∀ m ∈ names, IsName m)
    (h : p.native = spell names ∨ p.native = spell names ++ [slash]) : p.key = names := by
  obtain ⟨b⟩ := p
  by_cases hnil : names = []
  · subst hnil
    rcases h with rfl | rfl
    · simp [spell, Path.isAbsolute] at ha
    · rfl
  · have hkey := Path.key_ofKey hn
    rw [show Path.ofKey names = ⟨spell names⟩ by simp [Path.ofKey, hnil]] at hkey
    rcases h with rfl | rfl
    · exact hkey
    · rw [Path.key_concat_slash, hkey]

theorem ServerContext.configDirectory_native (srv : ServerContext) :
    srv.configDirectory.native = spell srv.root.names ++ slash :: ascii ".tds" := by
  rw [srv.configDirectory_eq, Path.ofKey_native_of_ne (by simp [configKey]), configKey, Path.spell_concat]

/-- A name makes a path begin like the configuration directory only in the root. -/
theorem startsWith_append (ha : cur.isAbsolute = true) (hclear : cur.startsWith srv.configDirectory = false)
    (hn : IsName n) (h : (cur / ⟨n⟩ : Path).startsWith srv.configDirectory = true) :
    cur.key = srv.root.names ∧ ascii ".tds" <+: n := by
  obtain ⟨base, hnative, hcur⟩ := Path.append_slash_native ha hn.2.2.2
  rw [Path.startsWith, List.isPrefixOf_iff_prefix, hnative, srv.configDirectory_native] at h
  have hnot : ¬ spell srv.root.names ++ slash :: ascii ".tds" <+: base := by
    intro hpre
    have hbase : base <+: cur.native := by
      rcases hcur with hcur | hcur
      · rw [hcur]
      · rw [hcur]
        exact List.prefix_append _ _
    have hstart : cur.startsWith srv.configDirectory = true := by
      rw [Path.startsWith, List.isPrefixOf_iff_prefix, srv.configDirectory_native]
      exact hpre.trans hbase
    rw [hclear] at hstart
    exact Bool.false_ne_true hstart
  rcases List.prefix_or_prefix_of_prefix h (List.prefix_append base (slash :: n)) with hpre | ⟨y, hy⟩
  · exact absurd hpre hnot
  · rw [← hy, List.prefix_append_right_inj] at h
    cases y with
    | nil => exact absurd ⟨[], by rw [← hy]; simp⟩ hnot
    | cons c y =>
      -- what is behind the directory begins with its separator
      obtain ⟨rfl, hyn⟩ := List.cons_prefix_cons.mp h
      obtain ⟨rfl, rfl⟩ := spell_slash_unique (fun hm => hn.2.2.2 (hyn.subset hm)) (by decide) hy
      exact ⟨Path.key_of_spelled ha srv.root.isName hcur, hyn⟩

theorem Session.executeCommand_mkdir {name : Path} {a : Answer} (hm : s.context.mode = .command)
    (hcur : s.context.currentPathLock = some cur) (hr : r.name = ascii "mkdir")
    (hname : parseSingleName r.fields = .ok name) (ha : (s.executeCommand srv around fs r).answer = some a)
    (hc : a.code = .ok) :
    (∃ token, s.context.authToken = some token) ∧ fs.pathExists (cur / name) = false ∧
      ∃ fs', fs.createDirectory (cur / name) = .ok fs' ∧
        s.executeCommand srv around fs r = ⟨fs', s, some ⟨.ok, r.name, []⟩, false⟩ := by
  cases hset : CommandExecutor.setCommand s.context r.name with
  | error e =>
    rw [executeCommand_stopped hset] at ha
    obtain ⟨e, rfl, he⟩ := refused_code ha
    exact absurd (he ▸ hc) (CommandExecutor.setCommand_error hset)
  | ok n =>
    obtain ⟨hn, hauth⟩ := CommandExecutor.setCommand_ok hset
    obtain rfl : n = .mkdir := by
      rw [hr] at hn
      cases n <;> first | rfl | exact absurd hn (by decide)
    have hparsed : CommandExecutor.parseFields srv fs s.context r.fields .mkdir = .ok (.mkdir name) := by
      simp [CommandExecutor.parseFields, hname, Except.map]
    refine ⟨Option.isSome_iff_exists.mp (hauth rfl), ?_⟩
    rcases hfound : fs.fsExists (cur / name) with e | - | -
    · obtain ⟨-, rfl⟩ := fsExists_eq_error.mp hfound
      have hx : CommandExecutor.execute srv around ⟨fs, s.context⟩ (.mkdir name) = (⟨fs, s.context⟩, .error .fatal) := by
        simp [CommandExecutor.execute, Mkdir.execute, hcur, hfound]
      rw [executeCommand_throws hset hparsed hx] at ha
      simp [refused] at ha
    · refine ⟨(fsExists_eq_ok.mp hfound).2, ?_⟩
      cases hmade : fs.createDirectory (cur / name) with
      | error e =>
        have hx : CommandExecutor.execute srv around ⟨fs, s.context⟩ (.mkdir name) = (⟨fs, s.context⟩, .error .fatal) := by
          simp [CommandExecutor.execute, Mkdir.execute, hcur, hfound, hmade]
        rw [executeCommand_throws hset hparsed hx] at ha
        simp [refused] at ha
      | ok fs' =>
        have hx : CommandExecutor.execute srv around ⟨fs, s.context⟩ (.mkdir name) = (⟨fs', s.context⟩, .ok []) := by
          simp [CommandExecutor.execute, Mkdir.execute, hcur, hfound, hmade]
        exact ⟨fs', rfl, executeCommand_answered hset hparsed hx hm⟩
    · have hx : CommandExecutor.execute srv around ⟨fs, s.context⟩ (.mkdir name) =
          (⟨fs, s.context⟩, .error (refuseWith .fileAlreadyExists (ascii "this directory already exists"))) := by
        simp [CommandExecutor.execute, Mkdir.execute, hcur, hfound]
      rw [executeCommand_throws hset hparsed hx] at ha
      obtain ⟨e, he, hcode⟩ := refused_code ha
      cases he
      exact absurd (hcode.symm.trans hc) (by decide)

/-- A new directory: its place was free, and it is the last entry of the directory it is made in. -/
structure Made (fs fs' : FileSystem) (cur : Path) (n : Bytes) : Prop where
  noNul : (0 : Byte) ∉ cur.native
  name : IsName n
  short : n.length ≤ nameMax
  resolved : fs.resolve cur = some cur.key
  directory : fs.get cur.key = some .dir
  free : fs.get (cur.key ++ [n]) = none
  made : fs' = fs.insert (cur.key ++ [n]) .dir

/-- One step from a directory leads nowhere only by a name that is free. -/
theorem walk_eq_none (hdir : fs.get k = some .dir) (hs : slash ∉ n) (h : walk fs.tree k [Path.classify n] = none) :
    IsName n ∧ fs.get (k ++ [n]) = none := by
  have hdirectory : DirTree.get fs.tree k = some .dir := hdir
  have hname : IsName n := by
    by_contra hnot
    rcases Path.classify_of_not_name hs hnot with hclass | hclass
    · simp [hclass, walk, hdirectory] at h
    · simp [hclass, walk, hdirectory] at h
  refine ⟨hname, ?_⟩
  by_contra hne
  have hsome : (DirTree.get fs.tree (k ++ [n])).isSome := Option.isSome_iff_ne_none.mpr hne
  simp [Path.classify_name hname, walk, hdirectory, hsome] at h

theorem made_of_createDirectory (hw : fs.WellFormed) (hdir : fs.isDirectory cur = true) (hs : slash ∉ n) (hz : (0 : Byte) ∉ n)
    (hfree : fs.pathExists (cur / ⟨n⟩) = false) (hmade : fs.createDirectory (cur / ⟨n⟩) = .ok fs') :
    Made fs fs' cur n := by
  obtain ⟨k, hk, hget⟩ := isDirectory_resolve hdir
  have habs := isAbsolute_of_resolve hk
  have hnone : fs.resolve (cur / ⟨n⟩) = none := by simpa [pathExists] using hfree
  have hzero : (0 : Byte) ∉ cur.native := by
    intro hzero
    have hsame : fs.resolve (cur / ⟨n⟩) = fs.resolve cur := by
      rw [resolve, resolve, habs, Path.isAbsolute_append ⟨n⟩ habs, Path.cString_append_nul hzero hs]
    rw [hsame, hk] at hnone
    cases hnone
  obtain rfl : k = cur.key := by
    have hkey := resolve_eq_key hk
    rwa [Path.cString_eq_self hzero] at hkey
  rw [resolve_append hzero hz hs hk] at hnone
  obtain ⟨hname, hempty⟩ := walk_eq_none hget hs hnone
  have hclass := Path.classify_name hname
  rcases createDirectory_ok hmade with rfl | ⟨hlocate, -, hfs'⟩
  · have hthere := isDirectory_createDirectory hmade
    have hgone : fs'.resolve (cur / ⟨n⟩) = none := by simpa [pathExists] using hfree
    simp [isDirectory, status, hgone] at hthere
  · have hkey : (cur / ⟨n⟩ : Path).cString.key = cur.key ++ [n] := by
      rw [Path.cString_append_noNul hzero hz, Path.key_append_element hs, hclass]
      rfl
    rw [hkey] at hlocate hfs'
    have hentry : IsEntryName n := hw.locate_names hlocate n (by simp)
    exact ⟨hzero, hname, hentry.2.2, hk, hget, hempty, hfs'⟩

section Made

variable (h : Made fs fs' cur n)
include h

theorem Made.get_eq (j : Key) : fs'.get j = if j = cur.key ++ [n] then some .dir else fs.get j := by
  rw [h.made]
  exact FileSystem.get_insert (by simp) h.free .dir j

theorem Made.resolve_cur : fs'.resolve cur = some cur.key := by
  have hresolved := h.resolved
  unfold resolve at hresolved ⊢
  split at hresolved
  · rename_i ha
    rw [if_pos ha]
    refine walk_mono (fun j hj => ?_) (fun j hj => ?_) hresolved
    · show fs'.get j = some .dir
      rw [h.get_eq]
      split
      · rfl
      · exact hj
    · show (fs'.get j).isSome
      rw [h.get_eq]
      split
      · rfl
      · exact hj
  · cases hresolved

theorem Made.get_cur : fs'.get cur.key = some .dir := by
  rw [h.get_eq, if_neg (by simp), h.directory]

theorem Made.isDirectory_cur : fs'.isDirectory cur = true := by
  simp [isDirectory, status, h.resolve_cur, h.get_cur]

theorem Made.entries_eq : fs'.entries cur = fs.entries cur ++ [n] := by
  rw [entries, entries, h.resolve_cur, h.resolved, h.made]
  simp [FileSystem.insert, DirTree.insert, children]

theorem Made.not_mem_entries : n ∉ fs.entries cur := by
  intro hn
  rw [entries, h.resolved] at hn
  have hsome : (fs.get (cur.key ++ [n])).isSome := mem_children hn
  simp [h.free] at hsome

theorem Made.isDirectory_entry (hz : (0 : Byte) ∉ n) : fs'.isDirectory (cur / ⟨n⟩) = true ∧ fs'.resolve (cur / ⟨n⟩) = some (cur.key ++ [n]) := by
  have hcur : DirTree.get fs'.tree cur.key = some .dir := h.get_cur
  have hnew : fs'.get (cur.key ++ [n]) = some .dir := by rw [h.get_eq, if_pos rfl]
  have hsome : (DirTree.get fs'.tree (cur.key ++ [n])).isSome := Option.isSome_of_mem hnew
  have hresolve : fs'.resolve (cur / ⟨n⟩) = some (cur.key ++ [n]) := by
    rw [resolve_append h.noNul hz h.name.2.2.2 h.resolve_cur, Path.classify_name h.name]
    simp [walk, hcur, hsome]
  exact ⟨by simp [isDirectory, status, hresolve, hnew], hresolve⟩

theorem Made.entries_entry (hw : fs.WellFormed) (hz : (0 : Byte) ∉ n) : fs'.entries (cur / ⟨n⟩) = [] := by
  rw [entries, (h.isDirectory_entry hz).2]
  refine List.eq_nil_iff_forall_not_mem.mpr fun m hm => ?_
  have hsome : (fs'.get (cur.key ++ [n] ++ [m])).isSome := mem_children hm
  have hnone : fs.get (cur.key ++ [n] ++ [m]) = none := hw.closed.fresh_below h.free [m]
  rw [h.get_eq, if_neg (by simp), hnone] at hsome
  cases hsome

theorem Made.isAbsolute : cur.isAbsolute = true := isAbsolute_of_resolve h.resolved

/-- The path under which the new directory is entered. -/
theorem Made.normal (hz : (0 : Byte) ∉ n) :
    (cur / ⟨n⟩ : Path).lexicallyNormal.Plain ∧ (cur / ⟨n⟩ : Path).lexicallyNormal.key = cur.key ++ [n] := by
  have habs := Path.isAbsolute_append ⟨n⟩ h.isAbsolute
  have hnul : (0 : Byte) ∉ (cur / ⟨n⟩ : Path).native := by
    have hself := (cur / ⟨n⟩ : Path).noNul_cString
    rwa [Path.cString_append_noNul h.noNul hz] at hself
  refine ⟨Path.plain_lexicallyNormal habs hnul, ?_⟩
  rw [Path.key_lexicallyNormal habs, Path.key_append_element h.name.2.2.2, Path.classify_name h.name]
  rfl

theorem Made.finalPath {c : ClientContext} (hz : (0 : Byte) ∉ n) (hin : srv.root.names <+: cur.key)
    (hcur : c.currentPathLock = some cur) : finalPath srv c ⟨n⟩ = .ok (cur / ⟨n⟩ : Path).lexicallyNormal := by
  obtain ⟨hplain, hkey⟩ := h.normal hz
  have hstart : (cur / ⟨n⟩ : Path).lexicallyNormal.startsWith srv.root.path = true := by
    rw [Path.startsWith, List.isPrefixOf_iff_prefix]
    have hroot : srv.root.names <+: (cur / ⟨n⟩ : Path).lexicallyNormal.key := by
      rw [hkey]
      exact hin.trans (List.prefix_append _ _)
    exact (Path.ofKey_prefix_ofKey hroot).trans hplain.ofKey_prefix_native
  have hrelative : ¬ (Path.mk n).isAbsolute = true := by simp [Path.isAbsolute_false_of_no_slash h.name.2.2.2]
  rw [PathBasedCommand.finalPath, if_neg hrelative]
  exact bind_eq_ok.mpr ⟨cur, by simp [getCurrentPath, hcur], by simp [hstart]⟩

theorem Made.wellFormed (hw : fs.WellFormed) (hz : (0 : Byte) ∉ n) : fs'.WellFormed := by
  rw [h.made]
  refine hw.insertDir (by simp) h.free (by rw [List.dropLast_concat, h.directory]) (fun m hm => ?_)
  rcases List.mem_append.mp hm with hm | hm
  · exact hw.names cur.key (by simp [h.directory]) m hm
  · rw [List.mem_singleton.mp hm]
    exact ⟨h.name, hz, h.short⟩

theorem Made.entered (hw : fs.WellFormed) (hz : (0 : Byte) ∉ n) :
    fs'.resolve (cur / ⟨n⟩ : Path).lexicallyNormal = some (cur.key ++ [n]) := by
  obtain ⟨hplain, hkey⟩ := h.normal hz
  have hget : fs'.get (cur / ⟨n⟩ : Path).lexicallyNormal.key = some .dir := by rw [hkey, h.get_eq, if_pos rfl]
  rw [(h.wellFormed hw hz).resolve_plain hplain hget, hkey]

end Made

namespace Tree

theorem lines_deeper {fuel depth : Nat} {directory : Path} {l : Bytes} (hdepth : 0 < depth)
    (h : l ∈ lines srv fs fuel depth directory) : l.head? = some 32 := by
  induction fuel generalizing depth directory with
  | zero => simp [lines] at h
  | succ fuel ih =>
    obtain ⟨m, -, hl⟩ := List.mem_flatMap.mp h
    obtain ⟨depth, rfl⟩ : ∃ i, depth = i + 1 := ⟨depth - 1, by omega⟩
    dsimp only at hl
    split at hl
    · simp at hl
    · split at hl
      · rcases List.mem_cons.mp hl with rfl | hl
        · simp [List.replicate_succ]
        · exact ih (by omega) hl
      · rw [List.mem_singleton.mp hl]
        simp [List.replicate_succ]

/-- The line of an empty directory is the line of no other entry. -/
theorem line_eq {n m tail : Bytes} (htail : tail = [] ∨ tail = ascii " E")
    (h : quotedName m ++ tail = quotedName n ++ ascii " E") : m = n := by
  have hquote : ∀ b : Bytes, quotedName b = (34 :: b).concat 34 := fun b => by simp [quotedName]
  rcases htail with rfl | rfl
  · have hlast := congrArg List.getLast? h
    rw [List.append_nil, hquote, List.concat_eq_append, List.getLast?_concat, List.getLast?_append] at hlast
    rw [show (ascii " E").getLast? = some 69 by decide, Option.some_or, Option.some.injEq] at hlast
    exact absurd hlast (by decide)
  · have hname := List.append_cancel_right h
    rw [hquote, hquote, List.concat_inj] at hname
    exact (List.cons.inj hname.1).2

theorem lines_of_empty {directory : Path} (hempty : fs.entries directory = []) (fuel depth : Nat) :
    lines srv fs fuel depth directory = [] := by
  cases fuel with
  | zero => rfl
  | succ fuel => rw [lines, hempty, List.flatMap_nil]

/-- The picture of a directory has one line for its last entry when that is a new directory. -/
theorem count_lines {directory : Path} {l : List Bytes} {n : Bytes} (fuel : Nat) (hl : fs.entries directory = l ++ [n])
    (hn : n ∉ l) (hshown : (entryPath directory n).startsWith srv.configDirectory = false)
    (hdir : fs.isDirectory (entryPath directory n) = true) (hempty : fs.entries (entryPath directory n) = []) :
    (lines srv fs (fuel + 1) 0 directory).count (quotedName n ++ ascii " E") = 1 := by
  rw [lines, hl, List.flatMap_append, List.count_append, List.count_eq_zero.mpr, List.flatMap_singleton]
  · simp [hshown, hdir, hempty, lines_of_empty hempty]
  · intro hmem
    obtain ⟨m, hm, hline⟩ := List.mem_flatMap.mp hmem
    have hne : m ≠ n := fun he => hn (he ▸ hm)
    dsimp only at hline
    split at hline
    · simp at hline
    · split at hline
      · rcases List.mem_cons.mp hline with hline | hline
        · refine hne (line_eq ?_ hline.symm)
          split
          · exact .inr rfl
          · exact .inl rfl
        · have hhead := lines_deeper Nat.one_pos hline
          exact absurd hhead (by simp [quotedName])
      · exact hne (line_eq (.inl rfl) (by simpa using (List.mem_singleton.mp hline).symm))

end Tree

/-- The listings show the new directory once, and the client can enter it. -/
structure SeenAndEntered (srv : ServerContext) (fs : FileSystem) (s : Session) (cur : Path) (n : Bytes) : Prop where
  allowed : srv.isPathForbidden (cur / ⟨n⟩) = .ok false
  listed : ∀ around r size mod, r.name = ascii "ls" →
    Ls.parseFields srv fs s.context r.fields = .ok (.ls none size mod) →
    (s.executeCommand srv around fs r).answer =
      some ⟨.ok, r.name, (Ls.visible srv fs cur).map (Ls.line around fs cur size mod)⟩ ∧
    (Ls.visible srv fs cur).count n = 1
  pictured : ∀ around r, r.name = ascii "tree" → parseFields srv fs s.context r.fields = .ok none →
    ∃ lines, (s.executeCommand srv around fs r).answer = some ⟨.ok, r.name, lines⟩ ∧
      lines.count (quotedName n ++ ascii " E") = 1
  entered : ∀ around r field, r.name = ascii "cd" → findField r.fields (ascii "path") = some field →
    field.getString = some n →
    ∃ dir lines, (s.executeCommand srv around fs r).answer = some ⟨.ok, r.name, lines⟩ ∧
      (s.executeCommand srv around fs r).session.context.currentPathLock = some dir ∧
      dir.key = cur.key ++ [n] ∧ fs.isDirectory dir = true

namespace Session

variable {token : AuthToken} (hm : s.context.mode = .command) (ht : s.context.authToken = some token)
  (hcur : s.context.currentPathLock = some cur)
include hm ht hcur

theorem executeCommand_ls {size mod : Bool} (hdir : fs.isDirectory cur = true) (hr : r.name = ascii "ls")
    (hp : Ls.parseFields srv fs s.context r.fields = .ok (.ls none size mod)) :
    s.executeCommand srv around fs r = ⟨fs, s,
      some ⟨.ok, r.name, (Ls.visible srv fs cur).map (Ls.line around fs cur size mod)⟩, false⟩ := by
  have hset : CommandExecutor.setCommand s.context r.name = .ok .ls :=
    CommandExecutor.setCommand_unrestricted (by rw [hr]; decide) ht rfl
  have hstart : Ls.directory ⟨fs, s.context⟩ none = .ok cur := by simp [Ls.directory, hcur, hdir]
  have hx : CommandExecutor.execute srv around ⟨fs, s.context⟩ (.ls none size mod) =
      (⟨fs, s.context⟩, .ok ((Ls.visible srv fs cur).map (Ls.line around fs cur size mod))) := by
    rw [CommandExecutor.execute, Ls.execute, hstart]
    rfl
  exact executeCommand_answered hset hp hx hm

theorem executeCommand_tree (hdir : fs.isDirectory cur = true) (hr : r.name = ascii "tree")
    (hp : parseFields srv fs s.context r.fields = .ok none) :
    s.executeCommand srv around fs r = ⟨fs, s,
      some ⟨.ok, r.name, Tree.lines srv fs (fs.tree.length + 1) 0 cur⟩, false⟩ := by
  have hset : CommandExecutor.setCommand s.context r.name = .ok .tree :=
    CommandExecutor.setCommand_unrestricted (by rw [hr]; decide) ht rfl
  have hparsed : CommandExecutor.parseFields srv fs s.context r.fields .tree = .ok (.tree none) := by
    rw [CommandExecutor.parseFields, hp]
    rfl
  have hstart : Ls.directory ⟨fs, s.context⟩ none = .ok cur := by simp [Ls.directory, hcur, hdir]
  have hx : CommandExecutor.execute srv around ⟨fs, s.context⟩ (.tree none) =
      (⟨fs, s.context⟩, .ok (Tree.lines srv fs (fs.tree.length + 1) 0 cur)) := by
    rw [CommandExecutor.execute, Tree.execute, hstart]
  exact executeCommand_answered hset hparsed hx hm

end Session

theorem Made.seenAndEntered {token : AuthToken} (h : Made fs fs' cur n) (hw : fs.WellFormed) (hz : (0 : Byte) ∉ n)
    (hlooks : ¬ LooksForbidden srv (cur.key ++ [n])) (hclear : cur.startsWith srv.configDirectory = false)
    (hin : srv.root.names <+: cur.key) (hm : s.context.mode = .command) (ht : s.context.authToken = some token)
    (hcur : s.context.currentPathLock = some cur) : SeenAndEntered srv fs' s cur n := by
  have hshown : (cur / ⟨n⟩ : Path).startsWith srv.configDirectory = false := by
    rw [Bool.eq_false_iff]
    intro hstart
    obtain ⟨hroot, hname⟩ := startsWith_append h.isAbsolute hclear h.name hstart
    refine hlooks ⟨n, ?_, hname⟩
    rw [hroot, firstBelow_append]
    rfl
  have habs := Path.isAbsolute_append ⟨n⟩ h.isAbsolute
  obtain ⟨hplain, hkey⟩ := h.normal hz
  have hclear' : (cur / ⟨n⟩ : Path).lexicallyNormal.startsWith srv.configDirectory = false := by
    have hbelow : srv.root.names <+: cur.key ++ [n] := hin.trans (List.prefix_append _ _)
    have hcanonical := Path.canonical_lexicallyNormal habs
    rw [← Path.key_lexicallyNormal habs, hkey] at hcanonical
    rw [Bool.eq_false_iff, ne_eq, startsWith_configDirectory_iff hcanonical hbelow]
    exact hlooks
  refine ⟨?_, fun around r size mod hr hp => ?_, fun around r hr hp => ?_, fun around r field hr hfield hv => ?_⟩
  · simp [ServerContext.isPathForbidden, habs, hshown]
  · rw [Session.executeCommand_ls hm ht hcur h.isDirectory_cur hr hp]
    refine ⟨rfl, ?_⟩
    rw [Ls.visible, List.count_filter (by simp [entryPath, hshown]), h.entries_eq, List.count_append,
      List.count_eq_zero.mpr h.not_mem_entries, List.count_singleton_self]
  · rw [Session.executeCommand_tree hm ht hcur h.isDirectory_cur hr hp]
    exact ⟨_, rfl, Tree.count_lines _ h.entries_eq h.not_mem_entries hshown (h.isDirectory_entry hz).1
      (h.entries_entry hw hz)⟩
  · have hentered := h.entered hw hz
    have hmade : fs'.get (cur.key ++ [n]) = some .dir := by rw [h.get_eq, if_pos rfl]
    have hparsed := parseFields_found (h.wellFormed hw hz) hfield hv (h.finalPath hz hin hcur)
      (Path.isAbsolute_lexicallyNormal habs) hclear' hentered hmade
    rw [Session.executeCommand_cd hm ht hcur hr hparsed]
    exact ⟨_, _, rfl, rfl, hkey, by simp [isDirectory, status, hentered, hmade]⟩

theorem SeenAndEntered.noNul (hw : fs.WellFormed) (h : SeenAndEntered srv fs s cur n) :
    (0 : Byte) ∉ n := by
  have hone := (h.listed ⟨[], [], 0, fun _ => []⟩ ⟨ascii "ls", []⟩ false false rfl rfl).2
  have hmem : n ∈ Ls.visible srv fs cur := by
    rw [← List.count_pos_iff, hone]
    exact Nat.one_pos
  exact (isEntryName_of_mem_entries hw (List.mem_filter.mp hmem).1).2.1

theorem SeenAndEntered.not_looksForbidden (hm : s.context.mode = .command) (hcur : s.context.currentPathLock = some cur)
    (hin : Inside srv.root cur) (hs : slash ∉ n) (h : SeenAndEntered srv fs s cur n) :
    ¬ LooksForbidden srv (cur.key ++ [n]) := by
  have hroot : srv.root.names <+: cur.key := (inside_iff hin.1).mp hin
  let r : Request := ⟨ascii "cd", [⟨ascii "path", .string n⟩]⟩
  obtain ⟨dir, -, -, hlock, hkey, -⟩ := h.entered ⟨[], [], 0, fun _ => []⟩ r ⟨ascii "path", .string n⟩ rfl rfl rfl
  rcases (executeCommand_effect srv ⟨[], [], 0, fun _ => []⟩ fs s r hm).currentPathLock with hstay | hhome | ⟨-, p, hp, hlock'⟩
  · have hsame : dir = cur := Option.some.inj (hlock.symm.trans (hstay.trans hcur))
    simp [hsame] at hkey
  · have hsame : dir = srv.root.path := Option.some.inj (hlock.symm.trans hhome)
    have hlen := congrArg List.length (srv.root.path_key.symm.trans (hsame ▸ hkey))
    rw [List.length_append, List.length_singleton] at hlen
    have hle := hroot.length_le
    omega
  · obtain rfl : dir = p := Option.some.inj (hlock.symm.trans hlock')
    obtain ⟨field, v, hfield, hv, hfinal, hclear, -⟩ := parseFields_some hp
    obtain rfl : ⟨ascii "path", .string n⟩ = field := Option.some.inj hfield
    obtain rfl : n = v := Option.some.inj hv
    have hcanonical : dir.Canonical dir.key := by
      have hrelative : ¬ (Path.mk n).isAbsolute = true := by simp [Path.isAbsolute_false_of_no_slash hs]
      rw [finalPath, if_neg hrelative] at hfinal
      obtain ⟨cur', hc, hfinal⟩ := bind_eq_ok.mp hfinal
      obtain rfl : cur = cur' := Option.some.inj (hcur.symm.trans (getCurrentPath_ok hc))
      have habs := Path.isAbsolute_append ⟨n⟩ hin.1
      by_cases hstart : (cur / ⟨n⟩ : Path).lexicallyNormal.startsWith srv.root.path = true
      · obtain rfl : (cur / ⟨n⟩ : Path).lexicallyNormal = dir := by simpa [hstart] using hfinal
        rw [Path.key_lexicallyNormal habs]
        exact Path.canonical_lexicallyNormal habs
      · obtain rfl : srv.root.path = dir := by simpa [hstart] using hfinal
        rw [Root.path_key]
        exact Path.canonical_ofKey srv.root.isName
    rw [← hkey, ← startsWith_configDirectory_iff hcanonical (hkey ▸ hroot.trans (List.prefix_append _ _)), hclear]
    exact Bool.false_ne_true

namespace Server

variable {S S' : Server} {a : Action}

/-- No client is where the paths begin like the configuration directory. -/
def OutsideConfig (srv : ServerContext) (S : Server) : Prop :=
  ∀ e ∈ S.sessions, ∀ cur ∈ e.2.context.currentPathLock, cur.startsWith srv.configDirectory = false

theorem root_not_configDirectory (srv : ServerContext) : srv.root.path.startsWith srv.configDirectory = false := by
  rw [Bool.eq_false_iff, ne_eq, startsWith_configDirectory_iff srv.root.plain_path.canonical
    (by rw [Root.path_key])]
  rintro ⟨m, hm, -⟩
  simp [Root.firstBelow, Root.path_key] at hm

theorem OutsideConfig.transition (hS : OutsideConfig srv S) (h : Transition srv S a S') : OutsideConfig srv S' := by
  refine h.forall_current hS (root_not_configDirectory srv) ?_
  intro fd r available lastWriteTime s p _ _ _ hp
  obtain ⟨-, -, -, -, -, hclear, -⟩ := parseFields_some hp
  exact hclear

theorem outsideConfig_of_reaches (h : Runs.Reaches (step srv) (fun _ _ => True) (start fs) S) : OutsideConfig srv S :=
  h.invariant (by simp [OutsideConfig, start]) (fun S a hS _ => hS.transition (step_transition srv S a))

end Server

/-- On a path in normal form the test is exact when the first name below the root does not extend the
name of the configuration directory. -/
theorem isPathForbidden_exact_iff (ha : p.isAbsolute = true) (hn : p.lexicallyNormal = p) (hin : srv.root.names <+: p.key) :
    (srv.isPathForbidden p = .ok true ↔ srv.root.firstBelow p.key = some (ascii ".tds")) ↔
      ∀ m ∈ srv.root.firstBelow p.key, ascii ".tds" <+: m → m = ascii ".tds" := by
  have hcanonical := Path.canonical_lexicallyNormal ha
  rw [hn] at hcanonical
  have htest : srv.isPathForbidden p = .ok true ↔ LooksForbidden srv p.key := by
    rw [← startsWith_configDirectory_iff hcanonical hin]
    simp [ServerContext.isPathForbidden, ha]
  rw [htest, LooksForbidden]
  constructor
  · intro h m hm hpre
    have hsome := h.mp ⟨m, hm, hpre⟩
    exact Option.some.inj (hm.symm.trans hsome)
  · intro h
    constructor
    · rintro ⟨m, hm, hpre⟩
      obtain rfl := h m hm hpre
      exact hm
    · exact fun hfirst => ⟨_, hfirst, List.prefix_refl _⟩

/-- What a client makes it can see and enter exactly when the name has no NUL and the first name below
the root does not begin like the name of the configuration directory. -/
theorem made_seen_iff {S : Server} {fd : Nat} {a : Answer} (hw : fs.WellFormed)
    (h : Runs.Reaches (Server.step srv) (fun _ _ => True) (Server.start fs) S) (found : S.lookup fd = some s)
    (hm : s.context.mode = .command) (hcur : s.context.currentPathLock = some cur) (hin : Inside srv.root cur)
    (hdir : S.fs.isDirectory cur = true) (hr : r.name = ascii "mkdir") (hname : parseSingleName r.fields = .ok ⟨n⟩)
    (ha : (s.executeCommand srv around S.fs r).answer = some a) (hc : a.code = .ok) :
    (SeenAndEntered srv (s.executeCommand srv around S.fs r).fs (s.executeCommand srv around S.fs r).session cur n ↔
      (0 : Byte) ∉ n ∧ ¬ LooksForbidden srv (cur.key ++ [n])) ∧
    ∀ p : Path, p.isAbsolute = true → p.lexicallyNormal = p → srv.root.names <+: p.key →
      ((srv.isPathForbidden p = .ok true ↔ srv.root.firstBelow p.key = some (ascii ".tds")) ↔
        ∀ m ∈ srv.root.firstBelow p.key, ascii ".tds" <+: m → m = ascii ".tds") := by
  refine ⟨?_, fun p => isPathForbidden_exact_iff⟩
  have hsane : S.fs.WellFormed := (Server.sane_of_reaches hw h).wellFormed
  have hclear := Server.outsideConfig_of_reaches h _ (Server.mem_of_lookup found) cur hcur
  obtain ⟨⟨token, ht⟩, hfree, fs', hmade, hx⟩ := Session.executeCommand_mkdir hm hcur hr hname ha hc
  have hs : slash ∉ n := parseSingleName_ok hname
  rw [hx]
  constructor
  · exact fun hseen => ⟨hseen.noNul (hsane.createDirectory hmade), hseen.not_looksForbidden hm hcur hin hs⟩
  · rintro ⟨hz, hlooks⟩
    exact (made_of_createDirectory hsane hdir hs hz hfree hmade).seenAndEntered hsane hz hlooks hclear
      ((inside_iff hin.1).mp hin) hm ht hcur

namespace Sample

def inRoot : Server := Runs.run (Server.step server) (Server.start files) (loggedIn 0 "u" [])

theorem inRoot_reached : Runs.Reaches (Server.step server) (fun _ _ => True) (Server.start files) inRoot :=
  Runs.AllMeet.reaches ⟨trivial, trivial, trivial⟩

theorem inRoot_lookup : inRoot.lookup 0 = some session := by decide +kernel

def mkdir (name : String) : Request := ⟨ascii "mkdir", [string "name" name]⟩

end Sample

theorem made_seen_iff_plain :
    let t := Sample.session.executeCommand Sample.server Sample.around Sample.inRoot.fs (Sample.mkdir "b")
    (SeenAndEntered Sample.server t.fs t.session ⟨ascii "/r"⟩ (ascii "b") ↔
      (0 : Byte) ∉ ascii "b" ∧ ¬ LooksForbidden Sample.server (Path.key ⟨ascii "/r"⟩ ++ [ascii "b"])) ∧
    ∀ p : Path, p.isAbsolute = true → p.lexicallyNormal = p → Sample.server.root.names <+: p.key →
      ((Sample.server.isPathForbidden p = .ok true ↔ Sample.server.root.firstBelow p.key = some (ascii ".tds")) ↔
        ∀ m ∈ Sample.server.root.firstBelow p.key, ascii ".tds" <+: m → m = ascii ".tds") :=
  made_seen_iff (a := ⟨.ok, ascii "mkdir", []⟩) (by decide +kernel) Sample.inRoot_reached Sample.inRoot_lookup rfl rfl
    (by decide) (by decide +kernel) rfl (by decide) (by decide +kernel) rfl

/-- A directory whose name begins like that of the configuration directory is made, and taken for it. -/
theorem extension_hidden :
    let t := Sample.session.executeCommand Sample.server Sample.around Sample.inRoot.fs (Sample.mkdir ".tdsx")
    Sample.inRoot.lookup 0 = some Sample.session ∧ t.answer = some ⟨.ok, ascii "mkdir", []⟩ ∧
    ¬ SeenAndEntered Sample.server t.fs t.session ⟨ascii "/r"⟩ (ascii ".tdsx") ∧
    Sample.server.isPathForbidden ⟨ascii "/r/.tdsx"⟩ = .ok true ∧
    Sample.server.root.firstBelow (Path.key ⟨ascii "/r/.tdsx"⟩) ≠ some (ascii ".tds") := by
  refine ⟨Sample.inRoot_lookup, by decide +kernel, fun h => ?_, by decide, by decide⟩
  exact absurd h.allowed (by decide)

end TinDox
