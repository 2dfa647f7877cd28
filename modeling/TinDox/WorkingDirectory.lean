import TinDox.ForbiddenPaths
import TinDox.Gate
import TinDox.Listings

/-! The current directory as a client knows it. The path that `pwd` answers with is relative to the
root; given to `cd` it leads back to the directory. -/

namespace TinDox

open FileSystem PathBasedCommand

namespace Path

theorem filename_names {n : Bytes} {ns : List Bytes} (hn : ∀ m ∈ n :: ns, IsName m) :
    (Path.mk (n ++ spell ns)).filename.native ≠ [] := by
  rcases List.eq_nil_or_concat ns with rfl | ⟨l, x, rfl⟩
  · have hname := hn n (by simp)
    have hlast : n.getLast hname.1 ≠ slash := fun he => hname.2.2.2 (he ▸ List.getLast_mem hname.1)
    simpa [filename, spell] using ⟨hname.1, hlast⟩
  · rw [List.concat_eq_append] at hn ⊢
    have hx := hn x (by simp)
    rw [spell_concat, ← List.append_assoc, filename_append_slash hx.2.2.2]
    exact hx.1

/-- Names that are appended one by one stand behind each other. -/
theorem foldl_append_names {n : Bytes} {ns : List Bytes} (hn : ∀ m ∈ n :: ns, IsName m) :
    (n :: ns).foldl (fun p e => p / ⟨e⟩) (⟨[]⟩ : Path) = ⟨n ++ spell ns⟩ := by
  induction ns using List.reverseRecOn with
  | nil =>
    have hname := hn n (by simp)
    simp [append_no_slash ⟨[]⟩ hname.2.2.2, filename, List.rtakeWhile, spell]
  | append_singleton ns m ih =>
    have hm := hn m (by simp)
    have hns : ∀ x ∈ n :: ns, IsName x := by
      intro x hx
      exact hn x (by rw [← List.cons_append]; exact List.mem_append_left [m] hx)
    rw [← List.cons_append, List.foldl_append, ih hns, List.foldl_cons, List.foldl_nil,
      append_no_slash _ hm.2.2.2, if_neg (filename_names hns), spell_concat, List.append_assoc]

theorem mismatch_append (a rest : List Bytes) : mismatch (a ++ rest) a = (rest, []) := by
  induction a with
  | nil => cases rest <;> simp [mismatch]
  | cons x a ih => simpa [mismatch] using ih

theorem isAbsolute_names {n : Bytes} (hn : IsName n) (b : Bytes) : (Path.mk (n ++ b)).isAbsolute = false := by
  obtain ⟨c, m, rfl⟩ := List.exists_cons_of_ne_nil hn.1
  have hc : c ≠ slash := fun he => hn.2.2.2 (by simp [he])
  simpa [isAbsolute] using hc

theorem elements_names {n : Bytes} {ns : List Bytes} (hn : ∀ m ∈ n :: ns, IsName m) :
    (Path.mk (n ++ spell ns)).elements = n :: ns := by
  have hparts : (Path.mk (n ++ spell ns)).parts = n :: ns :=
    splitOn_append_spell (hn n (by simp)).2.2.2 (fun m hm => hn m (by simp [hm]))
  have hlast : (n :: ns).getLastD [] ≠ [] := by
    obtain ⟨l, z, hz⟩ := (List.eq_nil_or_concat (n :: ns)).resolve_left (by simp)
    rw [hz, List.concat_eq_append, List.getLastD_concat]
    exact (hn z (by simp [hz])).1
  rw [elements, hparts, filter_names hn, isAbsolute_names (hn n (by simp)), if_neg (by decide), if_neg (fun h => hlast h.2)]
  simp

/-- The way from a directory to a location below it is spelled by the names between them. -/
theorem lexicallyRelative_below {base : List Bytes} {n : Bytes} {ns : List Bytes}
    (hk : ∀ m ∈ base ++ n :: ns, IsName m) :
    (ofKey (base ++ n :: ns)).lexicallyRelative (ofKey base) = ⟨n ++ spell ns⟩ := by
  have hbase : ∀ m ∈ base, IsName m := fun m hm => hk m (by simp [hm])
  have hns : ∀ m ∈ n :: ns, IsName m := fun m hm => hk m (List.mem_append_right base hm)
  have hcut := mismatch_append ([slash] :: base) (n :: ns)
  rw [List.cons_append] at hcut
  rw [lexicallyRelative, elements_ofKey hk, elements_ofKey hbase, hcut]
  have hne := (hns n (by simp)).1
  simp only [reduceCtorEq, false_and, if_false, List.map_nil, List.sum_nil, List.head?_cons, Option.some.injEq, hne,
    or_self, and_false, le_refl, if_true, Int.toNat_zero, List.replicate_zero, List.nil_append]
  exact foldl_append_names hns

theorem lexicallyRelative_self {base : List Bytes} : (ofKey base).lexicallyRelative (ofKey base) = ⟨ascii "."⟩ := by
  have hcut := mismatch_append (ofKey base).elements []
  rw [List.append_nil] at hcut
  rw [lexicallyRelative, hcut]
  simp

/-- The normal form without the separators behind it. -/
def trimmed (p : Path) : Bytes := p.lexicallyNormal.native.rdropWhile (· = slash)

theorem spell_trimmed {k : List Bytes} {tl : Bytes} (hk : ∀ m ∈ k, IsName m) (htl : tl = [] ∨ tl = [slash]) :
    (spell k ++ tl).rdropWhile (· = slash) = spell k := by
  have hspell : (spell k).rdropWhile (· = slash) = spell k := by
    rcases List.eq_nil_or_concat k with rfl | ⟨l, x, rfl⟩
    · rfl
    · rw [List.concat_eq_append] at hk ⊢
      have hx := hk x (by simp)
      obtain ⟨y, c, rfl⟩ := (List.eq_nil_or_concat x).resolve_left hx.1
      have hc : c ≠ slash := fun he => hx.2.2.2 (by simp [he])
      rw [spell_concat, List.concat_eq_append, ← List.cons_append, ← List.append_assoc]
      exact List.rdropWhile_concat_neg _ _ _ (by simpa using hc)
  rcases htl with rfl | rfl
  · rw [List.append_nil, hspell]
  · rw [List.rdropWhile_concat_pos _ _ _ (by simp), hspell]

theorem trimmed_eq {p : Path} (hp : p.isAbsolute = true) : p.trimmed = spell p.key := by
  obtain ⟨tl, htl, hn⟩ := lexicallyNormal_native hp
  rw [trimmed, hn, spell_trimmed p.key_isName htl]

end Path

variable {srv : ServerContext} {around : Surroundings} {fs : FileSystem} {s : Session} {r : Request} {d : Path}
  {rest : Key} {token : AuthToken}

/-- The answer of the server behind the root spells the location it answered for. -/
theorem Root.concat_ofKey (root : Root) (hne : root.names ≠ []) (hnames : ∀ m ∈ rest, IsName m)
    (hzero : ∀ m ∈ rest, (0 : Byte) ∉ m) :
    (root.path.concat (Path.ofKey rest)).Plain ∧ (root.path.concat (Path.ofKey rest)).key = root.names ++ rest := by
  have hkey : (root.path.concat (Path.ofKey rest)).key = root.names ++ rest := by
    rw [Path.key_concat (Path.isAbsolute_ofKey rest), Root.path_key]
    by_cases hr : rest = []
    · rw [hr, List.append_nil]
      rfl
    · rw [Path.components_ofKey hr hnames]
      exact Lexical.follow_children root.names rest
  have hnul : (0 : Byte) ∉ (root.path.concat (Path.ofKey rest)).native := by
    intro hm
    rcases List.mem_append.mp hm with hm | hm
    · exact root.plain_path.1 hm
    · exact Path.noNul_ofKey hzero hm
  refine ⟨⟨hnul, ?_⟩, hkey⟩
  rw [hkey, Path.concat, Root.path, Path.ofKey_native_of_ne hne]
  by_cases hr : rest = []
  · right
    simp [hr, Path.ofKey]
  · left
    simp [hne, hr, Path.ofKey, Path.spell_append]

theorem FileSystem.WellFormed.weaklyCanonical_plain (hw : fs.WellFormed) (hd : d.Plain)
    (hdir : fs.get d.key = some .dir) : d.weaklyCanonical fs = Path.ofKey d.key := by
  rw [Path.weaklyCanonical, if_pos (by simp [pathExists, hw.resolve_plain hd hdir]), hd.cString_eq]

/-- The path of a directory below the root, as the server names it. -/
theorem getRelativePathTo_eq (hw : fs.WellFormed) (hd : d.Plain) (hkey : d.key = srv.root.names ++ rest)
    (hdir : fs.get d.key = some .dir) : srv.getRelativePathTo fs d = Path.ofKey rest := by
  have hnames : ∀ m ∈ srv.root.names ++ rest, IsName m := hkey ▸ d.key_isName
  have hroot : fs.get srv.root.names = some .dir := by
    by_cases hr : rest = []
    · rwa [hkey, hr, List.append_nil] at hdir
    · exact hw.closed.ancestor hr (by rw [← hkey]; exact Option.isSome_of_mem hdir)
  have hbase := hw.weaklyCanonical_plain srv.root.plain_path (by rw [Root.path_key, hroot])
  rw [Root.path_key] at hbase
  rw [ServerContext.getRelativePathTo, hw.weaklyCanonical_plain hd hdir, hbase, hkey]
  cases rest with
  | nil =>
    rw [List.append_nil, Path.lexicallyRelative_self, if_pos (by decide)]
    decide
  | cons n ns =>
    have hns : ∀ m ∈ n :: ns, IsName m := fun m hm => hnames m (List.mem_append_right _ hm)
    have hn := hns n (by simp)
    rw [Path.lexicallyRelative_below hnames]
    have hnot : ¬ (Path.mk (n ++ spell ns)).equal ⟨ascii "."⟩ = true := by
      intro he
      rw [Path.equal, Path.elements_names hns, show (Path.mk (ascii ".")).elements = [ascii "."] by decide, beq_iff_eq] at he
      exact hn.2.1 (List.cons.inj he).1
    rw [if_neg hnot]
    show Path.append ⟨[slash]⟩ ⟨n ++ spell ns⟩ = _
    rw [Path.append, Path.isAbsolute_names hn, if_neg (by decide), if_pos (by decide)]
    simp [Path.ofKey, spell]

namespace Session

theorem executeCommand_pwd (hm : s.context.mode = .command) (ht : s.context.authToken = some token)
    (hcur : s.context.currentPathLock = some d) (hr : r.name = ascii "pwd") :
    s.executeCommand srv around fs r = ⟨fs, s, some ⟨.ok, r.name, [(srv.getRelativePathTo fs d).native]⟩, false⟩ := by
  have hset : CommandExecutor.setCommand s.context r.name = .ok .pwd :=
    CommandExecutor.setCommand_unrestricted (by rw [hr]; decide) ht rfl
  have hx : CommandExecutor.execute srv around ⟨fs, s.context⟩ .pwd =
      (⟨fs, s.context⟩, .ok [(srv.getRelativePathTo fs d).native]) := by
    simp [CommandExecutor.execute, hcur]
  exact executeCommand_answered hset rfl hx hm

theorem executeCommand_cd {dir : Path} (hm : s.context.mode = .command) (ht : s.context.authToken = some token)
    (hcur : s.context.currentPathLock = some d) (hr : r.name = ascii "cd")
    (hp : PathBasedCommand.parseFields srv fs s.context r.fields = .ok (some dir)) :
    s.executeCommand srv around fs r = ⟨fs, s.withContext { s.context with currentPathLock := some dir },
      some ⟨.ok, r.name, [(srv.getRelativePathTo fs dir).native]⟩, false⟩ := by
  have hset : CommandExecutor.setCommand s.context r.name = .ok .cd :=
    CommandExecutor.setCommand_unrestricted (by rw [hr]; decide) ht rfl
  have hparsed : CommandExecutor.parseFields srv fs s.context r.fields .cd = .ok (.cd dir) := by
    rw [CommandExecutor.parseFields, Cd.parseFields, hp]
    rfl
  have hx : CommandExecutor.execute srv around ⟨fs, s.context⟩ (.cd dir) =
      (⟨fs, { s.context with currentPathLock := some dir }⟩, .ok [(srv.getRelativePathTo fs dir).native]) := by
    simp [CommandExecutor.execute, Cd.execute, hcur]
  exact executeCommand_answered hset hparsed hx hm

end Session

theorem PathBasedCommand.parseFields_found {c : ClientContext} {fields : List Field} {field : Field} {v : Bytes}
    {dir : Path} {k : Key} (hw : fs.WellFormed) (hfield : findField fields (ascii "path") = some field)
    (hv : field.getString = some v) (hfinal : finalPath srv c ⟨v⟩ = .ok dir) (ha : dir.isAbsolute = true)
    (hclear : dir.startsWith srv.configDirectory = false) (hresolve : fs.resolve dir = some k) (hget : fs.get k = some .dir) :
    parseFields srv fs c fields = .ok (some dir) := by
  have hfound : fs.fsExists dir = .ok true := fsExists_eq_ok.mpr ⟨hw.tooLong_of_resolve hresolve, by simp [pathExists, hresolve]⟩
  have hdir : fs.isDirectory dir = true := by simp [isDirectory, status, hresolve, hget]
  have hthere : isThere srv fs dir = .ok true := by
    refine bind_eq_ok.mpr ⟨false, ?_, ?_⟩
    · simp [ServerContext.isPathForbidden, ha, hclear]
    · simpa using hfound
  have hparsed : parsePath srv fs c field = .ok dir := by
    unfold parsePath
    rw [hv]
    refine bind_eq_ok.mpr ⟨dir, hfinal, bind_eq_ok.mpr ⟨true, hthere, ?_⟩⟩
    simp [hdir]
  rw [parseFields, hfield]
  simp [hparsed, Except.map]

/-- The answer to `pwd`, given to `cd`, leads back to the directory from wherever a client is by then, and `pwd`
answers the same there. -/
structure Returns (srv : ServerContext) (fs : FileSystem) (s : Session) (d : Path) (q : Bytes) : Prop where
  reported : ∀ around r, r.name = ascii "pwd" → (s.executeCommand srv around fs r).answer = some ⟨.ok, r.name, [q]⟩
  returns : ∀ s : Session, s.context.mode = .command → s.context.authToken ≠ none → s.context.currentPathLock ≠ none →
    ∀ around r field, r.name = ascii "cd" → findField r.fields (ascii "path") = some field → field.getString = some q →
    ∃ dir lines s', s.executeCommand srv around fs r = ⟨fs, s', some ⟨.ok, r.name, lines⟩, false⟩ ∧
      s'.context.currentPathLock = some dir ∧ dir.trimmed = d.trimmed ∧
      ∀ around r, r.name = ascii "pwd" → (s'.executeCommand srv around fs r).answer = some ⟨.ok, r.name, [q]⟩

theorem returns_of_plain (hw : fs.WellFormed) (hroot : srv.root.names ≠ []) (hm : s.context.mode = .command)
    (ht : s.context.authToken = some token) (hcur : s.context.currentPathLock = some d) (hd : d.Plain)
    (hkey : d.key = srv.root.names ++ rest) (hdir : fs.get d.key = some .dir) (hlooks : ¬ LooksForbidden srv d.key) :
    Returns srv fs s d (Path.ofKey rest).native := by
  have hmem : ∀ m ∈ rest, m ∈ d.key := fun m hm => hkey ▸ List.mem_append_right _ hm
  have hrest : ∀ m ∈ rest, IsName m := fun m hm => d.key_isName m (hmem m hm)
  have hzero : ∀ m ∈ rest, (0 : Byte) ∉ m := fun m hm => hd.key_noNul m (hmem m hm)
  have hrelative := getRelativePathTo_eq hw hd hkey hdir
  refine ⟨fun around r hr => ?_, fun s hm ht hcur around r field hr hfield hq => ?_⟩
  · rw [Session.executeCommand_pwd hm ht hcur hr, hrelative]
  · obtain ⟨token, ht⟩ := Option.ne_none_iff_exists'.mp ht
    obtain ⟨cur, hcur⟩ := Option.ne_none_iff_exists'.mp hcur
    -- the answer is appended to the root
    obtain ⟨hplain, hconcat⟩ := srv.root.concat_ofKey hroot hrest hzero
    have hkey' : (srv.root.path.concat (Path.ofKey rest)).key = d.key := hconcat.trans hkey.symm
    have hfinal : PathBasedCommand.finalPath srv s.context ⟨(Path.ofKey rest).native⟩ =
        .ok (srv.root.path.concat (Path.ofKey rest)) := by
      rw [PathBasedCommand.finalPath, if_pos (Path.isAbsolute_ofKey rest)]
    have hclear : (srv.root.path.concat (Path.ofKey rest)).startsWith srv.configDirectory = false := by
      rw [Bool.eq_false_iff, ne_eq, startsWith_configDirectory_iff hplain.canonical, hkey']
      · exact hlooks
      · rw [hkey', hkey]
        exact List.prefix_append _ _
    have hget : fs.get (srv.root.path.concat (Path.ofKey rest)).key = some .dir := by rw [hkey', hdir]
    have hparsed := PathBasedCommand.parseFields_found hw hfield hq hfinal hplain.isAbsolute hclear (hw.resolve_plain hplain hget) hget
    refine ⟨_, _, _, Session.executeCommand_cd hm ht hcur hr hparsed, rfl, ?_, fun around r hr => ?_⟩
    · rw [Path.trimmed_eq hplain.isAbsolute, Path.trimmed_eq hd.isAbsolute, hkey']
    · have hanswer := @Session.executeCommand_pwd srv around fs
        (s.withContext { s.context with currentPathLock := some (srv.root.path.concat (Path.ofKey rest)) })
        r (srv.root.path.concat (Path.ofKey rest)) token hm ht rfl hr
      rw [hanswer, getRelativePathTo_eq hw hplain hconcat hget]

/-- A directory of the tree in normal form is spelled plainly. -/
theorem FileSystem.WellFormed.plain_of_get (hw : fs.WellFormed) (ha : d.isAbsolute = true) (hn : d.lexicallyNormal = d)
    (hdir : fs.get d.key = some .dir) : d.Plain := by
  have hcanonical : d.Canonical d.key := by
    have h := Path.canonical_lexicallyNormal ha
    rwa [hn] at h
  have hnul : ∀ m ∈ d.key, (0 : Byte) ∉ m := fun m hm => (hw.names d.key (by simp [hdir]) m hm).2.1
  rcases hcanonical.2 with he | ⟨hk, he⟩
  · rw [he]
    exact Path.plain_ofKey d.key_isName hnul
  · refine ⟨?_, .inr (congrArg Path.native he)⟩
    have hof := Path.noNul_ofKey hnul
    rw [Path.ofKey_native_of_ne hk] at hof
    rw [he]
    intro hm
    rcases List.mem_append.mp hm with hm | hm
    · exact hof hm
    · exact absurd hm (by decide)

theorem pwd_cd_inverse {cur : Path} (hw : fs.WellFormed) (hroot : srv.root.names ≠ []) (ha : d.isAbsolute = true)
    (hn : d.lexicallyNormal = d) (hin : srv.root.names <+: d.key) (hdir : fs.get d.key = some .dir)
    (hallowed : srv.isPathForbidden d = .ok false) (hm : s.context.mode = .command)
    (ht : s.context.authToken = some token) (hcur : s.context.currentPathLock = some cur) (hd : cur = d ∨ cur = d / ⟨[]⟩) :
    ∃ q, Returns srv fs s d q := by
  have hplain := hw.plain_of_get ha hn hdir
  have hclear : d.startsWith srv.configDirectory = false := by
    simpa [ServerContext.isPathForbidden, ha] using hallowed
  have hlooks : ¬ LooksForbidden srv d.key := by
    rw [← startsWith_configDirectory_iff hplain.canonical hin, hclear]
    exact Bool.false_ne_true
  have hsame : cur.Plain ∧ cur.key = d.key := by
    rcases hd with rfl | rfl
    · exact ⟨hplain, rfl⟩
    · exact hplain.append_nil
  obtain ⟨hcurplain, hkey⟩ := hsame
  obtain ⟨rest, hrest⟩ := hin
  have htrimmed : cur.trimmed = d.trimmed := by
    rw [Path.trimmed_eq hcurplain.isAbsolute, Path.trimmed_eq ha, hkey]
  have hback := returns_of_plain hw hroot hm ht hcur hcurplain (hkey.trans hrest.symm) (by rw [hkey, hdir]) (by rwa [hkey])
  refine ⟨_, hback.reported, fun s hm ht hcur around r field hr hfield hq => ?_⟩
  obtain ⟨dir, lines, s', hstep, hlock, hdenotes, hagain⟩ := hback.returns s hm ht hcur around r field hr hfield hq
  exact ⟨dir, lines, s', hstep, hlock, hdenotes.trans htrimmed, hagain⟩

theorem pwd_cd_inverse_below :
    ∃ q, Returns Sample.server ⟨Sample.tree [([ascii "r", ascii "a.b"], .dir)], []⟩
      { Sample.session with context := { Sample.session.context with currentPathLock := some ⟨ascii "/r/a.b/"⟩ } }
      ⟨ascii "/r/a.b"⟩ q :=
  pwd_cd_inverse (by decide +kernel) (by decide) (by decide)
    (by decide +kernel) (by decide +kernel) (by decide +kernel) (by decide +kernel) rfl rfl rfl (.inr (by decide +kernel))

end TinDox
