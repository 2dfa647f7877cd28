import TinDox.Console
import TinDox.InstanceCommands
import TinDox.Listings
import TinDox.Places
import TinDox.UsersFile

/-! What `tds init` makes is a directory that `tds run` starts a server in, whatever the commands of `tds user`
and further ones of `tds init` do in between. -/

namespace TinDox

open Stateful FileSystem

namespace Path

variable {p q r : Path}

theorem filename_native_eq_nil : p.filename.native = [] ↔ p.native = [] ∨ ∃ b, p.native = b ++ [slash] := by
  rcases List.eq_nil_or_concat p.native with hp | ⟨b, c, hp⟩
  · simp [filename, hp]
  · rw [List.concat_eq_append] at hp
    by_cases hc : c = slash
    · simp [filename, hp, hc]
    · simp [filename, hp, hc]

/-- The prefix that a relative path is put behind. -/
theorem append_relative (p : Path) : ∃ b, (b = [] ∨ ∃ c, b = c ++ [slash]) ∧ ∀ q : Path, q.isAbsolute = false → p / q = ⟨b ++ q.native⟩ := by
  by_cases hp : p.filename.native = []
  · refine ⟨p.native, filename_native_eq_nil.mp hp, ?_⟩
    intro q hq
    show append p q = _
    rw [append, if_neg (Bool.eq_false_iff.mp hq), if_pos hp]
  · refine ⟨p.native ++ [slash], .inr ⟨_, rfl⟩, ?_⟩
    intro q hq
    show append p q = _
    rw [append, if_neg (Bool.eq_false_iff.mp hq), if_neg hp, List.append_assoc, List.singleton_append]

theorem isAbsolute_append_relative (hq : q.isAbsolute = false) (hr : r.isAbsolute = false) : (q / r).isAbsolute = false := by
  show (append q r).isAbsolute = false
  rw [append, if_neg (Bool.eq_false_iff.mp hr)]
  obtain ⟨_ | ⟨b, q⟩⟩ := q
  · exact hr
  · split <;> exact hq

theorem append_assoc (p q r : Path) : p / (q / r) = p / q / r := by
  have happend (p q : Path) : p / q = append p q := rfl
  cases hr : r.isAbsolute with
  | true => simp only [happend, append, hr, if_true]
  | false =>
    cases hq : q.isAbsolute with
    | true => rw [happend p q, append, if_pos hq, happend p, append, if_pos (isAbsolute_append r hq)]
    | false =>
      obtain ⟨b, hb, happ⟩ := append_relative p
      rw [happ _ (isAbsolute_append_relative hq hr), happ q hq, happend, happend]
      have hfilename : (Path.mk (b ++ q.native)).filename.native = [] ↔ q.filename.native = [] := by
        rw [filename_native_eq_nil, filename_native_eq_nil]
        rcases List.eq_nil_or_concat q.native with hq | ⟨c, d, hq⟩
        · simpa [hq] using hb
        · simp [hq, ← List.append_assoc]
      simp only [append, hr, Bool.false_eq_true, if_false, hfilename]
      split
      · rw [List.append_assoc]
      · rw [List.append_assoc]

end Path

def configName : Key := [ascii ".tds", ascii "config"]

/-- What is there stays as it is. -/
structure Host.Extends (h h' : Host) : Prop where
  wellFormed : h.fs.WellFormed → h'.fs.WellFormed
  kept : h.fs.WellFormed → ∀ j x, h.fs.view j = some x → h'.fs.view j = some x

instance : IsPreorder Host Host.Extends where
  refl _ := ⟨id, fun _ _ _ => id⟩
  trans _ _ _ h h' := ⟨fun hw => h'.wellFormed (h.wellFormed hw), fun hw j x hx => h'.kept (h.wellFormed hw) j x (h.kept hw j x hx)⟩

theorem Host.Extends.of_fresh {h h' : Host} {k : Key} (hw : h'.fs.WellFormed) (hk : h.fs.view k = none)
    (hview : ∀ j, j ≠ k → h'.fs.view j = h.fs.view j) : Host.Extends h h' := by
  refine ⟨fun _ => hw, ?_⟩
  intro _ j x hx
  rw [hview j, hx]
  rintro rfl
  rw [hk] at hx
  cases hx

/-- A file under a name of the file system is read there. -/
theorem FileSystem.WellFormed.readFile_ofKey {fs : FileSystem} (hw : fs.WellFormed) {k : Key} (hk : ∀ n ∈ k, IsEntryName n) :
    fs.readFile (Path.ofKey k) = fs.read k := by
  have hn : ∀ n ∈ k, IsName n := fun n hn => (hk n hn).1
  have hz : ∀ n ∈ k, (0 : Byte) ∉ n := fun n hn => (hk n hn).2.1
  rw [readFile]
  cases hget : fs.get k with
  | none => rw [hw.resolve_ofKey_none hn hz hget, read, hget, Option.bind_none]
  | some x =>
    have hsome : (fs.get k).isSome := hget ▸ rfl
    rw [hw.resolve_ofKey hn hz hsome, Option.bind_some]

theorem FileSystem.resolveFrom_absolute {fs : FileSystem} {currentPath p : Path} (hp : p.isAbsolute = true) :
    fs.resolveFrom currentPath p = fs.resolve p := by
  obtain ⟨b, hb⟩ := Path.isAbsolute_iff.mp hp
  have happend : currentPath / p = p := by
    show Path.append currentPath p = p
    rw [Path.append, if_pos hp]
  rw [resolveFrom, if_neg (by simp [hb]), happend]

/-- A directory that a server can be started in. -/
structure Instance (program : Program) (k : Key) (fs : FileSystem) : Prop where
  wellFormed : fs.WellFormed
  config : fs.view (k ++ configName) = some (.file program.defaultConfigFile)
  users : ∃ t, UserTable.fetchTable program.library fs (Path.ofKey (k ++ usersName)) = .ok t ∧ t.Servable

theorem Instance.names {program : Program} {k : Key} {fs : FileSystem} (hi : Instance program k fs) {n : Bytes} (hn : n ∈ k) : IsEntryName n := by
  apply hi.wellFormed.names (k ++ configName) _ n (List.mem_append_left _ hn)
  rw [Option.isSome_iff_ne_none]
  exact view_isSome hi.config

namespace InitCommand

variable {program : Program} {currentPath location : Path} {h : Host}

theorem isEntryName_tds : IsEntryName (ascii ".tds") := by decide

/-- The directory that is made is a new one. -/
theorem createConfigDirectory_meets (hw : h.fs.WellFormed) :
    Meets Host.Extends (fun h' p => ∃ k, h.fs.resolveFrom currentPath location = some k ∧ p = Path.ofKey (k ++ [ascii ".tds"]) ∧
      (∀ n ∈ k, IsEntryName n) ∧ ∀ what, h'.fs.view (k ++ [ascii ".tds", what]) = none)
      (createConfigDirectory currentPath location) h := by
  apply Meets.bind_get
  cases hres : h.fs.resolveFrom currentPath location with
  | none => exact Meets.throw _ h
  | some k =>
    have hresolve : h.fs.resolve (currentPath / location) = some k := by
      unfold resolveFrom at hres
      split at hres
      · cases hres
      · exact hres
    have hnames : ∀ n ∈ k, IsEntryName n := hw.names k (hw.get_of_resolve hresolve)
    have hpath : Path.ofKey k / ⟨ascii ".tds"⟩ = Path.ofKey (k ++ [ascii ".tds"]) :=
      Path.ofKey_append (fun n hn => (hnames n hn).1) (by decide)
    have hall : ∀ n ∈ k ++ [ascii ".tds"], IsEntryName n := by
      intro n hn
      rcases List.mem_append.mp hn with hn | hn
      · exact hnames n hn
      · exact List.mem_singleton.mp hn ▸ isEntryName_tds
    have hkey : (Path.ofKey (k ++ [ascii ".tds"])).cString.key = k ++ [ascii ".tds"] := by
      rw [Path.cString_ofKey fun n hn => (hall n hn).2.1, Path.key_ofKey fun n hn => (hall n hn).1]
    simp only [hpath]
    apply (Tds.fsExists_meets currentPath _ h).bind
    rintro h₀ found - ⟨hsame, rfl⟩
    subst h₀
    apply Meets.ite
    · exact fun _ => Meets.throw _ h
    · intro hexists
      have hfree : h.fs.get (k ++ [ascii ".tds"]) = none := by
        by_contra hsome
        apply hexists
        rw [resolveFrom_absolute (Path.isAbsolute_ofKey _),
          hw.resolve_ofKey (fun n hn => (hall n hn).1) (fun n hn => (hall n hn).2.1) (Option.isSome_iff_ne_none.mpr hsome)]
        rfl
      unfold createDirectory
      cases hl : h.fs.locate (Path.ofKey (k ++ [ascii ".tds"])) with
      | error e => exact Meets.throw _ h
      | ok k' =>
        have hn := hw.locate_names hl
        obtain ⟨rfl, hne, hd, -⟩ := locate_ok hl
        rw [hkey] at hne hd hn ⊢
        simp only [hfree]
        have hmade : (h.fs.insert (k ++ [ascii ".tds"]) .dir).WellFormed := hw.insertDir hne hfree hd hn
        have hview : ∀ j, j ≠ k ++ [ascii ".tds"] → (h.fs.insert (k ++ [ascii ".tds"]) .dir).view j = h.fs.view j := by
          intro j hj
          rw [view_insert hne hfree, if_neg hj]
        have hextends : Host.Extends h { h with fs := h.fs.insert (k ++ [ascii ".tds"]) .dir } :=
          .of_fresh hmade (view_eq_none.mpr hfree) hview
        apply (Meets.set (P := fun t _ => t.fs = h.fs.insert (k ++ [ascii ".tds"]) .dir) hextends rfl).bind
        rintro ⟨fs', t⟩ _ - rfl
        apply Meets.pure
        refine ⟨k, rfl, rfl, hnames, ?_⟩
        intro what
        have hbelow : k ++ [ascii ".tds", what] = k ++ [ascii ".tds"] ++ [what] := by simp
        have hne' : k ++ [ascii ".tds"] ++ [what] ≠ k ++ [ascii ".tds"] := by simp
        show FileSystem.view _ _ = none
        rw [hbelow, hview _ hne', view_eq_none]
        exact hw.closed.fresh_below hfree [what]

/-- A file that is not there yet is made, and nothing else. -/
theorem createDefault_meets (hw : h.fs.WellFormed) {d : Key} {what : Bytes} (hnames : ∀ n ∈ d ++ [what], IsEntryName n)
    (hfree : h.fs.view (d ++ [what]) = none) (text : Bytes) :
    Meets Host.Extends (fun h' _ => h'.fs.view (d ++ [what]) = some (.file text) ∧ ∀ j, j ≠ d ++ [what] → h'.fs.view j = h.fs.view j)
      (createDefault what text (Path.ofKey d)) h := by
  have hn : ∀ n ∈ d ++ [what], IsName n := fun n hn => (hnames n hn).1
  have hz : ∀ n ∈ d ++ [what], (0 : Byte) ∉ n := fun n hn => (hnames n hn).2.1
  have hwhat : slash ∉ what := (hn what (by simp)).2.2.2
  have hd : ∀ n ∈ d, IsName n := fun m hm => hn m (List.mem_append_left _ hm)
  have hpath : Path.ofKey d / ⟨what⟩ = Path.ofKey (d ++ [what]) := Path.ofKey_append hd hwhat
  have hkey : (Path.ofKey (d ++ [what])).cString.key = d ++ [what] := by rw [Path.cString_ofKey hz, Path.key_ofKey hn]
  apply Meets.bind_get
  rw [hpath]
  cases hopen : h.fs.openWrite (Path.ofKey (d ++ [what])) true with
  | none => exact Meets.throw _ h
  | some opened =>
    obtain ⟨fs, i⟩ := opened
    obtain ⟨hw', hget, -⟩ := hw.openWrite hopen
    rw [hkey] at hget
    have hview : ∀ j, j ≠ d ++ [what] → (fs.write i text).view j = h.fs.view j := by
      intro j hj
      rw [view_write_of_ne, hw.view_openWrite hopen]
      · rwa [hkey]
      intro hfile
      exact hj (hw'.unique _ _ _ hfile hget)
    have hread : (fs.write i text).view (d ++ [what]) = some (.file text) := by
      rw [← read_eq_some, ← (hw'.write i text).readFile_ofKey hnames, hw.readFile_write hopen]
    exact Meets.set (.of_fresh (hw'.write i text) hfree hview) ⟨hread, hview⟩

theorem admin_letters (program : Program) : program.admin.perms.OfLetters :=
  Permissions.OfLetters.of_unused (show Permissions.all &&& Permissions.unused = 0 by decide)

/-- The users file that is made has one user. -/
theorem fetchTable_default {fs : FileSystem} {file : Path} (hread : fs.readFile file = some program.defaultUsersFile)
    (husers : program.library.parse program.defaultUsersFile = some (UserTable.createTomlTable ⟨file, [program.admin]⟩)) :
    UserTable.fetchTable program.library fs file = .ok ⟨file, [program.admin]⟩ := by
  have hmap : ([program.admin].map UserTable.userToToml).mapM UserTable.fetchOneUser = .ok [program.admin] :=
    UserTable.mapM_userToToml fun u hu => List.mem_singleton.mp hu ▸ admin_letters program
  rw [UserTable.fetchTable, hread, Option.bind_some, husers]
  show (([program.admin].map UserTable.userToToml).mapM UserTable.fetchOneUser).map _ = _
  rw [hmap]
  rfl

theorem servable_default (file : Path) (hhash : ∀ b, Toml.IsText (program.hash b)) :
    UserTable.Servable ⟨file, [program.admin]⟩ := by
  refine ⟨⟨List.nodup_singleton _, ?_⟩, ?_, ?_⟩
  · intro u hu
    rw [List.mem_singleton.mp hu]
    exact admin_letters program
  · intro u hu
    rw [List.mem_singleton.mp hu]
    show UserTable.isUsernameOk (ascii "admin") = true
    decide
  · intro u hu
    rw [List.mem_singleton.mp hu]
    exact hhash _

/-- What `tds init` does. -/
theorem run_meets (hw : h.fs.WellFormed) (args : List Bytes) (hhash : ∀ b, Toml.IsText (program.hash b))
    (husers : program.library.parse program.defaultUsersFile = some (UserTable.createTomlTable ⟨⟨[]⟩, [program.admin]⟩)) :
    Meets Host.Extends (fun h' _ => ∃ k, h.fs.resolveFrom currentPath ⟨args.headD currentPath.native⟩ = some k ∧
      Instance program k h'.fs) (run program currentPath args) h := by
  have hargs : Meets Host.Extends (fun t location => t = h ∧ location = ⟨args.headD currentPath.native⟩)
      (parseArguments currentPath args) h := by
    unfold parseArguments
    split
    · exact Meets.pure ⟨rfl, rfl⟩
    · apply (Tds.fsExists_meets _ _ h).bind
      rintro h₁ found - ⟨rfl, -⟩
      apply Meets.ite
      · exact fun _ => Meets.throw _ h₁
      · exact fun _ => Meets.pure ⟨rfl, rfl⟩
    · exact Meets.throw _ h
  apply hargs.bind
  rintro h₀ location - ⟨rfl, rfl⟩
  apply (createConfigDirectory_meets hw).bind
  rintro h₁ location hextends ⟨k, hk, rfl, hnames, hfree⟩
  have hw₁ := hextends.wellFormed hw
  have hentry (what : Bytes) (hwhat : IsEntryName what) : ∀ n ∈ k ++ [ascii ".tds"] ++ [what], IsEntryName n := by
    intro n hn
    simp only [List.append_assoc, List.mem_append, List.mem_cons, List.not_mem_nil, or_false] at hn
    rcases hn with hn | rfl | rfl
    · exact hnames n hn
    · exact isEntryName_tds
    · exact hwhat
  have hconfig : k ++ [ascii ".tds"] ++ [ascii "config"] = k ++ configName := by simp [configName]
  have husersName : k ++ [ascii ".tds"] ++ [ascii "users"] = k ++ usersName := by simp [usersName]
  have hne : k ++ usersName ≠ k ++ configName := by
    rw [Ne, List.append_cancel_left_eq]
    decide
  have hconfigEntry := hentry (ascii "config") (by decide)
  have husersEntry := hentry (ascii "users") (by decide)
  have hmade := createDefault_meets hw₁ hconfigEntry (by rw [hconfig]; exact hfree _) program.defaultConfigFile
  rw [hconfig] at hmade
  apply hmade.bind
  rintro h₂ - hextends₂ ⟨hread₂, hview₂⟩
  have hw₂ := hextends₂.wellFormed hw₁
  have hmade' := createDefault_meets hw₂ husersEntry (by rw [husersName, hview₂ _ hne]; exact hfree _) program.defaultUsersFile
  rw [husersName] at hmade'
  apply hmade'.imp
  rintro h₃ - hextends₃ ⟨hread₃, hview₃⟩
  have hw₃ := hextends₃.wellFormed hw₂
  have hfile : h₃.fs.readFile (Path.ofKey (k ++ usersName)) = some program.defaultUsersFile := by
    rw [← husersName, hw₃.readFile_ofKey husersEntry, read_eq_some, husersName, hread₃]
  exact ⟨k, hk, hw₃, (hview₃ _ (Ne.symm hne)).trans hread₂, _, fetchTable_default hfile husers, servable_default _ hhash⟩

end InitCommand

/-- A command that ends. -/
inductive Invoked where
  | user (a : Invocation)
  | init (currentPath : Path) (args : List Bytes)

namespace Invoked

def step (program : Program) (fs : FileSystem) : Invoked → FileSystem
  | user a => a.step program.library program.hash fs
  | init currentPath args => (exec (InitCommand.run program currentPath args) ⟨fs, ⟨[], true, []⟩⟩).2.fs

end Invoked

/-- The integers of the default configuration file. -/
def Program.defaultEntries (program : Program) : List (Bytes × Int) :=
  [ConfigReader.Key.maxThreadCount, .maxUserCount, .backlog, .port, .uploadMaxSize].map fun key =>
    (key.name, ConfigReader.field (.defaults program.hardwareConcurrency) key)

/-- The hashes are text, the TOML library reads what it writes and what the default files say, with the integers
of a table in some order, and the number of threads is one that the program can take five times. -/
structure Program.Standard (program : Program) : Prop where
  hash : ∀ b, Toml.IsText (program.hash b)
  library : ∀ t : UserTable, t.Servable → program.library.parse (program.library.serialise t.createTomlTable) = some t.createTomlTable
  users : program.library.parse program.defaultUsersFile = some (UserTable.createTomlTable ⟨⟨[]⟩, [program.admin]⟩)
  config : ∃ entries : List (Bytes × Int), entries.Perm program.defaultEntries ∧
    program.parseConfig program.defaultConfigFile = some (.table (entries.map fun e => (e.1, some e.2)))
  threads : 0 ≤ program.hardwareConcurrency ∧ 5 * program.hardwareConcurrency < 2 ^ 31

namespace Instance

variable {program : Program} {k : Key} {fs fs' : FileSystem}

theorem not_usersName (k : Key) : ¬ usersName <:+ k ++ configName := by
  rintro ⟨j, hj⟩
  have hlast := congrArg List.getLast? hj
  simp only [usersName, configName, List.getLast?_append, List.getLast?_cons_cons, List.getLast?_singleton, Option.some_or] at hlast
  exact absurd hlast (by decide)

theorem extends_of {h h' : Host} (hi : Instance program k h.fs) (hextends : Host.Extends h h') : Instance program k h'.fs := by
  have hw := hi.wellFormed
  have hw' := hextends.wellFormed hw
  have hkept := hextends.kept hw
  have hnames : ∀ n ∈ k ++ usersName, IsEntryName n := by
    intro n hn
    rcases List.mem_append.mp hn with hn | hn
    · exact hi.names hn
    · have husers : ∀ n ∈ usersName, IsEntryName n := by decide
      exact husers n hn
  obtain ⟨t, hfetch, ht⟩ := hi.users
  have hread : h'.fs.readFile (Path.ofKey (k ++ usersName)) = h.fs.readFile (Path.ofKey (k ++ usersName)) := by
    obtain ⟨b, hb⟩ := Option.isSome_iff_exists.mp (UserTable.isSome_readFile hfetch)
    rw [hb, hw'.readFile_ofKey hnames, read_eq_some]
    rw [hw.readFile_ofKey hnames, read_eq_some] at hb
    exact hkept _ _ hb
  have hfetch' : UserTable.fetchTable program.library h'.fs _ = _ := UserTable.fetchTable_congr hread
  rw [hfetch] at hfetch'
  exact ⟨hw', hkept _ _ hi.config, _, hfetch', ht.relocate _⟩

theorem step (hp : program.Standard) (hi : Instance program k fs) (a : Invoked) : Instance program k (a.step program fs) := by
  cases a with
  | user a =>
    obtain ⟨t, hfetch, ht⟩ := hi.users
    obtain ⟨hw', helsewhere, t', hfetch', ht', -⟩ := Invocation.keeps_step hp.hash hp.library hi.wellFormed hfetch ht a
    exact ⟨hw', (helsewhere _ (not_usersName k)).trans hi.config, t', hfetch', ht'⟩
  | init currentPath args =>
    exact extends_of (h := ⟨fs, ⟨[], true, []⟩⟩) hi (InitCommand.run_meets hi.wellFormed args hp.hash hp.users).changes

theorem run (hp : program.Standard) (as : List Invoked) (hi : Instance program k fs) :
    Instance program k (Runs.run (Invoked.step program) fs as) := by
  induction as generalizing fs with
  | nil => exact hi
  | cons a as ih => exact ih (hi.step hp a)

end Instance

namespace ConfigReader

variable {program : Program} {entries : List (Bytes × Int)}

theorem mem_defaultEntries {e : Bytes × Int} (he : e ∈ program.defaultEntries) :
    ∃ key : Key, e = (key.name, field (.defaults program.hardwareConcurrency) key) := by
  obtain ⟨key, -, rfl⟩ := List.mem_map.mp he
  exact ⟨key, rfl⟩

theorem count_taken {m : Int} (hm : 0 < m) (hbound : m < 2 ^ 31) {key : Key}
    (hkey : key = .maxThreadCount ∨ key = .maxUserCount ∨ key = .backlog) : ¬ key.Refuses m ∧ key.Fits m := by
  have hcount : ¬ (m % 2 ^ 32 = 0 ∨ 2 ^ 31 ≤ m % 2 ^ 32) ∧ m < 2 ^ 31 ∧ -2 ^ 31 ≤ m := by omega
  rcases hkey with rfl | rfl | rfl <;> exact hcount

/-- The defaults are what the setters take, unless there is no thread at all. -/
theorem default_taken {n : Int} (hn : 0 < n) (hbound : 5 * n < 2 ^ 31) (key : Key) :
    ¬ key.Refuses (field (.defaults n) key) ∧ key.Fits (field (.defaults n) key) := by
  cases key with
  | maxThreadCount => exact count_taken (m := n) hn (by omega) (.inl rfl)
  | maxUserCount => exact count_taken (m := 5 * n) (by omega) hbound (.inr (.inl rfl))
  | backlog => exact count_taken (m := 32) (by decide) (by decide) (.inr (.inr rfl))
  | port =>
    have hport : (1 : Int) ≤ 37666 ∧ (37666 : Int) < 2 ^ 16 := by decide
    have hnonneg : (0 : Int) ≤ 37666 := by decide
    exact ⟨not_not.mpr hport, hnonneg, hport.2⟩
  | uploadMaxSize =>
    have hsize : (0 : Int) ≤ 2 ^ 31 - 1 := by decide
    exact ⟨id, hsize⟩

theorem readConfig_default (hp : program.Standard) (hperm : entries.Perm program.defaultEntries) :
    (0 < program.hardwareConcurrency →
      readConfig program.hardwareConcurrency (.table (entries.map fun e => (e.1, some e.2))) = .ok (.defaults program.hardwareConcurrency)) ∧
    (program.hardwareConcurrency = 0 →
      ∃ what, readConfig program.hardwareConcurrency (.table (entries.map fun e => (e.1, some e.2))) = .error what) := by
  have hkeys : (entries.map Prod.fst).Nodup := by
    rw [(hperm.map Prod.fst).nodup_iff]
    show [Key.maxThreadCount.name, Key.maxUserCount.name, Key.backlog.name, Key.port.name, Key.uploadMaxSize.name].Nodup
    decide
  have hrange : ∀ e ∈ entries, -2 ^ 63 ≤ e.2 ∧ e.2 < 2 ^ 63 := by
    intro e he
    obtain ⟨key, rfl⟩ := mem_defaultEntries (hperm.subset he)
    have hthreads := hp.threads
    cases key <;> simp only [field, ServerConfig.defaults] <;> omega
  have hread := readConfig_table program.hardwareConcurrency ⟨entries, hkeys, hrange⟩
  simp only [IntegerTable.toSection] at hread
  rw [hread]
  constructor
  · intro hpos
    have hdefault := default_taken hpos hp.threads.2
    have hopen : ∀ e ∈ entries, ¬ Refused e := by
      intro e he hrefused
      obtain ⟨key, rfl⟩ := mem_defaultEntries (hperm.subset he)
      exact (hdefault key).1 (hrefused key rfl)
    obtain ⟨c, hc⟩ := foldlM_exists (.defaults program.hardwareConcurrency) hopen
    rw [hc]
    have hfield (key : Key) : field c key = field (.defaults program.hardwareConcurrency) key := by
      have hmem : (key.name, field (.defaults program.hardwareConcurrency) key) ∈ entries := by
        apply hperm.symm.subset
        apply List.mem_map_of_mem
        cases key <;> simp
      obtain ⟨-, key', hname, hstored⟩ := (foldlM_ok hkeys hc).1 _ hmem
      obtain rfl := Key.name_injective hname
      rw [hstored, stored_eq_iff (hdefault key).1 (hrange _ hmem)]
      exact (hdefault key).2
    obtain ⟨threads, users, backlog, port, size⟩ := c
    obtain rfl := hfield .maxThreadCount
    obtain rfl := hfield .maxUserCount
    obtain rfl := hfield .backlog
    obtain rfl := hfield .port
    obtain rfl := hfield .uploadMaxSize
    rfl
  · intro hzero
    cases hc : entries.foldlM readEntry (.defaults program.hardwareConcurrency) with
    | error what => exact ⟨what, rfl⟩
    | ok c =>
      have hmem : (Key.maxThreadCount.name, program.hardwareConcurrency) ∈ entries := hperm.symm.subset List.mem_cons_self
      have hnot := ((foldlM_ok hkeys hc).1 _ hmem).1
      rw [hzero] at hnot
      apply absurd _ hnot
      intro key hkey
      obtain rfl : Key.maxThreadCount = key := Key.name_injective hkey
      exact .inl rfl

end ConfigReader

namespace RunCommand

variable {program : Program} {currentPath : Path} {fs : FileSystem} {terminal : Terminal} {k : Key}

/-- What `tds run` is told: a port, the location of a path, or that it should log more. -/
inductive Argument where
  | port (short : Bool) (digits : Bytes)
  | dir (short : Bool) (path : Bytes) (k : Key)
  | debug

namespace Argument

def words : Argument → List Bytes
  | port short digits => [if short then ascii "-p" else ascii "--port", digits]
  | dir short path _ => [if short then ascii "-d" else ascii "--dir", path]
  | debug => [ascii "--debug"]

def apply (options : Options) : Argument → Options
  | port _ digits => { options with port := some (digitsValue digits) }
  | dir _ _ k => { options with configDirectory := some (Path.ofKey k) }
  | debug => { options with debugMode := true }

/-- Ports have numbers, which may start with zeros, and paths lead to server directories. -/
def Accepted (fs : FileSystem) (currentPath : Path) : Argument → Prop
  | port _ digits => digits ≠ [] ∧ digits.all isDigit = true ∧ 0 < digitsValue digits ∧ digitsValue digits < 2 ^ 16
  | dir _ path k => (0 : Byte) ∉ path ∧ fs.resolveFrom currentPath ⟨path⟩ = some k ∧ (fs.get (k ++ [ascii ".tds"])).isSome
  | debug => True

end Argument

def options (args : List Argument) : Options := args.foldl Argument.apply ⟨none, none, false⟩

/-- The location that a server is started in. -/
def Leads (fs : FileSystem) (currentPath : Path) (args : List Argument) (k : Key) : Prop :=
  match (options args).configDirectory with
  | some root => root = Path.ofKey k
  | none => fs.resolve currentPath = some k

theorem exec_parseConfigDirectoryPath (hw : fs.WellFormed) (hcurrent : (0 : Byte) ∉ currentPath.native) {path : Bytes}
    (hpath : (0 : Byte) ∉ path) (hres : fs.resolveFrom currentPath ⟨path⟩ = some k) (hsome : (fs.get (k ++ [ascii ".tds"])).isSome) :
    exec (parseConfigDirectoryPath currentPath path) ⟨fs, terminal⟩ = (.ok (Path.ofKey k), ⟨fs, terminal⟩) := by
  have hne : path ≠ [] := by
    rintro rfl
    simp [resolveFrom] at hres
  have hresolve : fs.resolve (currentPath / ⟨path⟩) = some k := by rwa [resolveFrom, if_neg hne] at hres
  have hnul : (0 : Byte) ∉ (currentPath / ⟨path⟩).native := by
    intro h
    rcases Path.mem_native_append h with h | h | h
    · exact hcurrent h
    · exact absurd h (by decide)
    · exact hpath h
  have htds : exec (Tds.fsExists currentPath (⟨path⟩ / ⟨ascii ".tds"⟩)) ⟨fs, terminal⟩ = (.ok true, ⟨fs, terminal⟩) := by
    obtain ⟨b, -, happend⟩ := Path.append_relative ⟨path⟩
    have hlong : (Path.mk path / ⟨ascii ".tds"⟩).native ≠ [] := by
      rw [happend ⟨ascii ".tds"⟩ (by decide)]
      exact List.append_ne_nil_of_right_ne_nil b (by decide)
    have hdir : DirTree.get fs.tree k = some .dir := by
      have hparent := hw.closed (k ++ [ascii ".tds"]) (by simp) hsome
      rwa [List.dropLast_concat] at hparent
    have hchild : (DirTree.get fs.tree (k ++ [ascii ".tds"])).isSome = true := hsome
    have hwalk : DirTree.walk fs.tree k [.child (ascii ".tds")] = some (k ++ [ascii ".tds"]) := by
      simp [DirTree.walk, hdir, hchild]
    have hfound : fs.resolve (currentPath / (⟨path⟩ / ⟨ascii ".tds"⟩)) = some (k ++ [ascii ".tds"]) := by
      rw [Path.append_assoc, FileSystem.resolve_append hnul (by decide) (by decide) hresolve, Path.classify_name (by decide), hwalk]
    have hshort := hw.tooLong_of_resolve hfound
    rw [Tds.exec_fsExists, if_neg fun h => Bool.false_ne_true (hshort.symm.trans h.2), resolveFrom, if_neg hlong, hfound]
    rfl
  have hget : exec (get : Tds Host) ⟨fs, terminal⟩ = (.ok ⟨fs, terminal⟩, ⟨fs, terminal⟩) := rfl
  rw [parseConfigDirectoryPath, exec_bind, htds]
  simp only [not_true_eq_false, if_false]
  rw [exec_bind, hget]
  simp only [hres]
  rfl

theorem exec_parseArguments (hw : fs.WellFormed) (hcurrent : (0 : Byte) ∉ currentPath.native) (args : List Argument)
    (hargs : ∀ a ∈ args, a.Accepted fs currentPath) (options : Options) :
    exec (parseArguments currentPath options (args.flatMap Argument.words)) ⟨fs, terminal⟩ =
      (.ok (args.foldl Argument.apply options), ⟨fs, terminal⟩) := by
  induction args generalizing options with
  | nil => rfl
  | cons a args ih =>
    have ih := fun options => ih (fun a ha => hargs a (List.mem_cons_of_mem _ ha)) options
    have ha := hargs a List.mem_cons_self
    rw [List.flatMap_cons]
    cases a with
    | port short digits =>
      obtain ⟨hne, hall, hpos, hlt⟩ := ha
      have hword : (if short then ascii "-p" else ascii "--port") = ascii "--port" ∨
          (if short then ascii "-p" else ascii "--port") = ascii "-p" := by cases short <;> simp
      have hport : parsePort digits = pure (digitsValue digits) := by
        rw [parsePort, if_pos ⟨hne, hall, hlt, Nat.pos_iff_ne_zero.mp hpos⟩]
      show exec (parseArguments currentPath options (_ :: digits :: args.flatMap Argument.words)) _ = _
      rw [parseArguments, if_pos hword, hport]
      exact ih _
    | dir short path k =>
      obtain ⟨hpath, hres, hsome⟩ := ha
      have hother : ¬ ((if short then ascii "-d" else ascii "--dir") = ascii "--port" ∨
          (if short then ascii "-d" else ascii "--dir") = ascii "-p") := by cases short <;> decide
      have hword : (if short then ascii "-d" else ascii "--dir") = ascii "--dir" ∨
          (if short then ascii "-d" else ascii "--dir") = ascii "-d" := by cases short <;> simp
      show exec (parseArguments currentPath options (_ :: path :: args.flatMap Argument.words)) _ = _
      rw [parseArguments, if_neg hother, if_pos hword, exec_bind, exec_parseConfigDirectoryPath hw hcurrent hpath hres hsome]
      exact ih _
    | debug =>
      show exec (parseArguments currentPath options (ascii "--debug" :: args.flatMap Argument.words)) _ = _
      unfold parseArguments
      rw [if_neg (by decide), if_neg (by decide), if_pos rfl]
      exact ih _

theorem exec_prepareConfigDirectory (hw : fs.WellFormed) (hcurrent : (0 : Byte) ∉ currentPath.native)
    (hsome : (fs.get (k ++ [ascii ".tds"])).isSome) {args : List Argument} (hleads : Leads fs currentPath args k) :
    exec (prepareConfigDirectory currentPath (options args)) ⟨fs, terminal⟩ = (.ok (Path.ofKey k), ⟨fs, terminal⟩) := by
  cases hdir : (options args).configDirectory with
  | some root =>
    have hroot : root = Path.ofKey k := by
      rw [Leads, hdir] at hleads
      exact hleads
    rw [prepareConfigDirectory, hdir, hroot]
    rfl
  | none =>
    have hresolve : fs.resolve currentPath = some k := by
      rw [Leads, hdir] at hleads
      exact hleads
    have habs := isAbsolute_of_resolve hresolve
    have hne : currentPath.native ≠ [] := by
      obtain ⟨b, hb⟩ := Path.isAbsolute_iff.mp habs
      simp [hb]
    have hself : currentPath / currentPath = currentPath := by
      show Path.append currentPath currentPath = currentPath
      rw [Path.append, if_pos habs]
    have hres : fs.resolveFrom currentPath ⟨currentPath.native⟩ = some k := by
      rw [resolveFrom, if_neg hne, hself, hresolve]
    rw [prepareConfigDirectory, hdir]
    exact exec_parseConfigDirectoryPath hw hcurrent hcurrent hres hsome

/-- How a server is started that has these arguments. -/
def launchOf (program : Program) (k : Key) (users : UserTable) (args : List Argument) : Launch where
  root := Path.ofKey k
  config := { ServerConfig.defaults program.hardwareConcurrency with port := ((options args).port.getD 37666 : Nat) }
  users := users
  debugMode := (options args).debugMode

/-- The context of a server that is launched so. -/
structure Launch.Serves (launch : Launch) (hash : Bytes → Bytes) (srv : ServerContext) : Prop where
  root : srv.root.path = launch.root
  uploadMaxSize : (srv.uploadMaxSize : Int) = launch.config.uploadMaxSize
  users : srv.users = launch.users.users
  hash : srv.hash = hash

/-- What is launched in an instance is a server, however it reads the backup files. -/
theorem launchOf_serves (hk : ∀ n ∈ k, IsEntryName n) {users : UserTable} (husers : users.Servable) (args : List Argument)
    (parse : Bytes → Option BackupTable) :
    ∃ srv, (launchOf program k users args).Serves program.hash srv ∧ srv.parse = parse := by
  have hname : ∀ n ∈ k, IsName n := fun n hn => (hk n hn).1
  have hnul : ∀ n ∈ k, (0 : Byte) ∉ n := fun n hn => (hk n hn).2.1
  refine ⟨{ root := ⟨k, hname, hnul⟩, uploadMaxSize := 2 ^ 31 - 1, uploadMaxSize_lt := by decide, users := users.users,
            usernamesOk := husers.names, hash := program.hash, parse := parse }, ⟨rfl, ?_, rfl, rfl⟩, rfl⟩
  show ((2 ^ 31 - 1 : Nat) : Int) = 2 ^ 31 - 1
  decide

theorem foldl_port (args : List Argument) (hargs : ∀ a ∈ args, a.Accepted fs currentPath) (o : Options)
    (ho : ∀ n, o.port = some n → n ≠ 0) : ∀ n, (args.foldl Argument.apply o).port = some n → n ≠ 0 := by
  induction args generalizing o with
  | nil => exact ho
  | cons a args ih =>
    have ha := hargs a List.mem_cons_self
    apply ih (fun a ha => hargs a (List.mem_cons_of_mem _ ha))
    cases a with
    | port short digits =>
      intro n hn
      obtain rfl := Option.some.inj hn
      exact Nat.pos_iff_ne_zero.mp ha.2.2.1
    | dir | debug => exact ho

/-- The port of the arguments replaces the one of the file. -/
theorem exec_overwritePort {o : Options} (ho : ∀ n, o.port = some n → n ≠ 0) (threads : Int) (h : Host) :
    exec (overwritePortIfPossible o (.defaults threads)) h =
      (.ok { ServerConfig.defaults threads with port := (o.port.getD 37666 : Nat) }, h) := by
  unfold overwritePortIfPossible
  cases hport : o.port with
  | none => rfl
  | some n =>
    have hn : (n : Int) ≠ 0 := Int.natCast_ne_zero.mpr (ho n hport)
    have hset : (ServerConfig.defaults threads).setPort n = .ok { ServerConfig.defaults threads with port := n } := if_neg hn
    simp only [hset]
    rfl

/-- A server is started with the defaults and the users that have been set, unless the machine does not say how many
threads it has. -/
theorem launches (hp : program.Standard) (hi : Instance program k fs) (hcurrent : (0 : Byte) ∉ currentPath.native)
    (args : List Argument) (hargs : ∀ a ∈ args, a.Accepted fs currentPath) (hleads : Leads fs currentPath args k) :
    (0 < program.hardwareConcurrency → ∃ users, UserTable.fetchTable program.library fs (Path.ofKey (k ++ usersName)) = .ok users ∧
      exec (run program currentPath (args.flatMap Argument.words)) ⟨fs, terminal⟩ = (.ok (launchOf program k users args), ⟨fs, terminal⟩)) ∧
    (program.hardwareConcurrency = 0 → ∃ what,
      exec (run program currentPath (args.flatMap Argument.words)) ⟨fs, terminal⟩ = (.error (.runtime what), ⟨fs, terminal⟩)) := by
  have hw := hi.wellFormed
  have hsome : (fs.get (k ++ [ascii ".tds"])).isSome := by
    have hparent := hw.closed (k ++ configName) (by simp [configName]) (Option.isSome_iff_ne_none.mpr (view_isSome hi.config))
    have hdrop : (k ++ configName).dropLast = k ++ [ascii ".tds"] := by
      rw [List.dropLast_append_of_ne_nil (by decide)]
      rfl
    rw [hdrop] at hparent
    exact Option.isSome_iff_exists.mpr ⟨_, hparent⟩
  have hname : ∀ n ∈ k, IsName n := fun n hn => (hi.names hn).1
  have htds : ∀ n ∈ k ++ [ascii ".tds"], IsName n := by
    intro n hn
    rcases List.mem_append.mp hn with hn | hn
    · exact hname n hn
    · exact List.mem_singleton.mp hn ▸ InitCommand.isEntryName_tds.1
  have hroot : Path.ofKey k / ⟨ascii ".tds"⟩ = Path.ofKey (k ++ [ascii ".tds"]) := Path.ofKey_append hname (by decide)
  have husersPath : Path.ofKey k / ⟨ascii ".tds"⟩ / ⟨ascii "users"⟩ = Path.ofKey (k ++ usersName) := by
    rw [hroot, Path.ofKey_append htds (by decide), List.append_assoc]
    rfl
  have hconfigPath : Path.ofKey k / ⟨ascii ".tds/config"⟩ = Path.ofKey (k ++ configName) := by
    have hsplit : (⟨ascii ".tds/config"⟩ : Path) = ⟨ascii ".tds"⟩ / ⟨ascii "config"⟩ := by decide
    rw [hsplit, Path.append_assoc, hroot, Path.ofKey_append htds (by decide), List.append_assoc]
    rfl
  have hnames : ∀ n ∈ k ++ configName, IsEntryName n := hw.names _ (Option.isSome_iff_ne_none.mpr (view_isSome hi.config))
  have hconfigFile : fs.readFile (Path.ofKey (k ++ configName)) = some program.defaultConfigFile := by
    rw [hw.readFile_ofKey hnames, read_eq_some, hi.config]
  obtain ⟨entries, hperm, hparse⟩ := hp.config
  obtain ⟨hread, hthreadless⟩ := ConfigReader.readConfig_default hp hperm
  have hget : exec (get : Tds Host) ⟨fs, terminal⟩ = (.ok ⟨fs, terminal⟩, ⟨fs, terminal⟩) := rfl
  have hargs' : exec (parseArguments currentPath ⟨none, none, false⟩ (args.flatMap Argument.words)) ⟨fs, terminal⟩ = _ :=
    exec_parseArguments hw hcurrent args hargs ⟨none, none, false⟩
  have hprepared : exec (prepareConfigDirectory currentPath (args.foldl Argument.apply ⟨none, none, false⟩)) ⟨fs, terminal⟩ = _ :=
    exec_prepareConfigDirectory hw hcurrent hsome hleads
  unfold run execute
  rw [exec_bind, hargs']
  simp only
  rw [exec_bind]
  rw [hprepared]
  simp only
  rw [exec_bind]
  constructor
  · intro hpos
    obtain ⟨users, hfetch, -⟩ := hi.users
    refine ⟨users, hfetch, ?_⟩
    have hconfig : exec (readConfig program (Path.ofKey k)) ⟨fs, terminal⟩ =
        (.ok (.defaults program.hardwareConcurrency), ⟨fs, terminal⟩) := by
      rw [readConfig, exec_bind, hget]
      simp only [hconfigPath, hconfigFile, Option.bind_some, hparse, hread hpos]
      rfl
    rw [hconfig]
    simp only
    rw [exec_bind, exec_overwritePort (foldl_port args hargs _ (fun _ hn => by cases hn))]
    simp only
    rw [exec_bind, hget]
    simp only [husersPath, hfetch]
    rfl
  · intro hzero
    obtain ⟨what, hwhat⟩ := hthreadless hzero
    refine ⟨what, ?_⟩
    have hconfig : exec (readConfig program (Path.ofKey k)) ⟨fs, terminal⟩ = (.error (.runtime what), ⟨fs, terminal⟩) := by
      rw [readConfig, exec_bind, hget]
      simp only [hconfigPath, hconfigFile, Option.bind_some, hparse, hwhat]
      rfl
    rw [hconfig]

end RunCommand

/-- What `tds init` makes can be administered, and a server can be started in it with any arguments that lead
there, which gives it a context as the theorems on the server have it. -/
theorem Program.instance_launches {program : Program} (hp : program.Standard) {fs : FileSystem} (hw : fs.WellFormed)
    {currentPath : Path} {args : List Bytes} {h : Host}
    (hinit : exec (InitCommand.run program currentPath args) ⟨fs, ⟨[], true, []⟩⟩ = (.ok (), h)) (as : List Invoked) :
    ∃ k, fs.resolveFrom currentPath ⟨args.headD currentPath.native⟩ = some k ∧
      let fs' := Runs.run (Invoked.step program) h.fs as
      ∃ users, UserTable.fetchTable program.library fs' (Path.ofKey (k ++ usersName)) = .ok users ∧ users.Servable ∧
        ∀ (currentPath : Path) (terminal : Terminal) (args : List RunCommand.Argument), (0 : Byte) ∉ currentPath.native →
          (∀ a ∈ args, a.Accepted fs' currentPath) → RunCommand.Leads fs' currentPath args k →
          let launched := exec (RunCommand.run program currentPath (args.flatMap RunCommand.Argument.words)) ⟨fs', terminal⟩
          let launch := RunCommand.launchOf program k users args
          (0 < program.hardwareConcurrency → launched = (.ok launch, ⟨fs', terminal⟩) ∧
            ∀ parse, ∃ srv, launch.Serves program.hash srv ∧ srv.parse = parse) ∧
          (program.hardwareConcurrency = 0 → ∃ what, launched = (.error (.runtime what), ⟨fs', terminal⟩)) := by
  have hmeets : Meets _ _ (InitCommand.run program currentPath args) ⟨fs, ⟨[], true, []⟩⟩ :=
    InitCommand.run_meets hw args hp.hash hp.users
  obtain ⟨k, hk, hi⟩ := hmeets.result () (by rw [hinit])
  rw [hinit] at hi
  refine ⟨k, hk, ?_⟩
  intro fs'
  have hi' : Instance program k fs' := hi.run hp as
  obtain ⟨users, hfetch, hservable⟩ := hi'.users
  refine ⟨users, hfetch, hservable, ?_⟩
  intro currentPath terminal args hcurrent hargs hleads
  obtain ⟨hlaunch, hthreadless⟩ := RunCommand.launches hp hi' hcurrent args hargs hleads
  refine ⟨?_, hthreadless⟩
  intro hpos
  obtain ⟨users', hfetch', hlaunched⟩ := hlaunch hpos
  obtain rfl : users = users' := Except.ok.inj (hfetch.symm.trans hfetch')
  exact ⟨hlaunched, RunCommand.launchOf_serves (fun n hn => hi'.names hn) hservable args⟩

namespace Sample

def parseConfig (b : Bytes) : Option ConfigReader.Section := do
  let rest ← b.dropPrefix? (ascii "[server]\n")
  let values ← Toml.read rest
  some (.table (values.map fun e => (e.1, e.2.asInteger)))

def program : Program := ⟨UsersToml.library, parseConfig, crypted, 4⟩

theorem program_standard : program.Standard := by
  refine ⟨isText_crypted, fun t => UsersToml.library_reads, ?_, ⟨program.defaultEntries, .refl _, ?_⟩, by decide⟩
  · rfl
  · rfl

/-- A user is added, and `tds init` is tried again. -/
def settingUp : List Invoked :=
  [.user ⟨⟨ascii "/"⟩, [ascii "add"], ascii "w\npassword1\npassword1\n", by decide⟩, .init ⟨ascii "/"⟩ []]

def startArguments : List RunCommand.Argument := [.port true (ascii "80"), .debug, .port false (ascii "08080")]

end Sample

theorem Program.instance_launches_sample :
    let h := (exec (InitCommand.run Sample.program ⟨ascii "/"⟩ []) ⟨UserTable.Sample.usersDirectory, ⟨[], true, []⟩⟩).2
    let fs := Runs.run (Invoked.step Sample.program) h.fs Sample.settingUp
    (∃ users, users.Servable ∧ exec (RunCommand.run Sample.program ⟨ascii "/"⟩ (Sample.startArguments.flatMap RunCommand.Argument.words))
      ⟨fs, ⟨[], true, []⟩⟩ = (.ok ⟨⟨ascii "/"⟩, ⟨4, 20, 32, 8080, 2 ^ 31 - 1⟩, users, true⟩, ⟨fs, ⟨[], true, []⟩⟩)) ∧
    fs.readFile ⟨ascii "/.tds/users"⟩ = some (ascii
      "[[users]]\nname = 'admin'\npasswd = 'pU2jb3ZeEMNtE'\nperms = 'wcmdu'\n[[users]]\nname = 'w'\npasswd = 'bWi.EijoZI6Yo'\nperms = 'd'\n") := by
  intro h fs
  have hinit : exec (InitCommand.run Sample.program ⟨ascii "/"⟩ []) ⟨UserTable.Sample.usersDirectory, ⟨[], true, []⟩⟩ = (.ok (), h) := by
    have hok : (exec (InitCommand.run Sample.program ⟨ascii "/"⟩ []) ⟨UserTable.Sample.usersDirectory, ⟨[], true, []⟩⟩).1 = .ok () := by
      rfl
    exact Prod.ext hok rfl
  obtain ⟨k, hk, users, -, hservable, hlaunches⟩ :=
    instance_launches Sample.program_standard (by decide +kernel) hinit Sample.settingUp
  obtain rfl : [] = k := Option.some.inj hk
  refine ⟨⟨users, hservable, ?_⟩, by decide +kernel⟩
  have hargs : ∀ a ∈ Sample.startArguments, a.Accepted fs ⟨ascii "/"⟩ := by
    simp only [Sample.startArguments, RunCommand.Argument.Accepted, List.forall_mem_cons, List.not_mem_nil, false_imp_iff, implies_true]
    decide
  obtain ⟨hlaunched, -⟩ := hlaunches ⟨ascii "/"⟩ ⟨[], true, []⟩ Sample.startArguments (by decide)
    hargs rfl
  exact (hlaunched (by decide)).1

end TinDox
