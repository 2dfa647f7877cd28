import TinDox.UsersToml

/-! The users file over runs of `tds user`. Whatever is asked for and typed in, the server can be started with
what the file says, and every account in it can be traced back to a command. -/

namespace TinDox

open Stateful

/-- Where an account comes from: it was there before, somebody who has typed in its name and its password
has added it, somebody who has typed in the old password has changed the password, or its permissions have
been set. -/
inductive Explained (hash : Bytes → Bytes) (terminal : Terminal) (t : UserTable) : UserData → Prop
  | kept {u : UserData} (known : u ∈ t.users) : Explained hash terminal t u
  | added {username password : Bytes} (name : UserTable.isUsernameOk username = true) (free : t.hasUser username = false)
      (short : UserTable.isPasswordOk password = true) (typed : terminal.Has username ∧ terminal.Has password) :
      Explained hash terminal t ⟨username, hash password, Permissions.initial⟩
  | passwordSet {u : UserData} {old new : Bytes} (known : u ∈ t.users) (verified : hash old = u.passwordHash)
      (short : UserTable.isPasswordOk new = true) (typed : terminal.Has old ∧ terminal.Has new) :
      Explained hash terminal t { u with passwordHash := hash new }
  | permsSet {u : UserData} {perms : Permissions} (known : u ∈ t.users) (letters : perms.OfLetters) :
      Explained hash terminal t { u with perms := perms }

variable {hash : Bytes → Bytes} {t t' : UserTable} {h : Host} {username : Bytes}

theorem UserTable.find?_of_mem_lookmap {users : List UserData} {f : UserData → UserData} {v : UserData}
    (h : v ∈ users.lookmap (fun u => if u.name = username then some (f u) else none)) :
    v ∈ users ∨ ∃ u, users.find? (·.name = username) = some u ∧ v = f u := by
  induction users with
  | nil => cases h
  | cons u users ih =>
    by_cases hu : u.name = username
    · rw [List.lookmap_cons_some (b := f u) _ _ (by simp [hu]), List.mem_cons] at h
      rcases h with rfl | h
      · exact .inr ⟨u, List.find?_cons_of_pos (by simp [hu]), rfl⟩
      · exact .inl (List.mem_cons_of_mem _ h)
    · rw [List.lookmap_cons_none _ _ (by simp [hu]), List.mem_cons] at h
      rcases h with rfl | h
      · exact .inl List.mem_cons_self
      · rcases ih h with hv | ⟨w, hw, hv⟩
        · exact .inl (List.mem_cons_of_mem _ hv)
        · exact .inr ⟨w, by rw [List.find?_cons_of_neg (by simp [hu]), hw], hv⟩

theorem UserTable.modifyUser_mem {f : UserData → UserData} {v : UserData} (h : t.modifyUser username f = (t', none))
    (hv : v ∈ t'.users) : v ∈ t.users ∨ ∃ u, t.users.find? (·.name = username) = some u ∧ v = f u := by
  unfold modifyUser at h
  split at h
  · cases h
    exact find?_of_mem_lookmap hv
  · cases h

theorem UserTable.find?_of_getUser {u : UserData} (h : t.getUser username = .ok u) : t.users.find? (·.name = username) = some u := by
  unfold getUser at h
  split at h
  · rename_i v hv
    cases h
    exact hv
  · cases h

/-- What a call leaves in the table. -/
theorem Called.explained (hc : Called hash h t t') : ∀ u ∈ t'.users, Explained hash h.terminal t u := by
  obtain ⟨c, hg, hcall⟩ := hc
  intro v hv
  cases hg with
  | @addUser username password name free short typed =>
    have hadded : t' = { t with users := t.users ++ [⟨username, hash password, Permissions.initial⟩] } := by
      simpa [UserTable.call, UserTable.addUser, free] using hcall.symm
    rw [hadded] at hv
    rcases List.mem_append.mp hv with hv | hv
    · exact .kept hv
    · rw [List.mem_singleton.mp hv]
      exact .added name free short typed
  | @removeUser username =>
    simp only [UserTable.call, UserTable.removeUser] at hcall
    split at hcall
    · cases hcall
      exact .kept (List.mem_filter.mp hv).1
    · cases hcall
  | @setPasswordOfUser username old new u found verified short typed =>
    rcases UserTable.modifyUser_mem hcall hv with hv | ⟨w, hw, rfl⟩
    · exact .kept hv
    · obtain rfl : u = w := Option.some.inj ((UserTable.find?_of_getUser found).symm.trans hw)
      exact .passwordSet (List.mem_of_find?_eq_some hw) verified short typed
  | @setPermsOfUser username perms letters =>
    rcases UserTable.modifyUser_mem hcall hv with hv | ⟨w, hw, rfl⟩
    · exact .kept hv
    · exact .permsSet (List.mem_of_find?_eq_some hw) letters

theorem Called.servable (hc : Called hash h t t') (ht : t.Servable) (hhash : ∀ b, Toml.IsText (hash b)) : t'.Servable := by
  have hexplained := hc.explained
  refine ⟨?_, ?_, ?_⟩
  · obtain ⟨c, hg, hcall⟩ := hc
    have hletters : c.OfLetters := by
      cases hg with
      | setPermsOfUser letters => exact letters
      | addUser | removeUser | setPasswordOfUser => trivial
    have hsound : UserTable.Sound (UserTable.call hash t c).1 := ht.sound.call hletters
    rw [hcall] at hsound
    exact hsound
  · intro v hv
    cases hexplained v hv with
    | kept known => exact ht.names _ known
    | added name => exact name
    | @passwordSet u _ _ known => exact ht.names u known
    | @permsSet u _ known => exact ht.names u known
  · intro v hv
    cases hexplained v hv with
    | kept known => exact ht.hashes _ known
    | added | passwordSet => exact hhash _
    | @permsSet u _ known => exact ht.hashes u known

/-- One run of the program: the directory it is started in, its arguments and what is typed in. The strings that
a program is started with end at a NUL. -/
structure Invocation where
  currentPath : Path
  args : List Bytes
  input : Bytes
  noNul : ∀ text ∈ currentPath.native :: args, (0 : Byte) ∉ text

/-- Where a users file stands in a server directory. -/
def usersName : Key := [ascii ".tds", ascii "users"]

theorem Path.components_of_relative {p q : Path} (hq : q.isAbsolute = false) : ∃ cs, (p / q).components = cs ++ q.components := by
  show ∃ cs, (append p q).components = _
  rw [append, if_neg (Bool.eq_false_iff.mp hq)]
  by_cases hf : p.filename.native = []
  · rw [if_pos hf]
    rcases List.eq_nil_or_concat p.native with hp | ⟨b, c, hp⟩
    · exact ⟨[], by rw [hp]; rfl⟩
    · have hc : c = slash := by
        by_contra hne
        simp [filename, hp, List.rtakeWhile_concat_pos, hne] at hf
      refine ⟨Path.components ⟨b⟩, ?_⟩
      have hsplit := parts_concat_slash b q.native
      rw [hp, hc, List.concat_eq_append, List.append_assoc, List.singleton_append, components, hsplit, List.map_append]
      rfl
  · rw [if_neg hf]
    exact ⟨p.components, by rw [components, parts_concat_slash, List.map_append]; rfl⟩

theorem follow_usersName (k : Key) {cs : List (Lexical.Component Bytes)} :
    Lexical.follow k (cs ++ Path.components ⟨ascii ".tds/users"⟩) = Lexical.follow k cs ++ usersName := by
  have hcomponents : Path.components ⟨ascii ".tds/users"⟩ = usersName.map .child := by decide
  rw [hcomponents, Lexical.follow_append, Lexical.follow_children]

namespace Invocation

variable (lib : TomlLibrary) (hash : Bytes → Bytes)

def setting (a : Invocation) : UserCommand.Setting := ⟨lib, hash, a.currentPath⟩

def terminal (a : Invocation) : Terminal := ⟨a.input, true, []⟩

def usersFile (a : Invocation) : Path := UserCommand.usersFile (a.setting lib hash) a.args

def execute (fs : FileSystem) (a : Invocation) : Except CliException Unit × Host :=
  exec (UserCommand.run (a.setting lib hash) a.args) ⟨fs, a.terminal⟩

def step (fs : FileSystem) (a : Invocation) : FileSystem := (a.execute lib hash fs).2.fs

variable {lib hash} {fs : FileSystem} {file : Path}

theorem directory_noNul (a : Invocation) : (0 : Byte) ∉ (UserCommand.directory (a.setting lib hash) a.args).native := by
  have hcurrent := a.noNul a.currentPath.native List.mem_cons_self
  unfold UserCommand.directory
  split
  · rename_i arg dir subcommand args hargs
    split
    · apply a.noNul dir
      rw [hargs]
      simp
    · exact hcurrent
  · exact hcurrent

/-- Whatever the arguments are, it is a users file that is written. -/
theorem usersFile_key (a : Invocation) : ∃ k, (a.usersFile lib hash).cString.key = k ++ usersName := by
  have hnul : (0 : Byte) ∉ (a.usersFile lib hash).native := by
    intro h
    rcases Path.mem_native_append h with h | h | h
    · exact a.noNul _ List.mem_cons_self h
    · exact absurd h (by decide)
    · rcases Path.mem_native_append h with h | h | h
      · exact a.directory_noNul h
      · exact absurd h (by decide)
      · exact absurd h (by decide)
  rw [Path.cString_eq_self hnul]
  have hrelative : Path.isAbsolute ⟨ascii ".tds/users"⟩ = false := by decide
  obtain ⟨cs, hcs⟩ := Path.components_of_relative (p := UserCommand.directory (a.setting lib hash) a.args) hrelative
  cases habs : Path.isAbsolute (UserCommand.directory (a.setting lib hash) a.args / ⟨ascii ".tds/users"⟩) with
  | false =>
    refine ⟨Lexical.follow a.currentPath.key cs, ?_⟩
    rw [usersFile, UserCommand.usersFile, Path.key_append habs, hcs, follow_usersName]
    rfl
  | true =>
    have happend : a.usersFile lib hash = UserCommand.directory (a.setting lib hash) a.args / ⟨ascii ".tds/users"⟩ := if_pos habs
    refine ⟨Lexical.follow [] cs, ?_⟩
    rw [happend, Path.key, hcs, follow_usersName]

theorem execute_cases (lib : TomlLibrary) (hash : Bytes → Bytes) (fs : FileSystem) (a : Invocation) :
    (∃ e, (a.execute lib hash fs).1 = .error e ∧ a.step lib hash fs = fs) ∨
    (a.execute lib hash fs).1 = .ok () ∧
      ∃ t t', UserTable.fetchTable lib fs (a.usersFile lib hash) = .ok t ∧ Called hash ⟨fs, a.terminal⟩ t t' ∧
        t'.commitTable lib fs = (a.step lib hash fs, none) :=
  UserCommand.run_cases (a.setting lib hash) a.args ⟨fs, a.terminal⟩

/-- What one run of the program does to a users file, be it the one that it is told to work on or not. -/
structure Keeps (lib : TomlLibrary) (hash : Bytes → Bytes) (file : Path) (a : Invocation) (t : UserTable)
    (fs fs' : FileSystem) : Prop where
  wellFormed : fs'.WellFormed
  elsewhere : ∀ k, ¬ usersName <:+ k → fs'.view k = fs.view k
  table : ∃ t', UserTable.fetchTable lib fs' file = .ok t' ∧ t'.Servable ∧ (t' = t ∨ Called hash ⟨fs, a.terminal⟩ t t')

theorem keeps_step (hhash : ∀ b, Toml.IsText (hash b))
    (hlib : ∀ t : UserTable, t.Servable → lib.parse (lib.serialise t.createTomlTable) = some t.createTomlTable)
    (hw : fs.WellFormed) (hfetch : UserTable.fetchTable lib fs file = .ok t) (ht : t.Servable) (a : Invocation) :
    Keeps lib hash file a t fs (a.step lib hash fs) := by
  rcases a.execute_cases lib hash fs with ⟨e, -, hsame⟩ | ⟨-, t₀, t₁, hfetch₀, hcalled, hcommit⟩
  · rw [hsame]
    exact ⟨hw, fun _ _ => rfl, t, hfetch, ht, .inl rfl⟩
  have hfile₀ := UserTable.fetchTable_usersFile hfetch₀
  have hfile : t₁.usersFile = a.usersFile lib hash := hcalled.usersFile.trans hfile₀
  have hsome : (fs.readFile t₁.usersFile).isSome := hfile ▸ UserTable.isSome_readFile hfetch₀
  obtain ⟨hw', hres, hview⟩ := UserTable.commitTable_written hw hsome hcommit
  have helsewhere : ∀ k, ¬ usersName <:+ k → (a.step lib hash fs).view k = fs.view k := by
    intro k hk
    apply hview
    rintro rfl
    obtain ⟨k', hk'⟩ : ∃ k, (a.usersFile lib hash).cString.key = k ++ usersName := a.usersFile_key
    rw [hfile, hk'] at hk
    exact hk (List.suffix_append k' usersName)
  refine ⟨hw', helsewhere, ?_⟩
  by_cases hsame : fs.resolve file = fs.resolve t₁.usersFile
  · -- the table that is written is the one of the file
    have hread : fs.readFile file = fs.readFile t₁.usersFile := by
      rw [FileSystem.readFile, FileSystem.readFile, hsame]
    have hread' : (a.step lib hash fs).readFile file = (a.step lib hash fs).readFile t₁.usersFile := by
      rw [FileSystem.readFile, FileSystem.readFile]
      exact congrArg (fun k => Option.bind k _) ((hres file).trans (hsame.trans (hres t₁.usersFile).symm))
    obtain rfl : t = { t₀ with usersFile := file } := by
      have hfetched : UserTable.fetchTable lib fs file = _ := UserTable.fetchTable_congr hread
      rw [hfile, hfetch, hfetch₀] at hfetched
      exact Except.ok.inj hfetched
    have hservable : t₁.Servable := hcalled.servable (ht.relocate t₀.usersFile) hhash
    have hfetch' : UserTable.fetchTable lib (a.step lib hash fs) file = _ := UserTable.fetchTable_congr hread'
    rw [UserTable.fetchTable_commitTable hservable.sound.perms hw hcommit (hlib t₁ hservable)] at hfetch'
    exact ⟨_, hfetch', hservable.relocate file, .inr (hcalled.relocate file)⟩
  · -- another table is written
    have hread : (a.step lib hash fs).readFile file = fs.readFile file := by
      apply readFile_congr (hres file)
      intro k hk
      apply hview
      rintro rfl
      obtain ⟨k', hk'⟩ : ∃ k', fs.resolve t₁.usersFile = some k' := by
        rw [← Option.isSome_iff_exists]
        rw [FileSystem.readFile] at hsome
        exact Option.isSome_of_isSome_bind hsome
      rw [hk, hk', FileSystem.resolve_eq_key hk'] at hsame
      exact hsame rfl
    have hfetch' : UserTable.fetchTable lib (a.step lib hash fs) file = _ := UserTable.fetchTable_congr hread
    rw [hfetch] at hfetch'
    have hfile := UserTable.fetchTable_usersFile hfetch
    exact ⟨t, by rw [hfetch', ← hfile]; rfl, ht, .inl rfl⟩

/-- What a run keeps. -/
structure Kept (lib : TomlLibrary) (file : Path) (fs fs' : FileSystem) : Prop where
  wellFormed : fs'.WellFormed
  elsewhere : ∀ k, ¬ usersName <:+ k → fs'.view k = fs.view k
  table : ∃ t', UserTable.fetchTable lib fs' file = .ok t' ∧ t'.Servable

theorem kept_run (hhash : ∀ b, Toml.IsText (hash b))
    (hlib : ∀ t : UserTable, t.Servable → lib.parse (lib.serialise t.createTomlTable) = some t.createTomlTable)
    (hw : fs.WellFormed) (hfetch : UserTable.fetchTable lib fs file = .ok t) (ht : t.Servable) (as : List Invocation) :
    Kept lib file fs (Runs.run (step lib hash) fs as) := by
  induction as generalizing fs t with
  | nil => exact ⟨hw, fun _ _ => rfl, t, hfetch, ht⟩
  | cons a as ih =>
    obtain ⟨hw', helsewhere, t', hfetch', ht', -⟩ := keeps_step hhash hlib hw hfetch ht a
    obtain ⟨hw'', hview, htable⟩ := ih hw' hfetch' ht'
    exact ⟨hw'', fun k hk => (hview k hk).trans (helsewhere k hk), htable⟩

/-- Along every run the users file can be loaded and a server can be started with what it says. The next command
leaves accounts in it that the command explains, and files that are not users files do not change. -/
theorem administered (hhash : ∀ b, Toml.IsText (hash b))
    (hlib : ∀ t : UserTable, t.Servable → lib.parse (lib.serialise t.createTomlTable) = some t.createTomlTable)
    (hw : fs.WellFormed) (hfetch : UserTable.fetchTable lib fs file = .ok t) (ht : t.Servable) (as : List Invocation) :
    let fs' := Runs.run (step lib hash) fs as
    (∀ k, ¬ usersName <:+ k → fs'.view k = fs.view k) ∧
      ∃ t', UserTable.fetchTable lib fs' file = .ok t' ∧ t'.Servable ∧
        ∀ a : Invocation, ∃ t'', UserTable.fetchTable lib (a.step lib hash fs') file = .ok t'' ∧ t''.Servable ∧
          ∀ u ∈ t''.users, Explained hash a.terminal t' u := by
  obtain ⟨hw', helsewhere, t', hfetch', ht'⟩ := kept_run hhash hlib hw hfetch ht as
  refine ⟨helsewhere, t', hfetch', ht', ?_⟩
  intro a
  obtain ⟨t'', hfetch'', ht'', hcases⟩ := (keeps_step hhash hlib hw' hfetch' ht' a).table
  refine ⟨t'', hfetch'', ht'', ?_⟩
  rcases hcases with rfl | hcalled
  · exact fun u hu => .kept hu
  · exact hcalled.explained

end Invocation

namespace Sample

/-- The hashes of `admin` and `password1`, and a mark for the passwords that nobody has here. -/
def crypted (b : Bytes) : Bytes :=
  if b = ascii "admin" then ascii "pU2jb3ZeEMNtE"
  else if Linux.salt b = ascii "bW" ∧ b.take 8 = ascii "password" then ascii "bWi.EijoZI6Yo"
  else ascii "*"

theorem isText_crypted (b : Bytes) : Toml.IsText (crypted b) := by
  unfold crypted
  split_ifs <;> decide

/-- An account is added, its password is changed from elsewhere, and a password is guessed three times. -/
def administration : List Invocation :=
  [⟨⟨ascii "/r"⟩, [ascii "add"], ascii "w\npassword1\npassword1\n", by decide⟩,
    ⟨⟨ascii "/"⟩, [ascii "-d", ascii "r", ascii "passwd", ascii "w"], ascii "password1\npasswordq\npasswordq\n", by decide⟩,
    ⟨⟨ascii "/r"⟩, [ascii "passwd", ascii "u"], ascii "password1\npasswordq", by decide⟩]

end Sample

theorem Invocation.administered_sample :
    let fs := Runs.run (step UsersToml.library Sample.crypted) UserTable.Sample.usersDirectory Sample.administration
    (∃ t', UserTable.fetchTable UsersToml.library fs UserTable.Sample.usersFile = .ok t' ∧ t'.Servable) ∧
      fs.readFile UserTable.Sample.usersFile = some (ascii
        "[[users]]\nname = 'u'\npasswd = 'pw'\nperms = 'd'\n[[users]]\nname = 'w'\npasswd = 'bWi.EijoZI6Yo'\nperms = 'd'\n") := by
  intro fs
  have hfetch : UserTable.fetchTable UsersToml.library UserTable.Sample.usersDirectory UserTable.Sample.usersFile =
      .ok UserTable.Sample.oneUser := rfl
  have hservable : UserTable.Sample.oneUser.Servable :=
    ⟨⟨by decide, UserTable.fetchTable_perms hfetch⟩, by decide, by decide⟩
  obtain ⟨-, t', hfetch', hservable', -⟩ := administered Sample.isText_crypted (fun t => UsersToml.library_reads) (by decide +kernel) hfetch hservable
    Sample.administration
  exact ⟨⟨t', hfetch', hservable'⟩, by decide +kernel⟩

end TinDox
