import TinDox.UserCommand
import TinDox.Toml

/-! What the administration commands do to the accounts. -/

namespace TinDox

open Stateful Tds

/-- What has been asked for and typed in when a call is made on the table. -/
inductive Grants (hash : Bytes → Bytes) (h : Host) (t : UserTable) : UserTable.Call → Prop
  | addUser {username password : Bytes} (name : UserTable.isUsernameOk username = true) (free : t.hasUser username = false)
      (short : UserTable.isPasswordOk password = true) (typed : h.terminal.Has username ∧ h.terminal.Has password) :
      Grants hash h t (.addUser username password)
  | removeUser {username : Bytes} : Grants hash h t (.removeUser username)
  | setPasswordOfUser {username old new : Bytes} {u : UserData} (found : t.getUser username = .ok u)
      (verified : hash old = u.passwordHash) (short : UserTable.isPasswordOk new = true)
      (typed : h.terminal.Has old ∧ h.terminal.Has new) : Grants hash h t (.setPasswordOfUser username new)
  | setPermsOfUser {username : Bytes} {perms : Permissions} (letters : perms.OfLetters) :
      Grants hash h t (.setPermsOfUser username perms)

/-- The table that a subcommand returns is the one that a granted call leaves. -/
def Called (hash : Bytes → Bytes) (h : Host) (t t' : UserTable) : Prop :=
  ∃ c, Grants hash h t c ∧ UserTable.call hash t c = (t', none)

variable {hash : Bytes → Bytes} {t : UserTable} {h h' : Host} {username : Bytes} {args : List Bytes}

theorem Grants.of_reads {c : UserTable.Call} (hr : Host.Reads h h') (hg : Grants hash h' t c) : Grants hash h t c := by
  cases hg with
  | addUser name free short typed => exact .addUser name free short ⟨hr.lines _ typed.1, hr.lines _ typed.2⟩
  | removeUser => exact .removeUser
  | setPasswordOfUser found verified short typed =>
    exact .setPasswordOfUser found verified short ⟨hr.lines _ typed.1, hr.lines _ typed.2⟩
  | setPermsOfUser letters => exact .setPermsOfUser letters

theorem Called.of_reads {t' : UserTable} (hr : Host.Reads h h') (hc : Called hash h' t t') : Called hash h t t' := by
  obtain ⟨c, hg, hcall⟩ := hc
  exact ⟨c, hg.of_reads hr, hcall⟩

theorem call_relocate (hash : Bytes → Bytes) (t : UserTable) (file : Path) (c : UserTable.Call) :
    UserTable.call hash { t with usersFile := file } c =
      ({ (UserTable.call hash t c).1 with usersFile := file }, (UserTable.call hash t c).2) := by
  have hsame : ∀ username, UserTable.hasUser { t with usersFile := file } username = t.hasUser username := fun _ => rfl
  cases c with
  | addUser username password =>
    simp only [UserTable.call, UserTable.addUser, hsame]
    cases t.hasUser username <;> rfl
  | removeUser username =>
    simp only [UserTable.call, UserTable.removeUser, hsame]
    cases t.hasUser username <;> rfl
  | setPasswordOfUser username password =>
    simp only [UserTable.call, UserTable.setPasswordOfUser, UserTable.modifyUser, hsame]
    cases t.hasUser username <;> rfl
  | setPermsOfUser username perms =>
    simp only [UserTable.call, UserTable.setPermsOfUser, UserTable.modifyUser, hsame]
    cases t.hasUser username <;> rfl

/-- What is granted depends on the accounts only. -/
theorem Grants.of_users {t' : UserTable} {c : UserTable.Call} (hg : Grants hash h t c) (hu : t'.users = t.users) :
    Grants hash h t' c := by
  obtain ⟨file', users'⟩ := t'
  obtain rfl : users' = t.users := hu
  cases hg with
  | addUser name free short typed => exact .addUser name free short typed
  | removeUser => exact .removeUser
  | setPasswordOfUser found verified short typed => exact .setPasswordOfUser found verified short typed
  | setPermsOfUser letters => exact .setPermsOfUser letters

theorem Called.usersFile {t' : UserTable} (hc : Called hash h t t') : t'.usersFile = t.usersFile := by
  obtain ⟨c, -, hcall⟩ := hc
  have hkept := UserTable.call_usersFile hash t c
  rw [hcall] at hkept
  exact hkept

theorem Called.relocate {t' : UserTable} (hc : Called hash h t t') (file : Path) :
    Called hash h { t with usersFile := file } { t' with usersFile := file } := by
  obtain ⟨c, hg, hcall⟩ := hc
  refine ⟨c, hg.of_users rfl, ?_⟩
  rw [call_relocate, hcall]

namespace Tds

theorem ofTable_meets {c : UserTable.Call} (hg : Grants hash h t c) (h' : Host) :
    Meets Host.Reads (fun _ t' => Called hash h t t') (ofTable (UserTable.call hash t c)) h' := by
  rcases hc : UserTable.call hash t c with ⟨t', _ | e⟩
  · exact Meets.pure ⟨c, hg, hc⟩
  · exact Meets.throw _ h'

theorem ofExcept_meets {α : Type} (x : Except UserTableException α) (h : Host) :
    Meets Host.Reads (fun _ a => x = .ok a) (ofExcept x) h := by
  cases x with
  | ok a => exact Meets.pure rfl
  | error e => exact Meets.throw _ h

end Tds

theorem UserAddCommand.execute_meets (hash : Bytes → Bytes) (t : UserTable) (h : Host) :
    Meets Host.Reads (fun _ t' => Called hash h t t') (UserAddCommand.execute hash t) h := by
  apply (readLine_meets _ _ _ _ h).bind
  rintro h₁ username hr₁ ⟨hname, hok⟩
  have hunique : Meets Host.Reads (fun _ _ => t.hasUser username = false) (checkUsernameUniqueness t username) h₁ := by
    apply Meets.ite
    · exact fun _ => Meets.throw _ h₁
    · exact fun hfree => Meets.pure (by simpa using hfree)
  apply hunique.bind
  intro h₂ _ hr₂ hfree
  apply (readLine_meets _ _ _ _ h₂).bind
  rintro h₃ password hr₃ ⟨hpassword, hshort⟩
  apply (readLine_meets _ _ _ _ h₃).bind
  intro h₄ _ hr₄ _
  apply Meets.pure
  exact ⟨.addUser username password, .addUser hok hfree hshort ⟨hname, hr₁.lines _ (hr₂.lines _ hpassword)⟩, rfl⟩

theorem UserPasswdCommand.verifies_iff {password : Bytes} {u : UserData} (hu : t.getUser username = .ok u) :
    verifies hash t username password = true ↔ hash password = u.passwordHash := by
  rw [verifies, UserTable.verifyPasswordOfUser, hu]
  exact decide_eq_true_iff

theorem UserPasswdCommand.execute_meets (hash : Bytes → Bytes) (t : UserTable) (username : Bytes) (h : Host) :
    Meets Host.Reads (fun _ t' => Called hash h t t') (UserPasswdCommand.execute hash t username) h := by
  apply (ofExcept_meets _ h).bind
  intro h₁ u hr₁ hu
  apply (readLine_meets _ _ _ _ h₁).bind
  rintro h₂ old hr₂ ⟨hold, hverified⟩
  apply (readLine_meets _ _ _ _ h₂).bind
  rintro h₃ password hr₃ ⟨hpassword, hshort⟩
  apply (readLine_meets _ _ _ _ h₃).bind
  intro h₄ _ hr₄ _
  have hgrants : Grants hash h t (.setPasswordOfUser username password) :=
    .setPasswordOfUser hu ((verifies_iff hu).mp hverified) hshort ⟨hr₁.lines _ hold, (hr₁.trans hr₂).lines _ hpassword⟩
  exact ofTable_meets hgrants h₄

theorem UserPermsCommand.execute_meets (hash : Bytes → Bytes) (ht : ∀ u ∈ t.users, u.perms.OfLetters)
    {flags : UserTable.PermsFlags} (hargs : UserTable.parsePermsArguments args = .ok (username, flags)) (h : Host) :
    Meets Host.Reads (fun _ t' => Called hash h t t') (UserPermsCommand.execute t username flags) h := by
  obtain ⟨perms, hperms, hcall⟩ := UserTable.executePerms_call ht hash hargs
  rw [UserPermsCommand.execute, hcall]
  apply (ofTable_meets (.setPermsOfUser hperms) h).bind
  intro h₁ t' hr₁ hcalled
  apply (print_meets _ h₁).bind
  intro h₂ _ hr₂ _
  exact Meets.pure hcalled

theorem UserRemoveCommand.execute_meets (hash : Bytes → Bytes) (t : UserTable) (username : Bytes) (h : Host) :
    Meets Host.Reads (fun _ t' => Called hash h t t') (UserRemoveCommand.execute t username) h :=
  ofTable_meets (c := .removeUser username) .removeUser h

theorem UserAddCommand.parseArguments_meets (args : List Bytes) (h : Host) :
    Meets Host.Reads (fun _ _ => True) (UserAddCommand.parseArguments args) h := by
  apply Meets.ite
  · exact fun _ => Meets.throw _ h
  · exact fun _ => Meets.pure trivial

theorem UserPasswdCommand.parseArguments_meets (args : List Bytes) (h : Host) :
    Meets Host.Reads (fun _ _ => True) (UserPasswdCommand.parseArguments args) h := by
  unfold UserPasswdCommand.parseArguments
  split
  · exact Meets.pure trivial
  · exact Meets.throw _ h

theorem UserRemoveCommand.parseArguments_meets (args : List Bytes) (h : Host) :
    Meets Host.Reads (fun _ _ => True) (UserRemoveCommand.parseArguments args) h := by
  unfold UserRemoveCommand.parseArguments
  split
  · exact Meets.pure trivial
  · exact Meets.throw _ h

namespace UserCommand

variable {setting : Setting} {subcommand : Bytes}

theorem executeSubcommand_meets (ht : ∀ u ∈ t.users, u.perms.OfLetters) (h : Host) :
    Meets Host.Reads (fun _ t' => Called setting.hash h t t') (executeSubcommand setting t subcommand args) h := by
  apply Meets.ite
  · intro _
    apply (UserAddCommand.parseArguments_meets args h).bind
    intro h₁ _ hr _
    exact (UserAddCommand.execute_meets setting.hash t h₁).imp fun _ _ _ => .of_reads hr
  intro _
  apply Meets.ite
  · intro _
    apply (UserPasswdCommand.parseArguments_meets args h).bind
    intro h₁ username hr _
    exact (UserPasswdCommand.execute_meets setting.hash t username h₁).imp fun _ _ _ => .of_reads hr
  intro _
  apply Meets.ite
  · intro _
    apply (ofExcept_meets _ h).bind
    rintro h₁ ⟨username, flags⟩ hr hargs
    exact (UserPermsCommand.execute_meets setting.hash ht hargs h₁).imp fun _ _ _ => .of_reads hr
  intro _
  apply Meets.ite
  · intro _
    apply (UserRemoveCommand.parseArguments_meets args h).bind
    intro h₁ username hr _
    exact (UserRemoveCommand.execute_meets setting.hash t username h₁).imp fun _ _ _ => .of_reads hr
  · exact fun _ => Meets.throw _ h

theorem parseArguments_meets (args : List Bytes) (h : Host) :
    Meets Host.Reads (fun _ parsed => parsed.1 = directory setting args) (parseArguments setting args) h := by
  match args with
  | [] => exact Meets.throw _ h
  | [arg] => exact Meets.pure rfl
  | [arg, dir] => exact Meets.pure rfl
  | arg :: dir :: subcommand :: subcommandArgs =>
    apply Meets.ite
    · intro hflag
      exact Meets.pure (if_pos hflag).symm
    · intro hflag
      exact Meets.pure (if_neg hflag).symm

theorem loadUserTable_meets (path : Path) (h : Host) :
    Meets Host.Reads (fun _ users => ∃ t, UserTable.fetchTable setting.library h.fs
        (setting.currentPath / (path / ⟨ascii ".tds/users"⟩)) = .ok t ∧
        users = { t with usersFile := path / ⟨ascii ".tds/users"⟩ }) (loadUserTable setting path) h := by
  apply (Tds.fsExists_meets _ _ h).bind
  rintro h₁ found - ⟨rfl, -⟩
  apply Meets.ite
  · exact fun _ => Meets.throw _ h₁
  · intro _
    apply Meets.bind_get
    apply (ofExcept_meets _ h₁).bind
    intro h₂ t _ ht
    exact Meets.pure ⟨t, ht, rfl⟩

/-- What precedes the writing of the file. -/
def edited (setting : Setting) (args : List Bytes) : Tds UserTable := do
  let (dir, subcommand, subcommandArgs) ← parseArguments setting args
  let users ← loadUserTable setting dir
  executeSubcommand setting users subcommand subcommandArgs

theorem run_eq (args : List Bytes) : run setting args = edited setting args >>= commitTable setting := by
  simp only [run, edited, bind_assoc]

theorem edited_meets (args : List Bytes) (h : Host) :
    Meets Host.Reads (fun _ users => ∃ t t', UserTable.fetchTable setting.library h.fs (usersFile setting args) = .ok t ∧
      Called setting.hash h t t' ∧ users = { t' with usersFile := directory setting args / ⟨ascii ".tds/users"⟩ })
      (edited setting args) h := by
  apply (parseArguments_meets args h).bind
  rintro h₁ ⟨dir, subcommand, subcommandArgs⟩ hr₁ hdir
  obtain rfl : dir = directory setting args := hdir
  apply (loadUserTable_meets _ h₁).bind
  rintro h₂ users hr₂ ⟨t, ht, husers⟩
  have hperms : ∀ u ∈ users.users, u.perms.OfLetters := by
    rw [husers]
    intro u hu
    exact UserTable.fetchTable_perms ht u hu
  have hsub : Meets Host.Reads (fun _ t' => Called setting.hash h₂ users t') (executeSubcommand setting users subcommand subcommandArgs) h₂ :=
    executeSubcommand_meets hperms h₂
  apply hsub.imp
  intro h₃ users' hr₃ hcalled
  rw [hr₁.fs] at ht
  have hreads : Host.Reads h h₂ := hr₁.trans hr₂
  have hrelocated := (hcalled.of_reads hreads).relocate t.usersFile
  refine ⟨t, _, ht, husers ▸ hrelocated, ?_⟩
  have hfile : users'.usersFile = directory setting args / ⟨ascii ".tds/users"⟩ := by rw [hcalled.usersFile, husers]
  rw [← hfile]

theorem exec_commitTable (t : UserTable) (h : Host) :
    exec (commitTable setting t) h =
      match { t with usersFile := setting.currentPath / t.usersFile }.commitTable setting.library h.fs with
      | (fs, none) => (.ok (), { h with fs := fs })
      | (_, some _) => (.error (.table (.userTable (ascii "failed to open output file (" ++ quoted t.usersFile.native ++ ascii ")"))), h) := by
  have hget : exec (get : Tds Host) h = (.ok h, h) := rfl
  rw [commitTable, exec_bind, hget]
  simp only
  rcases UserTable.commitTable _ setting.library h.fs with ⟨fs, _ | e⟩ <;> rfl

/-- A command fails and leaves the file system alone, or it makes one call on the table that it finds and
writes the table that the call returns. -/
theorem run_cases (setting : Setting) (args : List Bytes) (h : Host) :
    (∃ e, (exec (run setting args) h).1 = .error e ∧ (exec (run setting args) h).2.fs = h.fs) ∨
    (exec (run setting args) h).1 = .ok () ∧
      ∃ t t', UserTable.fetchTable setting.library h.fs (usersFile setting args) = .ok t ∧ Called setting.hash h t t' ∧
        t'.commitTable setting.library h.fs = ((exec (run setting args) h).2.fs, none) := by
  obtain ⟨hreads, hresult⟩ : Meets Host.Reads _ (edited setting args) h := edited_meets args h
  rw [run_eq, exec_bind]
  rcases hx : exec (edited setting args) h with ⟨e | users, h₁⟩
  · rw [hx] at hreads
    exact .inl ⟨e, rfl, hreads.fs⟩
  · rw [hx] at hreads hresult
    obtain ⟨t, t', hfetched, hcalled, rfl⟩ := hresult users rfl
    have hfile : t'.usersFile = usersFile setting args := hcalled.usersFile.trans (UserTable.fetchTable_usersFile hfetched)
    have htable : { t' with usersFile := setting.currentPath / (directory setting args / ⟨ascii ".tds/users"⟩) } = t' := by
      rw [← usersFile, ← hfile]
    simp only [exec_commitTable]
    rw [htable, hreads.fs]
    rcases hcommit : t'.commitTable setting.library h.fs with ⟨fs', _ | e⟩
    · exact .inr ⟨rfl, t, t', hfetched, hcalled, hcommit⟩
    · exact .inl ⟨_, rfl, hreads.fs⟩

end UserCommand

section Files

variable {fs fs' : FileSystem} {lib : TomlLibrary} {file : Path}

open FileSystem

/-- A file that is written again stays where it is, and nothing else is touched. -/
theorem FileSystem.WellFormed.written (hw : fs.WellFormed) {p : Path} {i : Nat} (hsome : (fs.readFile p).isSome)
    (h : fs.openWrite p true = some (fs', i)) (b : Bytes) :
    (fs'.write i b).WellFormed ∧ (∀ q, (fs'.write i b).resolve q = fs.resolve q) ∧
      ∀ j, j ≠ p.cString.key → (fs'.write i b).view j = fs.view j := by
  obtain ⟨hw', hget, -⟩ := hw.openWrite h
  refine ⟨hw'.write i b, ?_, ?_⟩
  · rcases openWrite_some h with ⟨-, -, rfl⟩ | ⟨hnone, -⟩
    · exact fun _ => rfl
    · rw [readFile, hnone] at hsome
      cases hsome
  · intro j hj
    rw [view_write_of_ne, hw.view_openWrite h hj]
    intro hfile
    exact hj (hw'.unique _ _ _ hfile hget)

theorem readFile_congr {p : Path} (hres : fs'.resolve p = fs.resolve p)
    (hview : ∀ k, fs.resolve p = some k → fs'.view k = fs.view k) : fs'.readFile p = fs.readFile p := by
  rw [readFile, readFile, hres]
  cases hk : fs.resolve p with
  | none => rfl
  | some k =>
    apply Option.ext
    intro b
    rw [Option.bind_some, Option.bind_some, read_eq_some, read_eq_some, hview k hk]

theorem UserTable.fetchTable_congr {p q : Path} (h : fs'.readFile q = fs.readFile p) :
    fetchTable lib fs' q = (fetchTable lib fs p).map fun t => { t with usersFile := q } := by
  unfold fetchTable
  rw [h]
  split
  · rfl
  · split
    · rename_i users _
      cases users.mapM fetchOneUser <;> rfl
    · rfl

theorem UserTable.isSome_readFile (h : fetchTable lib fs file = .ok t) : (fs.readFile file).isSome := by
  unfold fetchTable at h
  cases hread : fs.readFile file with
  | none =>
    rw [hread] at h
    cases h
  | some b => rfl

/-- Committing changes the users file and leaves everything else alone. -/
theorem UserTable.commitTable_written (hw : fs.WellFormed) (hsome : (fs.readFile t.usersFile).isSome)
    (h : t.commitTable lib fs = (fs', none)) :
    fs'.WellFormed ∧ (∀ q, fs'.resolve q = fs.resolve q) ∧ ∀ j, j ≠ t.usersFile.cString.key → fs'.view j = fs.view j := by
  unfold commitTable at h
  split at h
  · cases h
  · rename_i fs₁ i hopen
    cases h
    exact hw.written hsome hopen _

end Files

/-- A table that a server can be started with, and whose strings a TOML file can hold. -/
structure UserTable.Servable (t : UserTable) : Prop where
  sound : t.Sound
  names : ∀ u ∈ t.users, UserTable.isUsernameOk u.name = true
  hashes : ∀ u ∈ t.users, Toml.IsText u.passwordHash

/-- The table is the same under another path. -/
theorem UserTable.Servable.relocate (ht : t.Servable) (file : Path) : UserTable.Servable { t with usersFile := file } :=
  ⟨⟨ht.sound.nodup, ht.sound.perms⟩, ht.names, ht.hashes⟩

end TinDox
