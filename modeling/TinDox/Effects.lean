import TinDox.CommandSpecs
import TinDox.Parsing
import TinDox.Transfers

/-! The effect of a whole request on the file system and on the session of its client, one case
for each thing a request can do. Every invariant of the server is checked against this list. -/

namespace TinDox

open PathBasedCommand

def Session.withContext (s : Session) (c : ClientContext) : Session := { s with context := c }

def Session.uploading (s : Session) (upload : UploadToken) : Session :=
  s.withContext { s.context with uploadToken := some upload, mode := .upload }

/-- The token of a resumed or new upload, and the file system it has been accepted in. -/
inductive AcceptsUpload (srv : ServerContext) (around : Surroundings) (fs : FileSystem) (c : ClientContext)
    (r : Request) : FileSystem → UploadToken → Prop
  | fresh {name cur : Path} {size : Nat} {token : AuthToken}
      (parsed : Ul.parseFields r.fields = .ok (.ul name size false)) (current : c.currentPathLock = some cur)
      (user : c.authToken = some token) (accepted : srv.uploadFile around fs (cur / name) size = .ok ⟨cur / name, size, 0, []⟩) :
      AcceptsUpload srv around fs c r fs ⟨cur / name, size, 0, token.username⟩
  | resumed {name : Path} {size : Nat} {token : AuthToken} {path : Bytes} {sz off : Int}
      {fs' : FileSystem} {removed : Bool}
      (parsed : Ul.parseFields r.fields = .ok (.ul name size true)) (user : c.authToken = some token)
      (backup : Ul.parseBackup srv fs token.username = some ⟨some path, some sz, some off⟩)
      (taken : fs.remove (srv.getBackupFilePath token.username) = .ok (fs', removed))
      (accepted : srv.uploadFile around fs' ⟨path⟩ (toUnsigned sz) = .ok ⟨⟨path⟩, toUnsigned sz, 0, []⟩) :
      AcceptsUpload srv around fs c r fs' ⟨⟨path⟩, toUnsigned sz, toUnsigned off, token.username⟩

/-- The requests that end a connection: `exit`, `bye`, and the third failed `auth` in a row. -/
def Kills (srv : ServerContext) (around : Surroundings) (c : ClientContext) (r : Request) : Prop :=
  r.name = ascii "exit" ∨ r.name = ascii "bye" ∨
  r.name = ascii "auth" ∧ c.countFailedAuth.getAuthTryCount = Auth.maxTryCount ∧
    ∃ username password e, Auth.parseFields r.fields = .ok (.auth username password) ∧
      srv.authorizeUser around username password = .error (.protocol e) ∧ e.code = .invalidCredentials

/-- The requests that never return: a `cp` whose renaming loop does not end. -/
def Hangs (srv : ServerContext) (fs : FileSystem) (c : ClientContext) (r : Request) : Prop :=
  r.name = ascii "cp" ∧ ∃ path name, TransportCommand.parseFields srv fs c r.fields = .ok (path, name) ∧
    Cp.newPath fs path name = none

inductive Effect (srv : ServerContext) (around : Surroundings) (fs : FileSystem) (s : Session) (r : Request) :
    FileSystem → Session → Prop
  | none : Effect srv around fs s r fs s
  | flags (alive stuck : Bool) (count : BitVec 7) (cause : alive = s.context.alive ∨ Kills srv around s.context r)
      (hangs : stuck = s.context.stuck ∨ stuck = true ∧ Hangs srv fs s.context r) :
      Effect srv around fs s r fs
        (s.withContext { s.context with alive := alive, stuck := stuck, authTryCount := count })
  | login {token : AuthToken} {lock : Option Path} (loggedOut : s.context.authToken = Option.none)
      (authorized : ∃ username password, srv.authorizeUser around username password = .ok token)
      (locked : lock = s.context.currentPathLock ∨
        lock = some srv.root.path ∧ srv.isValidToLock fs srv.root.path = true) :
      Effect srv around fs s r fs (s.withContext
        { s.context with authToken := some token, authTryCount := 0, currentPathLock := lock })
  | logout : Effect srv around fs s r fs (s.withContext s.context.logout)
  | cd {path : Path} (command : r.name = ascii "cd") (parsed : parseFields srv fs s.context r.fields = .ok (some path)) :
      Effect srv around fs s r fs (s.withContext { s.context with currentPathLock := some path })
  | cp {path name cur new : Path} {fs' : FileSystem} (current : s.context.currentPathLock = some cur)
      (command : r.name = ascii "cp")
      (parsed : TransportCommand.parseFields srv fs s.context r.fields = .ok (path, name))
      (chosen : Cp.newPath fs path name = some (.ok new)) (copied : fs.copyFile (cur / name) new = .ok fs') :
      Effect srv around fs s r fs' s
  | mkdir {name cur : Path} {fs' : FileSystem} (current : s.context.currentPathLock = some cur)
      (command : r.name = ascii "mkdir")
      (parsed : parseSingleName r.fields = .ok name) (free : fs.pathExists (cur / name) = false)
      (made : fs.createDirectory (cur / name) = .ok fs') : Effect srv around fs s r fs' s
  | mv {path name cur : Path} {fs' : FileSystem} (current : s.context.currentPathLock = some cur)
      (command : r.name = ascii "mv")
      (parsed : TransportCommand.parseFields srv fs s.context r.fields = .ok (path, name))
      (notLocked : around.NotLocked (cur / name)) (free : fs.pathExists (path / name) = false)
      (renamed : fs.rename (cur / name) (path / name) = .ok fs') : Effect srv around fs s r fs' s
  | rename {oname nname cur : Path} {fs' : FileSystem} (current : s.context.currentPathLock = some cur)
      (command : r.name = ascii "rename")
      (parsed : Rename.parseFields r.fields = .ok (.rename oname nname))
      (notLocked : around.NotLocked (cur / oname)) (free : fs.pathExists (cur / nname) = false)
      (renamed : fs.rename (cur / oname) (cur / nname) = .ok fs') : Effect srv around fs s r fs' s
  | rm {name cur : Path} (current : s.context.currentPathLock = some cur) (command : r.name = ascii "rm")
      (parsed : parseSingleName r.fields = .ok name)
      (notLocked : around.NotLocked (cur / name)) :
      Effect srv around fs s r (fs.removeAll (cur / name)).1 s
  | dl {name cur : Path} {token : DownloadToken} {offset : Nat} (current : s.context.currentPathLock = some cur)
      (command : r.name = ascii "dl")
      (parsed : Dl.parseFields fs s.context r.fields = .ok (.dl name offset))
      (accepted : srv.downloadFile fs (cur / name) = .ok token) (inside : offset ≤ token.size) :
      Effect srv around fs s r fs
        (s.withContext { s.context with downloadToken := some { token with offset := offset } })
  | dls {token : DownloadToken} (pending : s.context.downloadToken = some token) :
      Effect srv around fs s r fs
        ⟨{ s.context with downloadToken := Option.none, mode := .download },
          (s.downloadManager.startDownload fs token).1, s.uploadManager⟩
  | unbacked {name : Path} {size : Nat} {token : AuthToken} {fs' : FileSystem} {removed : Bool}
      (parsed : Ul.parseFields r.fields = .ok (.ul name size true)) (user : s.context.authToken = some token)
      (taken : fs.remove (srv.getBackupFilePath token.username) = .ok (fs', removed)) :
      Effect srv around fs s r fs' s
  | ul {fs' : FileSystem} {upload : UploadToken} (command : r.name = ascii "ul")
      (accepted : AcceptsUpload srv around fs s.context r fs' upload) :
      Effect srv around fs s r (s.uploadManager.startUpload srv fs' upload).1
        ⟨{ s.context with uploadToken := Option.none, mode := .upload }, s.downloadManager,
          (s.uploadManager.startUpload srv fs' upload).2.1⟩

variable {srv : ServerContext} {around : Surroundings} {fs : FileSystem} {s : Session} {r : Request}

theorem AcceptsUpload.bounded {c : ClientContext} {r : Request} {upload : UploadToken}
    {fs' : FileSystem}
    (h : AcceptsUpload srv around fs c r fs' upload) : upload.size < 2 ^ 64 ∧ upload.offset < 2 ^ 64 := by
  cases h with
  | fresh parsed current user accepted =>
    obtain ⟨-, -, -, -, hsize, -⟩ := ServerContext.uploadFile_ok accepted
    have hmax := srv.uploadMaxSize_lt
    exact ⟨by simp only; omega, by simp⟩
  | resumed => exact ⟨toUnsigned_lt _, toUnsigned_lt _⟩

theorem refused_effect (w : World) (e : Exception)
    (h : Effect srv around fs s r w.fs (s.withContext w.client)) :
    Effect srv around fs s r (Session.refused w.fs (s.withContext w.client) r e).fs
      (Session.refused w.fs (s.withContext w.client) r e).session := by
  cases e <;> exact h

theorem accepted_effect (w : World) (answer : Answer) (hm : w.client.mode = .command)
    (h : Effect srv around fs s r w.fs (s.withContext w.client)) :
    Effect srv around fs s r (Session.accepted srv w.fs (s.withContext w.client) answer).fs
      (Session.accepted srv w.fs (s.withContext w.client) answer).session := by
  have hm' : (s.withContext w.client).context.mode = .command := hm
  rw [Session.accepted, hm']
  exact h

theorem uploading_effect {fs' : FileSystem} {upload : UploadToken} (hname : r.name = ascii "ul")
    (h : AcceptsUpload srv around fs s.context r fs' upload) (answer : Answer) :
    Effect srv around fs s r (Session.accepted srv fs' (s.uploading upload) answer).fs
      (Session.accepted srv fs' (s.uploading upload) answer).session := by
  have hm : (s.uploading upload).context.mode = .upload := rfl
  obtain ⟨hfs, hs⟩ := @Session.startUpload_eq srv fs' (s.uploading upload) upload rfl answer
  rw [Session.accepted, hm]
  simp only
  rw [hfs, hs]
  exact .ul hname h

/-- What `execute_command` makes of the result of a command. -/
def Session.concluded (srv : ServerContext) (s : Session) (r : Request) : World × Outcome → Executed
  | (w, .error e) => refused w.fs { s with context := w.client } r e
  | (w, .ok lines) => accepted srv w.fs { s with context := w.client } ⟨.ok, r.name, lines⟩

/-- A command with this result has one of the effects. -/
def Concludes (srv : ServerContext) (around : Surroundings) (fs : FileSystem) (s : Session) (r : Request)
    (result : World × Outcome) : Prop :=
  Effect srv around fs s r (s.concluded srv r result).fs (s.concluded srv r result).session

namespace Concludes

variable {result : World × Outcome} {command : Command}

/-- As long as the mode is kept it does not matter what the command returns or throws. -/
theorem of_world {w : World} (hw : result.1 = w) (h : Effect srv around fs s r w.fs (s.withContext w.client))
    (hmode : w.client.mode = .command) : Concludes srv around fs s r result := by
  obtain ⟨w', out⟩ := result
  obtain rfl : w' = w := hw
  cases out with
  | error e => exact refused_effect w' e h
  | ok lines => exact accepted_effect w' _ hmode h

theorem unchanged (hm : s.context.mode = .command) (hw : result.1 = ⟨fs, s.context⟩) :
    Concludes srv around fs s r result :=
  of_world hw .none hm

section Commands

variable (hm : s.context.mode = .command)
include hm

theorem auth {u p : Bytes} (hname : r.name = ascii "auth") (hparse : Auth.parseFields r.fields = .ok (.auth u p)) :
    Concludes srv around fs s r (Auth.execute srv around ⟨fs, s.context⟩ u p) := by
  rcases Auth.execute_cases srv around ⟨fs, s.context⟩ u p with
    ⟨e, -, ⟨alive, count, hw⟩, hcause⟩ | ⟨token, hauth, hnone, h | ⟨hv, h⟩⟩
  · refine of_world hw (.flags alive _ count ?_ (.inl rfl)) hm
    rw [hw] at hcause
    rcases hcause with h | ⟨hcount, e', he', hcode⟩
    · exact .inl h
    · exact .inr (.inr (.inr ⟨hname, hcount, u, p, e', hparse, he', hcode⟩))
  · exact of_world (congrArg Prod.fst h) (.login hnone ⟨u, p, hauth⟩ (.inl rfl)) hm
  · exact of_world (congrArg Prod.fst h) (.login hnone ⟨u, p, hauth⟩ (.inr ⟨rfl, hv⟩)) hm

theorem cd {path : Path} (hname : r.name = ascii "cd") (hparse : Cd.parseFields srv fs s.context r.fields = .ok (.cd path)) :
    Concludes srv around fs s r (Cd.execute srv ⟨fs, s.context⟩ path) := by
  simp only [Cd.parseFields, bind_eq_ok] at hparse
  obtain ⟨p, hp, p', hreq, he⟩ := hparse
  rcases Cd.execute_cases srv ⟨fs, s.context⟩ path with h | ⟨-, h⟩
  · exact unchanged hm (congrArg Prod.fst h)
  · refine of_world (congrArg Prod.fst h) (.cd hname ?_) hm
    cases p with
    | none => simp [require] at hreq
    | some p =>
      simp only [require, Except.ok.injEq] at hreq he
      cases he
      rw [hp, hreq]

theorem cp {path name : Path} (hname : r.name = ascii "cp")
    (hparse : TransportCommand.parseFields srv fs s.context r.fields = .ok (path, name)) :
    Concludes srv around fs s r (Cp.execute srv ⟨fs, s.context⟩ path name) := by
  rcases Cp.execute_cases srv ⟨fs, s.context⟩ path name with ⟨e, h⟩ | ⟨hnone, h⟩ | ⟨cur, new, fs', hc, hnew, hcopy, h⟩
  · exact unchanged hm (congrArg Prod.fst h)
  · exact of_world (congrArg Prod.fst h) (.flags _ true _ (.inl rfl) (.inr ⟨rfl, hname, path, name, hparse, hnone⟩)) hm
  · exact of_world (congrArg Prod.fst h) (.cp hc hname hparse hnew hcopy) hm

theorem dl {name : Path} {offset : Nat} (hname : r.name = ascii "dl")
    (hparse : Dl.parseFields fs s.context r.fields = .ok (.dl name offset)) :
    Concludes srv around fs s r (Dl.execute srv ⟨fs, s.context⟩ name offset) := by
  rcases Dl.execute_cases srv ⟨fs, s.context⟩ name offset with ⟨e, h⟩ | ⟨cur, token, hc, hd, ho, h⟩
  · exact unchanged hm (congrArg Prod.fst h)
  · exact of_world (congrArg Prod.fst h) (.dl hc hname hparse hd ho) hm

/-- Download mode is entered, and the download is started. -/
theorem dls : Concludes srv around fs s r (Dls.execute ⟨fs, s.context⟩) := by
  rcases Dls.execute_cases ⟨fs, s.context⟩ with ⟨e, h⟩ | ⟨hd, h⟩
  · exact unchanged hm (congrArg Prod.fst h)
  · obtain ⟨token, ht⟩ := Option.isSome_iff_exists.mp hd
    have ht' : (s.withContext (s.context.setMode .download)).context.downloadToken = some token := ht
    have hstarted : Effect srv around fs s r fs
        (Session.startDownload fs (s.withContext (s.context.setMode .download))).session := by
      rw [Session.startDownload_session ht']
      exact .dls ht
    rw [Concludes, h]
    simpa [Session.concluded, Session.accepted, Session.withContext, ClientContext.setMode] using hstarted

theorem mkdir {name : Path} (hname : r.name = ascii "mkdir") (hparse : parseSingleName r.fields = .ok name) :
    Concludes srv around fs s r (Mkdir.execute ⟨fs, s.context⟩ name) := by
  rcases Mkdir.execute_cases ⟨fs, s.context⟩ name with ⟨e, h⟩ | ⟨cur, fs', hc, hfree, hmade, h⟩
  · exact unchanged hm (congrArg Prod.fst h)
  · exact of_world (congrArg Prod.fst h) (.mkdir hc hname hparse hfree hmade) hm

theorem mv {path name : Path} (hname : r.name = ascii "mv")
    (hparse : TransportCommand.parseFields srv fs s.context r.fields = .ok (path, name)) :
    Concludes srv around fs s r (Mv.execute srv around ⟨fs, s.context⟩ path name) := by
  rcases Mv.execute_cases srv around ⟨fs, s.context⟩ path name with ⟨e, h⟩ | ⟨cur, fs', hc, hl, hf, hr, h⟩
  · exact unchanged hm (congrArg Prod.fst h)
  · exact of_world (congrArg Prod.fst h) (.mv hc hname hparse hl hf hr) hm

theorem rename {oname nname : Path} (hname : r.name = ascii "rename")
    (hparse : Rename.parseFields r.fields = .ok (.rename oname nname)) :
    Concludes srv around fs s r (Rename.execute around ⟨fs, s.context⟩ oname nname) := by
  rcases Rename.execute_cases around ⟨fs, s.context⟩ oname nname with
    ⟨e, h⟩ | ⟨cur, hc, -, hl, ⟨-, h⟩ | ⟨fs', hf, hr, h⟩⟩
  · exact unchanged hm (congrArg Prod.fst h)
  · exact unchanged hm (congrArg Prod.fst h)
  · exact of_world (congrArg Prod.fst h) (.rename hc hname hparse hl hf hr) hm

theorem rm {name : Path} (hname : r.name = ascii "rm") (hparse : parseSingleName r.fields = .ok name) :
    Concludes srv around fs s r (Rm.execute around ⟨fs, s.context⟩ name) := by
  rcases Rm.execute_cases around ⟨fs, s.context⟩ name with ⟨e, h⟩ | ⟨cur, hc, -, hl, hw, -⟩
  · exact unchanged hm (congrArg Prod.fst h)
  · exact of_world hw (.rm hc hname hparse hl) hm

/-- An upload that is accepted is started; one that cannot be resumed has lost its backup file. -/
theorem ul {name : Path} {size : Nat} {retry : Bool} (hname : r.name = ascii "ul")
    (hparse : Ul.parseFields r.fields = .ok (.ul name size retry)) :
    Concludes srv around fs s r (Ul.execute srv around ⟨fs, s.context⟩ name size retry) := by
  rcases Ul.execute_cases srv around ⟨fs, s.context⟩ name size retry with
    ⟨e, h, -⟩ | ⟨cur, token, hc, ht, ⟨upload, rfl, hu, h⟩ | ⟨table, fs', removed, rfl, hb, hr, ⟨e, h, -⟩ | ⟨upload, hu, h⟩⟩⟩
  · exact unchanged hm (congrArg Prod.fst h)
  · rw [Concludes, h]
    obtain ⟨rfl, -⟩ := ServerContext.uploadFile_ok hu
    exact uploading_effect hname (.fresh hparse hc ht hu) _
  · exact of_world (congrArg Prod.fst h) (.unbacked hparse ht hr) hm
  · rw [Concludes, h]
    obtain ⟨path, sz, off, fresh, rfl, hup, rfl⟩ := Ul.resumeUpload_ok hu
    obtain ⟨rfl, -⟩ := ServerContext.uploadFile_ok hup
    have hoff : toUnsigned ((0 : Nat) + off) = toUnsigned off := by simp
    have haccepted := AcceptsUpload.resumed hparse ht hb hr hup
    simp only [hoff]
    exact uploading_effect hname haccepted _

theorem execute (hname : r.name = command.commandName.toBytes)
    (hparse : CommandExecutor.parseFields srv fs s.context r.fields command.commandName = .ok command) :
    Concludes srv around fs s r (CommandExecutor.execute srv around ⟨fs, s.context⟩ command) := by
  cases command with
  | auth u p => exact auth hm hname hparse
  | bye => exact of_world (w := ⟨fs, s.context.kill⟩) rfl (.flags false _ _ (.inr (.inr (.inl hname))) (.inl rfl)) hm
  | exit => exact of_world (w := ⟨fs, s.context.kill⟩) rfl (.flags false _ _ (.inr (.inl hname)) (.inl rfl)) hm
  | logout => exact of_world (w := ⟨fs, s.context.logout⟩) rfl .logout hm
  | cd path => exact cd hm hname hparse
  | cp path name =>
    simp only [Command.commandName, CommandExecutor.parseFields, map_eq_ok] at hparse
    obtain ⟨⟨p, n⟩, hp, he⟩ := hparse
    cases he
    exact cp hm hname hp
  | dl name offset => exact dl hm hname hparse
  | dls => exact dls hm
  | ls path size mod => exact unchanged hm (Ls.execute_world srv around ⟨fs, s.context⟩ path size mod)
  | tree path => exact unchanged hm (Tree.execute_world srv ⟨fs, s.context⟩ path)
  | mkdir name =>
    simp only [Command.commandName, CommandExecutor.parseFields, map_eq_ok] at hparse
    obtain ⟨n, hp, he⟩ := hparse
    cases he
    exact mkdir hm hname hp
  | mv path name =>
    simp only [Command.commandName, CommandExecutor.parseFields, map_eq_ok] at hparse
    obtain ⟨⟨p, n⟩, hp, he⟩ := hparse
    cases he
    exact mv hm hname hp
  | name | perms | pwd =>
    refine unchanged hm ?_
    simp only [CommandExecutor.execute]
    split <;> rfl
  | rename oname nname => exact rename hm hname hparse
  | rm name =>
    simp only [Command.commandName, CommandExecutor.parseFields, map_eq_ok] at hparse
    obtain ⟨n, hp, he⟩ := hparse
    cases he
    exact rm hm hname hp
  | ul name size retry => exact ul hm hname hparse

end Commands

end Concludes

theorem executeCommand_effect (srv : ServerContext) (around : Surroundings) (fs : FileSystem) (s : Session)
    (r : Request) (hm : s.context.mode = .command) :
    Effect srv around fs s r (s.executeCommand srv around fs r).fs (s.executeCommand srv around fs r).session := by
  have hself : Effect srv around fs s r fs (s.withContext s.context) := .none
  unfold Session.executeCommand
  cases hset : CommandExecutor.setCommand s.context r.name with
  | error e => exact refused_effect ⟨fs, s.context⟩ e hself
  | ok n =>
    have hname := (CommandExecutor.setCommand_ok hset).1
    simp only
    cases hparse : CommandExecutor.parseFields srv fs s.context r.fields n with
    | error e => exact refused_effect ⟨fs, s.context⟩ e hself
    | ok command =>
      obtain rfl := CommandExecutor.parseFields_commandName hparse
      exact Concludes.execute hm hname hparse

end TinDox
