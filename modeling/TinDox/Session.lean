import TinDox.Execution

/-! What a connection holds besides its buffers: the client context and the two transfer
managers. `Client::execute_command` and the steps of a transfer work on it. -/

namespace TinDox

structure DownloadManager where
  token : Option DownloadToken
  file : Option Nat
  offset : Nat
  fileSize : Nat
  deriving DecidableEq

namespace DownloadManager

def new : DownloadManager := ⟨none, none, 0, 0⟩

def hasFinished (m : DownloadManager) : Bool := m.token.isNone

/-- `start_download`; a file that cannot be opened throws. An empty file is not opened at all. -/
def startDownload (fs : FileSystem) (m : DownloadManager) (token : DownloadToken) :
    DownloadManager × Except Exception Unit :=
  if token.size > 0 then
    match fs.status token.path with
    | some (.file i) => (⟨some token, some i, token.offset, token.size⟩, .ok ())
    | some .dir => (⟨some token, none, token.offset, token.size⟩, .ok ())
    | none => ({ m with token := some token }, .error .fatal)
  else (m, .ok ())

/-- `send`, when the socket takes up to `room` bytes: what it takes, from the file as it is now.
The byte count that was asked for, cut to an `int`, is what `transfer_bytes` reports. -/
def send (fs : FileSystem) (m : DownloadManager) (room : Nat) :
    DownloadManager × Bytes × Except Exception Unit :=
  if m.hasFinished then (m, [], .ok ())
  else
    let count := m.fileSize - m.offset
    let content := match m.file with
      | some i => fs.contents i
      | none => []
    let sent := (content.drop m.offset).take (min room count)
    let m' := { m with offset := m.offset + sent.length }
    if count % 2 ^ 32 = 2 ^ 32 - 1 then (m', sent, .error .fatal)
    else if sent = [] then (m', sent, .error .fatal)
    else if m'.fileSize - m'.offset = 0 then ({ m' with token := none, file := none }, sent, .ok ())
    else (m', sent, .ok ())

end DownloadManager

structure UploadManager where
  token : Option UploadToken
  partialFileName : Path
  backupFileName : Path
  file : Option Nat
  deriving DecidableEq

namespace UploadManager

def new : UploadManager := ⟨none, ⟨[]⟩, ⟨[]⟩, none⟩

def hasFinished (m : UploadManager) : Bool := m.token.isNone

/-- `start_upload`. The partial file is truncated unless the upload is resumed behind its
first byte; a stream that is open already cannot be opened again. -/
def startUpload (srv : ServerContext) (fs : FileSystem) (m : UploadManager) (token : UploadToken) :
    FileSystem × UploadManager × Except Exception Unit :=
  let m := { m with
    token := some token
    partialFileName := srv.getPartialFilePath token.temporaryFilenameStem }
  match m.file, fs.openWrite m.partialFileName (token.offset = 0) with
  | none, some (fs, i) =>
    let m := { m with file := some i, backupFileName := srv.getBackupFilePath token.temporaryFilenameStem }
    match fs.fsExists m.backupFileName with
    | .error e => (fs, m, .error e)
    | .ok true =>
      match fs.remove m.backupFileName with
      | .ok (fs, _) => (fs, m, .ok ())
      | .error _ => (fs, m, .error .fatal)
    | .ok false => (fs, m, .ok ())
  | _, _ => (fs, m, .error .fatal)

def getRemainingBytes (token : UploadToken) : Nat := toUnsigned (token.size - token.offset)

/-- `finish`: the stream is closed whether or not the rename succeeds. -/
def finish (fs : FileSystem) (m : UploadManager) (token : UploadToken) :
    FileSystem × UploadManager × Except Exception Unit :=
  match fs.rename m.partialFileName token.path with
  | .ok fs => (fs, { m with token := none, file := none }, .ok ())
  | .error _ => (fs, { m with token := some token, file := none }, .error .fatal)

/-- `commit_bytes`: the bytes that are left, unless it throws. -/
def commitBytes (fs : FileSystem) (m : UploadManager) (bytes : Bytes) :
    FileSystem × UploadManager × Except Exception Bytes :=
  match m.token, m.file with
  | some token, some i =>
    let byteCount := min bytes.length (getRemainingBytes token)
    let fs := fs.write i (bytes.take byteCount)
    let token := { token with offset := toUnsigned (token.offset + byteCount) }
    if token.offset = token.size then
      match finish fs m token with
      | (fs, m, .ok ()) => (fs, m, .ok (bytes.drop byteCount))
      | (fs, m, .error e) => (fs, m, .error e)
    else (fs, { m with token := some token }, .ok (bytes.drop byteCount))
  | _, _ => (fs, m, .error .fatal)

def backupText (token : UploadToken) : Bytes :=
  ascii "path = " ++ quoted token.path.native ++ ascii "\nsize = " ++ decimal token.size ++
    ascii "\noffset = " ++ decimal token.offset ++ ascii "\n"

/-- `create_backup`; a backup file that cannot be opened is not written. -/
def createBackup (fs : FileSystem) (m : UploadManager) (token : UploadToken) : FileSystem :=
  match fs.openWrite m.backupFileName true with
  | some (fs, i) => fs.write i (backupText token)
  | none => fs

/-- The destructor. -/
def destroy (fs : FileSystem) (m : UploadManager) : FileSystem :=
  match m.token with
  | some token => createBackup fs m token
  | none => fs

end UploadManager

structure Session where
  context : ClientContext
  downloadManager : DownloadManager
  uploadManager : UploadManager
  deriving DecidableEq

/-- What `execute_command` adds to the sender. -/
structure Answer where
  code : ProtocolCode
  commandName : Bytes
  lines : List Bytes
  deriving DecidableEq

def Answer.response (a : Answer) : Response := buildResponse a.code a.commandName a.lines

/-- The state after a request, its answer, and whether the handler does not come to its end: an
exception leaves it, or the command never returns. -/
structure Executed where
  fs : FileSystem
  session : Session
  answer : Option Answer
  fatal : Bool

namespace Session

def new : Session := ⟨.new, .new, .new⟩

def locks (s : Session) : List Path :=
  s.context.locks ++ (s.downloadManager.token.map (·.path)).toList ++
    (s.uploadManager.token.map (·.path)).toList

def username (s : Session) : Option Bytes := s.context.authToken.map (·.username)

/-- What an exception comes to at the end of `Client::handle`. A thread that is stuck does not. -/
def kill (s : Session) : Session := if s.context.stuck then s else { s with context := s.context.kill }

/-- An exception in `execute_command`: a `ProtocolError` is answered, any other one is not. -/
def refused (fs : FileSystem) (s : Session) (r : Request) : Exception → Executed
  | .protocol e => ⟨fs, s, some ⟨e.code, r.name, [e.what]⟩, false⟩
  | .fatal => ⟨fs, s, none, true⟩

def startDownload (fs : FileSystem) (s : Session) : Executed :=
  match s.context.downloadToken with
  | none => ⟨fs, s, none, true⟩
  | some token =>
    let s := { s with context := { s.context with downloadToken := none } }
    match s.downloadManager.startDownload fs token with
    | (m, .ok ()) => ⟨fs, { s with downloadManager := m }, none, false⟩
    | (m, .error _) => ⟨fs, { s with downloadManager := m }, none, true⟩

def startUpload (srv : ServerContext) (fs : FileSystem) (s : Session) (answer : Answer) : Executed :=
  match s.context.uploadToken with
  | none => ⟨fs, s, some answer, true⟩
  | some token =>
    let s := { s with context := { s.context with uploadToken := none } }
    match s.uploadManager.startUpload srv fs token with
    | (fs, m, .ok ()) => ⟨fs, { s with uploadManager := m }, some answer, false⟩
    | (fs, m, .error _) => ⟨fs, { s with uploadManager := m }, some answer, true⟩

/-- What follows a command that did not throw, by the mode it leaves. -/
def accepted (srv : ServerContext) (fs : FileSystem) (s : Session) (answer : Answer) : Executed :=
  match s.context.mode with
  | .download => startDownload fs s
  | .upload => startUpload srv fs s answer
  | .command => ⟨fs, s, some answer, false⟩

def executeCommand (srv : ServerContext) (around : Surroundings) (fs : FileSystem) (s : Session)
    (r : Request) : Executed :=
  match CommandExecutor.setCommand s.context r.name with
  | .error e => refused fs s r e
  | .ok commandName =>
    match CommandExecutor.parseFields srv fs s.context r.fields commandName with
    | .error e => refused fs s r e
    | .ok command =>
      match CommandExecutor.execute srv around ⟨fs, s.context⟩ command with
      | (w, .error e) => refused w.fs { s with context := w.client } r e
      | (w, .ok lines) => accepted srv w.fs { s with context := w.client } ⟨.ok, r.name, lines⟩

/-- `Client::handle_upload`: the input that is left, unless it throws. -/
def handleUpload (fs : FileSystem) (s : Session) (input : Bytes) :
    FileSystem × Session × Except Exception Bytes :=
  match s.uploadManager.commitBytes fs input with
  | (fs, m, .ok rest) =>
    let context := if m.hasFinished then s.context.setMode .command else s.context
    (fs, { s with uploadManager := m, context := context }, .ok rest)
  | (fs, m, .error e) => (fs, { s with uploadManager := m }, .error e)

/-- `Client::handle_download_manager_output`: what the socket has taken. -/
def handleDownloadManagerOutput (fs : FileSystem) (s : Session) (room : Nat) :
    Session × Bytes × Except Exception Unit :=
  match s.downloadManager.send fs room with
  | (m, sent, .ok ()) =>
    let context := if m.hasFinished then s.context.setMode .command else s.context
    ({ s with downloadManager := m, context := context }, sent, .ok ())
  | (m, sent, .error e) => ({ s with downloadManager := m }, sent, .error e)

theorem kill_eq (s : Session) : s.kill = { s with context := { s.context with alive := s.context.alive && s.context.stuck } } := by
  obtain ⟨⟨alive, stuck, count, mode, token, lock, download, upload⟩, downloads, uploads⟩ := s
  cases stuck <;> simp [kill, ClientContext.kill]

@[simp] theorem currentPathLock_kill (s : Session) : s.kill.context.currentPathLock = s.context.currentPathLock := by
  rw [kill_eq]

@[simp] theorem stuck_kill (s : Session) : s.kill.context.stuck = s.context.stuck := by rw [kill_eq]

@[simp] theorem mode_kill (s : Session) : s.kill.context.mode = s.context.mode := by rw [kill_eq]

@[simp] theorem downloadToken_kill (s : Session) : s.kill.context.downloadToken = s.context.downloadToken := by
  rw [kill_eq]

@[simp] theorem downloadManager_kill (s : Session) : s.kill.downloadManager = s.downloadManager := by rw [kill_eq]

@[simp] theorem uploadManager_kill (s : Session) : s.kill.uploadManager = s.uploadManager := by rw [kill_eq]

@[simp] theorem authToken_kill (s : Session) : s.kill.context.authToken = s.context.authToken := by rw [kill_eq]

@[simp] theorem locks_kill (s : Session) : s.kill.locks = s.locks := by
  rw [kill_eq]
  rfl

@[simp] theorem username_kill (s : Session) : s.kill.username = s.username := by rw [username, authToken_kill, username]

@[simp] theorem isAlive_kill (s : Session) : s.kill.context.isAlive = false := by
  rw [kill_eq]
  cases hs : s.context.stuck <;> simp [ClientContext.isAlive, hs]

@[simp] theorem startDownload_answer (fs : FileSystem) (s : Session) : (startDownload fs s).answer = none := by
  unfold startDownload
  split
  · rfl
  · dsimp only
    split <;> rfl

@[simp] theorem startDownload_fs (fs : FileSystem) (s : Session) : (startDownload fs s).fs = fs := by
  unfold startDownload
  split
  · rfl
  · dsimp only
    split <;> rfl

@[simp] theorem startUpload_answer (srv : ServerContext) (fs : FileSystem) (s : Session) (answer : Answer) :
    (startUpload srv fs s answer).answer = some answer := by
  unfold startUpload
  split
  · rfl
  · dsimp only
    split <;> rfl

theorem startDownload_session {fs : FileSystem} {s : Session} {token : DownloadToken}
    (h : s.context.downloadToken = some token) :
    (startDownload fs s).session =
      { s with
        context := { s.context with downloadToken := none }
        downloadManager := (s.downloadManager.startDownload fs token).1 } := by
  simp only [startDownload, h]
  rcases s.downloadManager.startDownload fs token with ⟨m, e | u⟩ <;> rfl

theorem startUpload_eq {srv : ServerContext} {fs : FileSystem} {s : Session} {token : UploadToken}
    (h : s.context.uploadToken = some token) (answer : Answer) :
    (startUpload srv fs s answer).fs = (s.uploadManager.startUpload srv fs token).1 ∧
    (startUpload srv fs s answer).session =
      { s with
        context := { s.context with uploadToken := none }
        uploadManager := (s.uploadManager.startUpload srv fs token).2.1 } := by
  simp only [startUpload, h]
  rcases s.uploadManager.startUpload srv fs token with ⟨fs', m, e | u⟩ <;> exact ⟨rfl, rfl⟩

theorem handleUpload_eq_ok {fs fs' : FileSystem} {s s' : Session} {input rest : Bytes}
    (h : s.handleUpload fs input = (fs', s', .ok rest)) :
    ∃ m, s.uploadManager.commitBytes fs input = (fs', m, .ok rest) ∧
      s' = { s with
        uploadManager := m, context := if m.hasFinished then s.context.setMode .command else s.context } := by
  unfold handleUpload at h
  rcases hc : s.uploadManager.commitBytes fs input with ⟨fs₁, m, e | rest₁⟩
  · simp [hc] at h
  · simp only [hc] at h
    cases h
    exact ⟨m, rfl, rfl⟩

theorem handleUpload_cases {fs fs' : FileSystem} {s s' : Session} {input : Bytes}
    {result : Except Exception Bytes} (h : s.handleUpload fs input = (fs', s', result)) :
    fs' = (s.uploadManager.commitBytes fs input).1 ∧
    ∃ mode, s' =
      { s with
        context := s.context.setMode mode
        uploadManager := (s.uploadManager.commitBytes fs input).2.1 } := by
  unfold handleUpload at h
  rcases hc : s.uploadManager.commitBytes fs input with ⟨fs₁, m, e | rest⟩
  · simp only [hc, Prod.mk.injEq] at h
    obtain ⟨rfl, rfl, -⟩ := h
    exact ⟨rfl, s.context.mode, rfl⟩
  · simp only [hc, Prod.mk.injEq] at h
    obtain ⟨rfl, rfl, -⟩ := h
    by_cases hf : m.hasFinished = true
    · exact ⟨rfl, .command, by simp [hf]⟩
    · exact ⟨rfl, s.context.mode, by simp [hf, ClientContext.setMode]⟩

theorem handleDownloadManagerOutput_cases {fs : FileSystem} {s s' : Session} {room : Nat} {sent : Bytes}
    {result : Except Exception Unit} (h : s.handleDownloadManagerOutput fs room = (s', sent, result)) :
    ∃ mode, s' =
      { s with
        context := s.context.setMode mode
        downloadManager := (s.downloadManager.send fs room).1 } := by
  unfold handleDownloadManagerOutput at h
  rcases hc : s.downloadManager.send fs room with ⟨m, sent', e | u⟩
  · simp only [hc, Prod.mk.injEq] at h
    obtain ⟨rfl, -⟩ := h
    exact ⟨s.context.mode, rfl⟩
  · simp only [hc, Prod.mk.injEq] at h
    obtain ⟨rfl, -⟩ := h
    by_cases hf : m.hasFinished = true
    · exact ⟨.command, by simp [hf]⟩
    · exact ⟨s.context.mode, by simp [hf, ClientContext.setMode]⟩

end Session

/-! A small server for concrete runs: root `/r`, a user `u` with all permissions, and a parser
that knows one backup text. -/

namespace Sample

def interrupted : UploadToken := ⟨⟨ascii "/r/x"⟩, 5, 2, ascii "u"⟩

def server : ServerContext where
  root := ⟨[ascii "r"], by decide, by decide⟩
  uploadMaxSize := 100
  uploadMaxSize_lt := by decide
  users := [⟨ascii "u", ascii "pw", 62⟩, ⟨ascii "v", ascii "pw", 62⟩]
  usernamesOk := by decide
  hash := id
  parse b :=
    if b = UploadManager.backupText interrupted then some ⟨some (ascii "/r/x"), some 5, some 2⟩ else none

def around : Surroundings := ⟨[], [], 1000, fun _ => []⟩

def tds : Key := [ascii "r", ascii ".tds"]

def tree (entries : List (Key × DirTree.Node Nat)) : DirTree.Table Bytes Nat :=
  [([ascii "r"], .dir), (tds, .dir)] ++ entries

def session : Session :=
  ⟨{ ClientContext.new with
      authToken := some ⟨ascii "u", 62⟩
      currentPathLock := some ⟨ascii "/r"⟩ }, .new, .new⟩

def string (name value : String) : Field := ⟨ascii name, .string (ascii value)⟩

def auth (username : String) : Request := ⟨ascii "auth", [string "login" username, string "passwd" "pw"]⟩

example : (Session.new.executeCommand server around ⟨tree [], []⟩ (auth "u")).session = session := by
  decide

end Sample

end TinDox
