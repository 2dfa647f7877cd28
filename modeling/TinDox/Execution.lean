import TinDox.Commands

/-! How the commands are executed. A command works on the file system and on the context of its
client; what it has changed before it throws stays changed. -/

namespace TinDox

open DirTree

structure World where
  fs : FileSystem
  client : ClientContext

/-- The lines a command adds to its response, or what it throws. -/
abbrev Outcome := Except Exception (List Bytes)

def Errno.toBytes (e : Errno) : Bytes := ascii "generic:" ++ decimal e.value

namespace Auth

def maxTryCount : Int := 3

def execute (srv : ServerContext) (around : Surroundings) (w : World) (username password : Bytes) :
    World × Outcome :=
  match srv.authorizeUser around username password with
  | .error (.protocol e) =>
    if e.code = .invalidCredentials then
      let client := w.client.countFailedAuth
      let client := if client.getAuthTryCount = maxTryCount then client.kill else client
      ({ w with client := client }, .error (.protocol e))
    else (w, .error (.protocol e))
  | .error .fatal => (w, .error .fatal)
  | .ok token =>
    match w.client.setAuthToken token with
    | .error e => (w, .error e)
    | .ok client =>
      match srv.lockPath w.fs srv.root.path with
      | .error e => ({ w with client := client }, .error e)
      | .ok lock => ({ w with client := client.setPathLock lock }, .ok [])

end Auth

namespace Cd

def execute (srv : ServerContext) (w : World) (path : Path) : World × Outcome :=
  match w.client.currentPathLock with
  | none => (w, .error .fatal)
  | some _ =>
    let client := { w.client with currentPathLock := some path }
    ({ w with client := client }, .ok [(srv.getRelativePathTo w.fs path).native])

end Cd

namespace Cp

def copyName (name : Path) (copyNumber : Nat) : Path :=
  ⟨name.native ++ ascii " (copy " ++ decimal copyNumber ++ ascii ")"⟩

/-- The renaming loop, given up with nothing after more tries than there are entries to take the
names: a loop that ends has ended by then. -/
def freePath (fs : FileSystem) (path name : Path) : Nat → Nat → Path → Option (Except Exception Path)
  | 0, _, _ => none
  | fuel + 1, copyNumber, newPath =>
    match fs.fsExists newPath with
    | .error e => some (.error e)
    | .ok true => freePath fs path name fuel (copyNumber + 1) (path / copyName name copyNumber)
    | .ok false => some (.ok newPath)

/-- What the loop leaves behind: nothing when it does not end. -/
def newPath (fs : FileSystem) (path name : Path) : Option (Except Exception Path) :=
  freePath fs path name (fs.tree.length + 2) 1 (path / name)

/-- A loop that does not end has no outcome; the one given for it is never looked at. -/
def execute (srv : ServerContext) (w : World) (path name : Path) : World × Outcome :=
  match w.client.currentPathLock with
  | none => (w, .error .fatal)
  | some cur =>
    match newPath w.fs path name with
    | none => ({ w with client := w.client.stick }, .error .fatal)
    | some (.error e) => (w, .error e)
    | some (.ok newPath) =>
      match w.fs.copyFile (cur / name) newPath with
      | .ok fs => ({ w with fs := fs }, .ok [])
      | .error .eexist => (w, .error (refuse .fileAlreadyExists))
      | .error .eopnotsupp =>
        (w, .error (refuseWith .invalidFileType (quoted name.native ++ ascii " is not valid file")))
      | .error e =>
        (w, .error (refuseWith .unknown (ascii "unknown filesystem error: failed to copy " ++
          quoted name.native ++ ascii " to " ++ quoted (srv.getRelativePathTo w.fs path).native ++
          ascii " (" ++ e.toBytes ++ ascii ")")))

end Cp

namespace Dl

def execute (srv : ServerContext) (w : World) (name : Path) (offset : Nat) : World × Outcome :=
  match w.client.currentPathLock with
  | none => (w, .error .fatal)
  | some cur =>
    match srv.downloadFile w.fs (cur / name) with
    | .error e => (w, .error e)
    | .ok token =>
      if offset ≤ token.size then
        ({ w with client := { w.client with downloadToken := some { token with offset := offset } } },
          .ok [decimal (token.size - offset)])
      else
        (w, .error (refuseWith .invalidFieldValue (ascii "invalid offset (greater than file size)")))

end Dl

namespace Dls

def execute (w : World) : World × Outcome :=
  if w.client.downloadToken.isSome then ({ w with client := w.client.setMode .download }, .ok [])
  else (w, .error (refuse .dlsWithoutDl))

end Dls

/-- An entry a listing visits: the name under which the iterator reports it. -/
def entryPath (directory : Path) (name : Bytes) : Path := directory / ⟨name⟩

def quotedName (name : Bytes) : Bytes := 34 :: name ++ [34]

namespace Ls

def line (around : Surroundings) (fs : FileSystem) (directory : Path) (returnSize returnMod : Bool)
    (name : Bytes) : Bytes :=
  let entry := entryPath directory name
  quotedName name ++
    (if returnSize then
      ascii " " ++ (match fs.isRegularFile entry, fs.readFile entry with
        | true, some b => decimal b.length
        | _, _ => ascii "-")
    else []) ++
    (if returnMod then ascii " " ++ quotedName (around.lastWriteTime entry) else [])

/-- The directory a listing starts in; the iterator throws when it cannot be opened. -/
def directory (w : World) (path : Option Path) : Except Exception Path :=
  match path.or w.client.currentPathLock with
  | some path => if w.fs.isDirectory path then .ok path else .error .fatal
  | none => .error .fatal

def execute (srv : ServerContext) (around : Surroundings) (w : World) (path : Option Path)
    (returnSize returnMod : Bool) : World × Outcome :=
  match directory w path with
  | .error e => (w, .error e)
  | .ok path =>
    let names := (w.fs.entries path).filter (fun n => ¬ (entryPath path n).startsWith srv.configDirectory)
    (w, .ok (names.map (line around w.fs path returnSize returnMod)))

end Ls

namespace Tree

/-- The recursive iteration: an entry, then what lies below it; `fuel` bounds the depth. -/
def lines (srv : ServerContext) (fs : FileSystem) : Nat → Nat → Path → List Bytes
  | 0, _, _ => []
  | fuel + 1, depth, directory =>
    (fs.entries directory).flatMap (fun n =>
      let entry := entryPath directory n
      if entry.startsWith srv.configDirectory then []
      else if fs.isDirectory entry then
        (List.replicate depth 32 ++ quotedName n ++
          (if fs.entries entry = [] then ascii " E" else [])) ::
          lines srv fs fuel (depth + 1) entry
      else [List.replicate depth 32 ++ quotedName n])

def execute (srv : ServerContext) (w : World) (path : Option Path) : World × Outcome :=
  match Ls.directory w path with
  | .error e => (w, .error e)
  | .ok path => (w, .ok (lines srv w.fs (w.fs.tree.length + 1) 0 path))

end Tree

namespace Mkdir

/-- `create_directory` throws when the name cannot be made. -/
def execute (w : World) (name : Path) : World × Outcome :=
  match w.client.currentPathLock with
  | none => (w, .error .fatal)
  | some cur =>
    match w.fs.fsExists (cur / name) with
    | .error e => (w, .error e)
    | .ok true => (w, .error (refuseWith .fileAlreadyExists (ascii "this directory already exists")))
    | .ok false =>
      match w.fs.createDirectory (cur / name) with
      | .ok fs => ({ w with fs := fs }, .ok [])
      | .error _ => (w, .error .fatal)

end Mkdir

/-- How `mv` and `rename` report the error of `fs::rename`. -/
def renameOutcome (w : World) (name unknown : Bytes) (result : Except Errno FileSystem) : World × Outcome :=
  match result with
  | .ok fs => ({ w with fs := fs }, .ok [])
  | .error .eexist => (w, .error (refuse .fileAlreadyExists))
  | .error .eopnotsupp =>
    (w, .error (refuseWith .invalidFileType (quoted name ++ ascii " is not valid file")))
  | .error e =>
    (w, .error (refuseWith .unknown (ascii "unknown filesystem error: failed to " ++ unknown ++
      ascii " (" ++ e.toBytes ++ ascii ")")))

namespace Mv

def execute (srv : ServerContext) (around : Surroundings) (w : World) (path name : Path) : World × Outcome :=
  match w.client.currentPathLock with
  | none => (w, .error .fatal)
  | some cur =>
    match around.isPathLocked (cur / name) with
    | .error e => (w, .error e)
    | .ok true => (w, .error (refuse .inUse))
    | .ok false =>
      match w.fs.fsExists (path / name) with
      | .error e => (w, .error e)
      | .ok true => (w, .error (refuse .fileAlreadyExists))
      | .ok false =>
        renameOutcome w name.native
          (ascii "move " ++ quoted name.native ++ ascii " to " ++
            quoted (srv.getRelativePathTo w.fs path).native)
          (w.fs.rename (cur / name) (path / name))

end Mv

namespace Rename

def execute (around : Surroundings) (w : World) (oname nname : Path) : World × Outcome :=
  match w.client.currentPathLock with
  | none => (w, .error .fatal)
  | some cur =>
    match w.fs.fsExists (cur / oname) with
    | .error e => (w, .error e)
    | .ok false => (w, .error (refuse .notFound))
    | .ok true =>
      match around.isPathLocked (cur / oname) with
      | .error e => (w, .error e)
      | .ok true => (w, .error (refuse .inUse))
      | .ok false =>
        if (cur / oname).equal (cur / nname) then (w, .ok [])
        else
          match w.fs.fsExists (cur / nname) with
          | .error e => (w, .error e)
          | .ok true => (w, .error (refuse .fileAlreadyExists))
          | .ok false =>
            renameOutcome w oname.native
              (ascii "rename " ++ quoted oname.native ++ ascii " file to " ++ quoted nname.native)
              (w.fs.rename (cur / oname) (cur / nname))

end Rename

namespace Rm

/-- `remove_all` throws after it has removed what it could. -/
def execute (around : Surroundings) (w : World) (name : Path) : World × Outcome :=
  match w.client.currentPathLock with
  | none => (w, .error .fatal)
  | some cur =>
    match w.fs.fsExists (cur / name) with
    | .error e => (w, .error e)
    | .ok false => (w, .error (refuse .notFound))
    | .ok true =>
      match around.isPathLocked (cur / name) with
      | .error e => (w, .error e)
      | .ok true => (w, .error (refuse .inUse))
      | .ok false =>
        match w.fs.removeAll (cur / name) with
        | (fs, .ok count) => ({ w with fs := fs }, .ok [decimal count])
        | (fs, .error _) => ({ w with fs := fs }, .error .fatal)

end Rm

/-- How a TOML integer becomes a size or an offset. -/
def toUnsigned (n : Int) : Nat := (n % 2 ^ 64).toNat

namespace Ul

def startNewUpload (srv : ServerContext) (around : Surroundings) (w : World) (cur name : Path) (size : Nat) :
    World × Except Exception UploadToken :=
  (w, srv.uploadFile around w.fs (cur / name) size)

/-- What the backup file of a user records; nothing when the file is missing or not TOML. -/
def parseBackup (srv : ServerContext) (fs : FileSystem) (username : Bytes) : Option BackupTable :=
  (fs.readFile (srv.getBackupFilePath username)).bind srv.parse

/-- The upload a backup table stands for. -/
def resumeUpload (srv : ServerContext) (around : Surroundings) (fs : FileSystem) (table : BackupTable) :
    Except Exception UploadToken :=
  match table.path, table.size, table.offset with
  | some path, some size, some offset =>
    match srv.uploadFile around fs ⟨path⟩ (toUnsigned size) with
    | .error e => .error e
    | .ok upload => .ok { upload with offset := toUnsigned (upload.offset + offset) }
  | _, _, _ => .error (refuse .noUploadToResume)

/-- The backup file is removed before what it says is looked at. -/
def retryUpload (srv : ServerContext) (around : Surroundings) (w : World) (token : AuthToken) :
    World × Except Exception UploadToken :=
  match parseBackup srv w.fs token.username with
  | none => (w, .error (refuse .noUploadToResume))
  | some table =>
    match w.fs.remove (srv.getBackupFilePath token.username) with
    | .error _ => (w, .error .fatal)
    | .ok (fs, _) => ({ w with fs := fs }, resumeUpload srv around fs table)

def execute (srv : ServerContext) (around : Surroundings) (w : World) (name : Path) (size : Nat)
    (retry : Bool) : World × Outcome :=
  match w.client.currentPathLock, w.client.authToken with
  | some cur, some token =>
    match if retry then retryUpload srv around w token else startNewUpload srv around w cur name size with
    | (w, .error e) => (w, .error e)
    | (w, .ok upload) =>
      let upload := { upload with temporaryFilenameStem := token.username }
      ({ w with client := { w.client with uploadToken := some upload, mode := .upload } },
        .ok [decimal upload.offset])
  | _, _ => (w, .error .fatal)

end Ul

namespace CommandExecutor

def execute (srv : ServerContext) (around : Surroundings) (w : World) : Command → World × Outcome
  | .auth username password => Auth.execute srv around w username password
  | .bye | .exit => ({ w with client := w.client.kill }, .ok [])
  | .cd path => Cd.execute srv w path
  | .cp path name => Cp.execute srv w path name
  | .dl name offset => Dl.execute srv w name offset
  | .dls => Dls.execute w
  | .logout => ({ w with client := w.client.logout }, .ok [])
  | .ls path returnSize returnMod => Ls.execute srv around w path returnSize returnMod
  | .mkdir name => Mkdir.execute w name
  | .mv path name => Mv.execute srv around w path name
  | .name =>
    match w.client.authToken with
    | some token => (w, .ok [token.username])
    | none => (w, .error .fatal)
  | .perms =>
    match w.client.authToken with
    | some token => (w, .ok [token.perms.toBytes])
    | none => (w, .error .fatal)
  | .pwd =>
    match w.client.currentPathLock with
    | some cur => (w, .ok [(srv.getRelativePathTo w.fs cur).native])
    | none => (w, .error .fatal)
  | .rename oname nname => Rename.execute around w oname nname
  | .rm name => Rm.execute around w name
  | .tree path => Tree.execute srv w path
  | .ul name size retry => Ul.execute srv around w name size retry

end CommandExecutor

end TinDox
