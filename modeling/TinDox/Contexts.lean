import TinDox.FileSystem
import TinDox.Protocol

/-! The server context and the client contexts: accounts, tokens, path locks, and the tests on
paths that every command goes through. A lock or an auth token lives as long as some client
holds it, so the live ones are given by their holders. -/

namespace TinDox

inductive ProtocolMode where
  | command
  | download
  | upload
  deriving DecidableEq

abbrev Permissions := UInt8

namespace Permissions

def none : Permissions := 0

def write : Permissions := 2

def copy : Permissions := 4

def move : Permissions := 8

def download : Permissions := 16

def upload : Permissions := 32

def toBytes (perms : Permissions) : Bytes :=
  [(write, 119), (copy, 99), (move, 109), (download, 100), (upload, 117)].filterMap
    (fun e => if perms &&& e.1 ≠ 0 then some e.2 else .none)

end Permissions

namespace UserTable

def maxUsernameLength : Nat := 40

def isUsernameOk (username : Bytes) : Bool :=
  username.length ≤ maxUsernameLength &&
    username.all (fun c => 97 ≤ c && c ≤ 122 || 65 ≤ c && c ≤ 90 || 48 ≤ c && c ≤ 57 || c == 95)

end UserTable

structure UserData where
  name : Bytes
  passwordHash : Bytes
  perms : Permissions

structure AuthToken where
  username : Bytes
  perms : Permissions
  deriving DecidableEq

structure DownloadToken where
  path : Path
  size : Nat
  offset : Nat
  deriving DecidableEq

structure UploadToken where
  path : Path
  size : Nat
  offset : Nat
  temporaryFilenameStem : Bytes
  deriving DecidableEq

/-- The attempt counter is a signed field of seven bits. `stuck` stands for the thread that serves
the client: a command that never returns keeps it for ever. -/
structure ClientContext where
  alive : Bool
  stuck : Bool
  authTryCount : BitVec 7
  mode : ProtocolMode
  authToken : Option AuthToken
  currentPathLock : Option Path
  downloadToken : Option DownloadToken
  uploadToken : Option UploadToken
  deriving DecidableEq

namespace ClientContext

def new : ClientContext := ⟨true, false, 0, .command, none, none, none, none⟩

def kill (c : ClientContext) : ClientContext := { c with alive := false }

def stick (c : ClientContext) : ClientContext := { c with stuck := true }

/-- `is_alive`. It is asked between the calls for a client, which a stuck client has no more. -/
def isAlive (c : ClientContext) : Bool := c.alive && ! c.stuck

theorem alive_of_isAlive {c : ClientContext} (h : c.isAlive = true) : c.alive = true :=
  (Bool.and_eq_true_iff.mp h).1

def setMode (c : ClientContext) (mode : ProtocolMode) : ClientContext := { c with mode := mode }

@[simp] theorem isAlive_setMode (c : ClientContext) (mode : ProtocolMode) : (c.setMode mode).isAlive = c.isAlive := rfl

@[simp] theorem mode_setMode (c : ClientContext) (mode : ProtocolMode) : (c.setMode mode).mode = mode := rfl

def isAuthorized (c : ClientContext) : Bool := c.authToken.isSome

/-- `set_auth_token` with a null pointer. -/
def countFailedAuth (c : ClientContext) : ClientContext := { c with authTryCount := c.authTryCount + 1 }

def getAuthTryCount (c : ClientContext) : Int := c.authTryCount.toInt

/-- `set_auth_token` with a token. -/
def setAuthToken (c : ClientContext) (token : AuthToken) : Except Exception ClientContext :=
  if c.isAuthorized then .error (refuse .userAlreadyLogged)
  else .ok { c with authToken := some token, authTryCount := 0 }

def logout (c : ClientContext) : ClientContext := { c with authToken := none }

def setPathLock (c : ClientContext) (lock : Path) : ClientContext := { c with currentPathLock := some lock }

def locks (c : ClientContext) : List Path :=
  c.currentPathLock.toList ++ (c.downloadToken.map (·.path)).toList ++ (c.uploadToken.map (·.path)).toList

end ClientContext

/-- A server root, as `fs::canonical` returns it: absolute, in normal form and without NUL. -/
structure Root where
  names : List Bytes
  isName : ∀ n ∈ names, IsName n
  noNul : ∀ n ∈ names, (0 : Byte) ∉ n

def Root.path (r : Root) : Path := Path.ofKey r.names

/-- What the backup file of an interrupted upload holds under the keys the server reads. -/
structure BackupTable where
  path : Option Bytes
  size : Option Int
  offset : Option Int
  deriving DecidableEq

/-- The part of the server context that does not change while the server runs. The accounts are
those that `user add` lets in. `hash` is the password hash and `parse` is the TOML parser; both are
outside of the repository. -/
structure ServerContext where
  root : Root
  uploadMaxSize : Nat
  uploadMaxSize_lt : uploadMaxSize < 2 ^ 64
  users : List UserData
  usernamesOk : ∀ u ∈ users, UserTable.isUsernameOk u.name = true
  hash : Bytes → Bytes
  parse : Bytes → Option BackupTable

/-- What a command finds around it: the live path locks and sessions of all clients, the free
space, and how the modification time of an entry is printed. -/
structure Surroundings where
  locks : List Path
  usernames : List Bytes
  available : Nat
  lastWriteTime : Path → Bytes

namespace PathLock

/-- `has_locked_path`; the caller has made sure that `path` is absolute. -/
def hasLockedPath (lock path : Path) : Bool := lock.startsWith path

end PathLock

namespace FileSystem

/-- `fs::exists`. That there is nothing is no error, that the kernel does not look is one, and it
is thrown. -/
def fsExists (fs : FileSystem) (p : Path) : Except Exception Bool :=
  if fs.tooLong p then .error .fatal else .ok (fs.pathExists p)

/-- `fs::space`, where `available` is what is free on the disk of the path. -/
def fsSpace (fs : FileSystem) (p : Path) (available : Nat) : Except Exception Nat :=
  if fs.pathExists p then .ok available else .error .fatal

theorem fsExists_eq_ok {fs : FileSystem} {p : Path} {b : Bool} :
    fs.fsExists p = .ok b ↔ fs.tooLong p = false ∧ fs.pathExists p = b := by
  unfold fsExists
  cases fs.tooLong p <;> simp

theorem fsExists_eq_error {fs : FileSystem} {p : Path} {e : Exception} :
    fs.fsExists p = .error e ↔ fs.tooLong p = true ∧ e = .fatal := by
  unfold fsExists
  cases fs.tooLong p <;> simp [eq_comm]

theorem fsSpace_error {fs : FileSystem} {p : Path} {available : Nat} {e : Exception}
    (h : fs.fsSpace p available = .error e) : e = .fatal := by
  unfold fsSpace at h
  split at h
  · cases h
  · exact (Except.error.inj h).symm

end FileSystem

def Surroundings.isPathLocked (around : Surroundings) (path : Path) : Except Exception Bool :=
  if around.locks ≠ [] ∧ ¬ path.isAbsolute then .error .fatal
  else .ok (around.locks.any (fun lock => PathLock.hasLockedPath lock path))

namespace Path

/-- `fs::weakly_canonical` on a tree without links: the elements that are there are resolved,
the rest is appended. -/
def weaklyCanonicalFrom (fs : FileSystem) : Path → List Bytes → Path
  | result, [] => ofKey result.key
  | result, e :: es =>
    if fs.pathExists (result / ⟨e⟩) then weaklyCanonicalFrom fs (result / ⟨e⟩) es
    else ((e :: es).foldl (fun p e => p / ⟨e⟩) (ofKey result.key)).lexicallyNormal

def weaklyCanonical (fs : FileSystem) (p : Path) : Path :=
  if fs.pathExists p then ofKey p.cString.key else weaklyCanonicalFrom fs ⟨[slash]⟩ (p.elements.drop 1)

/-- The common elements of two paths are cut off. -/
def mismatch : List Bytes → List Bytes → List Bytes × List Bytes
  | a :: as, b :: bs => if a = b then mismatch as bs else (a :: as, b :: bs)
  | as, bs => (as, bs)

/-- `lexically_relative` for two absolute paths. -/
def lexicallyRelative (p base : Path) : Path :=
  let (as, bs) := mismatch p.elements base.elements
  if as = [] ∧ bs = [] then ⟨ascii "."⟩
  else
    let n : Int := (bs.map (fun b : Bytes => (if b = ascii ".." then -1
      else if b = [] ∨ b = ascii "." then 0 else 1 : Int))).sum
    if n = 0 ∧ (as = [] ∨ as.head? = some []) then ⟨ascii "."⟩
    else if 0 ≤ n then
      (List.replicate n.toNat (ascii "..") ++ as).foldl (fun p e => p / ⟨e⟩) ⟨[]⟩
    else ⟨[]⟩

end Path

namespace ServerContext

variable (srv : ServerContext)

def configDirectory : Path := srv.root.path / ⟨ascii ".tds"⟩

def getRelativePathTo (fs : FileSystem) (subpath : Path) : Path :=
  let result := (subpath.weaklyCanonical fs).lexicallyRelative (srv.root.path.weaklyCanonical fs)
  let result : Path := if result.equal ⟨ascii "."⟩ then ⟨[]⟩ else result
  ⟨[slash]⟩ / result

def getUser (username : Bytes) : Option UserData := srv.users.find? (fun u => u.name = username)

def verifyPasswordOfUser (u : UserData) (password : Bytes) : Bool := srv.hash password = u.passwordHash

def authorizeUser (around : Surroundings) (username password : Bytes) : Except Exception AuthToken :=
  match srv.getUser username with
  | none => .error (refuse .invalidCredentials)
  | some u =>
    if ¬ srv.verifyPasswordOfUser u password then .error (refuse .invalidCredentials)
    else if username ∈ around.usernames then .error (refuse .userAlreadyLogged)
    else .ok ⟨username, u.perms⟩

/-- `throw_on_invalid_path`: whether the path may be locked. Either way out of `fs::exists` but the
one that finds something throws an exception of its own kind. -/
def isValidToLock (fs : FileSystem) (path : Path) : Bool :=
  path.startsWith srv.root.path && fs.pathExists path

/-- `lock_path`; the constructor of the lock also asks for an absolute path. -/
def lockPath (fs : FileSystem) (path : Path) : Except Exception Path :=
  if srv.isValidToLock fs path ∧ path.isAbsolute then .ok path else .error .fatal

def downloadFile (fs : FileSystem) (path : Path) : Except Exception DownloadToken :=
  if srv.isValidToLock fs path ∧ path.isAbsolute then
    match fs.isRegularFile path, fs.readFile path with
    | true, some b => .ok ⟨path, b.length, 0⟩
    | _, _ => .error (refuseWith .invalidFileType (ascii "invalid file (should be regular one)"))
  else .error .fatal

/-- `upload_file`. The temporary file name is set by the caller. -/
def uploadFile (around : Surroundings) (fs : FileSystem) (path : Path) (size : Nat) :
    Except Exception UploadToken :=
  if ¬ path.isAbsolute then .error (refuse .invalidFileType)
  else
    match fs.fsExists path, fs.fsExists path.parentPath, fs.fsSpace srv.root.path around.available with
    | .error e, _, _ => .error e
    | .ok true, _, _ => .error (refuse .fileAlreadyExists)
    | .ok false, .error e, _ => .error e
    | .ok false, .ok false, _ => .error (refuse .notFound)
    | .ok false, .ok true, .error e => .error e
    | .ok false, .ok true, .ok available =>
      if size > srv.uploadMaxSize ∨ size > available then .error (refuse .tooLargeFile)
      else if around.locks.any (fun lock => lock.equal path) then .error (refuse .inUse)
      else .ok ⟨path, size, 0, []⟩

def isPathForbidden (path : Path) : Except Exception Bool :=
  if ¬ path.isAbsolute then
    .error (refuseWith .unknown
      (ascii "Server context requires absolute paths. Please send this to server developer."))
  else .ok (path.startsWith srv.configDirectory)

def getPartialFilePath (stem : Bytes) : Path := srv.configDirectory / ⟨stem ++ ascii ".partial"⟩

def getBackupFilePath (stem : Bytes) : Path := srv.configDirectory / ⟨stem ++ ascii ".upload"⟩

end ServerContext

end TinDox
