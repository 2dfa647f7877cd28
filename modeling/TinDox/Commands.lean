import TinDox.Contexts

/-! The eighteen commands: their names and requirements, and how their fields are parsed. -/

namespace TinDox

inductive CommandName where
  | auth
  | bye
  | cd
  | cp
  | dl
  | dls
  | exit
  | logout
  | ls
  | mkdir
  | mv
  | name
  | perms
  | pwd
  | rename
  | rm
  | tree
  | ul
  deriving DecidableEq

namespace CommandName

def toBytes : CommandName → Bytes
  | auth => ascii "auth"
  | bye => ascii "bye"
  | cd => ascii "cd"
  | cp => ascii "cp"
  | dl => ascii "dl"
  | dls => ascii "dls"
  | exit => ascii "exit"
  | logout => ascii "logout"
  | ls => ascii "ls"
  | mkdir => ascii "mkdir"
  | mv => ascii "mv"
  | name => ascii "name"
  | perms => ascii "perms"
  | pwd => ascii "pwd"
  | rename => ascii "rename"
  | rm => ascii "rm"
  | tree => ascii "tree"
  | ul => ascii "ul"

/-- The order of `DefaultCommandExecutor`. -/
def all : List CommandName :=
  [auth, bye, cd, cp, dl, dls, exit, logout, ls, mkdir, mv, name, perms, pwd, rename, rm, tree, ul]

def ofBytes (b : Bytes) : Option CommandName := all.find? (fun c => c.toBytes = b)

def requiredPerms : CommandName → Permissions
  | cp => .copy
  | dl | dls => .download
  | mkdir | rename | rm => .write
  | mv => .move
  | ul => .upload
  | _ => .none

def requiresAuthorization : CommandName → Bool
  | auth | bye | exit => false
  | _ => true

end CommandName

/-- A command with its parsed fields. -/
inductive Command where
  | auth (username password : Bytes)
  | bye
  | cd (path : Path)
  | cp (path name : Path)
  | dl (name : Path) (offset : Nat)
  | dls
  | exit
  | logout
  | ls (path : Option Path) (returnSize returnMod : Bool)
  | mkdir (name : Path)
  | mv (path name : Path)
  | name
  | perms
  | pwd
  | rename (oname nname : Path)
  | rm (name : Path)
  | tree (path : Option Path)
  | ul (name : Path) (size : Nat) (retry : Bool)
  deriving DecidableEq

/-- A string field that must not be set twice. -/
def parseString (fieldName : Bytes) (current : Option Bytes) (field : Field) : Except Exception Bytes :=
  if current.isSome then .error (refuseWith .badField (fieldName ++ ascii " was already set"))
  else
    match field.getString with
    | some value => .ok value
    | none => .error (refuseWith .invalidFieldValue (fieldName ++ ascii " field has invalid value type"))

/-- A field that has to be a plain name; the commands differ in two of the texts. -/
def parseNameField (fieldName typeHint noun : Bytes) (current : Option Path) (field : Field) :
    Except Exception Path :=
  if current.isSome then .error (refuseWith .badField (fieldName ++ ascii " was already set"))
  else
    match field.getString with
    | none =>
      .error (refuseWith .invalidFieldValue (fieldName ++ ascii " field has invalid value type" ++ typeHint))
    | some value =>
      let nameAsPath : Path := ⟨value⟩
      if ¬ nameAsPath.equal nameAsPath.filename then
        .error (refuseWith .invalidFieldValue (fieldName ++ ascii " must be just a " ++ noun))
      else .ok nameAsPath

def parseBoolean (fieldName : Bytes) (field : Field) : Except Exception Bool :=
  match field.getBoolean with
  | some b => .ok b
  | none =>
    .error (refuseWith .invalidFieldValue
      (fieldName ++ ascii " field has invalid value type (should be boolean)"))

def parseInteger (fieldName : Bytes) (field : Field) : Except Exception Nat :=
  match field.getInteger with
  | some n => .ok n
  | none =>
    .error (refuseWith .invalidFieldValue (fieldName ++ ascii " has invalid value type (should be integer)"))

def require {α : Type} (value : Option α) (message : Bytes) : Except Exception α :=
  match value with
  | some x => .ok x
  | none => .error (refuseWith .badField message)

def findField (fields : List Field) (name : Bytes) : Option Field := fields.find? (fun f => f.name = name)

/-- The current directory; there is none to read before the first successful `auth`. -/
def getCurrentPath (c : ClientContext) : Except Exception Path :=
  match c.currentPathLock with
  | some p => .ok p
  | none => .error .fatal

/-- A name field of `dl`, `cp` and `mv`, which has to exist in the current directory. -/
def parseExistingName (fs : FileSystem) (c : ClientContext) (current : Option Path) (field : Field) :
    Except Exception Path := do
  let name ← parseNameField (ascii "name") [] (ascii "name") current field
  let cur ← getCurrentPath c
  let found ← fs.fsExists (cur / name)
  if ¬ found then
    .error (refuseWith .notFound (ascii "file " ++ quoted name.native ++ ascii " does not exist"))
  else .ok name

namespace PathBasedCommand

/-- The path a request denotes: an absolute one is glued to the root, a relative one is
normalised and replaced by the root when it does not begin like it. -/
def finalPath (srv : ServerContext) (c : ClientContext) (requestedPath : Path) : Except Exception Path :=
  if requestedPath.isAbsolute then .ok (srv.root.path.concat requestedPath)
  else do
    let cur ← getCurrentPath c
    let finalPath := (cur / requestedPath).lexicallyNormal
    .ok (if ¬ finalPath.startsWith srv.root.path then srv.root.path else finalPath)

/-- Whether the client may know that there is something at the path. -/
def isThere (srv : ServerContext) (fs : FileSystem) (path : Path) : Except Exception Bool := do
  let forbidden ← srv.isPathForbidden path
  if forbidden then .ok false else fs.fsExists path

def parsePath (srv : ServerContext) (fs : FileSystem) (c : ClientContext) (field : Field) :
    Except Exception Path :=
  match field.getString with
  | none =>
    .error (refuseWith .invalidFieldValue (ascii "path field has invalid value type (should be string)"))
  | some value => do
    let finalPath ← finalPath srv c ⟨value⟩
    let found ← isThere srv fs finalPath
    if ¬ found then
      .error (refuseWith .notFound (ascii "directory '" ++ value ++ ascii "' does not exist"))
    else if ¬ fs.isDirectory finalPath then
      .error (refuseWith .notADirectory (value ++ ascii " is not a directory"))
    else .ok finalPath

/-- Only the first `path` field is looked at. -/
def parseFields (srv : ServerContext) (fs : FileSystem) (c : ClientContext) (fields : List Field) :
    Except Exception (Option Path) :=
  match findField fields (ascii "path") with
  | none => .ok none
  | some field => (parsePath srv fs c field).map some

end PathBasedCommand

namespace TransportCommand

def parseFields (srv : ServerContext) (fs : FileSystem) (c : ClientContext) (fields : List Field) :
    Except Exception (Path × Path) := do
  let path ← PathBasedCommand.parseFields srv fs c fields
  let name ← match findField fields (ascii "name") with
    | none => .ok none
    | some field => (parseExistingName fs c none field).map some
  let name ← require name (ascii "name field is missing")
  let path ← require path (ascii "transport commands require path field")
  .ok (path, name)

end TransportCommand

namespace Auth

def parseFields (fields : List Field) : Except Exception Command := do
  let (username, password) ← fields.foldlM (fun (username, password) field =>
    if field.name = ascii "login" then do
      let login ← parseString (ascii "login") username field
      .ok (some login, password)
    else if field.name = ascii "passwd" then do
      let passwd ← parseString (ascii "passwd") password field
      .ok (username, some passwd)
    else .ok (username, password)) ((none, none) : Option Bytes × Option Bytes)
  let username ← require username (ascii "login field is missing")
  let password ← require password (ascii "passwd field is missing")
  .ok (.auth username password)

end Auth

namespace Cd

def parseFields (srv : ServerContext) (fs : FileSystem) (c : ClientContext) (fields : List Field) :
    Except Exception Command := do
  let path ← PathBasedCommand.parseFields srv fs c fields
  let path ← require path (ascii "cd requires path field")
  .ok (.cd path)

end Cd

namespace Dl

def parseFields (fs : FileSystem) (c : ClientContext) (fields : List Field) : Except Exception Command := do
  let (name, offset) ← fields.foldlM (fun (name, offset) field =>
    if field.name = ascii "name" then do
      let name ← parseExistingName fs c name field
      .ok (some name, offset)
    else if field.name = ascii "offset" then do
      let offset ← parseInteger (ascii "offset") field
      .ok (name, offset)
    else .ok (name, offset)) ((none, 0) : Option Path × Nat)
  let name ← require name (ascii "dl requires name field")
  .ok (.dl name offset)

end Dl

namespace Ls

def parseFields (srv : ServerContext) (fs : FileSystem) (c : ClientContext) (fields : List Field) :
    Except Exception Command := do
  let path ← PathBasedCommand.parseFields srv fs c fields
  let (returnSize, returnMod) ← fields.foldlM (fun (returnSize, returnMod) field =>
    if field.name = ascii "size" then do
      let size ← parseBoolean (ascii "size") field
      .ok (size, returnMod)
    else if field.name = ascii "mod" then do
      let mod ← parseBoolean (ascii "mod") field
      .ok (returnSize, mod)
    else .ok (returnSize, returnMod)) (false, false)
  .ok (.ls path returnSize returnMod)

end Ls

/-- The fields of `mkdir` and `rm`. -/
def parseSingleName (fields : List Field) : Except Exception Path := do
  let name ← fields.foldlM (fun name field =>
    if field.name = ascii "name" then
      (parseNameField (ascii "name") [] (ascii "name") name field).map some
    else .ok name) none
  require name (ascii "name field is missing")

namespace Rename

def parseFields (fields : List Field) : Except Exception Command := do
  let (oname, nname) ← fields.foldlM (fun (oname, nname) field =>
    if field.name = ascii "oname" then do
      let name ← parseNameField (ascii "oname") [] (ascii "file name") oname field
      .ok (some name, nname)
    else if field.name = ascii "nname" then do
      let name ← parseNameField (ascii "nname") [] (ascii "file name") nname field
      .ok (oname, some name)
    else .ok (oname, nname)) ((none, none) : Option Path × Option Path)
  let oname ← require oname (ascii "oname field is missing")
  let nname ← require nname (ascii "nname field is missing")
  .ok (.rename oname nname)

end Rename

namespace Ul

/-- The fields of `ul` as they are read one by one; `retry` starts as false because a command
is value-initialised. -/
structure Fields where
  name : Option Path
  size : Option Nat
  retry : Bool
  deriving DecidableEq

def parseField (parsed : Fields) (field : Field) : Except Exception Fields :=
  if field.name = ascii "name" then do
    let name ← parseNameField (ascii "name") (ascii " (should be string)") (ascii "name") parsed.name field
    .ok { parsed with name := some name }
  else if field.name = ascii "size" then do
    let size ← parseInteger (ascii "size") field
    .ok { parsed with size := some size }
  else if field.name = ascii "retry" then do
    let retry ← parseBoolean (ascii "retry") field
    .ok { parsed with retry := retry }
  else .ok parsed

def parseFields (fields : List Field) : Except Exception Command := do
  let parsed ← fields.foldlM parseField ⟨none, none, false⟩
  let name ← require parsed.name (ascii "name field is missing")
  let size ← require parsed.size (ascii "size field is missing")
  .ok (.ul name size parsed.retry)

end Ul

namespace CommandExecutor

/-- `set_command`: the command has to be known, and allowed for the client. -/
def setCommand (c : ClientContext) (commandName : Bytes) : Except Exception CommandName :=
  match CommandName.ofBytes commandName with
  | none =>
    .error (refuseWith .badCommand (ascii "No such command '" ++ commandName.takeWhile (· ≠ 0) ++ ascii "'"))
  | some command =>
    if command.requiresAuthorization ∧ ¬ c.isAuthorized then .error (refuse .notLoggedIn)
    else
      match c.authToken with
      | none => .ok command
      | some token =>
        if command.requiredPerms &&& token.perms ≠ command.requiredPerms then
          .error (refuse .notEnoughPerms)
        else .ok command

def parseFields (srv : ServerContext) (fs : FileSystem) (c : ClientContext) (fields : List Field) :
    CommandName → Except Exception Command
  | .auth => Auth.parseFields fields
  | .bye => .ok .bye
  | .cd => Cd.parseFields srv fs c fields
  | .cp => (TransportCommand.parseFields srv fs c fields).map (fun p => .cp p.1 p.2)
  | .dl => Dl.parseFields fs c fields
  | .dls => .ok .dls
  | .exit => .ok .exit
  | .logout => .ok .logout
  | .ls => Ls.parseFields srv fs c fields
  | .mkdir => (parseSingleName fields).map .mkdir
  | .mv => (TransportCommand.parseFields srv fs c fields).map (fun p => .mv p.1 p.2)
  | .name => .ok .name
  | .perms => .ok .perms
  | .pwd => .ok .pwd
  | .rename => Rename.parseFields fields
  | .rm => (parseSingleName fields).map .rm
  | .tree => (PathBasedCommand.parseFields srv fs c fields).map .tree
  | .ul => Ul.parseFields fields

end CommandExecutor

end TinDox
