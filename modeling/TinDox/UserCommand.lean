import TinDox.Passwords
import TinDox.Terminal

/-! `tds user`: a command that changes the accounts of a server directory. It reads the users file, makes
one call on the table, and writes the file again. -/

namespace TinDox

open Stateful

variable {hash : Bytes → Bytes} {users : UserTable} {username : Bytes} {args : List Bytes} {h : Host}

namespace Tds

/-- A call that throws leaves a table that is not used any more. -/
def ofTable : UserTable × Option UserTableException → Tds UserTable
  | (users, none) => pure users
  | (_, some e) => throw (.table e)

def ofExcept {α : Type} : Except UserTableException α → Tds α
  | .ok a => pure a
  | .error e => throw (.table e)

end Tds

open Tds

namespace UserAddCommand

def parseArguments (args : List Bytes) : Tds Unit :=
  if args.length ≠ 0 then throw (invalidArguments (ascii "user add command does not take any arguments") (ascii "tds user add"))
  else pure ()

def readUsername : Tds Bytes :=
  readLine (ascii "Enter username: ") (ascii "Invalid username - use letters or numbers only. Try again: ") []
    UserTable.isUsernameOk

def checkUsernameUniqueness (users : UserTable) (username : Bytes) : Tds Unit :=
  if users.hasUser username then
    throw (.invalidExecution (ascii "user named '" ++ username ++ ascii "' already exists"))
  else pure ()

def readPassword : Tds Bytes :=
  readLine (ascii "Enter password: ") (ascii "Password is too long, try something shorter: ") [newline] UserTable.isPasswordOk

def readRepeatedPassword (password : Bytes) : Tds Bytes :=
  readLine (ascii "Repeat password: ") (ascii "Passwords don't match. Try again: ") [newline] fun repeated => repeated = password

def execute (hash : Bytes → Bytes) (users : UserTable) : Tds UserTable := do
  let username ← readUsername
  checkUsernameUniqueness users username
  let password ← readPassword
  let _ ← readRepeatedPassword password
  pure (users.addUser hash username password)

end UserAddCommand

namespace UserPasswdCommand

def parseArguments : List Bytes → Tds Bytes
  | [username] => pure username
  | _ => throw (invalidArguments (ascii "user passwd takes username as argument") (ascii "tds user passwd <username>"))

/-- The user is there, so the call in the loop does not throw. -/
def verifies (hash : Bytes → Bytes) (users : UserTable) (username password : Bytes) : Bool :=
  match users.verifyPasswordOfUser hash username password with
  | .ok same => same
  | .error _ => false

def readOldPassword (hash : Bytes → Bytes) (users : UserTable) (username : Bytes) : Tds Bytes :=
  readLine (ascii "Enter old password: ") (ascii "Wrong password, try again: ") [newline] (verifies hash users username)

def readNewPassword : Tds Bytes :=
  readLine (ascii "Enter new password: ") (ascii "New password is too long, try something shorter: ") [newline]
    UserTable.isPasswordOk

def readNewPasswordRepeated (password : Bytes) : Tds Bytes :=
  readLine (ascii "Repeat new password: ") (ascii "Passwords don't match. Try again: ") [newline]
    fun repeated => repeated = password

def execute (hash : Bytes → Bytes) (users : UserTable) (username : Bytes) : Tds UserTable := do
  let _ ← ofExcept (users.getUser username)
  let _ ← readOldPassword hash users username
  let password ← readNewPassword
  let _ ← readNewPasswordRepeated password
  ofTable (users.setPasswordOfUser hash username password)

end UserPasswdCommand

namespace UserPermsCommand

def execute (users : UserTable) (username : Bytes) (flags : UserTable.PermsFlags) : Tds UserTable := do
  let users ← ofTable (users.executePerms username flags)
  print (ascii "Changed permissions for " ++ username ++ [newline])
  pure users

end UserPermsCommand

namespace UserRemoveCommand

def parseArguments : List Bytes → Tds Bytes
  | [username] => pure username
  | _ => throw (invalidArguments (ascii "user remove takes username as argument") (ascii "tds user remove <username>"))

def execute (users : UserTable) (username : Bytes) : Tds UserTable := ofTable (users.removeUser username)

end UserRemoveCommand

namespace UserCommand

/-- The library and the hash that the program is built with, and the directory that it is started in. -/
structure Setting where
  library : TomlLibrary
  hash : Bytes → Bytes
  currentPath : Path

variable (setting : Setting)

/-- The path is kept as it is given, and looked up from the current directory. -/
def loadUserTable (path : Path) : Tds UserTable := do
  let path := path / ⟨ascii ".tds/users"⟩
  let found ← fsExists setting.currentPath path
  if ¬ found then
    throw (.invalidExecution (ascii "could not find file " ++ quoted path.native))
  else
    let h ← get
    let users ← ofExcept (UserTable.fetchTable setting.library h.fs (setting.currentPath / path))
    pure { users with usersFile := path }

def commitTable (users : UserTable) : Tds Unit := do
  let h ← get
  match { users with usersFile := setting.currentPath / users.usersFile }.commitTable setting.library h.fs with
  | (fs, none) => set { h with fs := fs }
  | (_, some _) =>
    throw (.table (.userTable (ascii "failed to open output file (" ++ quoted users.usersFile.native ++ ascii ")")))

/-- The directory, the name of the subcommand and its arguments. -/
def parseArguments : List Bytes → Tds (Path × Bytes × List Bytes)
  | [] =>
    throw (invalidArguments (ascii "tds user takes at least one argument") (ascii "tds user <add|passwd|remove|perms>"))
  | arg :: args =>
    match args with
    | dir :: subcommand :: subcommandArgs =>
      if arg = ascii "-d" ∨ arg = ascii "--dir" then pure (⟨dir⟩, subcommand, subcommandArgs)
      else pure (setting.currentPath, arg, args)
    | _ => pure (setting.currentPath, arg, args)

def executeSubcommand (users : UserTable) (subcommand : Bytes) (args : List Bytes) : Tds UserTable :=
  if subcommand = ascii "add" then do
    UserAddCommand.parseArguments args
    UserAddCommand.execute setting.hash users
  else if subcommand = ascii "passwd" then do
    let username ← UserPasswdCommand.parseArguments args
    UserPasswdCommand.execute setting.hash users username
  else if subcommand = ascii "perms" then do
    let (username, flags) ← ofExcept (UserTable.parsePermsArguments args)
    UserPermsCommand.execute users username flags
  else if subcommand = ascii "remove" then do
    let username ← UserRemoveCommand.parseArguments args
    UserRemoveCommand.execute users username
  else throw (.noSuchCommand subcommand)

/-- The directory that the arguments name. -/
def directory : List Bytes → Path
  | arg :: dir :: _ :: _ => if arg = ascii "-d" ∨ arg = ascii "--dir" then ⟨dir⟩ else setting.currentPath
  | _ => setting.currentPath

def usersFile (args : List Bytes) : Path := setting.currentPath / (directory setting args / ⟨ascii ".tds/users"⟩)

/-- `parse_arguments` and `execute`. -/
def run (args : List Bytes) : Tds Unit := do
  let (dir, subcommand, subcommandArgs) ← parseArguments setting args
  let users ← loadUserTable setting dir
  let users ← executeSubcommand setting users subcommand subcommandArgs
  commitTable setting users

end UserCommand

end TinDox
