import TinDox.ConfigReader
import TinDox.UserCommand

/-! `tds init` and `tds run`: a server directory is made, and a server is started in one. -/

namespace TinDox

open Stateful Tds

def Permissions.all : Permissions := write ||| copy ||| move ||| download ||| upload

/-- The program and the machine that it runs on. -/
structure Program where
  library : TomlLibrary
  parseConfig : Bytes → Option ConfigReader.Section
  hash : Bytes → Bytes
  hardwareConcurrency : Int

namespace Program

variable (program : Program)

def defaultConfigFile : Bytes :=
  let config := ServerConfig.defaults program.hardwareConcurrency
  ascii "[server]\nmax_thread_count = " ++ integerText config.maxThreadCount ++
    ascii "\nmax_user_count = " ++ integerText config.maxUserCount ++ ascii "\nbacklog = " ++ integerText config.backlog ++
    ascii "\nport = " ++ integerText config.port ++ ascii "\nupload_max_size = " ++ integerText config.uploadMaxSize ++ [newline]

/-- Who the default users file is about. -/
def admin : UserData := ⟨ascii "admin", program.hash (ascii "admin"), .all⟩

def defaultUsersFile : Bytes :=
  ascii "[[users]]\n" ++ ascii "name = \"admin\"\n" ++ ascii "passwd = \"" ++ program.hash (ascii "admin") ++
    ascii "\"\nperms = \"" ++ Permissions.toBytes .all ++ ascii "\"\n"

end Program

namespace InitCommand

variable (program : Program) (currentPath : Path)

def parseArguments : List Bytes → Tds Path
  | [] => pure currentPath
  | [location] => do
    let found ← fsExists currentPath ⟨location⟩
    if ¬ found then
      throw (.invalidExecution (ascii "location " ++ quoted location ++ ascii " does not exist"))
    else pure ⟨location⟩
  | _ => throw (invalidArguments (ascii "invalid argument") (ascii "tds init [<location>]"))

def createConfigDirectory (location : Path) : Tds Path := do
  let h ← get
  match h.fs.resolveFrom currentPath location with
  | none => throw (.filesystem (if location.native = [] then .einval else .enoent))
  | some k =>
    let configName := Path.ofKey k / ⟨ascii ".tds"⟩
    let found ← fsExists currentPath configName
    if found then
      throw (.invalidExecution (ascii "tds config already exists in " ++ quoted location.native))
    else
      match h.fs.createDirectory configName with
      | .error e => throw (.filesystem e)
      | .ok fs => do
        set { h with fs := fs }
        pure configName

/-- `create_default_config` and `create_default_users`. -/
def createDefault (what text : Bytes) (location : Path) : Tds Unit := do
  let fileName := location / ⟨what⟩
  let h ← get
  match h.fs.openWrite fileName true with
  | none => throw (.invalidExecution (ascii "failed to create " ++ what ++ ascii " file (" ++ quoted fileName.native ++ ascii ")"))
  | some (fs, i) => set { h with fs := fs.write i text }

def createDefaultConfig (location : Path) : Tds Unit := createDefault (ascii "config") program.defaultConfigFile location

def createDefaultUsers (location : Path) : Tds Unit := createDefault (ascii "users") program.defaultUsersFile location

/-- `parse_arguments` and `execute`. -/
def run (args : List Bytes) : Tds Unit := do
  let location ← parseArguments currentPath args
  let location ← createConfigDirectory currentPath location
  createDefaultConfig program location
  createDefaultUsers program location

end InitCommand

namespace RunCommand

structure Options where
  port : Option Nat
  configDirectory : Option Path
  debugMode : Bool

def portArgumentTip : Bytes := ascii "tds run --port <16 bit unsigned integer>"

def configDirectoryArgumentTip : Bytes := ascii "tds run --dir <path to instance>"

/-- `std::from_chars` on all of the argument. -/
def parsePort (arg : Bytes) : Tds Nat :=
  if arg ≠ [] ∧ arg.all isDigit = true ∧ digitsValue arg < 2 ^ 16 ∧ digitsValue arg ≠ 0 then pure (digitsValue arg)
  else throw (invalidArguments (ascii "invalid --port value") portArgumentTip)

variable (program : Program) (currentPath : Path)

def parseConfigDirectoryPath (arg : Bytes) : Tds Path := do
  let tdsConfig : Path := ⟨arg⟩ / ⟨ascii ".tds"⟩
  let found ← fsExists currentPath tdsConfig
  if ¬ found then
    throw (.invalidExecution (quoted tdsConfig.native ++ ascii " is not valid tds config directory"))
  else
    let h ← get
    match h.fs.resolveFrom currentPath ⟨arg⟩ with
    | none => throw (.filesystem (if arg = [] then .einval else .enoent))
    | some k => pure (Path.ofKey k)

def parseArguments (options : Options) : List Bytes → Tds Options
  | [] => pure options
  | arg :: args =>
    if arg = ascii "--port" ∨ arg = ascii "-p" then
      match args with
      | [] => throw (invalidArguments (ascii "--port (-p) expects port as argument") portArgumentTip)
      | value :: args => do
        let port ← parsePort value
        parseArguments { options with port := some port } args
    else if arg = ascii "--dir" ∨ arg = ascii "-d" then
      match args with
      | [] => throw (invalidArguments (ascii "--dir (-d) expects valid path as argument") configDirectoryArgumentTip)
      | value :: args => do
        let configDirectory ← parseConfigDirectoryPath currentPath value
        parseArguments { options with configDirectory := some configDirectory } args
    else if arg = ascii "--debug" then parseArguments { options with debugMode := true } args
    else throw (invalidArguments arg (ascii "tds run"))

/-- What a server is started with. -/
structure Launch where
  root : Path
  config : ServerConfig
  users : UserTable
  debugMode : Bool

def prepareConfigDirectory (options : Options) : Tds Path :=
  match options.configDirectory with
  | some root => pure root
  | none => parseConfigDirectoryPath currentPath currentPath.native

def readConfig (root : Path) : Tds ServerConfig := do
  let h ← get
  match (h.fs.readFile (root / ⟨ascii ".tds/config"⟩)).bind program.parseConfig with
  | none => throw (.table .toml)
  | some read =>
    match ConfigReader.readConfig program.hardwareConcurrency read with
    | .error what => throw (.runtime what)
    | .ok config => pure config

def overwritePortIfPossible (options : Options) (config : ServerConfig) : Tds ServerConfig :=
  match options.port with
  | none => pure config
  | some port =>
    match config.setPort port with
    | .error what => throw (.runtime what)
    | .ok config => pure config

/-- The server's context opens the users file. -/
def execute (options : Options) : Tds Launch := do
  let root ← prepareConfigDirectory currentPath options
  let config ← readConfig program root
  let config ← overwritePortIfPossible options config
  let h ← get
  let users ← ofExcept (UserTable.fetchTable program.library h.fs (root / ⟨ascii ".tds"⟩ / ⟨ascii "users"⟩))
  pure ⟨root, config, users, options.debugMode⟩

def run (args : List Bytes) : Tds Launch := do
  let options ← parseArguments currentPath ⟨none, none, false⟩ args
  execute program currentPath options

end RunCommand

end TinDox
