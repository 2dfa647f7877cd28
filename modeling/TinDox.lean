import TinDox.Accesses
import TinDox.Accounts
import TinDox.Administration
import TinDox.AnswerCodes
import TinDox.Answers
import TinDox.Backups
import TinDox.Bookkeeping
import TinDox.Changes
import TinDox.CheckedAnalyzer
import TinDox.CheckedInterpreter
import TinDox.Children
import TinDox.Chunking
import TinDox.Client
import TinDox.ClientTransfers
import TinDox.Closing
import TinDox.Collecting
import TinDox.CommandSpecs
import TinDox.Commands
import TinDox.ConfigDirectory
import TinDox.ConfigReader
import TinDox.Confinement
import TinDox.Connection
import TinDox.Console
import TinDox.Contexts
import TinDox.Delimited
import TinDox.Descriptors
import TinDox.DesktopAnalyzer
import TinDox.DirTree
import TinDox.DownloadRetry
import TinDox.Downloads
import TinDox.Edits
import TinDox.Effects
import TinDox.Execution
import TinDox.Fallible
import TinDox.FieldGrammar
import TinDox.FieldLimit
import TinDox.FileSpecs
import TinDox.FileSystem
import TinDox.FilesEntries
import TinDox.ForbiddenPaths
import TinDox.Forest
import TinDox.Framing
import TinDox.FreshNames
import TinDox.Gate
import TinDox.Holders
import TinDox.InputLoop
import TinDox.InstanceCommands
import TinDox.Instances
import TinDox.Interpreter
import TinDox.InterpreterUse
import TinDox.Isolation
import TinDox.Killed
import TinDox.LastByte
import TinDox.Ledger
import TinDox.Lexical
import TinDox.LifeCycle
import TinDox.Listings
import TinDox.Locks
import TinDox.LoginRace
import TinDox.Logout
import TinDox.Loops
import TinDox.MachineInt
import TinDox.MkdirRace
import TinDox.Modes
import TinDox.Network
import TinDox.NewDirectories
import TinDox.Overrun
import TinDox.Ownership
import TinDox.Parsing
import TinDox.PartialFiles
import TinDox.Passwords
import TinDox.Path
import TinDox.PathLocks
import TinDox.Places
import TinDox.Plain
import TinDox.Protocol
import TinDox.Reader
import TinDox.Refinement
import TinDox.Refusal
import TinDox.RelativePaths
import TinDox.Replay
import TinDox.Replies
import TinDox.ReplyTexts
import TinDox.Reservation
import TinDox.Resumption
import TinDox.Retention
import TinDox.RoundTrip
import TinDox.Runs
import TinDox.Segments
import TinDox.SelfDelimiting
import TinDox.Sendfile
import TinDox.Server
import TinDox.Session
import TinDox.Settling
import TinDox.Simulations
import TinDox.Spelling
import TinDox.Stateful
import TinDox.Stopping
import TinDox.Storage
import TinDox.Surroundings
import TinDox.Survival
import TinDox.Terminal
import TinDox.Termination
import TinDox.Toml
import TinDox.Transfers
import TinDox.TreeListing
import TinDox.UploadRace
import TinDox.UploadRequest
import TinDox.UserCommand
import TinDox.UserTable
import TinDox.UsersFile
import TinDox.UsersToml
import TinDox.Views
import TinDox.Wakeups
import TinDox.WeakRefs
import TinDox.WeakRegistry
import TinDox.Words
import TinDox.WorkingDirectory
