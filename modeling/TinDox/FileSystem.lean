import TinDox.DirTree
import TinDox.Path

/-! The file system the server works on: a directory tree without links, with file contents
kept by inode so that an open file survives the moves of its directory entry. The operations
are those of `std::filesystem` and of file streams, with the outcome of the POSIX call behind
each of them. Names are byte strings of limited length, paths are of any length. -/

namespace TinDox

open Lexical DirTree

abbrev Key := List Bytes

inductive Errno where
  | eexist
  | eopnotsupp
  | enoent
  | enotdir
  | eisdir
  | einval
  | ebusy
  | enotempty
  | enametoolong
  deriving DecidableEq

def Errno.value : Errno → Nat
  | eexist => 17
  | eopnotsupp => 95
  | enoent => 2
  | enotdir => 20
  | eisdir => 21
  | einval => 22
  | ebusy => 16
  | enotempty => 39
  | enametoolong => 36

/-- The length of the longest name, `NAME_MAX`. -/
def nameMax : Nat := 255

structure FileSystem where
  tree : Table Bytes Nat
  data : List Bytes
  deriving DecidableEq

namespace Path

/-- What a system call sees of a path: the bytes before the first NUL. -/
def cString (p : Path) : Path := ⟨p.native.takeWhile (· ≠ 0)⟩

def endsInSlash (p : Path) : Bool := p.native.getLast? == some slash

/-- The parts before the last one that is not empty, and that part. -/
def leaf (p : Path) : Option (List (Component Bytes) × Bytes) :=
  let ps := p.parts.rdropWhile (· = [])
  ps.getLast?.map (fun last => (ps.dropLast.map classify, last))

end Path

namespace FileSystem

def get (fs : FileSystem) (k : Key) : Option (Node Nat) := DirTree.get fs.tree k

def contents (fs : FileSystem) (i : Nat) : Bytes := fs.data.getD i []

def read (fs : FileSystem) (k : Key) : Option Bytes :=
  match fs.get k with
  | some (.file i) => some (fs.contents i)
  | _ => none

/-- The location the kernel finds for a path, if all of it is there. -/
def resolve (fs : FileSystem) (p : Path) : Option Key :=
  if p.isAbsolute then walk fs.tree [] p.cString.components else none

/-- The location a call that creates, moves or removes an entry works on: the last part has to
be a name and the parts before it have to lead to a directory. -/
def locate (fs : FileSystem) (p : Path) : Except Errno Key :=
  match p.cString.leaf with
  | none => .error .ebusy
  | some (dirs, last) =>
    if ¬ IsName last then .error .ebusy
    else if ¬ p.isAbsolute then .error .enoent
    else
      match walk fs.tree [] dirs with
      | none => .error .enoent
      | some d =>
        if fs.get d ≠ some .dir then .error .enotdir
        else if nameMax < last.length then .error .enametoolong
        else .ok (d ++ [last])

def pathExists (fs : FileSystem) (p : Path) : Bool := (fs.resolve p).isSome

/-- Whether a look-up fails for a name that is too long: nothing before it is missing, and nothing
is a file. -/
def tooLong (fs : FileSystem) (p : Path) : Bool :=
  p.isAbsolute && comesTo fs.tree (fun n => nameMax < n.length) [] p.cString.components

def status (fs : FileSystem) (p : Path) : Option (Node Nat) := (fs.resolve p).bind fs.get

def isDirectory (fs : FileSystem) (p : Path) : Bool := fs.status p == some .dir

def isRegularFile (fs : FileSystem) (p : Path) : Bool :=
  match fs.status p with
  | some (.file _) => true
  | _ => false

def readFile (fs : FileSystem) (p : Path) : Option Bytes := (fs.resolve p).bind fs.read

/-- What a directory iterator reports for a path, in the order of the table. -/
def entries (fs : FileSystem) (p : Path) : List Bytes :=
  match fs.resolve p with
  | some k => children fs.tree k
  | none => []

def insert (fs : FileSystem) (k : Key) (x : Node Nat) : FileSystem :=
  { fs with tree := DirTree.insert fs.tree k x }

def create (fs : FileSystem) (k : Key) (b : Bytes) : FileSystem :=
  { tree := DirTree.insert fs.tree k (.file fs.data.length), data := fs.data ++ [b] }

/-- `create_directory`, which reports no error when the directory is already there. -/
def createDirectory (fs : FileSystem) (p : Path) : Except Errno FileSystem :=
  match fs.locate p with
  | .error e => .error e
  | .ok k =>
    match fs.get k with
    | none => .ok (fs.insert k .dir)
    | some .dir => .ok fs
    | some (.file _) => .error .eexist

def rename (fs : FileSystem) (old new : Path) : Except Errno FileSystem :=
  match fs.locate old, fs.locate new with
  | .error e, _ => .error e
  | _, .error e => .error e
  | .ok o, .ok n =>
    match fs.get o with
    | none => .error .enoent
    | some x =>
      if x ≠ .dir ∧ (old.cString.endsInSlash ∨ new.cString.endsInSlash) then .error .enotdir
      else if o = n then .ok fs
      else if o <+: n then .error .einval
      else
        match fs.get n, x with
        | none, _ => .ok { fs with tree := graft fs.tree o n }
        | some .dir, .file _ => .error .eisdir
        | some (.file _), .dir => .error .enotdir
        | some (.file _), .file _ => .ok { fs with tree := graft (prune fs.tree n) o n }
        | some .dir, .dir =>
          if children fs.tree n = [] then .ok { fs with tree := graft (prune fs.tree n) o n }
          else .error .enotempty

/-- `copy_file` without options, which takes regular files only. -/
def copyFile (fs : FileSystem) (src dst : Path) : Except Errno FileSystem :=
  match fs.status src with
  | none => .error .enoent
  | some .dir => .error .einval
  | some (.file i) =>
    match fs.locate dst with
    | .error e => .error e
    | .ok n =>
      if (fs.get n).isSome then .error .eexist
      else if dst.cString.endsInSlash then .error .eisdir
      else .ok (fs.create n (fs.contents i))

/-- `remove`: whether there was an entry to remove. -/
def remove (fs : FileSystem) (p : Path) : Except Errno (FileSystem × Bool) :=
  match fs.resolve p with
  | none => .ok (fs, false)
  | some _ =>
    match fs.locate p with
    | .error e => .error e
    | .ok k =>
      if children fs.tree k = [] then .ok ({ fs with tree := prune fs.tree k }, true)
      else .error .enotempty

/-- `remove_all`: the entries below the path go first, then the path itself. The call throws
when that last step fails, after the entries below are gone. -/
def removeAll (fs : FileSystem) (p : Path) : FileSystem × Except Errno Nat :=
  match fs.resolve p with
  | none => (fs, .ok 0)
  | some k =>
    let cleared : FileSystem := { fs with tree := clear fs.tree k }
    let count := fs.tree.length - cleared.tree.length
    match cleared.remove p with
    | .ok (fs', removed) => (fs', .ok (count + removed.toNat))
    | .error e => (cleared, .error e)

/-- A stream opened for writing, by the inode it writes to; `none` when opening fails. -/
def openWrite (fs : FileSystem) (p : Path) (trunc : Bool) : Option (FileSystem × Nat) :=
  match fs.resolve p with
  | some k =>
    match fs.get k with
    | some (.file i) => some (if trunc then { fs with data := fs.data.set i [] } else fs, i)
    | _ => none
  | none =>
    match fs.locate p with
    | .error _ => none
    | .ok k => if p.cString.endsInSlash then none else some (fs.create k [], fs.data.length)

/-- Bytes handed to a stream count as written, also those that it keeps in its buffer until it is
closed. -/
def write (fs : FileSystem) (i : Nat) (b : Bytes) : FileSystem :=
  { fs with data := fs.data.modify i (· ++ b) }

/-- What the disk may hold while a stream writes to an inode: the end of the file can still be in
the buffer of the stream. -/
structure OnDisk (stream : Option Nat) (fs disk : FileSystem) : Prop where
  tree : disk.tree = fs.tree
  inodes : disk.data.length = fs.data.length
  written : ∀ i, disk.contents i <+: fs.contents i
  others : ∀ i, some i ≠ stream → disk.contents i = fs.contents i

/-- A name that an entry can have: a system call reads no further than a NUL. -/
def IsEntryName (n : Bytes) : Prop := IsName n ∧ (0 : Byte) ∉ n ∧ n.length ≤ nameMax

instance (n : Bytes) : Decidable (IsEntryName n) := inferInstanceAs (Decidable (_ ∧ _))

/-- What every state the server reaches keeps: entries stand in directories under proper names,
and no two entries share an inode. -/
structure WellFormed (fs : FileSystem) : Prop where
  closed : Closed fs.tree
  names : ∀ k, (fs.get k).isSome → ∀ n ∈ k, IsEntryName n
  inodes : ∀ k i, fs.get k = some (.file i) → i < fs.data.length
  unique : ∀ j k i, fs.get j = some (.file i) → fs.get k = some (.file i) → j = k

end FileSystem

end TinDox
