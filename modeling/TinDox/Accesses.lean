import TinDox.Edits
import TinDox.Plain

/-! The paths a request reaches in the file system: what it lists, reads, makes, moves, removes or
accepts for a transfer. -/

namespace TinDox

open Lexical DirTree FileSystem PathBasedCommand

namespace Tree

/-- The entries a recursive listing of a directory comes to. -/
inductive Visits (srv : ServerContext) (fs : FileSystem) : Path → Path → Prop
  | entry {directory : Path} {name : Bytes} (listed : name ∈ fs.entries directory)
      (shown : (entryPath directory name).startsWith srv.configDirectory = false) :
      Visits srv fs directory (entryPath directory name)
  | deeper {directory p : Path} {name : Bytes} (listed : name ∈ fs.entries directory)
      (shown : (entryPath directory name).startsWith srv.configDirectory = false)
      (visited : Visits srv fs (entryPath directory name) p) : Visits srv fs directory p

end Tree

inductive Access (srv : ServerContext) (around : Surroundings) (fs : FileSystem) (s : Session) (r : Request) :
    Path → Prop
  | listed {path : Option Path} {directory : Path} (command : r.name = ascii "ls" ∨ r.name = ascii "tree")
      (parsed : parseFields srv fs s.context r.fields = .ok path)
      (start : Ls.directory ⟨fs, s.context⟩ path = .ok directory) : Access srv around fs s r directory
  | entry {path : Option Path} {directory : Path} {name : Bytes} (command : r.name = ascii "ls")
      (parsed : parseFields srv fs s.context r.fields = .ok path)
      (start : Ls.directory ⟨fs, s.context⟩ path = .ok directory) (listed : name ∈ fs.entries directory)
      (shown : (entryPath directory name).startsWith srv.configDirectory = false) :
      Access srv around fs s r (entryPath directory name)
  | visited {path : Option Path} {directory p : Path} (command : r.name = ascii "tree")
      (parsed : parseFields srv fs s.context r.fields = .ok path)
      (start : Ls.directory ⟨fs, s.context⟩ path = .ok directory) (visited : Tree.Visits srv fs directory p) :
      Access srv around fs s r p
  | entered {path : Path} (command : r.name = ascii "cd")
      (parsed : parseFields srv fs s.context r.fields = .ok (some path)) : Access srv around fs s r path
  | copied {path name cur new : Path} {fs' : FileSystem} (current : s.context.currentPathLock = some cur)
      (command : r.name = ascii "cp")
      (parsed : TransportCommand.parseFields srv fs s.context r.fields = .ok (path, name))
      (chosen : Cp.newPath fs path name = some (.ok new)) (copied : fs.copyFile (cur / name) new = .ok fs') :
      Access srv around fs s r (cur / name)
  | made {p : Path} (makes : Makes srv fs s.context r p) (located : fs.locate p = .ok p.cString.key)
      (free : fs.get p.cString.key = none) : Access srv around fs s r p
  | source {old new : Path} {fs' : FileSystem} (moves : Relocates srv fs s.context r old new)
      (free : fs.pathExists new = false) (renamed : fs.rename old new = .ok fs') : Access srv around fs s r old
  | target {old new : Path} {fs' : FileSystem} (moves : Relocates srv fs s.context r old new)
      (free : fs.pathExists new = false) (renamed : fs.rename old new = .ok fs') : Access srv around fs s r new
  | removed {p : Path} (removes : Removes s.context r p) : Access srv around fs s r p
  | downloaded {name cur : Path} {token : DownloadToken} {offset : Nat}
      (current : s.context.currentPathLock = some cur) (command : r.name = ascii "dl")
      (parsed : Dl.parseFields fs s.context r.fields = .ok (.dl name offset))
      (accepted : srv.downloadFile fs (cur / name) = .ok token) : Access srv around fs s r (cur / name)
  | uploaded {fs' : FileSystem} {upload : UploadToken} (command : r.name = ascii "ul")
      (accepted : AcceptsUpload srv around fs s.context r fs' upload) : Access srv around fs s r upload.path

variable {srv : ServerContext} {fs : FileSystem} {p : Path} {n : Bytes}

theorem isEntryName_of_mem_entries (hw : fs.WellFormed) (h : n ∈ fs.entries p) : IsEntryName n := by
  unfold entries at h
  split at h
  · rename_i k hk
    exact hw.names (k ++ [n]) (mem_children h) n (by simp)
  · simp at h

theorem decimal_no_slash (k : Nat) : slash ∉ decimal k := by
  intro h
  obtain ⟨c, hc, he⟩ := List.mem_map.mp h
  have hd := Nat.isDigit_of_mem_toDigits (by omega) (by omega) hc
  simp only [Char.isDigit, Bool.and_eq_true, decide_eq_true_eq, ge_iff_le, UInt32.le_iff_toNat_le] at hd
  have hh := congrArg UInt8.toNat he
  simp only [Char.toUInt8, UInt32.toNat_toUInt8] at hh
  have h0 : '0'.val.toNat = 48 := rfl
  have h9 : '9'.val.toNat = 57 := rfl
  have hs : slash.toNat = 47 := rfl
  omega

theorem Cp.freePath_ok {path name newName new : Path} {fuel copyNumber : Nat} (hs : slash ∉ name.native)
    (hn : slash ∉ newName.native) (h : Cp.freePath fs path name fuel copyNumber (path / newName) = some (.ok new)) :
    ∃ found : Path, slash ∉ found.native ∧ new = path / found := by
  induction fuel generalizing copyNumber newName with
  | zero => simp [Cp.freePath] at h
  | succ fuel ih =>
    rw [Cp.freePath] at h
    rcases hexists : fs.fsExists (path / newName) with e | - | -
    · simp [hexists] at h
    · simp only [hexists, Option.some.injEq, Except.ok.injEq] at h
      exact ⟨newName, hn, h.symm⟩
    · simp only [hexists] at h
      refine ih ?_ h
      simp only [Cp.copyName, List.mem_append, not_or]
      exact ⟨⟨⟨hs, by decide⟩, decimal_no_slash copyNumber⟩, by decide⟩

end TinDox
