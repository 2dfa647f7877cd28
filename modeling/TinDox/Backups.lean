import TinDox.Console
import TinDox.Toml
import TinDox.Transfers
import TinDox.UploadRequest
import TinDox.Views

/-! Backups of interrupted uploads. They are written with the quotation marks of a streamed path and
read as TOML, which agree on the paths that are UTF-8 without control characters but the tab. -/

namespace TinDox

open FileSystem

/-- What `retry_upload` looks up in the table of a document. -/
def BackupTable.ofToml (values : List (Bytes × Toml.Value)) : BackupTable where
  path := (Toml.lookup (ascii "path") values).bind (·.asString)
  size := (Toml.lookup (ascii "size") values).bind (·.asInteger)
  offset := (Toml.lookup (ascii "offset") values).bind (·.asInteger)

/-- The parser of the server agrees with TOML. -/
def ServerContext.ReadsToml (srv : ServerContext) : Prop := Toml.Conforms srv.parse BackupTable.ofToml

theorem head_decimal {n : Nat} (h : 0 < n) : (decimal n).head? ≠ some 48 := by
  have hdigit : ∀ m < 10, 0 < m → (Nat.digitChar m).toUInt8 ≠ 48 := by decide
  induction n using Nat.strong_induction_on with
  | _ n ih =>
    by_cases hn : n < 10
    · rw [decimal, Nat.toDigits_of_lt_base hn]
      simpa using hdigit n hn h
    · have hsplit := Nat.toDigits_of_base_le (b := 10) (by decide) (Nat.le_of_not_lt hn)
      have hhead := ih (n / 10) (by omega) (by omega)
      have hdecimal : decimal n = decimal (n / 10) ++ [(Nat.digitChar (n % 10)).toUInt8] := by
        rw [decimal, hsplit, List.map_append]
        rfl
      rwa [hdecimal, List.head?_append_of_ne_nil _ (decimal_ne_nil _)]

theorem integer_decimal {n : Nat} (h : n < 2 ^ 63) : Toml.integer (decimal n) = some (n : Int) := by
  have hvalue : (decimal n).foldl (fun n c => n * 10 + (c.toNat - 48)) 0 = n := digitsValue_decimal n
  have hzero : ¬ ((decimal n).head? = some 48 ∧ (decimal n).length ≠ 1) := by
    rintro ⟨hhead, hlen⟩
    by_cases hn : n = 0
    · subst hn
      exact hlen rfl
    · exact head_decimal (Nat.pos_of_ne_zero hn) hhead
  rw [Toml.integer, if_neg hzero]
  simp only [hvalue, h, if_true]

namespace UploadManager

/-- The document that a backup is. -/
def backupDocument (token : UploadToken) : List Toml.Entry :=
  [(ascii "path", .basic (Toml.escape token.path.native)), (ascii "size", .digits (decimal token.size)),
    (ascii "offset", .digits (decimal token.offset))]

variable {token : UploadToken} {srv : ServerContext}

theorem backupText_eq (token : UploadToken) : backupText token = Toml.text (backupDocument token) := by
  have hkeys : ascii "path = " = ascii "path" ++ Toml.separator ∧
      ascii "\nsize = " = 10 :: ascii "size" ++ Toml.separator ∧
      ascii "\noffset = " = 10 :: ascii "offset" ++ Toml.separator ∧ ascii "\n" = [10] := by decide
  obtain ⟨hpath, hsize, hoffset, hend⟩ := hkeys
  simp [backupText, backupDocument, Toml.text, Toml.line, Toml.Token.text, quoted, Toml.escape, hpath, hsize, hoffset, hend]

theorem wellFormed_backupDocument (token : UploadToken) : Toml.WellFormed (backupDocument token) := by
  have hdigits : ∀ n : Nat, decimal n ≠ [] ∧ ∀ b ∈ decimal n, Toml.isDigit b = true :=
    fun n => ⟨decimal_ne_nil n, fun b hb => isDigit_of_mem_decimal hb⟩
  have hbare : ∀ key ∈ [ascii "path", ascii "size", ascii "offset"], key ≠ [] ∧ key.all Toml.isBare = true := by decide
  refine ⟨fun e he => ?_, ?_, ?_⟩
  · have hkeys : (backupDocument token).map Prod.fst = [ascii "path", ascii "size", ascii "offset"] := rfl
    obtain ⟨hne, hall⟩ := hbare e.1 (hkeys ▸ List.mem_map_of_mem he)
    exact ⟨hne, List.all_eq_true.mp hall⟩
  · simp only [backupDocument, List.forall_mem_cons]
    exact ⟨Toml.closed_escape _, hdigits _, hdigits _, by simp⟩
  · simp only [backupDocument, List.map_cons, List.map_nil]
    decide

theorem parse_backupText (hparse : srv.ReadsToml) (hsize : token.size < 2 ^ 63) (hoff : token.offset < 2 ^ 63) :
    srv.parse (backupText token) =
      if Toml.IsText token.path.native then some ⟨some token.path.native, some token.size, some token.offset⟩ else none := by
  rw [backupText_eq, hparse _ (wellFormed_backupDocument token)]
  have hstring := Toml.string_escape token.path.native
  by_cases htext : Toml.IsText token.path.native
  · rw [if_pos htext] at hstring
    rw [if_pos htext]
    simp [Toml.value, backupDocument, Toml.Token.value, hstring, integer_decimal hsize, integer_decimal hoff]
    rfl
  · rw [if_neg htext] at hstring
    rw [if_neg htext]
    simp [Toml.value, backupDocument, Toml.Token.value, hstring]

/-- What `retry_upload` makes of a table is the upload that is recorded in it. -/
theorem resumeUpload_eq (hsize : token.size < 2 ^ 63) (hoff : token.offset < 2 ^ 63) (around : Surroundings)
    (fs : FileSystem) :
    Ul.resumeUpload srv around fs ⟨some token.path.native, some token.size, some token.offset⟩ =
      (srv.uploadFile around fs token.path token.size).map fun upload => { upload with offset := token.offset } := by
  have hsame : toUnsigned token.size = token.size := by simpa using toUnsigned_add (a := token.size) (b := 0) (by omega)
  have hpath : (⟨token.path.native⟩ : Path) = token.path := rfl
  simp only [Ul.resumeUpload, hsame, hpath]
  cases hu : srv.uploadFile around fs token.path token.size with
  | error e => rfl
  | ok upload =>
    obtain ⟨rfl, -⟩ := ServerContext.uploadFile_ok hu
    have hoffset := toUnsigned_add (a := 0) (b := token.offset) (by omega)
    rw [Nat.zero_add] at hoffset
    simp only [Except.map, hoffset]

/-- An interrupted upload is read back as it was exactly when its path is UTF-8 without control characters
but the tab. -/
theorem backup_read_back_iff {fs : FileSystem} {m : UploadManager} {username : Bytes} (hw : fs.WellFormed)
    (hparse : srv.ReadsToml) (hm : m.token = some token) (hfile : m.backupFileName = srv.getBackupFilePath username)
    (hopen : (fs.openWrite m.backupFileName true).isSome) (hsize : token.size < 2 ^ 63) (hoff : token.offset < 2 ^ 63) :
    (Ul.parseBackup srv (m.destroy fs) username = some ⟨some token.path.native, some token.size, some token.offset⟩ ↔
      Toml.IsText token.path.native) ∧
    ∀ around fs', Ul.resumeUpload srv around fs' ⟨some token.path.native, some token.size, some token.offset⟩ =
      (srv.uploadFile around fs' token.path token.size).map fun upload => { upload with offset := token.offset } := by
  refine ⟨?_, resumeUpload_eq hsize hoff⟩
  obtain ⟨⟨fs', i⟩, hopened⟩ := Option.isSome_iff_exists.mp hopen
  have hwritten : m.destroy fs = fs'.write i (backupText token) := by
    simp only [destroy, hm, createBackup, hopened]
  rw [Ul.parseBackup, ← hfile, hwritten, hw.readFile_write hopened, Option.bind_some, parse_backupText hparse hsize hoff]
  split
  · rename_i htext
    exact ⟨fun _ => htext, fun _ => rfl⟩
  · rename_i htext
    exact ⟨nofun, fun h => absurd h htext⟩

end UploadManager

namespace Sample

/-- The small server with a parser for the documents of backups. -/
def tomlServer : ServerContext := { server with parse := fun b => (Toml.read b).map BackupTable.ofToml }

theorem tomlServer_readsToml : tomlServer.ReadsToml := Toml.conforms_read BackupTable.ofToml

def interruptedAt (path : Bytes) : UploadManager := .opened tomlServer ⟨⟨path⟩, 5, 2, ascii "u"⟩ 0

end Sample

namespace UploadManager

theorem backup_read_back_quoted :
    (Ul.parseBackup Sample.tomlServer ((Sample.interruptedAt (ascii "/r/a\"b\\c")).destroy ⟨Sample.tree [], [[]]⟩) (ascii "u") =
        some ⟨some (ascii "/r/a\"b\\c"), some 5, some 2⟩ ↔
      Toml.IsText (ascii "/r/a\"b\\c")) ∧
    ∀ around fs', Ul.resumeUpload Sample.tomlServer around fs' ⟨some (ascii "/r/a\"b\\c"), some 5, some 2⟩ =
      (Sample.tomlServer.uploadFile around fs' ⟨ascii "/r/a\"b\\c"⟩ 5).map fun upload => { upload with offset := 2 } :=
  @backup_read_back_iff ⟨⟨ascii "/r/a\"b\\c"⟩, 5, 2, ascii "u"⟩ _ ⟨Sample.tree [], [[]]⟩ (Sample.interruptedAt (ascii "/r/a\"b\\c"))
    _ (by decide +kernel) Sample.tomlServer_readsToml rfl rfl (by decide +kernel) (by decide) (by decide)

/-- A control character in the name, or a byte that is not UTF-8, and the backup is no document. -/
theorem backup_not_read :
    Sample.tomlServer.ReadsToml ∧ ∀ path ∈ [ascii "/r/" ++ [1], ascii "/r/" ++ [0xFF]],
      (Path.mk path).isAbsolute = true ∧ 0 ∉ path ∧ newline ∉ path ∧
      Ul.parseBackup Sample.tomlServer ((Sample.interruptedAt path).destroy ⟨Sample.tree [], [[]]⟩) (ascii "u") = none :=
  ⟨Sample.tomlServer_readsToml, by decide +kernel⟩

end UploadManager

end TinDox
