import TinDox.Contexts
import TinDox.FileSpecs
import TinDox.Spelling

/-! Paths that spell their location name by name, and the places the server keeps for itself:
the configuration directory with a partial file and a backup file for each user. -/

namespace TinDox

open Lexical DirTree

namespace Path

theorem filename_append_slash {b x : Bytes} (hx : slash ∉ x) : (Path.mk (b ++ slash :: x)).filename.native = x := by
  have hall : ∀ c ∈ x, decide (c ≠ slash) = true := fun c hc => by simpa using fun he : c = slash => hx (he ▸ hc)
  have hrev : ∀ c ∈ x.reverse, decide (c ≠ slash) = true := fun c hc => hall c (List.mem_reverse.mp hc)
  simp only [filename, List.rtakeWhile, List.reverse_append, List.reverse_cons, List.append_assoc]
  rw [List.takeWhile_append_of_pos hrev]
  simp

theorem spell_concat (k : List Bytes) (n : Bytes) : spell (k ++ [n]) = spell k ++ slash :: n := by
  simp [spell]

theorem ofKey_append {k : List Bytes} {n : Bytes} (hk : ∀ m ∈ k, IsName m) (hn : slash ∉ n) :
    ofKey k / ⟨n⟩ = ofKey (k ++ [n]) := by
  have hq : (Path.mk n).isAbsolute = false := isAbsolute_false_of_no_slash hn
  change append (ofKey k) ⟨n⟩ = _
  rcases List.eq_nil_or_concat k with rfl | ⟨d, x, rfl⟩
  · simp [append, hq, ofKey, filename, List.rtakeWhile, spell]
  · rw [List.concat_eq_append] at hk ⊢
    have hx := hk x (by simp)
    have hf : (ofKey (d ++ [x])).filename.native = x := by
      simpa [ofKey, spell_concat] using filename_append_slash (b := spell d) hx.2.2.2
    simp only [append, hq, hf, hx.1, Bool.false_eq_true, if_false]
    simp [ofKey, spell]

theorem noNul_ofKey {k : List Bytes} (hk : ∀ m ∈ k, (0 : Byte) ∉ m) : (0 : Byte) ∉ (ofKey k).native := by
  unfold ofKey
  split
  · decide
  · simp only [spell, List.mem_flatMap, not_exists, not_and, List.mem_cons, not_or]
    exact fun m hm => ⟨by decide, hk m hm⟩

theorem cString_ofKey {k : List Bytes} (hk : ∀ m ∈ k, (0 : Byte) ∉ m) : (ofKey k).cString = ofKey k :=
  cString_eq_self (noNul_ofKey hk)

theorem parts_ofKey {k : List Bytes} (hk : k ≠ []) (hn : ∀ m ∈ k, IsName m) : (ofKey k).parts = [] :: k := by
  simpa [parts, ofKey, hk] using splitOn_append_spell (x := []) (by simp) hn

theorem components_ofKey {k : List Bytes} (hk : k ≠ []) (hn : ∀ m ∈ k, IsName m) :
    (ofKey k).components = .here :: k.map .child := by
  rw [components, parts_ofKey hk hn, List.map_cons, map_classify_names hn]
  rfl

theorem endsInSlash_ofKey {k : List Bytes} (hk : k ≠ []) (hn : ∀ m ∈ k, IsName m) :
    (ofKey k).endsInSlash = false := by
  obtain ⟨d, x, rfl⟩ := (List.eq_nil_or_concat k).resolve_left hk
  rw [List.concat_eq_append] at hn ⊢
  have hx := hn x (by simp)
  obtain ⟨y, c, rfl⟩ := (List.eq_nil_or_concat x).resolve_left hx.1
  have hc : c ≠ slash := fun he => hx.2.2.2 (by simp [he])
  have hnative : (ofKey (d ++ [y.concat c])).native = (spell d ++ slash :: y) ++ [c] := by
    simp [ofKey, spell_concat]
  rw [endsInSlash, hnative, List.getLast?_concat]
  simpa using hc

end Path

namespace FileSystem

variable {fs : FileSystem} {k : Key}

theorem WellFormed.resolve_ofKey (hw : fs.WellFormed) (hn : ∀ m ∈ k, IsName m) (hz : ∀ m ∈ k, (0 : Byte) ∉ m)
    (h : (fs.get k).isSome) : fs.resolve (Path.ofKey k) = some k := by
  unfold resolve
  rw [Path.cString_ofKey hz, if_pos (Path.isAbsolute_ofKey k)]
  by_cases hk : k = []
  · subst k
    rfl
  · rw [Path.components_ofKey hk hn]
    simpa [walk] using hw.closed.walk_children [] k h

theorem WellFormed.resolve_ofKey_none (hw : fs.WellFormed) (hn : ∀ m ∈ k, IsName m)
    (hz : ∀ m ∈ k, (0 : Byte) ∉ m) (h : fs.get k = none) : fs.resolve (Path.ofKey k) = none := by
  by_contra hne
  obtain ⟨j, hj⟩ := Option.ne_none_iff_exists'.mp hne
  have hkey := resolve_eq_key hj
  rw [Path.cString_ofKey hz, Path.key_ofKey hn] at hkey
  have hsome := hw.get_of_resolve hj
  simp [hkey, h] at hsome

theorem WellFormed.locate_ofKey (hw : fs.WellFormed) (hk : k ≠ []) (hn : ∀ m ∈ k, IsName m)
    (hz : ∀ m ∈ k, (0 : Byte) ∉ m) (hlast : ∀ m ∈ k.getLast?, m.length ≤ nameMax) (h : fs.get k.dropLast = some .dir) :
    fs.locate (Path.ofKey k) = .ok k := by
  obtain ⟨d, x, rfl⟩ := (List.eq_nil_or_concat k).resolve_left hk
  rw [List.concat_eq_append] at *
  rw [List.dropLast_concat] at h
  have hx := hn x (by simp)
  have hlong : x.length ≤ nameMax := hlast x (by simp)
  have hd : ∀ m ∈ d, IsName m := fun m hm => hn m (by simp [hm])
  have hleaf : (Path.ofKey (d ++ [x])).leaf = some (.here :: d.map .child, x) := by
    unfold Path.leaf
    rw [Path.parts_ofKey hk hn, ← List.cons_append, List.rdropWhile_concat_neg _ _ _ (by simpa using hx.1)]
    simp only [List.getLast?_concat, Option.map_some, List.dropLast_concat, List.map_cons,
      Path.map_classify_names hd]
    rfl
  have hwalk : walk fs.tree [] (.here :: d.map .child) = some d := by
    have hsome : (fs.get d).isSome := by simp [h]
    simpa [walk] using hw.closed.walk_children [] d hsome
  unfold locate
  rw [Path.cString_ofKey hz, hleaf]
  simp [hx, Path.isAbsolute_ofKey, hwalk, h, Nat.not_lt.mpr hlong]

end FileSystem

theorem UserTable.noNul_noSlash {username : Bytes} (h : isUsernameOk username = true) :
    (0 : Byte) ∉ username ∧ slash ∉ username := by
  simp only [isUsernameOk, Bool.and_eq_true, List.all_eq_true] at h
  constructor
  · intro hm
    exact absurd (h.2 _ hm) (by decide)
  · intro hm
    exact absurd (h.2 _ hm) (by decide)

namespace ServerContext

variable (srv : ServerContext) (username : Bytes)

def configKey : Key := srv.root.names ++ [ascii ".tds"]

/-- The place of a user's file with the given extension. -/
def ownKey (ext : Bytes) : Key := srv.configKey ++ [username ++ ext]

def partialKey : Key := srv.ownKey username (ascii ".partial")

def backupKey : Key := srv.ownKey username (ascii ".upload")

variable {srv username}

theorem configKey_isName : ∀ n ∈ srv.configKey, IsName n := by
  intro n hn
  rcases List.mem_append.mp hn with hn | hn
  · exact srv.root.isName n hn
  · rw [List.mem_singleton.mp hn]
    decide

theorem configKey_noNul : ∀ n ∈ srv.configKey, (0 : Byte) ∉ n := by
  intro n hn
  rcases List.mem_append.mp hn with hn | hn
  · exact srv.root.noNul n hn
  · rw [List.mem_singleton.mp hn]
    decide

theorem configDirectory_eq : srv.configDirectory = Path.ofKey srv.configKey :=
  Path.ofKey_append srv.root.isName (by decide)

variable {ext : Bytes}

/-- What an extension needs so that it makes a name of any user name. -/
def IsExtension (ext : Bytes) : Prop := slash ∉ ext ∧ (0 : Byte) ∉ ext ∧ 3 ≤ ext.length ∧ ext.length ≤ 8

instance (ext : Bytes) : Decidable (IsExtension ext) := inferInstanceAs (Decidable (_ ∧ _))

theorem ownKey_isName (hu : UserTable.isUsernameOk username = true) (hext : IsExtension ext) :
    ∀ n ∈ srv.ownKey username ext, IsName n := by
  intro n hn
  rcases List.mem_append.mp hn with hn | hn
  · exact configKey_isName n hn
  · rw [List.mem_singleton.mp hn]
    have hlen : 3 ≤ (username ++ ext).length := by
      rw [List.length_append]
      exact Nat.le_add_left_of_le hext.2.2.1
    refine ⟨?_, ?_, ?_, by simp [(UserTable.noNul_noSlash hu).2, hext.1]⟩
    all_goals
      intro h
      rw [h] at hlen
      revert hlen
      decide

theorem ownKey_noNul (hu : UserTable.isUsernameOk username = true) (hext : IsExtension ext) :
    ∀ n ∈ srv.ownKey username ext, (0 : Byte) ∉ n := by
  intro n hn
  rcases List.mem_append.mp hn with hn | hn
  · exact configKey_noNul n hn
  · rw [List.mem_singleton.mp hn, List.mem_append, not_or]
    exact ⟨(UserTable.noNul_noSlash hu).1, hext.2.1⟩

theorem ownKey_short (hu : UserTable.isUsernameOk username = true) (hext : IsExtension ext) :
    ∀ n ∈ (srv.ownKey username ext).getLast?, n.length ≤ nameMax := by
  simp only [UserTable.isUsernameOk, Bool.and_eq_true, decide_eq_true_eq] at hu
  simp only [ownKey, List.getLast?_concat, Option.mem_def, Option.some.injEq, forall_eq', List.length_append]
  exact (Nat.add_le_add hu.1 hext.2.2.2).trans (by decide)

theorem configDirectory_append (hu : UserTable.isUsernameOk username = true) (hext : IsExtension ext) :
    srv.configDirectory / ⟨username ++ ext⟩ = Path.ofKey (srv.ownKey username ext) := by
  rw [configDirectory_eq, ownKey]
  refine Path.ofKey_append configKey_isName ?_
  rw [List.mem_append, not_or]
  exact ⟨(UserTable.noNul_noSlash hu).2, hext.1⟩

theorem getPartialFilePath_eq (hu : UserTable.isUsernameOk username = true) :
    srv.getPartialFilePath username = Path.ofKey (srv.partialKey username) :=
  configDirectory_append hu (by decide)

theorem getBackupFilePath_eq (hu : UserTable.isUsernameOk username = true) :
    srv.getBackupFilePath username = Path.ofKey (srv.backupKey username) :=
  configDirectory_append hu (by decide)

theorem key_ownKey (hu : UserTable.isUsernameOk username = true) (hext : IsExtension ext) :
    (Path.ofKey (srv.ownKey username ext)).cString.key = srv.ownKey username ext := by
  rw [Path.cString_ofKey (ownKey_noNul hu hext), Path.key_ofKey (ownKey_isName hu hext)]

theorem getPartialFilePath_key (hu : UserTable.isUsernameOk username = true) :
    (srv.getPartialFilePath username).cString.key = srv.partialKey username := by
  rw [getPartialFilePath_eq hu]
  exact key_ownKey hu (by decide)

theorem getBackupFilePath_key (hu : UserTable.isUsernameOk username = true) :
    (srv.getBackupFilePath username).cString.key = srv.backupKey username := by
  rw [getBackupFilePath_eq hu]
  exact key_ownKey hu (by decide)

theorem resolve_getBackupFilePath {fs : FileSystem} (hw : fs.WellFormed)
    (hu : UserTable.isUsernameOk username = true) (h : (fs.get (srv.backupKey username)).isSome) :
    fs.resolve (srv.getBackupFilePath username) = some (srv.backupKey username) := by
  rw [getBackupFilePath_eq hu]
  exact hw.resolve_ofKey (ownKey_isName hu (by decide)) (ownKey_noNul hu (by decide)) h

theorem get_backupKey_none {fs : FileSystem} (hw : fs.WellFormed)
    (hu : UserTable.isUsernameOk username = true) (h : fs.resolve (srv.getBackupFilePath username) = none) :
    fs.get (srv.backupKey username) = none := by
  by_contra hne
  simp [resolve_getBackupFilePath hw hu (Option.isSome_iff_ne_none.mpr hne)] at h

theorem partialKey_ne_backupKey : srv.partialKey username ≠ srv.backupKey username := by
  simp only [partialKey, backupKey, ownKey, ne_eq, List.append_cancel_left_eq, List.cons.injEq, and_true]
  decide

end ServerContext

end TinDox
