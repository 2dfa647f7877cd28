import TinDox.Places
import TinDox.Transfers
import TinDox.Views

/-! The server's own bookkeeping: the partial file and the backup file it keeps for each user in
the configuration directory, and what the upload manager does to them. -/

namespace TinDox

open DirTree FileSystem

namespace ServerContext

variable {srv : ServerContext} {around : Surroundings} {username : Bytes}

def HasUser (srv : ServerContext) (username : Bytes) : Prop := ∃ u ∈ srv.users, u.name = username

theorem HasUser.isUsernameOk (h : srv.HasUser username) : UserTable.isUsernameOk username = true := by
  obtain ⟨u, hu, rfl⟩ := h
  exact srv.usernamesOk u hu

theorem authorizeUser_ok {password : Bytes} {token : AuthToken}
    (h : srv.authorizeUser around username password = .ok token) : srv.HasUser token.username := by
  unfold authorizeUser getUser at h
  split at h
  · simp at h
  · rename_i u hu
    split at h
    · simp at h
    · split at h
      · simp at h
      · have hname := List.find?_some hu
        obtain rfl := Except.ok.inj h
        exact ⟨u, List.mem_of_find?_eq_some hu, by simpa using hname⟩

/-- The places the server writes to on its own account. -/
def OwnPlace (srv : ServerContext) (k : Key) : Prop :=
  ∃ username, srv.HasUser username ∧ (k = srv.partialKey username ∨ k = srv.backupKey username)

theorem OwnPlace.config {k : Key} (h : srv.OwnPlace k) : ∃ n, k = srv.configKey ++ [n] := by
  obtain ⟨username, -, rfl | rfl⟩ := h
  · exact ⟨_, rfl⟩
  · exact ⟨_, rfl⟩

theorem not_ownPlace_of_outside {k : Key} (h : ¬ srv.configKey <+: k) : ¬ srv.OwnPlace k := by
  intro hown
  obtain ⟨n, rfl⟩ := hown.config
  exact h (List.prefix_append _ _)

theorem OwnPlace.not_prefix_configKey {k : Key} (h : srv.OwnPlace k) : ¬ k <+: srv.configKey := by
  intro hk
  obtain ⟨n, rfl⟩ := h.config
  have hlen := hk.length_le
  rw [List.length_append, List.length_singleton] at hlen
  omega

/-- The path of a partial file or a backup file, or the empty one that no call accepts. -/
def OwnPath (srv : ServerContext) (p : Path) : Prop :=
  p = ⟨[]⟩ ∨ ∃ username, srv.HasUser username ∧
    (p = srv.getPartialFilePath username ∨ p = srv.getBackupFilePath username)

theorem OwnPath.locate {p : Path} {fs : FileSystem} {k : Key} (h : srv.OwnPath p) (hl : fs.locate p = .ok k) :
    srv.OwnPlace k := by
  obtain ⟨rfl, -, -, habs⟩ := locate_ok hl
  rcases h with rfl | ⟨username, hu, rfl | rfl⟩
  · simp [Path.isAbsolute] at habs
  · exact ⟨username, hu, .inl (srv.getPartialFilePath_key hu.isUsernameOk)⟩
  · exact ⟨username, hu, .inr (srv.getBackupFilePath_key hu.isUsernameOk)⟩

theorem OwnPath.resolve {p : Path} {fs : FileSystem} {k : Key} (h : srv.OwnPath p) (hr : fs.resolve p = some k) :
    srv.OwnPlace k := by
  obtain rfl := resolve_eq_key hr
  rcases h with rfl | ⟨username, hu, rfl | rfl⟩
  · simp [FileSystem.resolve, Path.isAbsolute] at hr
  · exact ⟨username, hu, .inl (srv.getPartialFilePath_key hu.isUsernameOk)⟩
  · exact ⟨username, hu, .inr (srv.getBackupFilePath_key hu.isUsernameOk)⟩

theorem OwnPath.openWrite {p : Path} {fs fs' : FileSystem} {trunc : Bool} {i : Nat} (h : srv.OwnPath p)
    (ho : fs.openWrite p trunc = some (fs', i)) : srv.OwnPlace p.cString.key := by
  rcases openWrite_some ho with ⟨hr, -⟩ | ⟨-, hl, -⟩
  · exact h.resolve hr
  · exact h.locate hl

end ServerContext

open ServerContext

variable {srv : ServerContext} {fs fs' fs'' : FileSystem} {p : Path}

/-- The second file system comes from the first one by the server's bookkeeping alone. -/
structure Bookkeeping (srv : ServerContext) (fs fs' : FileSystem) : Prop where
  wellFormed : fs'.WellFormed
  view_eq : ∀ k, ¬ srv.OwnPlace k → fs'.view k = fs.view k
  data_le : fs.data.length ≤ fs'.data.length
  files : ∀ k i, fs'.get k = some (.file i) → fs.get k = some (.file i) ∨ fs.data.length ≤ i

namespace Bookkeeping

theorem refl (hw : fs.WellFormed) : Bookkeeping srv fs fs := ⟨hw, fun _ _ => rfl, Nat.le_refl _, fun _ _ h => .inl h⟩

theorem trans (h : Bookkeeping srv fs fs') (h' : Bookkeeping srv fs' fs'') : Bookkeeping srv fs fs'' where
  wellFormed := h'.wellFormed
  view_eq k hk := (h'.view_eq k hk).trans (h.view_eq k hk)
  data_le := h.data_le.trans h'.data_le
  files k i hi := by
    have hle := h.data_le
    rcases h'.files k i hi with hi | hi
    · exact h.files k i hi
    · exact .inr (by omega)

theorem openWrite (hw : fs.WellFormed) (hp : srv.OwnPath p) {trunc : Bool} {i : Nat}
    (h : fs.openWrite p trunc = some (fs', i)) : Bookkeeping srv fs fs' := by
  have hplace := hp.openWrite h
  refine ⟨(hw.openWrite h).1, fun k hk => ?_, ?_, fun k j hj => ?_⟩
  · exact hw.view_openWrite h (fun hh => hk (hh ▸ hplace))
  · rcases openWrite_some h with ⟨-, -, rfl⟩ | ⟨-, -, -, -, rfl⟩
    · split <;> simp
    · simp [FileSystem.create]
  · rcases openWrite_some h with ⟨-, -, rfl⟩ | ⟨hr, hl, hs, -, rfl⟩
    · left
      split at hj <;> exact hj
    · obtain ⟨-, hne, -⟩ := locate_ok hl
      rw [get_create hne (get_none_of_resolve_none hr hl hs)] at hj
      split at hj
      · have hij : fs.data.length = j := by simpa using hj
        exact .inr (by omega)
      · exact .inl hj

theorem write (hw : fs.WellFormed) (hp : srv.OwnPath p) {trunc : Bool} {i : Nat}
    (h : fs.openWrite p trunc = some (fs', i)) (b : Bytes) : Bookkeeping srv fs (fs'.write i b) := by
  have hopen := openWrite hw hp h
  refine hopen.trans ⟨hopen.wellFormed.write i b, fun k hk => ?_, by simp [FileSystem.write], fun _ _ h => .inl h⟩
  have hg := (hw.openWrite h).2.1
  have hplace := hp.openWrite h
  rw [hopen.wellFormed.view_write hg, if_neg (fun hh : k = p.cString.key => hk (hh ▸ hplace))]

theorem remove (hw : fs.WellFormed) (hp : srv.OwnPath p) {removed : Bool} (h : fs.remove p = .ok (fs', removed)) :
    Bookkeeping srv fs fs' := by
  refine ⟨(hw.remove h).1, fun k hk => ?_, by rw [(hw.remove h).2.1], fun k i hi => ?_⟩
  · rcases remove_ok h with ⟨rfl, -⟩ | ⟨hr, -⟩
    · rfl
    · exact hw.view_remove h (fun hh => hk (hh ▸ hp.resolve hr))
  · left
    rcases remove_ok h with ⟨rfl, -⟩ | ⟨-, hl, -, rfl⟩
    · exact hi
    · obtain ⟨-, hne, -⟩ := locate_ok hl
      rw [FileSystem.get, get_prune fs.tree hne] at hi
      split at hi
      · simp at hi
      · exact hi

end Bookkeeping

namespace UploadManager

variable {m : UploadManager}

/-- The manager works on the files of a user, or has not started yet. -/
def Accounted (srv : ServerContext) (m : UploadManager) : Prop :=
  srv.OwnPath m.partialFileName ∧ srv.OwnPath m.backupFileName

theorem accounted_new (srv : ServerContext) : Accounted srv .new := ⟨.inl rfl, .inl rfl⟩

theorem Accounted.startUpload {token : UploadToken} (hm : m.Accounted srv) (hw : fs.WellFormed)
    (hu : srv.HasUser token.temporaryFilenameStem) :
    (m.startUpload srv fs token).2.1.Accounted srv ∧ Bookkeeping srv fs (m.startUpload srv fs token).1 := by
  have hpart : srv.OwnPath (srv.getPartialFilePath token.temporaryFilenameStem) := .inr ⟨_, hu, .inl rfl⟩
  have hback : srv.OwnPath (srv.getBackupFilePath token.temporaryFilenameStem) := .inr ⟨_, hu, .inr rfl⟩
  rcases startUpload_cases srv fs m token with h | ⟨fs₁, i, fs₂, out, -, hopen, hremove, h⟩
  · rw [h]
    exact ⟨⟨hpart, hm.2⟩, .refl hw⟩
  · rw [h]
    have hkeep := Bookkeeping.openWrite hw hpart hopen
    refine ⟨⟨hpart, hback⟩, ?_⟩
    rcases hremove with ⟨rfl, -⟩ | ⟨removed, hr⟩
    · exact hkeep
    · exact hkeep.trans (.remove hkeep.wellFormed hback hr)

theorem Accounted.commitBytes (hm : m.Accounted srv) (fs : FileSystem) (bytes : Bytes) :
    (m.commitBytes fs bytes).2.1.Accounted srv := by
  rcases commitBytes_cases fs m bytes with
    ⟨-, hc⟩ | ⟨token, i, -, -, ⟨-, hc⟩ | ⟨-, ⟨fs₁, -, hc⟩ | ⟨e, -, hc⟩⟩⟩ <;>
  · rw [hc]
    exact hm

theorem Accounted.destroy (hm : m.Accounted srv) (hw : fs.WellFormed) : Bookkeeping srv fs (m.destroy fs) := by
  unfold UploadManager.destroy
  split
  · rename_i token _
    unfold createBackup
    split
    · rename_i fs₁ i hopen
      exact .write hw hm.2 hopen _
    · exact .refl hw
  · exact .refl hw

end UploadManager

end TinDox
