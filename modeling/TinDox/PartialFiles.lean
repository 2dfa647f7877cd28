import TinDox.ConfigDirectory
import TinDox.Isolation

/-! The files that uploads write to. As long as requests stay out of the configuration directory, the
file of an upload in progress stands where the server keeps the partial file of its user. -/

namespace TinDox

open DirTree FileSystem

variable {srv : ServerContext} {around : Surroundings} {fs fs' fs'' : FileSystem} {s s' : Session} {r : Request} {k : Key}

theorem ServerContext.partialKey_inj {u v : Bytes} (h : srv.partialKey u = srv.partialKey v) : u = v := by
  simpa [partialKey, ownKey] using h

/-- The extensions differ in their last letters. -/
theorem ServerContext.partialKey_ne_backupKey_of (u v : Bytes) : srv.partialKey u ≠ srv.backupKey v := by
  intro h
  have hname : u ++ ascii ".partial" = v ++ ascii ".upload" := by simpa [partialKey, backupKey, ownKey] using h
  have hlast : (ascii ".partial").getLast? = (ascii ".upload").getLast? := by
    have hends := congrArg List.getLast? hname
    rw [List.getLast?_append, List.getLast?_append] at hends
    exact hends
  exact absurd hlast (by decide)

/-- The partial files of all other users are where they were. -/
def Spares (srv : ServerContext) (user : Option Bytes) (fs fs' : FileSystem) : Prop :=
  ∀ v, user ≠ some v → fs'.get (srv.partialKey v) = fs.get (srv.partialKey v)

theorem Spares.refl (srv : ServerContext) (user : Option Bytes) (fs : FileSystem) : Spares srv user fs fs := fun _ _ => rfl

theorem Spares.trans {user : Option Bytes} (h : Spares srv user fs fs') (h' : Spares srv user fs' fs'') :
    Spares srv user fs fs'' :=
  fun v hv => (h' v hv).trans (h v hv)

theorem spares_of_get {user : Option Bytes} (h : ∀ k, srv.configKey <+: k → fs'.get k = fs.get k) : Spares srv user fs fs' :=
  fun v _ => h (srv.partialKey v) (List.prefix_append _ _)

/-- The backup file of an upload manager, if it has one. -/
def BackupPath (srv : ServerContext) (p : Path) : Prop := p = ⟨[]⟩ ∨ ∃ v, srv.HasUser v ∧ p = srv.getBackupFilePath v

theorem BackupPath.key {p : Path} (h : BackupPath srv p) (habs : p.isAbsolute = true) (v : Bytes) :
    srv.partialKey v ≠ p.cString.key := by
  rcases h with rfl | ⟨u, hu, rfl⟩
  · cases habs
  · rw [srv.getBackupFilePath_key hu.isUsernameOk]
    exact srv.partialKey_ne_backupKey_of v u

theorem spares_remove {user : Option Bytes} (hw : fs.WellFormed) {p : Path} (hp : BackupPath srv p) {removed : Bool}
    (h : fs.remove p = .ok (fs', removed)) : Spares srv user fs fs' := by
  intro v _
  rcases remove_ok h with ⟨rfl, -⟩ | ⟨hres, -⟩
  · rfl
  · exact (hw.remove h).2.2 _ (hp.key (isAbsolute_of_resolve hres) v)

theorem spares_openWrite {user : Option Bytes} (hw : fs.WellFormed) {p : Path} {trunc : Bool} {i : Nat}
    (hp : ∀ v, user ≠ some v → srv.partialKey v ≠ p.cString.key) (h : fs.openWrite p trunc = some (fs', i)) :
    Spares srv user fs fs' :=
  fun v hv => (hw.openWrite h).2.2.2.1 _ (hp v hv)

theorem isAbsolute_of_openWrite {p : Path} {trunc : Bool} {i : Nat} (h : fs.openWrite p trunc = some (fs', i)) :
    p.isAbsolute = true := by
  rcases openWrite_some h with ⟨hr, -⟩ | ⟨-, hl, -⟩
  · exact isAbsolute_of_resolve hr
  · exact (locate_ok hl).2.2.2

namespace UploadManager

variable {m : UploadManager} {token : UploadToken}

theorem startUpload_spares (hw : fs.WellFormed) (hu : srv.HasUser token.temporaryFilenameStem) :
    Spares srv (some token.temporaryFilenameStem) fs (m.startUpload srv fs token).1 := by
  rcases startUpload_cases srv fs m token with h | ⟨fs₁, i, fs₂, out, -, hopen, hremove, h⟩
  · rw [h]
    exact .refl _ _ _
  · rw [h]
    have hother : ∀ v, some token.temporaryFilenameStem ≠ some v →
        srv.partialKey v ≠ (srv.getPartialFilePath token.temporaryFilenameStem).cString.key := by
      intro v hv hkey
      rw [srv.getPartialFilePath_key hu.isUsernameOk] at hkey
      exact hv (congrArg some (srv.partialKey_inj hkey).symm)
    have hopened := spares_openWrite hw hother hopen
    rcases hremove with ⟨rfl, -⟩ | ⟨removed, hr⟩
    · exact hopened
    · exact hopened.trans (spares_remove (hw.openWrite hopen).1 (.inr ⟨_, hu, rfl⟩) hr)

theorem destroy_spares (hw : fs.WellFormed) {user : Option Bytes} (hb : BackupPath srv m.backupFileName) :
    Spares srv user fs (m.destroy fs) := by
  unfold destroy
  split
  · unfold createBackup
    split
    · rename_i fs₁ i hopen
      have hspared : Spares srv user fs fs₁ :=
        spares_openWrite hw (fun v _ => hb.key (isAbsolute_of_openWrite hopen) v) hopen
      exact hspared
    · exact .refl _ _ _
  · exact .refl _ _ _

end UploadManager

/-- The file of an upload in progress is the partial file of its user. -/
structure Session.WritesPartial (srv : ServerContext) (fs : FileSystem) (s : Session) : Prop where
  backup : BackupPath srv s.uploadManager.backupFileName
  file : ∀ i ∈ s.uploadManager.file, ∃ token ∈ s.uploadManager.token,
    fs.get (srv.partialKey token.temporaryFilenameStem) = some (.file i)

theorem Session.writesPartial_new (srv : ServerContext) (fs : FileSystem) : Session.WritesPartial srv fs .new :=
  ⟨.inl rfl, fun i hi => by cases hi⟩

theorem Session.WritesPartial.same_manager (h : s.WritesPartial srv fs) (hm : s'.uploadManager = s.uploadManager) : s'.WritesPartial srv fs := by
  refine ⟨?_, ?_⟩
  · rw [hm]
    exact h.backup
  · rw [hm]
    exact h.file

/-- Outside of upload mode no file is open. -/
theorem Session.WritesPartial.file_eq_none (h : s.WritesPartial srv fs) (hown : s.OwnUpload srv) (hm : s.context.mode ≠ .upload) :
    s.uploadManager.file = none := by
  cases hf : s.uploadManager.file with
  | none => rfl
  | some i =>
    obtain ⟨token, ht, -⟩ := h.file i hf
    rw [hown.token_eq_none hm] at ht
    cases ht

theorem Session.WritesPartial.spared (h : s.WritesPartial srv fs) (hown : s.OwnUpload srv) {user : Option Bytes}
    (hspares : Spares srv user fs fs') (hother : ∀ v, s.username = some v → user ≠ some v) : s.WritesPartial srv fs' := by
  refine ⟨h.backup, ?_⟩
  intro i hi
  obtain ⟨token, ht, hget⟩ := h.file i hi
  refine ⟨token, ht, ?_⟩
  rw [hspares _ (hother _ (hown token ht).2.1)]
  exact hget

section Requests

variable {c : ClientContext} (hc : ConfigRequest srv fs c r) (hcur : ∀ cur ∈ c.currentPathLock, srv.Proper cur)
  (hdir : fs.get srv.configKey = some .dir)
include hc hcur hdir

theorem Makes.spares {p : Path} {x : Node Nat} {user : Option Bytes} (hm : Makes srv fs c r p) (hfree : fs.get p.cString.key = none)
    (hget : ∀ k, fs'.get k = if k = p.cString.key then some x else fs.get k) :
    Spares srv user fs fs' := by
  have hclear := (hm.clear hc hcur hdir hfree).2
  apply spares_of_get
  intro k hk
  rw [hget, if_neg]
  rintro rfl
  exact hclear hk

theorem Relocates.spares {old new : Path} {user : Option Bytes} (hw : fs.WellFormed) (hm : Relocates srv fs c r old new)
    (hfree : fs.pathExists new = false) (h : fs.rename old new = .ok fs') : Spares srv user fs fs' := by
  have hnone := rename_free h hfree
  obtain ⟨hold, hnew⟩ := hm.clear hc hcur hdir hnone
  apply spares_of_get
  intro k hk
  obtain ⟨-, ⟨rfl, -⟩ | hmoves⟩ := hw.rename h
  · rfl
  · rw [hmoves.get_eq, if_neg (not_prefix_of_apart (not_prefix_of_free hw hdir hnone) hnew.2 hk),
      if_neg (not_prefix_of_apart (hc.moves _ _ hm) hold.2 hk)]

omit hdir in
theorem Removes.spares {p : Path} {user : Option Bytes} (hw : fs.WellFormed) (hm : Removes c r p) :
    Spares srv user fs (fs.removeAll p).1 := by
  apply spares_of_get
  intro k hk
  exact (hw.removeAll p).2.2 k (not_prefix_of_apart (hc.removes _ hm) (hm.clear hc hcur).2 hk)

end Requests

theorem AcceptsUpload.spares {upload : UploadToken} (h : AcceptsUpload srv around fs s.context r fs' upload) (hw : fs.WellFormed)
    (hs : s.Accounted srv) {user : Option Bytes} : Spares srv user fs fs' := by
  cases h with
  | fresh => exact .refl _ _ _
  | resumed _ user _ taken _ => exact spares_remove hw (.inr ⟨_, hs.user _ user, rfl⟩) taken

theorem Effect.spares (h : Effect srv around fs s r fs' s') (hw : fs.WellFormed) (hs : s.Accounted srv)
    (hc : ConfigRequest srv fs s.context r) (hcur : ∀ cur ∈ s.context.currentPathLock, srv.Proper cur)
    (hdir : fs.get srv.configKey = some .dir) : Spares srv s.username fs fs' := by
  cases h with
  | none | flags | login | logout | cd | dl | dls => exact .refl _ _ _
  | cp current command parsed chosen copied =>
    obtain ⟨i, -, hl, hf, rfl⟩ := copyFile_ok copied
    exact Makes.spares hc hcur hdir (.cp current command parsed chosen) hf (get_create (locate_ok hl).2.1 hf _)
  | mkdir current command parsed _ made =>
    rcases createDirectory_ok made with rfl | ⟨hl, hf, rfl⟩
    · exact .refl _ _ _
    · exact Makes.spares hc hcur hdir (.mkdir current command parsed) hf (FileSystem.get_insert (locate_ok hl).2.1 hf _)
  | mv current command parsed _ free renamed =>
    exact Relocates.spares hc hcur hdir hw (.mv current command parsed) free renamed
  | rename current command parsed _ free renamed =>
    exact Relocates.spares hc hcur hdir hw (.rename current command parsed) free renamed
  | rm current command parsed _ => exact Removes.spares hc hcur hw (.rm current command parsed)
  | unbacked _ user taken => exact spares_remove hw (.inr ⟨_, hs.user _ user, rfl⟩) taken
  | ul _ accepted =>
    obtain ⟨hkept, hu⟩ := accepted.bookkeeping hw hs
    rw [accepted.username]
    exact (accepted.spares hw hs).trans (UploadManager.startUpload_spares hkept.wellFormed hu)

theorem UploadManager.startUpload_writesPartial (hw : fs.WellFormed) {m : UploadManager} {token : UploadToken}
    (hu : srv.HasUser token.temporaryFilenameStem) (hb : BackupPath srv m.backupFileName) (hf : m.file = none) {c : ClientContext}
    {d : DownloadManager} : Session.WritesPartial srv (m.startUpload srv fs token).1 ⟨c, d, (m.startUpload srv fs token).2.1⟩ := by
  rcases startUpload_cases srv fs m token with h | ⟨fs₁, i, fs₂, out, -, hopen, hremove, h⟩
  · rw [h]
    refine ⟨hb, ?_⟩
    intro i hi
    have hi' : m.file = some i := hi
    rw [hf] at hi'
    cases hi'
  · rw [h]
    refine ⟨.inr ⟨_, hu, rfl⟩, ?_⟩
    intro j hj
    obtain rfl : i = j := Option.some.inj hj
    refine ⟨token, rfl, ?_⟩
    obtain ⟨hw₁, hget, -⟩ := hw.openWrite hopen
    rw [srv.getPartialFilePath_key hu.isUsernameOk] at hget
    rcases hremove with ⟨rfl, -⟩ | ⟨removed, hr⟩
    · exact hget
    · rw [(hw₁.remove hr).2.2]
      · exact hget
      · rw [srv.getBackupFilePath_key hu.isUsernameOk]
        exact srv.partialKey_ne_backupKey_of _ _

theorem Effect.writesPartial (h : Effect srv around fs s r fs' s') (hw : fs.WellFormed) (hs : s.Accounted srv) (hm : s.context.mode = .command)
    (hown : s.OwnUpload srv) (hwrites : s.WritesPartial srv fs) : s'.WritesPartial srv fs' := by
  have hnone : s.uploadManager.file = Option.none := hwrites.file_eq_none hown (by simp [hm])
  have hkept : ∀ (t : Session) (fs'' : FileSystem), t.uploadManager = s.uploadManager → t.WritesPartial srv fs'' := by
    intro t fs'' ht
    refine ⟨ht ▸ hwrites.backup, ?_⟩
    intro i hi
    rw [ht, hnone] at hi
    cases hi
  cases h with
  | none | flags | login | logout | cd | cp | mkdir | mv | rename | rm | dl | dls | unbacked => exact hkept _ _ rfl
  | ul _ accepted =>
    obtain ⟨hbook, hu⟩ := accepted.bookkeeping hw hs
    exact UploadManager.startUpload_writesPartial hbook.wellFormed hu hwrites.backup hnone

/-- A target outside of the configuration directory is not on the way to it either. -/
theorem Moves.not_prefix_config {o n : Key} (h : FileSystem.Moves fs fs' o n) (hdir : fs.get srv.configKey = some .dir)
    (hn : ¬ srv.configKey <+: n) (hk : srv.configKey <+: k) : ¬ n <+: k := by
  apply not_prefix_of_apart ?_ hn hk
  rintro ⟨rest, hrest⟩
  have hne : rest ≠ [] := by
    rintro rfl
    rw [List.append_nil] at hrest
    exact hn (hrest ▸ List.prefix_refl _)
  have hnone := h.empty rest hne
  rw [hrest, hdir] at hnone
  cases hnone

theorem Session.WritesPartial.handleUpload {bytes : Bytes} {result : Except Exception Bytes} (hp : s.WritesPartial srv fs)
    (h : s.handleUpload fs bytes = (fs', s', result)) (hw : fs.WellFormed) (hown : s.OwnUpload srv)
    (huser : ∀ u, s.username = some u → srv.HasUser u) (hdir : fs.get srv.configKey = some .dir)
    (htarget : ∀ token ∈ s.uploadManager.token, ¬ srv.configKey <+: token.path.cString.key) :
    s'.WritesPartial srv fs' ∧ Spares srv s.username fs fs' := by
  obtain ⟨rfl, mode, rfl⟩ := Session.handleUpload_cases h
  rcases UploadManager.commitBytes_cases fs s.uploadManager bytes with
    ⟨-, hc⟩ | ⟨token, i, ht, hf, ⟨-, hc⟩ | ⟨-, ⟨fs₁, hr, hc⟩ | ⟨e, -, hc⟩⟩⟩
  · rw [hc]
    exact ⟨hp.same_manager rfl, .refl _ _ _⟩
  · rw [hc]
    refine ⟨⟨hp.backup, ?_⟩, fun v _ => get_write _ _ _ _⟩
    intro j hj
    obtain ⟨token', ht', hget⟩ := hp.file j hj
    obtain rfl : token = token' := Option.some.inj (ht.symm.trans ht')
    exact ⟨_, rfl, (get_write _ _ _ _).trans hget⟩
  · rw [hc]
    refine ⟨⟨hp.backup, fun j hj => by cases hj⟩, ?_⟩
    intro v hv
    obtain ⟨-, hname, hpart⟩ := hown token ht
    have hu := huser _ hname
    obtain ⟨-, ⟨rfl, -⟩ | hmoves⟩ := (hw.write i (bytes.take (UploadManager.taken token bytes))).rename hr
    · exact get_write _ _ _ _
    · rw [hpart, srv.getPartialFilePath_key hu.isUsernameOk] at hmoves
      have hapart : ¬ srv.partialKey token.temporaryFilenameStem <+: srv.partialKey v := by
        intro hpre
        have hsame := hpre.eq_of_length (by simp [ServerContext.partialKey, ServerContext.ownKey])
        exact hv (hname.trans (congrArg some (srv.partialKey_inj hsame)))
      have hdir' : (fs.write i (bytes.take (UploadManager.taken token bytes))).get srv.configKey = some .dir :=
        (get_write _ _ _ _).trans hdir
      have hbeside : ¬ token.path.cString.key <+: srv.partialKey v :=
        Moves.not_prefix_config hmoves hdir' (htarget token ht) (List.prefix_append _ _)
      rw [hmoves.get_eq, if_neg hbeside, if_neg hapart]
      exact get_write _ _ _ _
  · rw [hc]
    exact ⟨⟨hp.backup, fun j hj => by cases hj⟩, fun v _ => get_write _ _ _ _⟩

namespace Server

variable {S S' : Server} {a : Action}

theorem Acts.writesPartial {fd : Nat} (h : Acts srv S fd s a fs' s') (hS : ConfigClear srv S) (hown : s.OwnUpload srv)
    (hp : s.WritesPartial srv S.fs) (ha : ConfigAction srv S a) (found : S.lookup fd = some s) :
    s'.WritesPartial srv fs' ∧ Spares srv s.username S.fs fs' := by
  have hw := hS.sane.wellFormed
  have hs := hS.sane.lookup found
  have hkeeps := hS.sessions _ (mem_of_lookup found)
  cases h with
  | request mode effect =>
    exact ⟨effect.writesPartial hw hs mode hown hp, effect.spares hw hs (ha s found) hkeeps.current hS.config⟩
  | chunk mode handled =>
    exact hp.handleUpload handled hw hown (fun u hu => hS.sane.hasUser (mem_of_lookup found) hu) hS.config
      fun token ht => (hkeeps.upload token ht).2
  | send mode handled =>
    obtain ⟨mode', rfl⟩ := Session.handleDownloadManagerOutput_cases handled
    exact ⟨hp.same_manager rfl, .refl _ _ _⟩

theorem writesPartial_transition (hS : ConfigClear srv S) (hsep : Separate S) (hown : ∀ e ∈ S.sessions, e.2.OwnUpload srv)
    (hp : ∀ e ∈ S.sessions, e.2.WritesPartial srv S.fs) (ha : ConfigAction srv S a) (h : Transition srv S a S') :
    ∀ e ∈ S'.sessions, e.2.WritesPartial srv S'.fs := by
  intro e he
  cases h with
  | idle => exact hp e he
  | connect free =>
    rcases List.mem_append.mp he with he | he
    · exact hp e he
    · rw [List.mem_singleton.mp he]
      exact Session.writesPartial_new srv S.fs
  | @acts fd s s' fs' found acts fatal =>
    have hmem := mem_of_lookup found
    obtain ⟨hacted, hspared⟩ := acts.writesPartial hS (hown _ hmem) (hp _ hmem) ha found
    rcases mem_put he with rfl | ⟨he, hne⟩
    · apply hacted.same_manager
      exact killIf_uploadManager fatal s'
    · apply (hp e he).spared (hown e he) hspared
      intro v hv hv'
      exact hne (congrArg Prod.fst (hsep.users e he _ hmem v hv hv'))
  | @disconnect fd s action found =>
    have hmem := mem_of_lookup found
    have he' := (List.mem_filter.mp he).1
    have hspared : Spares srv none S.fs (s.uploadManager.destroy S.fs) :=
      UploadManager.destroy_spares hS.sane.wellFormed (hp _ hmem).backup
    apply (hp e he').spared (hown e he') hspared
    intro v _ hv
    cases hv

end Server

end TinDox
