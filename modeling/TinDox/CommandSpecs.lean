import TinDox.Execution

/-! What each command can do, said once: either it throws with the world as it was, or it has
the one effect stated here. -/

namespace TinDox

variable {srv : ServerContext} {around : Surroundings} {w w' : World} {out : Outcome}

/-- A world that differs at most in what a failed `auth` may change. -/
def World.AfterFailedAuth (w w' : World) : Prop :=
  ∃ alive count, w' = { w with client := { w.client with alive := alive, authTryCount := count } }

theorem Auth.execute_cases (srv : ServerContext) (around : Surroundings) (w : World) (u p : Bytes) :
    (∃ e, (Auth.execute srv around w u p).2 = .error e ∧ w.AfterFailedAuth (Auth.execute srv around w u p).1 ∧
      ((Auth.execute srv around w u p).1.client.alive = w.client.alive ∨
        w.client.countFailedAuth.getAuthTryCount = Auth.maxTryCount ∧
          ∃ e', srv.authorizeUser around u p = .error (.protocol e') ∧ e'.code = .invalidCredentials)) ∨
    (∃ token, srv.authorizeUser around u p = .ok token ∧ w.client.authToken = none ∧
      let client := { w.client with authToken := some token, authTryCount := 0 }
      (Auth.execute srv around w u p = ({ w with client := client }, .error .fatal) ∨
        srv.isValidToLock w.fs srv.root.path ∧
        Auth.execute srv around w u p = ({ w with client := client.setPathLock srv.root.path }, .ok []))) := by
  have hself : w.AfterFailedAuth w := ⟨w.client.alive, w.client.authTryCount, rfl⟩
  unfold Auth.execute
  cases ha : srv.authorizeUser around u p with
  | error e =>
    cases e with
    | fatal => exact .inl ⟨_, rfl, hself, .inl rfl⟩
    | protocol e =>
      by_cases hc : e.code = .invalidCredentials
      · simp only [hc, if_true]
        refine .inl ⟨_, rfl, ?_⟩
        by_cases ht : w.client.countFailedAuth.getAuthTryCount = Auth.maxTryCount
        · rw [if_pos ht]
          exact ⟨⟨false, w.client.authTryCount + 1, rfl⟩, .inr ⟨ht, e, rfl, hc⟩⟩
        · rw [if_neg ht]
          exact ⟨⟨w.client.alive, w.client.authTryCount + 1, rfl⟩, .inl rfl⟩
      · simp only [hc, if_false]
        exact .inl ⟨_, rfl, hself, .inl trivial⟩
  | ok token =>
    by_cases ht : w.client.isAuthorized = true
    · simp only [ClientContext.setAuthToken, ht, if_true]
      exact .inl ⟨_, rfl, hself, .inl trivial⟩
    · have hnone : w.client.authToken = none := by simpa [ClientContext.isAuthorized] using ht
      refine .inr ⟨token, rfl, hnone, ?_⟩
      simp only [ClientContext.setAuthToken, ht, Bool.false_eq_true, if_false, ServerContext.lockPath]
      by_cases hl : srv.isValidToLock w.fs srv.root.path = true ∧ srv.root.path.isAbsolute = true
      · exact .inr ⟨hl.1, by simp [hl]⟩
      · exact .inl (by simp [hl])

theorem Cd.execute_cases (srv : ServerContext) (w : World) (path : Path) :
    Cd.execute srv w path = (w, .error .fatal) ∨
    w.client.currentPathLock.isSome ∧
      Cd.execute srv w path = ({ w with client := { w.client with currentPathLock := some path } },
        .ok [(srv.getRelativePathTo w.fs path).native]) := by
  unfold Cd.execute
  cases w.client.currentPathLock with
  | none => exact .inl rfl
  | some cur => exact .inr ⟨rfl, rfl⟩

theorem Cp.freePath_error {fs : FileSystem} {path name newPath : Path} {fuel copyNumber : Nat} {e : Exception}
    (h : freePath fs path name fuel copyNumber newPath = some (.error e)) : e = .fatal := by
  induction fuel generalizing copyNumber newPath with
  | zero => cases h
  | succ fuel ih =>
    unfold freePath at h
    cases hx : fs.fsExists newPath with
    | error e' =>
      simp only [hx, Option.some.injEq, Except.error.injEq] at h
      exact h ▸ (FileSystem.fsExists_eq_error.mp hx).2
    | ok b =>
      cases b with
      | true =>
        simp only [hx] at h
        exact ih h
      | false => simp [hx] at h

theorem Cp.execute_cases (srv : ServerContext) (w : World) (path name : Path) :
    (∃ e, Cp.execute srv w path name = (w, .error e)) ∨
    Cp.newPath w.fs path name = none ∧
      Cp.execute srv w path name = ({ w with client := w.client.stick }, .error .fatal) ∨
    ∃ cur new fs, w.client.currentPathLock = some cur ∧ Cp.newPath w.fs path name = some (.ok new) ∧
      w.fs.copyFile (cur / name) new = .ok fs ∧ Cp.execute srv w path name = ({ w with fs := fs }, .ok []) := by
  unfold Cp.execute
  cases w.client.currentPathLock with
  | none => exact .inl ⟨_, rfl⟩
  | some cur =>
    simp only
    rcases hnew : Cp.newPath w.fs path name with - | e | new
    · exact .inr (.inl ⟨rfl, rfl⟩)
    · exact .inl ⟨e, rfl⟩
    · simp only
      cases hc : w.fs.copyFile (cur / name) new with
      | ok fs => exact .inr (.inr ⟨cur, new, fs, rfl, rfl, hc, rfl⟩)
      | error e => cases e <;> exact .inl ⟨_, rfl⟩

theorem Dl.execute_cases (srv : ServerContext) (w : World) (name : Path) (offset : Nat) :
    (∃ e, Dl.execute srv w name offset = (w, .error e)) ∨
    ∃ cur token, w.client.currentPathLock = some cur ∧ srv.downloadFile w.fs (cur / name) = .ok token ∧
      offset ≤ token.size ∧
      Dl.execute srv w name offset =
        ({ w with client := { w.client with downloadToken := some { token with offset := offset } } },
          .ok [decimal (token.size - offset)]) := by
  unfold Dl.execute
  cases w.client.currentPathLock with
  | none => exact .inl ⟨_, rfl⟩
  | some cur =>
    simp only
    cases hd : srv.downloadFile w.fs (cur / name) with
    | error e => exact .inl ⟨_, rfl⟩
    | ok token =>
      by_cases ho : offset ≤ token.size
      · exact .inr ⟨cur, token, rfl, hd, ho, by simp [ho]⟩
      · simp only [ho, if_false]
        exact .inl ⟨_, rfl⟩

theorem Dls.execute_cases (w : World) :
    (∃ e, Dls.execute w = (w, .error e)) ∨
    w.client.downloadToken.isSome ∧
      Dls.execute w = ({ w with client := w.client.setMode .download }, .ok []) := by
  unfold Dls.execute
  by_cases hd : w.client.downloadToken.isSome = true
  · exact .inr ⟨hd, by simp [hd]⟩
  · rw [if_neg hd]
    exact .inl ⟨_, rfl⟩

theorem Ls.execute_world (srv : ServerContext) (around : Surroundings) (w : World) (path : Option Path)
    (size mod : Bool) : (Ls.execute srv around w path size mod).1 = w := by
  unfold Ls.execute
  cases Ls.directory w path <;> rfl

theorem Tree.execute_world (srv : ServerContext) (w : World) (path : Option Path) :
    (Tree.execute srv w path).1 = w := by
  unfold Tree.execute
  cases Ls.directory w path <;> rfl

theorem Mkdir.execute_cases (w : World) (name : Path) :
    (∃ e, Mkdir.execute w name = (w, .error e)) ∨
    ∃ cur fs, w.client.currentPathLock = some cur ∧ w.fs.pathExists (cur / name) = false ∧
      w.fs.createDirectory (cur / name) = .ok fs ∧ Mkdir.execute w name = ({ w with fs := fs }, .ok []) := by
  unfold Mkdir.execute
  cases w.client.currentPathLock with
  | none => exact .inl ⟨_, rfl⟩
  | some cur =>
    simp only
    rcases he : w.fs.fsExists (cur / name) with e | - | -
    · exact .inl ⟨e, rfl⟩
    · cases hc : w.fs.createDirectory (cur / name) with
      | ok fs => exact .inr ⟨cur, fs, rfl, (FileSystem.fsExists_eq_ok.mp he).2, hc, rfl⟩
      | error e => exact .inl ⟨_, rfl⟩
    · exact .inl ⟨_, rfl⟩

theorem renameOutcome_cases (w : World) (name unknown : Bytes) (result : Except Errno FileSystem) :
    (∃ e, renameOutcome w name unknown result = (w, .error e)) ∨
    ∃ fs, result = .ok fs ∧ renameOutcome w name unknown result = ({ w with fs := fs }, .ok []) := by
  cases result with
  | ok fs => exact .inr ⟨fs, rfl, rfl⟩
  | error e => cases e <;> exact .inl ⟨_, rfl⟩

/-- The test that guards `rm`, `rename` and `mv`. -/
def Surroundings.NotLocked (around : Surroundings) (path : Path) : Prop :=
  around.isPathLocked path = .ok false

theorem Surroundings.NotLocked.startsWith {path lock : Path} (h : around.NotLocked path)
    (hl : lock ∈ around.locks) : lock.startsWith path = false := by
  unfold NotLocked isPathLocked at h
  split at h
  · simp at h
  · simp only [PathLock.hasLockedPath, Except.ok.injEq, List.any_eq_false] at h
    simpa using h lock hl

theorem Mv.execute_cases (srv : ServerContext) (around : Surroundings) (w : World) (path name : Path) :
    (∃ e, Mv.execute srv around w path name = (w, .error e)) ∨
    ∃ cur fs, w.client.currentPathLock = some cur ∧ around.NotLocked (cur / name) ∧
      w.fs.pathExists (path / name) = false ∧ w.fs.rename (cur / name) (path / name) = .ok fs ∧
      Mv.execute srv around w path name = ({ w with fs := fs }, .ok []) := by
  unfold Mv.execute
  cases w.client.currentPathLock with
  | none => exact .inl ⟨_, rfl⟩
  | some cur =>
    simp only
    cases hl : around.isPathLocked (cur / name) with
    | error e => exact .inl ⟨_, rfl⟩
    | ok b =>
      cases b with
      | true => exact .inl ⟨_, rfl⟩
      | false =>
        simp only
        rcases he : w.fs.fsExists (path / name) with e | - | -
        · exact .inl ⟨e, rfl⟩
        · rcases renameOutcome_cases w name.native _ (w.fs.rename (cur / name) (path / name)) with
            ⟨e, h⟩ | ⟨fs, hr, h⟩
          · exact .inl ⟨e, h⟩
          · exact .inr ⟨cur, fs, rfl, hl, (FileSystem.fsExists_eq_ok.mp he).2, hr, h⟩
        · exact .inl ⟨_, rfl⟩

theorem Rename.execute_cases (around : Surroundings) (w : World) (oname nname : Path) :
    (∃ e, Rename.execute around w oname nname = (w, .error e)) ∨
    ∃ cur, w.client.currentPathLock = some cur ∧ w.fs.pathExists (cur / oname) = true ∧
      around.NotLocked (cur / oname) ∧
      ((cur / oname).equal (cur / nname) = true ∧ Rename.execute around w oname nname = (w, .ok []) ∨
        ∃ fs, w.fs.pathExists (cur / nname) = false ∧ w.fs.rename (cur / oname) (cur / nname) = .ok fs ∧
          Rename.execute around w oname nname = ({ w with fs := fs }, .ok [])) := by
  unfold Rename.execute
  cases w.client.currentPathLock with
  | none => exact .inl ⟨_, rfl⟩
  | some cur =>
    simp only
    rcases ho : w.fs.fsExists (cur / oname) with e | - | -
    · exact .inl ⟨e, rfl⟩
    · exact .inl ⟨_, rfl⟩
    · have ho' := (FileSystem.fsExists_eq_ok.mp ho).2
      rcases hl : around.isPathLocked (cur / oname) with e | - | -
      · exact .inl ⟨e, rfl⟩
      · simp only
        by_cases hq : (cur / oname).equal (cur / nname) = true
        · exact .inr ⟨cur, rfl, ho', hl, .inl ⟨hq, by simp [hq]⟩⟩
        · simp only [hq, if_false, Bool.false_eq_true]
          rcases he : w.fs.fsExists (cur / nname) with e | - | -
          · exact .inl ⟨e, rfl⟩
          · rcases renameOutcome_cases w oname.native _ (w.fs.rename (cur / oname) (cur / nname)) with
              ⟨e, h⟩ | ⟨fs, hr, h⟩
            · exact .inl ⟨e, h⟩
            · exact .inr ⟨cur, rfl, ho', hl, .inr ⟨fs, (FileSystem.fsExists_eq_ok.mp he).2, hr, h⟩⟩
          · exact .inl ⟨_, rfl⟩
      · exact .inl ⟨_, rfl⟩

theorem Rm.execute_cases (around : Surroundings) (w : World) (name : Path) :
    (∃ e, Rm.execute around w name = (w, .error e)) ∨
    ∃ cur, w.client.currentPathLock = some cur ∧ w.fs.pathExists (cur / name) = true ∧
      around.NotLocked (cur / name) ∧
      (Rm.execute around w name).1 = { w with fs := (w.fs.removeAll (cur / name)).1 } ∧
      ∀ e, (Rm.execute around w name).2 = .error e → e = .fatal := by
  unfold Rm.execute
  cases w.client.currentPathLock with
  | none => exact .inl ⟨_, rfl⟩
  | some cur =>
    simp only
    rcases ho : w.fs.fsExists (cur / name) with e | - | -
    · exact .inl ⟨e, rfl⟩
    · exact .inl ⟨_, rfl⟩
    · rcases hl : around.isPathLocked (cur / name) with e | - | -
      · exact .inl ⟨e, rfl⟩
      · refine .inr ⟨cur, rfl, (FileSystem.fsExists_eq_ok.mp ho).2, hl, ?_⟩
        rcases hr : w.fs.removeAll (cur / name) with ⟨fs, _ | count⟩ <;> simp
      · exact .inl ⟨_, rfl⟩

theorem ServerContext.downloadFile_ok {fs : FileSystem} {path : Path} {token : DownloadToken}
    (h : srv.downloadFile fs path = .ok token) : token.path = path ∧ fs.isRegularFile path = true := by
  unfold ServerContext.downloadFile at h
  split at h
  · split at h
    · rename_i hregular _
      obtain rfl := Except.ok.inj h
      exact ⟨rfl, hregular⟩
    · simp at h
  · simp at h

theorem ServerContext.uploadFile_ok {fs : FileSystem} {path : Path} {size : Nat} {upload : UploadToken}
    (h : srv.uploadFile around fs path size = .ok upload) :
    upload = ⟨path, size, 0, []⟩ ∧ path.isAbsolute = true ∧ fs.pathExists path = false ∧
      fs.pathExists path.parentPath = true ∧ size ≤ srv.uploadMaxSize ∧
      ∀ lock ∈ around.locks, lock.equal path = false := by
  unfold ServerContext.uploadFile at h
  by_cases habs : path.isAbsolute = true
  · rw [if_neg (by simpa using habs)] at h
    rcases hpath : fs.fsExists path with e | - | -
    · simp [hpath] at h
    · rcases hparent : fs.fsExists path.parentPath with e | - | -
      · simp [hpath, hparent] at h
      · simp [hpath, hparent] at h
      · rcases hspace : fs.fsSpace srv.root.path around.available with e | available
        · simp [hpath, hparent, hspace] at h
        · simp only [hpath, hparent, hspace] at h
          split at h
          · simp at h
          · rename_i hsize
            split at h
            · simp at h
            · rename_i hlocks
              exact ⟨(Except.ok.inj h).symm, habs, (FileSystem.fsExists_eq_ok.mp hpath).2,
                (FileSystem.fsExists_eq_ok.mp hparent).2, Nat.le_of_not_lt (not_or.mp hsize).1, by simpa using hlocks⟩
    · simp [hpath] at h
  · simp [habs] at h

theorem Ul.retryUpload_cases (srv : ServerContext) (around : Surroundings) (w : World) (token : AuthToken) :
    (∃ e, Ul.retryUpload srv around w token = (w, .error e) ∧
      (Ul.parseBackup srv w.fs token.username = none ∨ e = .fatal)) ∨
    ∃ table fs removed, Ul.parseBackup srv w.fs token.username = some table ∧
      w.fs.remove (srv.getBackupFilePath token.username) = .ok (fs, removed) ∧
      Ul.retryUpload srv around w token = ({ w with fs := fs }, Ul.resumeUpload srv around fs table) := by
  unfold Ul.retryUpload
  cases hb : Ul.parseBackup srv w.fs token.username with
  | none => exact .inl ⟨_, rfl, .inl rfl⟩
  | some table =>
    cases hr : w.fs.remove (srv.getBackupFilePath token.username) with
    | error e => exact .inl ⟨_, rfl, .inr rfl⟩
    | ok r =>
      obtain ⟨fs, removed⟩ := r
      exact .inr ⟨table, fs, removed, rfl, rfl, rfl⟩

theorem Ul.resumeUpload_ok {fs : FileSystem} {table : BackupTable} {upload : UploadToken}
    (h : Ul.resumeUpload srv around fs table = .ok upload) :
    ∃ path size offset fresh, table = ⟨some path, some size, some offset⟩ ∧
      srv.uploadFile around fs ⟨path⟩ (toUnsigned size) = .ok fresh ∧
      upload = { fresh with offset := toUnsigned (fresh.offset + offset) } := by
  unfold Ul.resumeUpload at h
  obtain ⟨path, size, offset⟩ := table
  split at h
  · rename_i path size offset hp hs ho
    simp only at hp hs ho
    cases hu : srv.uploadFile around fs ⟨path⟩ (toUnsigned size) with
    | error e => simp [hu] at h
    | ok fresh =>
      simp only [hu, Except.ok.injEq] at h
      exact ⟨path, size, offset, fresh, by simp [hp, hs, ho], hu, h.symm⟩
  · simp at h

theorem Ul.execute_cases (srv : ServerContext) (around : Surroundings) (w : World) (name : Path) (size : Nat)
    (retry : Bool) :
    (∃ e, Ul.execute srv around w name size retry = (w, .error e) ∧
      ∀ token, w.client.authToken = some token → retry = true → e ≠ .fatal →
        Ul.parseBackup srv w.fs token.username = none) ∨
    ∃ cur token, w.client.currentPathLock = some cur ∧ w.client.authToken = some token ∧
      ((∃ upload, retry = false ∧ srv.uploadFile around w.fs (cur / name) size = .ok upload ∧
          let upload := { upload with temporaryFilenameStem := token.username }
          Ul.execute srv around w name size retry =
            ({ w with client := { w.client with uploadToken := some upload, mode := .upload } },
              .ok [decimal upload.offset])) ∨
        ∃ table fs removed, retry = true ∧ Ul.parseBackup srv w.fs token.username = some table ∧
          w.fs.remove (srv.getBackupFilePath token.username) = .ok (fs, removed) ∧
          ((∃ e, Ul.execute srv around w name size retry = ({ w with fs := fs }, .error e) ∧
              Ul.resumeUpload srv around fs table = .error e) ∨
            ∃ upload, Ul.resumeUpload srv around fs table = .ok upload ∧
              let upload := { upload with temporaryFilenameStem := token.username }
              Ul.execute srv around w name size retry =
                (⟨fs, { w.client with uploadToken := some upload, mode := .upload }⟩,
                  .ok [decimal upload.offset]))) := by
  unfold Ul.execute
  cases hc : w.client.currentPathLock with
  | none => exact .inl ⟨_, rfl, by simp⟩
  | some cur =>
    cases ha : w.client.authToken with
    | none => exact .inl ⟨_, rfl, by simp⟩
    | some token =>
      cases retry with
      | false =>
        simp only [Bool.false_eq_true, if_false, Ul.startNewUpload]
        cases hu : srv.uploadFile around w.fs (cur / name) size with
        | error e => exact .inl ⟨e, rfl, by simp⟩
        | ok upload => exact .inr ⟨cur, token, rfl, rfl, .inl ⟨upload, trivial, hu, rfl⟩⟩
      | true =>
        simp only [if_true]
        rcases Ul.retryUpload_cases srv around w token with ⟨e, h, he⟩ | ⟨table, fs, removed, hb, hr, h⟩
        · rw [h]
          refine .inl ⟨e, rfl, ?_⟩
          rintro token' ⟨rfl⟩ - hne
          exact he.resolve_right hne
        · rw [h]
          refine .inr ⟨cur, token, rfl, rfl, .inr ⟨table, fs, removed, trivial, hb, hr, ?_⟩⟩
          cases hu : Ul.resumeUpload srv around fs table with
          | error e => exact .inl ⟨e, rfl, rfl⟩
          | ok upload => exact .inr ⟨upload, rfl, rfl⟩

/-- The commands that neither log in or out nor start a transfer. -/
def Command.isPlain : Command → Bool
  | .auth .. | .logout | .dls | .ul .. => false
  | _ => true

theorem CommandExecutor.execute_isPlain {srv : ServerContext} {around : Surroundings} {command : Command}
    (h : command.isPlain = true) (w : World) :
    (execute srv around w command).1.client.mode = w.client.mode ∧
    (execute srv around w command).1.client.authToken = w.client.authToken := by
  cases command with
  | auth u p => simp [Command.isPlain] at h
  | logout => simp [Command.isPlain] at h
  | dls => simp [Command.isPlain] at h
  | ul name size retry => simp [Command.isPlain] at h
  | bye | exit => exact ⟨rfl, rfl⟩
  | cd path =>
    simp only [execute]
    rcases Cd.execute_cases srv w path with hx | ⟨-, hx⟩ <;> rw [hx] <;> exact ⟨rfl, rfl⟩
  | cp path name =>
    simp only [execute]
    rcases Cp.execute_cases srv w path name with ⟨e, hx⟩ | ⟨-, hx⟩ | ⟨cur, new, fs', -, -, -, hx⟩ <;> rw [hx] <;> exact ⟨rfl, rfl⟩
  | dl name offset =>
    simp only [execute]
    rcases Dl.execute_cases srv w name offset with ⟨e, hx⟩ | ⟨cur, token, -, -, -, hx⟩ <;> rw [hx] <;> exact ⟨rfl, rfl⟩
  | ls path size mod => simp only [execute, Ls.execute_world, and_self]
  | tree path => simp only [execute, Tree.execute_world, and_self]
  | mkdir name =>
    simp only [execute]
    rcases Mkdir.execute_cases w name with ⟨e, hx⟩ | ⟨cur, fs', -, -, -, hx⟩ <;> rw [hx] <;> exact ⟨rfl, rfl⟩
  | mv path name =>
    simp only [execute]
    rcases Mv.execute_cases srv around w path name with ⟨e, hx⟩ | ⟨cur, fs', -, -, -, -, hx⟩ <;> rw [hx] <;>
      exact ⟨rfl, rfl⟩
  | name | perms | pwd =>
    simp only [execute]
    split <;> exact ⟨rfl, rfl⟩
  | rename oname nname =>
    simp only [execute]
    rcases Rename.execute_cases around w oname nname with
      ⟨e, hx⟩ | ⟨cur, -, -, -, ⟨-, hx⟩ | ⟨fs', -, -, hx⟩⟩ <;> rw [hx] <;> exact ⟨rfl, rfl⟩
  | rm name =>
    simp only [execute]
    rcases Rm.execute_cases around w name with ⟨e, hx⟩ | ⟨cur, -, -, -, hx, -⟩ <;> rw [hx] <;> exact ⟨rfl, rfl⟩

end TinDox
