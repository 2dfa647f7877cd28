import TinDox.CommandSpecs
import TinDox.FileSpecs
import TinDox.Parsing
import TinDox.Session

/-! Refused requests. A request that is answered with an error leaves the server and the client as
they were, except for a refused `ul` that has already removed the backup file it tried to
resume from. -/

namespace TinDox

variable {srv : ServerContext} {around : Surroundings} {fs : FileSystem} {s : Session} {r : Request}

/-- The request is an allowed `ul` with `retry`, and the user has a backup file to resume from. -/
def ResumesBackup (srv : ServerContext) (fs : FileSystem) (s : Session) (r : Request) : Prop :=
  CommandExecutor.setCommand s.context r.name = .ok .ul ∧
  (∃ name size, Ul.parseFields r.fields = .ok (.ul name size true)) ∧
  ∃ token, s.context.authToken = some token ∧ (Ul.parseBackup srv fs token.username).isSome

/-- Nothing has changed; a failed `auth` may have counted the attempt and killed the client. -/
def Unchanged (fs : FileSystem) (s : Session) (r : Request) (done : Executed) : Prop :=
  done.fs = fs ∧ (done.session = s ∨ r.name = ascii "auth" ∧
    ∃ alive count, done.session = { s with context := { s.context with alive := alive, authTryCount := count } })

theorem prune_ne_self {k : Key} (hk : k ≠ []) (h : (fs.get k).isSome) :
    { fs with tree := DirTree.prune fs.tree k } ≠ fs := by
  intro he
  have hg : FileSystem.get { fs with tree := DirTree.prune fs.tree k } k = none := by
    rw [FileSystem.get, DirTree.get_prune fs.tree hk, if_pos (List.prefix_refl k)]
  rw [he] at hg
  simp [hg] at h

theorem remove_backup_ne {username : Bytes} {table : BackupTable} {fs' : FileSystem} {removed : Bool}
    (hb : Ul.parseBackup srv fs username = some table)
    (hr : fs.remove (srv.getBackupFilePath username) = .ok (fs', removed)) : fs' ≠ fs := by
  unfold Ul.parseBackup FileSystem.readFile at hb
  rcases FileSystem.remove_ok hr with ⟨-, hnone⟩ | ⟨hres, hloc, -, rfl⟩
  · simp [hnone] at hb
  · refine prune_ne_self (FileSystem.locate_ok hloc).2.1 ?_
    by_contra hg
    have hget : fs.get (srv.getBackupFilePath username).cString.key = none := by simpa using hg
    simp [hres, FileSystem.read, hget] at hb

/-- What a command has changed when it throws a `ProtocolError`. -/
theorem execute_protocol_error {w w' : World} {command : Command} {e : ProtocolError}
    (h : CommandExecutor.execute srv around w command = (w', .error (.protocol e))) :
    (w' = w ∧ ∀ name size token, command = .ul name size true → w.client.authToken = some token →
      Ul.parseBackup srv w.fs token.username = none) ∨
    (∃ u p, command = .auth u p ∧ w.AfterFailedAuth w') ∨
    (∃ name size token table fs removed, command = .ul name size true ∧ w.client.authToken = some token ∧
      Ul.parseBackup srv w.fs token.username = some table ∧
      w.fs.remove (srv.getBackupFilePath token.username) = .ok (fs, removed) ∧ w' = { w with fs := fs }) := by
  have hsame : ∀ {e'}, (w, .error e') = (w', (.error (.protocol e) : Outcome)) → w' = w :=
    fun he => (congrArg Prod.fst he).symm
  cases command with
  | auth u p =>
    refine .inr (.inl ⟨u, p, rfl, ?_⟩)
    simp only [CommandExecutor.execute] at h
    rcases Auth.execute_cases srv around w u p with ⟨e', -, hw, -⟩ | ⟨token, -, -, hh | ⟨-, hh⟩⟩
    · rwa [h] at hw
    · simp [h] at hh
    · simp [h] at hh
  | bye => simp [CommandExecutor.execute] at h
  | exit => simp [CommandExecutor.execute] at h
  | logout => simp [CommandExecutor.execute] at h
  | cd path =>
    simp only [CommandExecutor.execute] at h
    rcases Cd.execute_cases srv w path with hh | ⟨-, hh⟩ <;> simp [h] at hh
  | cp path name =>
    simp only [CommandExecutor.execute] at h
    rcases Cp.execute_cases srv w path name with ⟨e', hh⟩ | ⟨-, hh⟩ | ⟨cur, new, fs, -, -, -, hh⟩
    · exact .inl ⟨hsame (hh.symm.trans h), by simp⟩
    · simp [h] at hh
    · simp [h] at hh
  | dl name offset =>
    simp only [CommandExecutor.execute] at h
    rcases Dl.execute_cases srv w name offset with ⟨e', hh⟩ | ⟨cur, token, -, -, -, hh⟩
    · exact .inl ⟨hsame (hh.symm.trans h), by simp⟩
    · simp [h] at hh
  | dls =>
    simp only [CommandExecutor.execute] at h
    rcases Dls.execute_cases w with ⟨e', hh⟩ | ⟨-, hh⟩
    · exact .inl ⟨hsame (hh.symm.trans h), by simp⟩
    · simp [h] at hh
  | ls path size mod =>
    have hw := Ls.execute_world srv around w path size mod
    simp only [CommandExecutor.execute] at h
    exact .inl ⟨by rw [← hw, h], by simp⟩
  | tree path =>
    have hw := Tree.execute_world srv w path
    simp only [CommandExecutor.execute] at h
    exact .inl ⟨by rw [← hw, h], by simp⟩
  | mkdir name =>
    simp only [CommandExecutor.execute] at h
    rcases Mkdir.execute_cases w name with ⟨e', hh⟩ | ⟨cur, fs, -, -, -, hh⟩
    · exact .inl ⟨hsame (hh.symm.trans h), by simp⟩
    · simp [h] at hh
  | mv path name =>
    simp only [CommandExecutor.execute] at h
    rcases Mv.execute_cases srv around w path name with ⟨e', hh⟩ | ⟨cur, fs, -, -, -, -, hh⟩
    · exact .inl ⟨hsame (hh.symm.trans h), by simp⟩
    · simp [h] at hh
  | name => simp only [CommandExecutor.execute] at h; split at h <;> simp at h
  | perms => simp only [CommandExecutor.execute] at h; split at h <;> simp at h
  | pwd => simp only [CommandExecutor.execute] at h; split at h <;> simp at h
  | rename oname nname =>
    simp only [CommandExecutor.execute] at h
    rcases Rename.execute_cases around w oname nname with
      ⟨e', hh⟩ | ⟨cur, -, -, -, ⟨-, hh⟩ | ⟨fs, -, -, hh⟩⟩
    · exact .inl ⟨hsame (hh.symm.trans h), by simp⟩
    · simp [h] at hh
    · simp [h] at hh
  | rm name =>
    simp only [CommandExecutor.execute] at h
    rcases Rm.execute_cases around w name with ⟨e', hh⟩ | ⟨cur, -, -, -, -, hfatal⟩
    · exact .inl ⟨hsame (hh.symm.trans h), by simp⟩
    · simpa using hfatal (.protocol e) (by rw [h])
  | ul name size retry =>
    simp only [CommandExecutor.execute] at h
    rcases Ul.execute_cases srv around w name size retry with
      ⟨e', hh, hnone⟩ | ⟨cur, token, -, ht, ⟨upload, -, -, hh⟩ | ⟨table, fs, removed, rfl, hb, hr, hh⟩⟩
    · have he : e' = .protocol e := by
        have := hh.symm.trans h
        simp only [Prod.mk.injEq, Except.error.injEq] at this
        exact this.2
      refine .inl ⟨hsame (hh.symm.trans h), fun n sz token hc ht => hnone token ht (by simp_all) ?_⟩
      simp [he]
    · simp [h] at hh
    · rcases hh with ⟨e', hh, -⟩ | ⟨upload, -, hh⟩
      · refine .inr (.inr ⟨name, size, token, table, fs, removed, rfl, ht, hb, hr, ?_⟩)
        exact (congrArg Prod.fst (hh.symm.trans h)).symm
      · simp [h] at hh

theorem accepted_code {answer a : Answer} (h : (Session.accepted srv fs s answer).answer = some a)
    (hc : answer.code = .ok) : a.code = .ok := by
  unfold Session.accepted at h
  split at h
  · simp at h
  · simp only [Session.startUpload_answer, Option.some.injEq] at h
    exact h ▸ hc
  · simp only [Option.some.injEq] at h
    exact h ▸ hc

/-- A refused request changes nothing exactly when it is not a retried upload that found a
backup file. -/
theorem refused_unchanged_iff (srv : ServerContext) (around : Surroundings) (fs : FileSystem) (s : Session)
    (r : Request) (a : Answer) (ha : (s.executeCommand srv around fs r).answer = some a)
    (hc : a.code ≠ .ok) :
    Unchanged fs s r (s.executeCommand srv around fs r) ↔ ¬ ResumesBackup srv fs s r := by
  have hrefused : ∀ e, Unchanged fs s r (Session.refused fs s r e) := by
    intro e
    cases e <;> exact ⟨rfl, .inl rfl⟩
  unfold Session.executeCommand at ha ⊢
  cases hset : CommandExecutor.setCommand s.context r.name with
  | error e => simpa [hrefused, ResumesBackup] using fun h => by simp [hset] at h
  | ok n =>
    simp only [hset] at ha ⊢
    cases hparse : CommandExecutor.parseFields srv fs s.context r.fields n with
    | error e =>
      simp only [hrefused, true_iff]
      rintro ⟨hul, ⟨name, size, hf⟩, -⟩
      obtain rfl : n = .ul := by simpa [hset] using hul
      simp [CommandExecutor.parseFields, hf] at hparse
    | ok command =>
      have hname := CommandExecutor.parseFields_commandName hparse
      simp only [hparse] at ha ⊢
      cases hex : CommandExecutor.execute srv around ⟨fs, s.context⟩ command with
      | mk w out =>
        simp only [hex] at ha ⊢
        cases out with
        | ok lines => exact absurd (accepted_code ha rfl) hc
        | error e =>
          cases e with
          | fatal => simp [Session.refused] at ha
          | protocol e =>
            simp only [Session.refused]
            rcases execute_protocol_error hex with
              ⟨rfl, hnone⟩ | ⟨u, p, rfl, alive, count, rfl⟩ | ⟨name, size, token, table, fs', removed, rfl, ht, hb, hr, rfl⟩
            · refine ⟨fun _ => ?_, fun _ => ⟨rfl, .inl rfl⟩⟩
              rintro ⟨hul, ⟨name, size, hf⟩, token, ht, hsome⟩
              obtain rfl : n = .ul := by simpa [hset] using hul
              simp only [CommandExecutor.parseFields, hf, Except.ok.injEq] at hparse
              simp [hnone name size token hparse.symm ht] at hsome
            · have hauth := (CommandExecutor.setCommand_ok hset).1
              obtain rfl : n = .auth := hname.symm
              refine ⟨fun _ => ?_, fun _ => ⟨rfl, .inr ⟨hauth, alive, count, rfl⟩⟩⟩
              rintro ⟨hul, -⟩
              simp [hset] at hul
            · obtain rfl : n = .ul := hname.symm
              have hne := remove_backup_ne hb hr
              refine ⟨fun hu => absurd hu.1 hne, fun hn => absurd ⟨hset, ⟨name, size, hparse⟩, token, ht, ?_⟩ hn⟩
              simp only at hb
              simp [hb]

/-- A client in `/r` asks for a directory that is there, while its backup file waits for a retried upload. -/
theorem refused_unchanged_iff_mkdir :
    let fs : FileSystem := ⟨Sample.tree [(Sample.tds ++ [ascii "u.upload"], .file 0), ([ascii "r", ascii "x"], .dir)],
      [UploadManager.backupText Sample.interrupted]⟩
    let r : Request := ⟨ascii "mkdir", [Sample.string "name" "x"]⟩
    let done := Sample.session.executeCommand Sample.server Sample.around fs r
    done.answer.map (·.code) = some .fileAlreadyExists ∧ Sample.session.context.currentPathLock = some ⟨ascii "/r"⟩ ∧
    (Unchanged fs Sample.session r done ↔ ¬ ResumesBackup Sample.server fs Sample.session r) := by
  intro fs r done
  refine ⟨by decide, rfl, refused_unchanged_iff Sample.server Sample.around fs Sample.session r
    ⟨.fileAlreadyExists, ascii "mkdir", [ascii "this directory already exists"]⟩ (by decide) (by decide)⟩

/-- A retried upload whose target has appeared meanwhile: the answer is 409, and the backup file
is gone. -/
theorem refused_retry_removes_backup :
    let fs : FileSystem := ⟨Sample.tree [(Sample.tds ++ [ascii "u.upload"], .file 0), ([ascii "r", ascii "x"], .dir)],
      [UploadManager.backupText Sample.interrupted]⟩
    let r : Request := ⟨ascii "ul", [Sample.string "name" "x", ⟨ascii "size", .integer 5⟩, ⟨ascii "retry", .boolean true⟩]⟩
    let done := Sample.session.executeCommand Sample.server Sample.around fs r
    done.answer.map (·.code) = some .fileAlreadyExists ∧
    (fs.get (Sample.tds ++ [ascii "u.upload"])).isSome ∧ done.fs.get (Sample.tds ++ [ascii "u.upload"]) = none ∧
    ¬ Unchanged fs Sample.session r done := by
  intro fs r done
  have hfs : done.fs ≠ fs := by decide
  exact ⟨by decide, by decide, by decide, fun h => hfs h.1⟩

end TinDox
