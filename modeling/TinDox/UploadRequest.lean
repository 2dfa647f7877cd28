import TinDox.Effects

/-! Accepted uploads. The server announces an offset and then reads the rest of the file, byte
for byte, before it takes commands again; which file and how much of it comes from the request
or, for a retried upload, from the backup file alone. -/

namespace TinDox

variable {srv : ServerContext} {around : Surroundings} {fs fs' : FileSystem} {s s' : Session}

namespace ServerContext

theorem uploadFile_error {path : Path} {size : Nat} {e : ProtocolError}
    (h : srv.uploadFile around fs path size = .error (.protocol e)) : e.code ≠ .ok := by
  have hrefuse : ∀ {c : ProtocolCode}, c ≠ .ok → refuse c = .protocol e → e.code ≠ .ok := by
    rintro c hc ⟨⟩
    exact hc
  unfold uploadFile at h
  split at h
  · exact hrefuse (by decide) (Except.error.inj h)
  · split at h
    · rename_i he
      rw [(FileSystem.fsExists_eq_error.mp he).2] at h
      cases h
    · exact hrefuse (by decide) (Except.error.inj h)
    · rename_i he
      rw [(FileSystem.fsExists_eq_error.mp he).2] at h
      cases h
    · exact hrefuse (by decide) (Except.error.inj h)
    · rename_i he
      rw [FileSystem.fsSpace_error he] at h
      cases h
    · split at h
      · exact hrefuse (by decide) (Except.error.inj h)
      · split at h
        · exact hrefuse (by decide) (Except.error.inj h)
        · cases h

end ServerContext

theorem CommandExecutor.setCommand_error {c : ClientContext} {name : Bytes} {e : ProtocolError}
    (h : setCommand c name = .error (.protocol e)) : e.code ≠ .ok := by
  unfold setCommand at h
  repeat' split at h
  all_goals
    simp only [refuse, refuseWith, protocolError, Except.error.injEq, Exception.protocol.injEq,
      reduceCtorEq] at h
    try simp [← h]

theorem Ul.execute_error {w w' : World} {name : Path} {size : Nat} {retry : Bool} {e : ProtocolError}
    (h : Ul.execute srv around w name size retry = (w', .error (.protocol e))) : e.code ≠ .ok := by
  unfold Ul.execute at h
  split at h
  · rename_i cur token _ _
    cases retry with
    | false =>
      simp only [Bool.false_eq_true, if_false, Ul.startNewUpload] at h
      cases hu : srv.uploadFile around w.fs (cur / name) size with
      | error e' =>
        simp only [hu, Prod.mk.injEq, Except.error.injEq] at h
        exact ServerContext.uploadFile_error (hu.trans (congrArg _ h.2))
      | ok upload => simp [hu] at h
    | true =>
      simp only [if_true, Ul.retryUpload] at h
      split at h
      · rename_i w'' e' he
        simp only [Prod.mk.injEq, Except.error.injEq] at h
        obtain ⟨-, rfl⟩ := h
        split at he
        · simp only [refuse, protocolError, Prod.mk.injEq, Except.error.injEq, Exception.protocol.injEq] at he
          simp [← he.2]
        · split at he
          · simp at he
          · simp only [Prod.mk.injEq] at he
            unfold Ul.resumeUpload at he
            split at he
            · split at he
              · rename_i e' hu
                simp only [Except.error.injEq] at he
                exact ServerContext.uploadFile_error (hu.trans (congrArg _ he.2))
              · simp at he
            · simp only [refuse, protocolError, Except.error.injEq, Exception.protocol.injEq] at he
              simp [← he.2]
      · simp at h
  · simp at h

theorem UploadManager.startUpload_file {m m' : UploadManager} {token : UploadToken}
    (h : m.startUpload srv fs token = (fs', m', .ok ())) : m'.file.isSome := by
  rcases startUpload_cases srv fs m token with hs | ⟨fs₁, i, fs₂, out, -, -, -, hs⟩
  · simp [hs] at h
  · rw [hs] at h
    simp only [Prod.mk.injEq] at h
    simp [← h.2.1, opened]

theorem Session.startUpload_token {token : UploadToken} (ht : s.context.uploadToken = some token)
    (answer : Answer) : (Session.startUpload srv fs s answer).session.uploadManager.token = some token ∧
      (Session.startUpload srv fs s answer).session.context = { s.context with uploadToken := none } ∧
      ((Session.startUpload srv fs s answer).fatal = false →
        (Session.startUpload srv fs s answer).session.uploadManager.file.isSome) := by
  have hh := UploadManager.startUpload_token srv fs s.uploadManager token
  unfold Session.startUpload
  simp only [ht]
  split
  · rename_i heq
    rw [heq] at hh
    exact ⟨hh, rfl, fun _ => UploadManager.startUpload_file heq⟩
  · rename_i heq
    rw [heq] at hh
    exact ⟨hh, rfl, by simp⟩

theorem Session.refused_code {r : Request} {e : Exception} {a : Answer}
    (h : (Session.refused fs s r e).answer = some a) : ∃ e', e = .protocol e' ∧ a.code = e'.code := by
  cases e with
  | fatal => simp [refused] at h
  | protocol e' =>
    simp only [refused, Option.some.injEq] at h
    exact ⟨e', rfl, by rw [← h]⟩

theorem handleUpload_ok {t : UploadToken} {bytes rest : Bytes} (ht : s.uploadManager.token = some t)
    (ho : t.offset ≤ t.size) (hs : t.size < 2 ^ 64) (h : s.handleUpload fs bytes = (fs', s', .ok rest)) :
    rest = bytes.drop (t.size - t.offset) ∧
    (t.size - t.offset ≤ bytes.length ∧ s'.context = s.context.setMode .command ∨
      bytes.length < t.size - t.offset ∧ s'.context = s.context ∧
        s'.uploadManager = { s.uploadManager with token := some { t with offset := t.offset + bytes.length } }) := by
  obtain ⟨m, hc, rfl⟩ := Session.handleUpload_eq_ok h
  have hsize : ∀ t' ∈ s.uploadManager.token, t'.size < 2 ^ 64 := by
    intro t' ht'
    obtain rfl : t = t' := Option.some.inj (ht.symm.trans ht')
    exact hs
  obtain ⟨t', i, ht', -, hcase⟩ := UploadManager.commitBytes_ok hsize hc
  obtain rfl : t = t' := Option.some.inj (ht.symm.trans ht')
  rw [UploadManager.getRemainingBytes_eq ho hs] at hcase
  rcases hcase with ⟨hlen, -, rfl, rfl⟩ | ⟨hlen, -, rfl, rfl⟩
  · have hmin : min bytes.length (t.size - t.offset) = bytes.length := by omega
    refine ⟨?_, .inr ⟨hlen, by simp [UploadManager.hasFinished], ?_⟩⟩
    · rw [List.drop_eq_nil_of_le (by omega)]
    · rw [UploadManager.advance_eq ho hs, hmin]
  · exact ⟨rfl, .inl ⟨hlen, by simp [UploadManager.hasFinished]⟩⟩

theorem handleUpload_error {t : UploadToken} {bytes : Bytes} {e : Exception}
    (ht : s.uploadManager.token = some t) (hf : s.uploadManager.file.isSome) (ho : t.offset ≤ t.size)
    (hs : t.size < 2 ^ 64) (h : s.handleUpload fs bytes = (fs', s', .error e)) :
    t.size - t.offset ≤ bytes.length ∧
      ∃ (fs₁ : FileSystem) (e' : Errno), fs₁.rename s.uploadManager.partialFileName t.path = .error e' := by
  unfold Session.handleUpload at h
  rcases UploadManager.commitBytes_cases fs s.uploadManager bytes with
    ⟨hnone, -⟩ | ⟨t', i, ht', -, hcases⟩
  · rcases hnone with hnone | hnone
    · simp [hnone] at ht
    · simp [hnone] at hf
  · obtain rfl : t = t' := Option.some.inj (ht.symm.trans ht')
    rcases hcases with ⟨-, hc⟩ | ⟨he, ⟨fs₁, -, hc⟩ | ⟨e', hr, -⟩⟩
    · simp [hc] at h
    · simp [hc] at h
    · rw [UploadManager.complete_iff hs, UploadManager.getRemainingBytes_eq ho hs] at he
      exact ⟨he, _, e', hr⟩

/-- Chunks handed to a session as long as it is in upload mode: the input that is left when it
leaves that mode; `none` when the upload manager throws. -/
def uploadChunks : FileSystem → Session → List Bytes → Option (FileSystem × Session × Bytes)
  | fs, s, [] => some (fs, s, [])
  | fs, s, chunk :: chunks =>
    match s.handleUpload fs chunk with
    | (fs, s, .ok rest) =>
      if s.context.mode = .upload then uploadChunks fs s chunks else some (fs, s, rest ++ chunks.flatten)
    | (_, _, .error _) => none

/-- The session reads `count` bytes of upload data, however they arrive, and takes what follows
them as commands, unless the finished file cannot be renamed to `target`. -/
def ReadsExactly (count : Nat) (target : Path) (fs : FileSystem) (s : Session) : Prop :=
  ∀ chunks, chunks ≠ [] →
    match uploadChunks fs s chunks with
    | some (_, s', rest) =>
      chunks.flatten.length < count ∧ s'.context.mode = .upload ∧ rest = [] ∨
      count ≤ chunks.flatten.length ∧ s'.context.mode = .command ∧ rest = chunks.flatten.drop count
    | none =>
      count ≤ chunks.flatten.length ∧
        ∃ (fs₁ : FileSystem) (e : Errno), fs₁.rename s.uploadManager.partialFileName target = .error e

theorem readsExactly {t : UploadToken} (ht : s.uploadManager.token = some t) (hf : s.uploadManager.file.isSome)
    (ho : t.offset ≤ t.size) (hs : t.size < 2 ^ 64) (hm : s.context.mode = .upload) :
    ReadsExactly (t.size - t.offset) t.path fs s := by
  intro chunks
  induction chunks generalizing fs s t with
  | nil => simp
  | cons chunk chunks ih =>
    intro _
    rw [uploadChunks]
    rcases hu : s.handleUpload fs chunk with ⟨fs₁, s₁, e | rest₁⟩
    · obtain ⟨hlen, hrename⟩ := handleUpload_error ht hf ho hs hu
      exact ⟨by rw [List.flatten_cons, List.length_append]; omega, hrename⟩
    · obtain ⟨hrest, ⟨hlen, hc⟩ | ⟨hlen, hc, hmgr⟩⟩ := handleUpload_ok ht ho hs hu
      · simp only [hc, ClientContext.setMode, reduceCtorEq, if_false]
        refine .inr ⟨by rw [List.flatten_cons, List.length_append]; omega, trivial, ?_⟩
        rw [hrest, List.flatten_cons, List.drop_append_of_le_length hlen]
      · simp only [hc, hm, if_true]
        have hcount : t.size - t.offset = chunk.length + (t.size - (t.offset + chunk.length)) := by omega
        by_cases hne : chunks = []
        · subst chunks
          exact .inl ⟨by simpa using hlen, by rw [hc, hm], rfl⟩
        · have ht₁ : s₁.uploadManager.token = some { t with offset := t.offset + chunk.length } := by rw [hmgr]
          have hh := @ih fs₁ _ _ ht₁ (by rw [hmgr]; exact hf) (by simp; omega) hs (by rw [hc, hm]) hne
          simp only [hmgr] at hh
          rw [List.flatten_cons, List.length_append]
          split at hh
          · rcases hh with ⟨h1, h2, h3⟩ | ⟨h1, h2, h3⟩
            · exact .inl ⟨by omega, h2, h3⟩
            · refine .inr ⟨by omega, h2, ?_⟩
              rw [h3, hcount, List.drop_append]
              simp
          · exact ⟨by omega, hh.2⟩

/-- The upload a request is answered for is the one it names, and its offset is not past its
end. -/
def Requested (cur name : Path) (size : Nat) (a : Answer) (done : Executed) : Prop :=
  ∃ upload, done.session.uploadManager.token = some upload ∧ upload.path = cur / name ∧
    upload.size = size ∧ upload.offset ≤ size ∧ a.lines = [decimal upload.offset]

/-- The backup file of the user records the requested upload. -/
def RecordsRequested (srv : ServerContext) (fs : FileSystem) (username : Bytes) (path : Path) (size : Nat) :
    Prop :=
  ∃ sz off, Ul.parseBackup srv fs username = some ⟨some path.native, some sz, some off⟩ ∧
    toUnsigned sz = size ∧ toUnsigned off ≤ size

theorem executeCommand_ul {r : Request} {name : Path} {size : Nat} {retry : Bool} {a : Answer}
    (hr : r.name = ascii "ul") (hf : Ul.parseFields r.fields = .ok (.ul name size retry))
    (ha : (s.executeCommand srv around fs r).answer = some a) (hc : a.code = .ok) :
    ∃ fs₁ upload, AcceptsUpload srv around fs s.context r fs₁ upload ∧
      s.executeCommand srv around fs r =
        Session.startUpload srv fs₁ (s.uploading upload) ⟨.ok, r.name, [decimal upload.offset]⟩ := by
  unfold Session.executeCommand at ha ⊢
  cases hset : CommandExecutor.setCommand s.context r.name with
  | error e =>
    simp only [hset] at ha
    obtain ⟨e, rfl, he⟩ := Session.refused_code ha
    exact absurd (he ▸ hc) (CommandExecutor.setCommand_error hset)
  | ok n =>
    have hn := (CommandExecutor.setCommand_ok hset).1.symm.trans hr
    obtain rfl : n = .ul := by cases n <;> first | rfl | (revert hn; decide)
    simp only [hset, CommandExecutor.parseFields, hf, CommandExecutor.execute] at ha ⊢
    have hfail : ∀ {w e}, Ul.execute srv around ⟨fs, s.context⟩ name size retry = (w, .error e) → False := by
      intro w e h
      simp only [h] at ha
      obtain ⟨e, rfl, he⟩ := Session.refused_code ha
      exact Ul.execute_error h (he ▸ hc)
    rcases Ul.execute_cases srv around ⟨fs, s.context⟩ name size retry with
      ⟨e, h, -⟩ | ⟨cur, token, hcur, htoken, ⟨upload, rfl, hu, h⟩ |
        ⟨table, fs₁, removed, rfl, hb, hremoved, ⟨e, h, -⟩ | ⟨upload, hu, h⟩⟩⟩
    · exact (hfail h).elim
    · obtain ⟨rfl, -⟩ := ServerContext.uploadFile_ok hu
      rw [h]
      exact ⟨fs, _, .fresh hf hcur htoken hu, rfl⟩
    · exact (hfail h).elim
    · obtain ⟨path, sz, off, fresh, rfl, hup, rfl⟩ := Ul.resumeUpload_ok hu
      obtain ⟨rfl, -⟩ := ServerContext.uploadFile_ok hup
      have hoff : toUnsigned ((0 : Nat) + off) = toUnsigned off := by simp
      simp only [hoff] at h
      rw [h]
      exact ⟨fs₁, _, .resumed hf htoken hb hremoved hup, rfl⟩

/-- What an accepted `ul` leaves: a token from the request or from the backup file, and a session
in upload mode. -/
theorem accepted_upload {r : Request} {name cur : Path} {size : Nat} {retry : Bool} {token : AuthToken}
    {a : Answer} (hr : r.name = ascii "ul") (hf : Ul.parseFields r.fields = .ok (.ul name size retry))
    (hcur : s.context.currentPathLock = some cur) (htoken : s.context.authToken = some token)
    (ha : (s.executeCommand srv around fs r).answer = some a) (hc : a.code = .ok) :
    ∃ upload, (s.executeCommand srv around fs r).session.uploadManager.token = some upload ∧
      (s.executeCommand srv around fs r).session.context.mode = .upload ∧
      ((s.executeCommand srv around fs r).fatal = false →
        (s.executeCommand srv around fs r).session.uploadManager.file.isSome) ∧
      a.lines = [decimal upload.offset] ∧ upload.size < 2 ^ 64 ∧
      (retry = false ∧ upload.path = cur / name ∧ upload.size = size ∧ upload.offset = 0 ∨
        retry = true ∧ ∃ path sz off,
          Ul.parseBackup srv fs token.username = some ⟨some path, some sz, some off⟩ ∧
          upload.path = ⟨path⟩ ∧ upload.size = toUnsigned sz ∧ upload.offset = toUnsigned off) := by
  obtain ⟨fs₁, upload, hacc, he⟩ := executeCommand_ul hr hf ha hc
  rw [he, Session.startUpload_answer, Option.some.injEq] at ha
  obtain ⟨ht, hctx, hfile⟩ := @Session.startUpload_token srv fs₁ (s.uploading upload) upload rfl
    ⟨.ok, r.name, [decimal upload.offset]⟩
  rw [he]
  refine ⟨upload, ht, by rw [hctx]; rfl, hfile, by rw [← ha], hacc.bounded.1, ?_⟩
  cases hacc with
  | fresh parsed current user accepted =>
    simp only [hf, Except.ok.injEq, Command.ul.injEq] at parsed
    obtain ⟨rfl, rfl, rfl⟩ := parsed
    simp only [hcur, Option.some.injEq] at current
    subst current
    exact .inl ⟨rfl, rfl, rfl, rfl⟩
  | resumed parsed user backup taken accepted =>
    simp only [hf, Except.ok.injEq, Command.ul.injEq] at parsed
    obtain ⟨rfl, rfl, rfl⟩ := parsed
    simp only [htoken, Option.some.injEq] at user
    subst user
    exact .inr ⟨rfl, _, _, _, backup, rfl, rfl, rfl⟩

/-- An accepted `ul` is the requested upload exactly when it is not retried or the backup file
records that very upload; and then the server reads exactly the bytes the client has to send. -/
theorem accepted_upload_requested_iff (srv : ServerContext) (around : Surroundings) (fs : FileSystem)
    (s : Session) (r : Request) (name cur : Path) (size : Nat) (retry : Bool) (token : AuthToken) (a : Answer)
    (hr : r.name = ascii "ul") (hf : Ul.parseFields r.fields = .ok (.ul name size retry))
    (hcur : s.context.currentPathLock = some cur) (htoken : s.context.authToken = some token)
    (ha : (s.executeCommand srv around fs r).answer = some a) (hc : a.code = .ok) :
    (Requested cur name size a (s.executeCommand srv around fs r) ↔
      (retry = true → RecordsRequested srv fs token.username (cur / name) size)) ∧
    ∀ upload, (s.executeCommand srv around fs r).session.uploadManager.token = some upload →
      (s.executeCommand srv around fs r).fatal = false → upload.offset ≤ upload.size →
      ReadsExactly (upload.size - upload.offset) upload.path (s.executeCommand srv around fs r).fs
        (s.executeCommand srv around fs r).session := by
  obtain ⟨upload, ht, hm, hfile, hl, hs, hcases⟩ := accepted_upload hr hf hcur htoken ha hc
  constructor
  · constructor
    · rintro ⟨upload', ht', hp, hsize, ho, -⟩ hretry
      obtain rfl : upload = upload' := by simpa [ht] using ht'
      rcases hcases with ⟨hfalse, -⟩ | ⟨-, path, sz, off, hb, hpath, hsz, hoff⟩
      · simp [hretry] at hfalse
      · exact ⟨sz, off, by rw [hb, ← hp, hpath], by rw [← hsz, hsize], by rw [← hoff]; exact ho⟩
    · intro h
      rcases hcases with ⟨-, hp, hsz, ho⟩ | ⟨hretry, path, sz, off, hb, hpath, hsz, hoff⟩
      · exact ⟨upload, ht, hp, hsz, by omega, hl⟩
      · obtain ⟨sz', off', hb', hsz', hoff'⟩ := h hretry
        simp only [hb, Option.some.injEq, BackupTable.mk.injEq] at hb'
        obtain ⟨rfl, rfl, rfl⟩ := hb'
        exact ⟨upload, ht, hpath, by rw [hsz, hsz'], by rw [hoff]; exact hoff', hl⟩
  · intro upload' ht' hfatal ho
    obtain rfl : upload = upload' := by simpa [ht] using ht'
    exact readsExactly ht (hfile hfatal) ho hs hm

/-- The sample file system after an interrupted upload of `/r/x`, 2 of 5 bytes in. -/
def Sample.afterInterruption : FileSystem :=
  ⟨Sample.tree [(Sample.tds ++ [ascii "u.upload"], .file 0), (Sample.tds ++ [ascii "u.partial"], .file 1)],
    [UploadManager.backupText Sample.interrupted, ascii "ab"]⟩

def Sample.retry (name : String) (size : Nat) : Request :=
  ⟨ascii "ul", [Sample.string "name" name, ⟨ascii "size", .integer size⟩, ⟨ascii "retry", .boolean true⟩]⟩

theorem accepted_upload_requested_iff_x :
    let done := Sample.session.executeCommand Sample.server Sample.around Sample.afterInterruption (Sample.retry "x" 5)
    let a : Answer := ⟨.ok, ascii "ul", [ascii "2"]⟩
    (Requested ⟨ascii "/r"⟩ ⟨ascii "x"⟩ 5 a done ↔
      (true = true →
        RecordsRequested Sample.server Sample.afterInterruption (ascii "u") (⟨ascii "/r"⟩ / ⟨ascii "x"⟩) 5)) ∧
    ∀ upload, done.session.uploadManager.token = some upload → done.fatal = false →
      upload.offset ≤ upload.size →
      ReadsExactly (upload.size - upload.offset) upload.path done.fs done.session :=
  accepted_upload_requested_iff Sample.server Sample.around Sample.afterInterruption Sample.session
    (Sample.retry "x" 5) ⟨ascii "x"⟩ ⟨ascii "/r"⟩ 5 true ⟨ascii "u", 62⟩ _ rfl (by decide) rfl rfl (by decide) rfl

/-- A retry for another name and another size is accepted as the interrupted upload. -/
theorem accepted_upload_not_requested :
    let done := Sample.session.executeCommand Sample.server Sample.around Sample.afterInterruption (Sample.retry "y" 9)
    let a : Answer := ⟨.ok, ascii "ul", [ascii "2"]⟩
    done.answer = some a ∧ done.session.uploadManager.token = some Sample.interrupted ∧
    ¬ Requested ⟨ascii "/r"⟩ ⟨ascii "y"⟩ 9 a done := by
  intro done a
  have ht : done.session.uploadManager.token = some Sample.interrupted := by decide
  refine ⟨by decide, ht, ?_⟩
  rintro ⟨upload, hu, -, hs, -⟩
  obtain rfl : upload = Sample.interrupted := by simpa [ht, eq_comm] using hu
  revert hs
  decide

end TinDox
