import TinDox.Places
import TinDox.Runs
import TinDox.UploadRequest
import TinDox.Views

/-! Resumable uploads. A client sends a file in pieces and may lose its connection between any
two of them; in a new session it asks the server where to go on. What the server keeps between
the sessions, the partial file and the backup file, always stands for the bytes that were sent. -/

namespace TinDox

open FileSystem

variable {srv : ServerContext} {around : Surroundings} {fs fs' : FileSystem}

namespace UploadManager

variable {username : Bytes} {m m' : UploadManager} {token : UploadToken}

theorem startUpload_ok (hw : fs.WellFormed) (hu : UserTable.isUsernameOk username = true)
    (hstem : token.temporaryFilenameStem = username) (h : m.startUpload srv fs token = (fs', m', .ok ())) :
    ∃ i, m' = opened srv token i ∧ fs'.WellFormed ∧ fs'.get (srv.partialKey username) = some (.file i) ∧
      fs'.get (srv.backupKey username) = none ∧
      (fs'.contents i = [] ∧ (token.offset = 0 ∨ fs.get (srv.partialKey username) = none) ∨
        token.offset ≠ 0 ∧ fs.get (srv.partialKey username) = some (.file i) ∧
          fs'.contents i = fs.contents i) ∧
      ∀ j, j ≠ srv.partialKey username → j ≠ srv.backupKey username → fs'.view j = fs.view j := by
  have hpkey := srv.getPartialFilePath_key hu
  have hbkey := srv.getBackupFilePath_key hu
  have hne : srv.partialKey username ≠ srv.backupKey username := ServerContext.partialKey_ne_backupKey
  rcases startUpload_cases srv fs m token with hs | ⟨fs₁, i, fs₂, out, -, hopen, hback, hs⟩
  · simp [hs] at h
  · rw [hs] at h
    cases h
    rw [hstem] at hopen hback
    obtain ⟨hw₁, hg, -, hget, -⟩ := hw.openWrite hopen
    have hcontents := hw.contents_openWrite hopen
    rw [hpkey] at hg hget hcontents
    -- the backup file is not there or has been removed, and the partial file is left alone
    have hafter : fs'.WellFormed ∧ fs'.data = fs₁.data ∧ fs'.get (srv.backupKey username) = none ∧
        ∀ j, j ≠ srv.backupKey username → fs'.get j = fs₁.get j := by
      rcases hback with ⟨rfl, hout⟩ | ⟨removed, hr⟩
      · exact ⟨hw₁, rfl, ServerContext.get_backupKey_none hw₁ hu (by simpa [pathExists] using hout rfl), fun _ _ => rfl⟩
      · obtain ⟨hw₂, hd, hg₂⟩ := hw₁.remove hr
        rw [hbkey] at hg₂
        refine ⟨hw₂, hd, ?_, hg₂⟩
        rcases remove_ok hr with ⟨rfl, hnone⟩ | ⟨-, hl, -, rfl⟩
        · exact ServerContext.get_backupKey_none hw₁ hu hnone
        · obtain ⟨-, hk, -⟩ := locate_ok hl
          rw [hbkey] at hk ⊢
          simp [FileSystem.get, DirTree.get_prune fs₁.tree hk]
    obtain ⟨hw₂, hd, hnone, hget₂⟩ := hafter
    have hcont : fs'.contents i = fs₁.contents i := by rw [contents, contents, hd]
    refine ⟨i, rfl, hw₂, by rw [hget₂ _ hne, hg], hnone, ?_, fun j hj hj' => ?_⟩
    · rcases hcontents with ⟨hc, hoff⟩ | ⟨hoff, rfl, hg'⟩
      · exact .inl ⟨hcont.trans hc, by simpa using hoff⟩
      · exact .inr ⟨by simpa using hoff, hg', hcont⟩
    · rw [view_of_data (hget₂ j hj') hd]
      exact hw.view_openWrite hopen (by rwa [hpkey])

theorem createBackup_view (hw : fs.WellFormed) (hu : UserTable.isUsernameOk username = true)
    (hm : m.backupFileName = srv.getBackupFilePath username) (hb : fs.get (srv.backupKey username) = none)
    (hd : fs.get srv.configKey = some .dir) (token : UploadToken) :
    (createBackup fs m token).WellFormed ∧ ∀ j, (createBackup fs m token).view j =
      if j = srv.backupKey username then some (.file (backupText token)) else fs.view j := by
  have hn : ∀ n ∈ srv.backupKey username, IsName n := srv.ownKey_isName hu (by decide)
  have hz : ∀ n ∈ srv.backupKey username, (0 : Byte) ∉ n := srv.ownKey_noNul hu (by decide)
  have hk : srv.backupKey username ≠ [] := by simp [ServerContext.backupKey, ServerContext.ownKey]
  have hd' : fs.get (srv.backupKey username).dropLast = some .dir := by
    rw [ServerContext.backupKey, ServerContext.ownKey, List.dropLast_concat, hd]
  have hlocate := hw.locate_ofKey hk hn hz (srv.ownKey_short hu (by decide)) hd'
  have hopen : fs.openWrite m.backupFileName true =
      some (fs.create (srv.backupKey username) [], fs.data.length) := by
    rw [hm, ServerContext.getBackupFilePath_eq hu, FileSystem.openWrite, hw.resolve_ofKey_none hn hz hb,
      hlocate, Path.cString_ofKey hz, Path.endsInSlash_ofKey hk hn]
    simp
  have hw₁ := hw.create hk hb hd' (hw.locate_names hlocate) []
  have hg : (fs.create (srv.backupKey username) []).get (srv.backupKey username) =
      some (.file fs.data.length) := by simp [get_create hk hb]
  rw [createBackup, hopen]
  refine ⟨hw₁.write _ _, fun j => ?_⟩
  rw [hw₁.view_write hg, contents_create_new, List.nil_append, hw.view_create hk hb]
  split <;> rfl

end UploadManager

/-- An upload as its client sees it: who sends which file to which path. -/
structure Transfer where
  user : UserData
  path : Path
  content : Bytes

inductive Phase where
  | idle
  | sending (s : Session) (sent : Nat)
  | interrupted
  | finished

structure Resumable where
  fs : FileSystem
  phase : Phase

/-- The inode that the stream of the upload writes to. -/
def Resumable.stream (x : Resumable) : Option Nat :=
  match x.phase with
  | .sending s _ => s.uploadManager.file
  | _ => none

def Resumable.OnDisk (x : Resumable) (disk : FileSystem) : Prop := FileSystem.OnDisk x.stream x.fs disk

/-- A `ul` request for the transfer, in a new session of its user, that is answered with code 100
and throws nothing. The client goes on at the offset in the answer. -/
inductive Accepted (srv : ServerContext) (t : Transfer) (retry : Bool) (fs : FileSystem) : Executed → Nat → Prop
  | intro {around : Surroundings} {s : Session} {r : Request} {token : AuthToken} {cur name : Path} {sent : Nat}
      (user : s.context.authToken = some token) (same : token.username = t.user.name)
      (fresh : s.uploadManager = .new) (current : s.context.currentPathLock = some cur)
      (target : t.path = cur / name) (command : r.name = ascii "ul")
      (parsed : Ul.parseFields r.fields = .ok (.ul name t.content.length retry))
      (answered : (s.executeCommand srv around fs r).answer = some ⟨.ok, r.name, [decimal sent]⟩)
      (succeeds : (s.executeCommand srv around fs r).fatal = false) :
      Accepted srv t retry fs (s.executeCommand srv around fs r) sent

/-- What the client and the server do for the transfer: the upload is started; a piece of the file
arrives, and behind the last one anything may follow; the connection breaks; or the upload is
resumed. -/
inductive Own (srv : ServerContext) (t : Transfer) : Resumable → Resumable → Prop
  | start {fs : FileSystem} {done : Executed} {sent : Nat} (accepted : Accepted srv t false fs done sent) :
      Own srv t ⟨fs, .idle⟩ ⟨done.fs, .sending done.session sent⟩
  | chunk {fs fs' : FileSystem} {s s' : Session} {sent : Nat} {piece behind rest : Bytes}
      (part : piece <+: t.content.drop sent) (last : behind = [] ∨ sent + piece.length = t.content.length)
      (handled : s.handleUpload fs (piece ++ behind) = (fs', s', .ok rest)) :
      Own srv t ⟨fs, .sending s sent⟩
        ⟨fs', if s'.context.mode = .upload then .sending s' (sent + piece.length) else .finished⟩
  | disconnect {fs : FileSystem} {s : Session} {sent : Nat} :
      Own srv t ⟨fs, .sending s sent⟩ ⟨s.uploadManager.destroy fs, .interrupted⟩
  | resume {fs : FileSystem} {done : Executed} {sent : Nat} (accepted : Accepted srv t true fs done sent) :
      Own srv t ⟨fs, .interrupted⟩ ⟨done.fs, .sending done.session sent⟩

/-- Whatever else happens before the upload is finished leaves the two files of the user alone. -/
inductive Elsewhere (srv : ServerContext) (t : Transfer) : Resumable → Resumable → Prop
  | intro {fs fs' : FileSystem} {phase : Phase} (unfinished : phase ≠ .finished) (wellFormed : fs'.WellFormed)
      (alone : ∀ k ∈ [srv.partialKey t.user.name, srv.backupKey t.user.name],
        fs'.get k = fs.get k ∧ fs'.view k = fs.view k) : Elsewhere srv t ⟨fs, phase⟩ ⟨fs', phase⟩

def Transfer.Step (srv : ServerContext) (t : Transfer) (x y : Resumable) : Prop := Own srv t x y ∨ Elsewhere srv t x y

def Transfer.target (t : Transfer) : Key := t.path.cString.key

/-- The token of the transfer when `sent` bytes have arrived. -/
def Transfer.token (t : Transfer) (sent : Nat) : UploadToken := ⟨t.path, t.content.length, sent, t.user.name⟩

/-- What the server holds in each phase. -/
def Consistent (srv : ServerContext) (t : Transfer) (x : Resumable) : Prop :=
  match x.phase with
  | .idle => x.fs.WellFormed
  | .sending s sent =>
    x.fs.WellFormed ∧ t.content.length < 2 ^ 64 ∧ sent < t.content.length ∧ s.context.mode = .upload ∧
    ∃ i, s.uploadManager = .opened srv (t.token sent) i ∧
      x.fs.get (srv.partialKey t.user.name) = some (.file i) ∧ x.fs.contents i = t.content.take sent ∧
      x.fs.get (srv.backupKey t.user.name) = none
  | .interrupted =>
    x.fs.WellFormed ∧ t.content.length < 2 ^ 64 ∧ ∃ sent < t.content.length,
      x.fs.view (srv.partialKey t.user.name) = some (.file (t.content.take sent)) ∧
      x.fs.view (srv.backupKey t.user.name) = some (.file (UploadManager.backupText (t.token sent)))
  | .finished => x.fs.view t.target = some (.file t.content)

/-- The file is not uploaded onto one of the two files the server keeps for its user. -/
def Transfer.Apart (srv : ServerContext) (t : Transfer) : Prop :=
  t.target ≠ srv.partialKey t.user.name ∧ t.target ≠ srv.backupKey t.user.name

instance (srv : ServerContext) (t : Transfer) : Decidable (t.Apart srv) := inferInstanceAs (Decidable (_ ∧ _))

/-- The TOML parser reads back what a backup file of the transfer says. -/
def Transfer.ReadBack (srv : ServerContext) (t : Transfer) : Prop :=
  ∀ sent < t.content.length, srv.parse (UploadManager.backupText (t.token sent)) =
    some ⟨some t.path.native, some t.content.length, some sent⟩

instance (srv : ServerContext) (t : Transfer) : Decidable (t.ReadBack srv) :=
  inferInstanceAs (Decidable (∀ sent < _, _))

section Steps

variable {t : Transfer} {s s' : Session} {sent : Nat}

theorem taken_piece {piece behind : Bytes} (hlen : t.content.length < 2 ^ 64) (hsent : sent < t.content.length)
    (part : piece <+: t.content.drop sent) (last : behind = [] ∨ sent + piece.length = t.content.length) :
    UploadManager.taken (t.token sent) (piece ++ behind) = piece.length ∧
    UploadManager.advance (t.token sent) (piece ++ behind) = t.token (sent + piece.length) := by
  have hle := part.length_le
  rw [List.length_drop] at hle
  have hrem : UploadManager.getRemainingBytes (t.token sent) = t.content.length - sent :=
    toUnsigned_sub (Nat.le_of_lt hsent) hlen
  have htaken : UploadManager.taken (t.token sent) (piece ++ behind) = piece.length := by
    rw [UploadManager.taken, hrem, List.length_append]
    rcases last with rfl | hlast
    · rw [List.length_nil]
      omega
    · omega
  refine ⟨htaken, ?_⟩
  have hadd : toUnsigned ((t.token sent).offset + piece.length) = sent + piece.length :=
    toUnsigned_add (by simp only [Transfer.token]; omega)
  rw [UploadManager.advance, htaken, hadd]
  rfl

theorem Consistent.chunk {piece behind rest : Bytes} (hapart : t.Apart srv)
    (hu : UserTable.isUsernameOk t.user.name = true)
    (h : Consistent srv t ⟨fs, .sending s sent⟩) (part : piece <+: t.content.drop sent)
    (last : behind = [] ∨ sent + piece.length = t.content.length)
    (handled : s.handleUpload fs (piece ++ behind) = (fs', s', .ok rest)) :
    Consistent srv t ⟨fs', if s'.context.mode = .upload then .sending s' (sent + piece.length) else .finished⟩ ∧
    (s'.context.mode = .upload → fs'.view t.target = fs.view t.target) := by
  obtain ⟨hw, hlen, hsent, hmode, i, hm, hg, hc, hb⟩ := h
  simp only at hw hg hc hb
  obtain ⟨htaken, hadvance⟩ := taken_piece hlen hsent part last
  have hpiece : (piece ++ behind).take piece.length = piece := by simp
  have hle := part.length_le
  rw [List.length_drop] at hle
  have hcontent : t.content.take sent ++ piece = t.content.take (sent + piece.length) := by
    obtain ⟨more, hmore⟩ := part
    rw [List.take_add, ← hmore, List.take_left]
  have hwrite := hw.view_write hg piece
  rw [hc, hcontent] at hwrite
  have hg' : (fs.write i piece).get (srv.partialKey t.user.name) = some (.file i) := by simpa using hg
  unfold Session.handleUpload at handled
  rcases UploadManager.commitBytes_cases fs s.uploadManager (piece ++ behind) with
    ⟨hnone, -⟩ | ⟨token, i', ht, hi, ⟨hne, hd⟩ | ⟨he, ⟨fs₁, hr, hd⟩ | ⟨e, -, hd⟩⟩⟩
  · simp [hm, UploadManager.opened] at hnone
  · simp only [hm, UploadManager.opened, Option.some.injEq] at ht hi
    subst ht hi
    rw [htaken, hpiece, hadvance] at hd
    rw [hadvance] at hne
    have hne' : sent + piece.length ≠ t.content.length := hne
    simp only [hd, UploadManager.hasFinished, Option.isNone_some, Bool.false_eq_true, if_false,
      Prod.mk.injEq] at handled
    obtain ⟨rfl, rfl, -⟩ := handled
    simp only [hmode, if_true]
    refine ⟨⟨hw.write _ _, hlen, by omega, hmode, i, by rw [hm]; rfl, hg', ?_, by simpa using hb⟩, fun _ => ?_⟩
    · rw [contents_write, if_pos ⟨rfl, hw.inodes _ _ hg⟩, hc, hcontent]
    · rw [hwrite, if_neg hapart.1]
  · simp only [hm, UploadManager.opened, Option.some.injEq] at ht hi
    subst ht hi
    rw [hadvance] at he
    have he' : sent + piece.length = t.content.length := he
    simp only [hd, UploadManager.hasFinished, Option.isNone_none, if_true, Prod.mk.injEq] at handled
    obtain ⟨rfl, rfl, -⟩ := handled
    simp only [ClientContext.setMode, reduceCtorEq, if_false, IsEmpty.forall_iff, and_true]
    rw [htaken, hpiece, hm] at hr
    rcases ((hw.write i piece).rename hr).2 with ⟨-, hkeys⟩ | hmoves
    · exact absurd ((ServerContext.getPartialFilePath_key hu).symm.trans hkeys).symm hapart.1
    · have hmoves' : Moves (fs.write i piece) fs₁ (srv.partialKey t.user.name) t.target := by
        rw [← ServerContext.getPartialFilePath_key hu]
        exact hmoves
      have hfinal := hmoves'.view_eq t.target
      rw [if_pos (List.prefix_refl _), List.drop_length, List.append_nil, hwrite, if_pos rfl, he',
        List.take_length] at hfinal
      exact hfinal
  · simp [hd] at handled

theorem Consistent.disconnect (hapart : t.Apart srv) (hu : UserTable.isUsernameOk t.user.name = true)
    (h : Consistent srv t ⟨fs, .sending s sent⟩) :
    Consistent srv t ⟨s.uploadManager.destroy fs, .interrupted⟩ ∧
      (s.uploadManager.destroy fs).view t.target = fs.view t.target := by
  obtain ⟨hw, hlen, hsent, -, i, hm, hg, hc, hb⟩ := h
  simp only at hw hg hc hb
  have hd : fs.get srv.configKey = some .dir := by
    have hh := hw.closed (srv.partialKey t.user.name) (by simp [ServerContext.partialKey, ServerContext.ownKey])
      (Option.isSome_iff_exists.mpr ⟨_, hg⟩)
    rwa [ServerContext.partialKey, ServerContext.ownKey, List.dropLast_concat] at hh
  have hdestroy : s.uploadManager.destroy fs =
      (UploadManager.opened srv (t.token sent) i).createBackup fs (t.token sent) := by
    rw [hm]
    rfl
  obtain ⟨hw', hview⟩ := @UploadManager.createBackup_view srv fs t.user.name
    (UploadManager.opened srv (t.token sent) i) hw hu rfl hb hd (t.token sent)
  rw [hdestroy]
  refine ⟨⟨hw', hlen, sent, hsent, ?_, ?_⟩, ?_⟩
  · rw [hview, if_neg ServerContext.partialKey_ne_backupKey, view_file hg, hc]
  · rw [hview, if_pos rfl]
  · rw [hview, if_neg hapart.2]

theorem startUpload_not_fatal {answer : Answer} {upload : UploadToken} (ht : s.context.uploadToken = some upload)
    (h : (Session.startUpload srv fs s answer).fatal = false) :
    ∃ fs' m', s.uploadManager.startUpload srv fs upload = (fs', m', .ok ()) ∧
      (Session.startUpload srv fs s answer).fs = fs' ∧
      (Session.startUpload srv fs s answer).session =
        { s with context := { s.context with uploadToken := none }, uploadManager := m' } := by
  obtain ⟨hfs, hs⟩ := @Session.startUpload_eq srv fs s upload ht answer
  rw [hfs, hs]
  simp only [Session.startUpload, ht] at h
  rcases hm : s.uploadManager.startUpload srv fs upload with ⟨fs', m', e | u⟩
  · simp [hm] at h
  · exact ⟨fs', m', rfl, rfl, rfl⟩

theorem AcceptsUpload.token_eq {c : ClientContext} {r : Request} {token : AuthToken} {cur name : Path}
    {retry : Bool} {off : Nat} {upload : UploadToken} (hu : UserTable.isUsernameOk t.user.name = true)
    (hw : fs.WellFormed) (user : c.authToken = some token) (same : token.username = t.user.name)
    (current : c.currentPathLock = some cur) (target : t.path = cur / name)
    (parsed : Ul.parseFields r.fields = .ok (.ul name t.content.length retry))
    (hfresh : retry = false → off = 0)
    (hretry : retry = true → t.content.length < 2 ^ 64 ∧ off < t.content.length ∧
      Ul.parseBackup srv fs t.user.name = some ⟨some t.path.native, some t.content.length, some off⟩)
    (h : AcceptsUpload srv around fs c r fs' upload) :
    upload = t.token off ∧ fs'.WellFormed ∧ t.content.length < 2 ^ 64 ∧
      ∀ j, j ≠ srv.backupKey t.user.name → fs'.get j = fs.get j ∧ fs'.view j = fs.view j := by
  have hbound := h.bounded.1
  cases h with
  | fresh parsed' current' user' accepted =>
    simp only [parsed, Except.ok.injEq, Command.ul.injEq] at parsed'
    obtain ⟨rfl, rfl, rfl⟩ := parsed'
    obtain rfl : cur = _ := by simpa [current] using current'
    obtain rfl : token = _ := by simpa [user] using user'
    refine ⟨?_, hw, hbound, fun _ _ => ⟨rfl, rfl⟩⟩
    rw [Transfer.token, target, same, hfresh rfl]
  | resumed parsed' user' backup taken accepted =>
    simp only [parsed, Except.ok.injEq, Command.ul.injEq] at parsed'
    obtain ⟨-, -, rfl⟩ := parsed'
    obtain rfl : token = _ := by simpa [user] using user'
    obtain ⟨hlen, hoff, hb⟩ := hretry rfl
    rw [same, hb] at backup
    simp only [Option.some.injEq, BackupTable.mk.injEq] at backup
    obtain ⟨rfl, rfl, rfl⟩ := backup
    have hsize : toUnsigned t.content.length = t.content.length := by
      unfold toUnsigned
      omega
    have hoffset : toUnsigned off = off := by
      unfold toUnsigned
      omega
    obtain ⟨hw', hd, hg⟩ := hw.remove taken
    rw [same, ServerContext.getBackupFilePath_key hu] at hg
    refine ⟨?_, hw', hlen, fun j hj => ⟨hg j hj, view_of_data (hg j hj) hd⟩⟩
    rw [hsize, hoffset, same]
    rfl

theorem Accepted.sending {retry : Bool} {done : Executed} {off : Nat} (hapart : t.Apart srv)
    (hu : UserTable.isUsernameOk t.user.name = true) (hw : fs.WellFormed) (hoff : off < t.content.length)
    (hfresh : retry = false → off = 0)
    (hretry : retry = true → t.content.length < 2 ^ 64 ∧ off < t.content.length ∧
      Ul.parseBackup srv fs t.user.name = some ⟨some t.path.native, some t.content.length, some off⟩)
    (hpart : off = 0 ∨ fs.view (srv.partialKey t.user.name) = some (.file (t.content.take off)))
    (h : Accepted srv t retry fs done sent) :
    Consistent srv t ⟨done.fs, .sending done.session sent⟩ ∧
      done.fs.view t.target = fs.view t.target := by
  obtain ⟨user, same, fresh, current, target, command, parsed, answered, succeeds⟩ := h
  obtain ⟨fs₁, upload, hacc, he⟩ := executeCommand_ul command parsed answered rfl
  obtain ⟨rfl, hw₁, hlen, hsame⟩ :=
    hacc.token_eq hu hw user same current target parsed hfresh hretry
  rw [he] at answered succeeds ⊢
  rw [Session.startUpload_answer] at answered
  simp only [Option.some.injEq, Answer.mk.injEq, List.cons.injEq, and_true, true_and] at answered
  obtain rfl : off = _ := by simpa [digitsValue_decimal, Transfer.token] using congrArg digitsValue answered
  obtain ⟨fs₂, m, hstart, hfs, hs⟩ := startUpload_not_fatal rfl succeeds
  rw [hfs, hs]
  obtain ⟨i, rfl, hw₂, hg, hb, hcontents, hview⟩ := UploadManager.startUpload_ok hw₁ hu rfl hstart
  obtain ⟨hgetp, hviewp⟩ := hsame _ ServerContext.partialKey_ne_backupKey
  refine ⟨⟨hw₂, hlen, hoff, rfl, i, rfl, hg, ?_, hb⟩, ?_⟩
  · rcases hcontents with ⟨hc, hzero | hnone⟩ | ⟨hne, hg', hc⟩
    · have hzero' : off = 0 := hzero
      simpa [hzero'] using hc
    · rcases hpart with rfl | hv
      · simpa using hc
      · rw [← hviewp, view_eq_none.mpr hnone] at hv
        simp at hv
    · rcases hpart with rfl | hv
      · exact absurd rfl hne
      · rw [← hviewp, view_file hg'] at hv
        simp only [Option.some.injEq, DirTree.Node.file.injEq] at hv
        exact hc.trans hv
  · rw [hview _ hapart.1 hapart.2, (hsame _ hapart.2).2]

theorem parseBackup_of_view (hu : UserTable.isUsernameOk t.user.name = true) (hread : t.ReadBack srv)
    (hw : fs.WellFormed) (hsent : sent < t.content.length)
    (hb : fs.view (srv.backupKey t.user.name) = some (.file (UploadManager.backupText (t.token sent)))) :
    Ul.parseBackup srv fs t.user.name = some ⟨some t.path.native, some t.content.length, some sent⟩ := by
  obtain ⟨i, hi, -⟩ := view_eq_file.mp hb
  have hres := srv.resolve_getBackupFilePath hw hu (Option.isSome_iff_exists.mpr ⟨_, hi⟩)
  simp [Ul.parseBackup, readFile, hres, read_eq_some.mpr hb, hread sent hsent]

theorem Consistent.resume {done : Executed} (hapart : t.Apart srv) (hu : UserTable.isUsernameOk t.user.name = true)
    (hread : t.ReadBack srv) (h : Consistent srv t ⟨fs, .interrupted⟩) (accepted : Accepted srv t true fs done sent) :
    Consistent srv t ⟨done.fs, .sending done.session sent⟩ ∧ done.fs.view t.target = fs.view t.target := by
  obtain ⟨hw, hlen, off, hoff, hp, hb⟩ := h
  exact accepted.sending hapart hu hw hoff (by simp)
    (fun _ => ⟨hlen, hoff, parseBackup_of_view hu hread hw hoff hb⟩) (.inr hp)

/-- What is done for the transfer keeps the files consistent, and does not touch the target until
the upload is finished. -/
theorem Consistent.own {x y : Resumable} (hapart : t.Apart srv) (hu : UserTable.isUsernameOk t.user.name = true)
    (hpos : 0 < t.content.length) (hread : t.ReadBack srv) (h : Consistent srv t x) (hs : Own srv t x y) :
    Consistent srv t y ∧ (y.phase ≠ .finished → y.fs.view t.target = x.fs.view t.target) := by
  cases hs with
  | start accepted =>
    obtain ⟨hc, hv⟩ := accepted.sending hapart hu h hpos (fun _ => rfl) (by simp) (.inl rfl)
    exact ⟨hc, fun _ => hv⟩
  | @chunk fs fs' s s' sent piece behind rest part last handled =>
    obtain ⟨hc, hv⟩ := h.chunk hapart hu part last handled
    refine ⟨hc, fun hne => hv ?_⟩
    by_contra hmode
    simp [hmode] at hne
  | disconnect =>
    obtain ⟨hc, hv⟩ := h.disconnect hapart hu
    exact ⟨hc, fun _ => hv⟩
  | resume accepted =>
    obtain ⟨hc, hv⟩ := h.resume hapart hu hread accepted
    exact ⟨hc, fun _ => hv⟩

theorem Consistent.elsewhere {x y : Resumable} (h : Consistent srv t x) (hs : Elsewhere srv t x y) :
    Consistent srv t y := by
  obtain ⟨unfinished, hw, alone⟩ := hs
  rename_i fs fs' phase
  obtain ⟨hgp, hvp⟩ := alone (srv.partialKey t.user.name) (by simp)
  obtain ⟨hgb, hvb⟩ := alone (srv.backupKey t.user.name) (by simp)
  cases phase with
  | idle => exact hw
  | finished => exact absurd rfl unfinished
  | interrupted =>
    obtain ⟨-, hlen, sent, hsent, hp, hb⟩ := h
    exact ⟨hw, hlen, sent, hsent, hvp.trans hp, hvb.trans hb⟩
  | sending s sent =>
    obtain ⟨-, hlen, hsent, hmode, i, hm, hg, hc, hb⟩ := h
    refine ⟨hw, hlen, hsent, hmode, i, hm, hgp.trans hg, ?_, hgb.trans hb⟩
    rw [view_file hg, view_file (hgp.trans hg)] at hvp
    simp only [Option.some.injEq, DirTree.Node.file.injEq] at hvp
    exact hvp.trans hc

end Steps

/-- What the server keeps for the transfer: the bytes that were sent are in the partial file, or
the stream into it still has the last of them; the token in use or the backup file says how many
they are; and a finished upload is the file. Once the stream is closed, all of it is on the disk. -/
def Kept (srv : ServerContext) (t : Transfer) (x : Resumable) : Prop :=
  match x.phase with
  | .idle => True
  | .sending s sent =>
    sent ≤ t.content.length ∧ x.fs.view (srv.partialKey t.user.name) = some (.file (t.content.take sent)) ∧
    (∃ token, s.uploadManager.token = some token ∧ token.path = t.path ∧ token.size = t.content.length ∧
      token.offset = sent ∧ UploadManager.getRemainingBytes token = t.content.length - sent) ∧
    ∀ disk, x.OnDisk disk → ∃ written, disk.view (srv.partialKey t.user.name) = some (.file written) ∧
      written <+: t.content.take sent
  | .interrupted =>
    ∃ sent ≤ t.content.length, ∀ disk, x.OnDisk disk →
      disk.view (srv.partialKey t.user.name) = some (.file (t.content.take sent)) ∧
      Ul.parseBackup srv disk t.user.name = some ⟨some t.path.native, some t.content.length, some sent⟩
  | .finished => ∀ disk, x.OnDisk disk → disk.view t.target = some (.file t.content)

theorem Consistent.kept {t : Transfer} {x : Resumable} (hu : UserTable.isUsernameOk t.user.name = true)
    (hread : t.ReadBack srv) (h : Consistent srv t x) : Kept srv t x := by
  obtain ⟨fs, phase⟩ := x
  cases phase with
  | idle => trivial
  | finished =>
    intro disk hdisk
    rw [FileSystem.OnDisk.eq hdisk]
    exact h
  | interrupted =>
    obtain ⟨hw, -, sent, hsent, hp, hb⟩ := h
    refine ⟨sent, Nat.le_of_lt hsent, fun disk hdisk => ?_⟩
    rw [FileSystem.OnDisk.eq hdisk]
    exact ⟨hp, parseBackup_of_view hu hread hw hsent hb⟩
  | sending s sent =>
    obtain ⟨hw, hlen, hsent, -, i, hm, hg, hc, -⟩ := h
    refine ⟨Nat.le_of_lt hsent, by rw [view_file hg, hc], ⟨t.token sent, by rw [hm]; rfl, rfl, rfl, rfl, ?_⟩, ?_⟩
    · exact toUnsigned_sub (Nat.le_of_lt hsent) hlen
    · intro disk hdisk
      exact ⟨disk.contents i, view_file ((hdisk.get _).trans hg), hc ▸ hdisk.written i⟩

/-- Only the partial file can be incomplete on the disk. -/
theorem Consistent.onDisk {t : Transfer} {x : Resumable} {disk : FileSystem} (hapart : t.Apart srv)
    (h : Consistent srv t x) (hdisk : x.OnDisk disk) : disk.view t.target = x.fs.view t.target := by
  refine FileSystem.OnDisk.view hdisk ?_
  obtain ⟨fs, phase⟩ := x
  cases phase with
  | idle | interrupted | finished => simp [Resumable.stream]
  | sending s sent =>
    obtain ⟨hw, -, -, -, i, hm, hg, -⟩ := h
    intro j hj hget
    obtain rfl : i = j := by simpa [Resumable.stream, hm, UploadManager.opened] using hj
    exact hapart.1 (hw.unique _ _ _ hget hg)

/-- Whatever is interrupted and resumed, in every state the server keeps the bytes that were sent,
nothing reaches the target before the last of them, and then the target is the file. -/
theorem transfer_kept (srv : ServerContext) (t : Transfer) (fs : FileSystem) (x : Resumable)
    (huser : t.user ∈ srv.users) (hpos : 0 < t.content.length) (hread : t.ReadBack srv) (hapart : t.Apart srv)
    (hw : fs.WellFormed) (h : Relation.ReflTransGen (t.Step srv) ⟨fs, .idle⟩ x) :
    Kept srv t x ∧ ∀ y, Own srv t x y → y.phase ≠ .finished → ∀ disk disk', x.OnDisk disk → y.OnDisk disk' →
      disk'.view t.target = disk.view t.target := by
  have hu := srv.usernamesOk _ huser
  have hc : Consistent srv t x := by
    induction h with
    | refl => exact hw
    | tail _ hs ih =>
      rcases hs with hs | hs
      · exact (ih.own hapart hu hpos hread hs).1
      · exact ih.elsewhere hs
  refine ⟨hc.kept hu hread, fun y hy hunfinished disk disk' hdisk hdisk' => ?_⟩
  obtain ⟨hc', htarget⟩ := hc.own hapart hu hpos hread hy
  rw [hc'.onDisk hapart hdisk', hc.onDisk hapart hdisk]
  exact htarget hunfinished

namespace Sample

def transfer (path : String) : Transfer := ⟨⟨ascii "u", ascii "pw", 62⟩, ⟨ascii path⟩, ascii "abcde"⟩

def parsing (t : Transfer) : ServerContext :=
  { server with
    parse := fun b =>
      ((List.range t.content.length).find? (fun sent => b = UploadManager.backupText (t.token sent))).map
        (fun sent => ⟨some t.path.native, some t.content.length, some sent⟩) }

def sessionIn (cur : String) : Session :=
  { session with context := { session.context with currentPathLock := some ⟨ascii cur⟩ } }

def ul (name : String) (retry : Bool) : Request :=
  ⟨ascii "ul", [string "name" name, ⟨ascii "size", .integer 5⟩, ⟨ascii "retry", .boolean retry⟩]⟩

def executed (t : Transfer) (cur name : String) (retry : Bool) (fs : FileSystem) : Executed :=
  (sessionIn cur).executeCommand (parsing t) Sample.around fs (ul name retry)

def started (t : Transfer) (cur name : String) : Resumable :=
  ⟨(executed t cur name false ⟨tree [], []⟩).fs, .sending (executed t cur name false ⟨tree [], []⟩).session 0⟩

def halfway (t : Transfer) (cur name : String) : FileSystem × Session × Except Exception Bytes :=
  (executed t cur name false ⟨tree [], []⟩).session.handleUpload (executed t cur name false ⟨tree [], []⟩).fs
    (ascii "ab")

def broken (t : Transfer) (cur name : String) : FileSystem :=
  (halfway t cur name).2.1.uploadManager.destroy (halfway t cur name).1

end Sample

theorem Sample.accepted {t : Transfer} {cur name : String} {retry : Bool} {fs : FileSystem} {sent : Nat}
    (huser : t.user.name = ascii "u") (hpath : t.path = ⟨ascii cur⟩ / ⟨ascii name⟩)
    (hparsed : Ul.parseFields (ul name retry).fields = .ok (.ul ⟨ascii name⟩ t.content.length retry))
    (hanswer : (executed t cur name retry fs).answer = some ⟨.ok, ascii "ul", [decimal sent]⟩)
    (hfatal : (executed t cur name retry fs).fatal = false) :
    Accepted (parsing t) t retry fs (executed t cur name retry fs) sent := by
  have htoken : (sessionIn cur).context.authToken = some ⟨ascii "u", 62⟩ := rfl
  exact .intro htoken huser.symm rfl rfl hpath rfl hparsed hanswer hfatal

theorem Sample.reaches_halfway {t : Transfer} {cur name : String}
    (accepted : Accepted (parsing t) t false ⟨tree [], []⟩ (executed t cur name false ⟨tree [], []⟩) 0)
    (part : ascii "ab" <+: t.content) (handled : (halfway t cur name).2.2 = .ok [])
    (hmode : (halfway t cur name).2.1.context.mode = .upload) :
    Own (parsing t) t ⟨⟨tree [], []⟩, .idle⟩ (started t cur name) ∧
    Own (parsing t) t (started t cur name)
      ⟨(halfway t cur name).1, .sending (halfway t cur name).2.1 (0 + (ascii "ab").length)⟩ := by
  refine ⟨.start accepted, ?_⟩
  have handled' : (executed t cur name false ⟨tree [], []⟩).session.handleUpload
      (executed t cur name false ⟨tree [], []⟩).fs (ascii "ab" ++ []) =
        ((halfway t cur name).1, (halfway t cur name).2.1, .ok []) := by
    rw [List.append_nil, ← handled, ← halfway]
  have hchunk := @Own.chunk (parsing t) t _ _ _ _ 0 (ascii "ab") [] [] (by simpa using part) (.inl rfl) handled'
  rw [if_pos hmode] at hchunk
  exact hchunk

/-- A transfer to `/r/x`, resumed after two of five bytes. -/
theorem transfer_kept_x :
    let t := Sample.transfer "/r/x"
    let done := Sample.executed t "/r" "x" true (Sample.broken t "/r" "x")
    let x : Resumable := ⟨done.fs, .sending done.session 2⟩
    Kept (Sample.parsing t) t x ∧ ∀ y, Own (Sample.parsing t) t x y → y.phase ≠ .finished →
      ∀ disk disk', x.OnDisk disk → y.OnDisk disk' → disk'.view t.target = disk.view t.target := by
  intro t done x
  obtain ⟨h1, h2⟩ := @Sample.reaches_halfway t "/r" "x"
    (Sample.accepted rfl (by decide) (by decide) (by decide +kernel) (by decide +kernel)) (by decide)
    (by decide +kernel) (by decide +kernel)
  have h3 : Own (Sample.parsing t) t
      ⟨(Sample.halfway t "/r" "x").1, .sending (Sample.halfway t "/r" "x").2.1 (0 + (ascii "ab").length)⟩
      ⟨Sample.broken t "/r" "x", .interrupted⟩ := .disconnect
  have h4 : Own (Sample.parsing t) t ⟨Sample.broken t "/r" "x", .interrupted⟩ x :=
    .resume (Sample.accepted rfl (by decide) (by decide) (by decide +kernel) (by decide +kernel))
  exact transfer_kept (Sample.parsing t) t ⟨Sample.tree [], []⟩ x (.head _) (by decide) (by decide +kernel)
    (by decide +kernel) (by decide +kernel)
    (((Relation.ReflTransGen.single (.inl h1)).tail (.inl h2)).tail (.inl h3) |>.tail (.inl h4))

/-- A directory that is spelled `//.tds` is not recognised as the configuration directory, so the
file can be uploaded onto the partial file itself. After a disconnection the target has the two
bytes that have arrived, on every disk. -/
theorem target_written_early :
    let t := Sample.transfer "/r//.tds/u.partial"
    let x : Resumable := ⟨Sample.broken t "/r//.tds" "u.partial", .interrupted⟩
    t.ReadBack (Sample.parsing t) ∧
      Relation.ReflTransGen (Own (Sample.parsing t) t) ⟨⟨Sample.tree [], []⟩, .idle⟩ x ∧
      FileSystem.view ⟨Sample.tree [], []⟩ t.target = none ∧
      ∀ disk, x.OnDisk disk → disk.view t.target = some (.file (ascii "ab")) := by
  intro t x
  obtain ⟨h1, h2⟩ := @Sample.reaches_halfway t "/r//.tds" "u.partial"
    (Sample.accepted rfl (by decide) (by decide) (by decide +kernel) (by decide +kernel)) (by decide)
    (by decide +kernel) (by decide +kernel)
  refine ⟨by decide +kernel, ((Relation.ReflTransGen.single h1).tail h2).tail .disconnect, by decide +kernel, ?_⟩
  intro disk hdisk
  rw [FileSystem.OnDisk.eq hdisk]
  decide +kernel

end TinDox
