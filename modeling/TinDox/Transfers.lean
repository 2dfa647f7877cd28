import TinDox.Session

/-! What the upload manager can do in one call, one case for each way through its code. -/

namespace TinDox

theorem toUnsigned_lt (n : Int) : toUnsigned n < 2 ^ 64 := by
  unfold toUnsigned
  omega

theorem toUnsigned_sub {a b : Nat} (h : b ≤ a) (ha : a < 2 ^ 64) : toUnsigned (a - b) = a - b := by
  unfold toUnsigned
  omega

theorem toUnsigned_add {a b : Nat} (h : a + b < 2 ^ 64) : toUnsigned (a + b) = a + b := by
  unfold toUnsigned
  omega

namespace UploadManager

variable {srv : ServerContext} {fs : FileSystem} {m : UploadManager} {token : UploadToken} {bytes : Bytes}

def opening (srv : ServerContext) (m : UploadManager) (token : UploadToken) : UploadManager :=
  { m with
    token := some token
    partialFileName := srv.getPartialFilePath token.temporaryFilenameStem }

def opened (srv : ServerContext) (token : UploadToken) (i : Nat) : UploadManager :=
  ⟨some token, srv.getPartialFilePath token.temporaryFilenameStem,
    srv.getBackupFilePath token.temporaryFilenameStem, some i⟩

/-- The partial file is opened, and a backup file that is there is removed. -/
theorem startUpload_cases (srv : ServerContext) (fs : FileSystem) (m : UploadManager) (token : UploadToken) :
    m.startUpload srv fs token = (fs, opening srv m token, .error .fatal) ∨
    ∃ fs₁ i fs₂ out, m.file = none ∧
      fs.openWrite (srv.getPartialFilePath token.temporaryFilenameStem) (token.offset = 0) = some (fs₁, i) ∧
      (fs₂ = fs₁ ∧
          (out = .ok () → fs₁.pathExists (srv.getBackupFilePath token.temporaryFilenameStem) = false) ∨
        ∃ removed, fs₁.remove (srv.getBackupFilePath token.temporaryFilenameStem) = .ok (fs₂, removed)) ∧
      m.startUpload srv fs token = (fs₂, opened srv token i, out) := by
  unfold startUpload
  dsimp only
  cases hf : m.file with
  | some i => exact .inl (by simp [opening, hf])
  | none =>
    cases ho : fs.openWrite (srv.getPartialFilePath token.temporaryFilenameStem)
        (decide (token.offset = 0)) with
    | none => exact .inl (by simp [opening, hf])
    | some p =>
      obtain ⟨fs₁, i⟩ := p
      right
      simp only
      rcases hb : fs₁.fsExists (srv.getBackupFilePath token.temporaryFilenameStem) with e | - | -
      · exact ⟨fs₁, i, fs₁, .error e, trivial, rfl, .inl ⟨rfl, by simp⟩, by simp [opened]⟩
      · exact ⟨fs₁, i, fs₁, .ok (), trivial, rfl, .inl ⟨rfl, fun _ => (FileSystem.fsExists_eq_ok.mp hb).2⟩, by simp [opened]⟩
      · cases hr : fs₁.remove (srv.getBackupFilePath token.temporaryFilenameStem) with
        | error e => exact ⟨fs₁, i, fs₁, .error .fatal, trivial, rfl, .inl ⟨rfl, by simp⟩, by simp [opened]⟩
        | ok p => exact ⟨fs₁, i, p.1, .ok (), trivial, rfl, .inr ⟨p.2, hr⟩, by simp [opened]⟩

theorem startUpload_token (srv : ServerContext) (fs : FileSystem) (m : UploadManager) (token : UploadToken) :
    (m.startUpload srv fs token).2.1.token = some token := by
  rcases startUpload_cases srv fs m token with h | ⟨_, _, _, _, _, _, _, h⟩ <;> rw [h] <;> rfl

def taken (token : UploadToken) (bytes : Bytes) : Nat := min bytes.length (getRemainingBytes token)

/-- The token behind the bytes that are taken. -/
def advance (token : UploadToken) (bytes : Bytes) : UploadToken :=
  { token with offset := toUnsigned (token.offset + taken token bytes) }

theorem advance_offset_lt (token : UploadToken) (bytes : Bytes) : (advance token bytes).offset < 2 ^ 64 := by
  simpa only [advance] using toUnsigned_lt _

theorem getRemainingBytes_eq (ho : token.offset ≤ token.size) (hs : token.size < 2 ^ 64) :
    getRemainingBytes token = token.size - token.offset :=
  toUnsigned_sub ho hs

theorem advance_eq (ho : token.offset ≤ token.size) (hs : token.size < 2 ^ 64) :
    advance token bytes = { token with offset := token.offset + min bytes.length (token.size - token.offset) } := by
  have hlt : token.offset + min bytes.length (token.size - token.offset) < 2 ^ 64 := by omega
  rw [advance, taken, getRemainingBytes_eq ho hs, toUnsigned_add hlt]

theorem complete_iff (hs : token.size < 2 ^ 64) :
    (advance token bytes).offset = token.size ↔ getRemainingBytes token ≤ bytes.length := by
  simp only [advance, taken, getRemainingBytes]
  unfold toUnsigned
  omega

theorem getRemainingBytes_advance (token : UploadToken) (bytes : Bytes) :
    getRemainingBytes (advance token bytes) = getRemainingBytes token - taken token bytes := by
  simp only [advance, taken, getRemainingBytes]
  unfold toUnsigned
  omega

theorem taken_append (token : UploadToken) (a b : Bytes) :
    taken token (a ++ b) = taken token a + taken (advance token a) b := by
  have hrest := getRemainingBytes_advance token a
  simp only [taken, List.length_append] at hrest ⊢
  omega

theorem advance_append (token : UploadToken) (a b : Bytes) :
    advance token (a ++ b) = advance (advance token a) b := by
  have htaken := taken_append token a b
  simp only [advance, htaken]
  unfold toUnsigned
  congr 1
  omega

theorem commitBytes_eq {i : Nat} (ht : m.token = some token) (hf : m.file = some i) :
    m.commitBytes fs bytes =
      if (advance token bytes).offset = token.size then
        match finish (fs.write i (bytes.take (taken token bytes))) m (advance token bytes) with
        | (fs, m, .ok ()) => (fs, m, .ok (bytes.drop (taken token bytes)))
        | (fs, m, .error e) => (fs, m, .error e)
      else
        (fs.write i (bytes.take (taken token bytes)), { m with token := some (advance token bytes) },
          .ok (bytes.drop (taken token bytes))) := by
  unfold commitBytes
  rw [ht, hf]
  rfl

/-- What a chunk does to an open upload: it grows, it is finished, or the finished file cannot
be moved to its place. -/
theorem commitBytes_cases (fs : FileSystem) (m : UploadManager) (bytes : Bytes) :
    (m.token = none ∨ m.file = none) ∧ m.commitBytes fs bytes = (fs, m, .error .fatal) ∨
    ∃ token i, m.token = some token ∧ m.file = some i ∧
      ((advance token bytes).offset ≠ token.size ∧ m.commitBytes fs bytes =
          (fs.write i (bytes.take (taken token bytes)), { m with token := some (advance token bytes) },
            .ok (bytes.drop (taken token bytes))) ∨
        (advance token bytes).offset = token.size ∧
          ((∃ fs', (fs.write i (bytes.take (taken token bytes))).rename m.partialFileName token.path = .ok fs' ∧
            m.commitBytes fs bytes = (fs', { m with token := none, file := none },
              .ok (bytes.drop (taken token bytes)))) ∨
          ∃ e, (fs.write i (bytes.take (taken token bytes))).rename m.partialFileName token.path = .error e ∧
            m.commitBytes fs bytes = (fs.write i (bytes.take (taken token bytes)),
              { m with token := some (advance token bytes), file := none }, .error .fatal))) := by
  cases ht : m.token with
  | none => exact .inl ⟨.inl rfl, by simp [commitBytes, ht]⟩
  | some token =>
    cases hf : m.file with
    | none => exact .inl ⟨.inr rfl, by simp [commitBytes, ht, hf]⟩
    | some i =>
      refine .inr ⟨token, i, rfl, rfl, ?_⟩
      rw [commitBytes_eq ht hf]
      by_cases he : (advance token bytes).offset = token.size
      · refine .inr ⟨he, ?_⟩
        have hpath : (advance token bytes).path = token.path := rfl
        rw [if_pos he, finish, hpath]
        cases hr : (fs.write i (bytes.take (taken token bytes))).rename m.partialFileName token.path with
        | ok fs' => exact .inl ⟨fs', rfl, rfl⟩
        | error e => exact .inr ⟨e, rfl, rfl⟩
      · rw [if_neg he]
        exact .inl ⟨he, by rw [hf]⟩

/-- What a chunk does when nothing is thrown: all of it is written, or as much as is missing, and
then the file is moved to its place. -/
theorem commitBytes_ok {fs₁ : FileSystem} {m₁ : UploadManager} {rest : Bytes}
    (h : ∀ token ∈ m.token, token.size < 2 ^ 64) (hc : m.commitBytes fs bytes = (fs₁, m₁, .ok rest)) :
    ∃ token i, m.token = some token ∧ m.file = some i ∧
      (bytes.length < getRemainingBytes token ∧ fs₁ = fs.write i bytes ∧
          m₁ = { m with token := some (advance token bytes) } ∧ rest = [] ∨
        getRemainingBytes token ≤ bytes.length ∧
          (fs.write i (bytes.take (getRemainingBytes token))).rename m.partialFileName token.path = .ok fs₁ ∧
          m₁ = { m with token := none, file := none } ∧ rest = bytes.drop (getRemainingBytes token)) := by
  rcases commitBytes_cases fs m bytes with
    ⟨-, hd⟩ | ⟨token, i, ht, hf, ⟨hne, hd⟩ | ⟨he, ⟨fs', hr, hd⟩ | ⟨e, -, hd⟩⟩⟩
  · simp [hd] at hc
  · rw [hd] at hc
    cases hc
    have hlen : bytes.length < getRemainingBytes token := by
      have hiff := @complete_iff token bytes (h token ht)
      omega
    have htaken : taken token bytes = bytes.length := by
      simp only [taken]
      omega
    exact ⟨token, i, ht, hf, .inl ⟨hlen, by rw [htaken, List.take_length], rfl, by rw [htaken, List.drop_length]⟩⟩
  · rw [hd] at hc
    cases hc
    have hlen : getRemainingBytes token ≤ bytes.length := (complete_iff (h token ht)).mp he
    have htaken : taken token bytes = getRemainingBytes token := by
      simp only [taken]
      omega
    rw [htaken] at hr ⊢
    exact ⟨token, i, ht, hf, .inr ⟨hlen, hr, rfl, rfl⟩⟩
  · simp [hd] at hc

theorem commitBytes_path {token' : UploadToken} (h : token' ∈ (m.commitBytes fs bytes).2.1.token) :
    ∃ token ∈ m.token, token'.path = token.path := by
  rcases commitBytes_cases fs m bytes with
    ⟨-, hc⟩ | ⟨token, i, ht, -, ⟨-, hc⟩ | ⟨-, ⟨fs₁, -, hc⟩ | ⟨e, -, hc⟩⟩⟩
  · rw [hc] at h
    exact ⟨token', h, rfl⟩
  · rw [hc] at h
    obtain rfl := Option.some.inj h
    exact ⟨token, ht, rfl⟩
  · rw [hc] at h
    simp at h
  · rw [hc] at h
    obtain rfl := Option.some.inj h
    exact ⟨token, ht, rfl⟩

end UploadManager

namespace DownloadManager

variable {fs : FileSystem} {m : DownloadManager} {token token' : DownloadToken}

theorem startDownload_token (h : token' ∈ (m.startDownload fs token).1.token) : token' = token ∨ token' ∈ m.token := by
  unfold startDownload at h
  split at h
  · split at h <;> exact .inl (Option.some.inj h).symm
  · exact .inr h

theorem send_token {room : Nat} (h : token' ∈ (m.send fs room).1.token) : token' ∈ m.token := by
  unfold send at h
  split at h
  · exact h
  · dsimp only at h
    generalize List.take (min room (m.fileSize - m.offset)) _ = sent at h
    split at h
    · exact h
    · split at h
      · exact h
      · split at h
        · simp at h
        · exact h

end DownloadManager

end TinDox
