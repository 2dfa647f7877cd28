import TinDox.MachineInt
import TinDox.Session

/-! `DownloadManager::send` with everything that `sendfile64` can report. `transfer_bytes` tests and
returns the number of bytes that it was asked for, in place of the result. -/

namespace TinDox

open MachineInt

/-- A call of `sendfile64`: the bytes it has moved, or nothing when it returns -1, with `errno` as it
is then. -/
structure Sendfile where
  moved : Option Nat
  errno : Nat
  deriving DecidableEq

namespace Sendfile

/-- `resource_unavailable_try_again`. -/
def tryAgain : Nat := 11

def result (call : Sendfile) : Int := call.moved.elim (-1) (↑)

def WouldBlock (call : Sendfile) : Prop := call.moved = none ∧ call.errno = tryAgain

instance (call : Sendfile) : Decidable call.WouldBlock := inferInstanceAs (Decidable (_ ∧ _))

/-- `transfer_bytes` with its offset, its returned value and `code`, which is `none` as long as it is
not set. -/
def transferBytes (call : Sendfile) (offset count : Nat) : Nat × Int × Option Nat :=
  let code := if (count : Int) = unsigned 64 (-1) then some call.errno else none
  (offset + call.moved.getD 0, signed 64 count, code)

end Sendfile

namespace DownloadManager

/-- `send` for what the call of `sendfile64` does, with the number it returns. -/
def sendCall (m : DownloadManager) (call : Sendfile) : DownloadManager × Except Exception Int :=
  if m.hasFinished then (m, .ok 0)
  else
    match call.transferBytes m.offset (m.fileSize - m.offset) with
    | (offset, returned, code) =>
      let count := signed 32 returned
      let m' := { m with offset := offset }
      if count = -1 ∧ code ≠ some Sendfile.tryAgain then (m', .error .fatal)
      else if m'.offset = m.offset then (m', .error .fatal)
      else if m'.fileSize - m'.offset = 0 then ({ m' with token := none, file := none }, .ok count)
      else (m', .ok count)

/-- The bytes that are left to send, in the `int` of `send`. -/
def askedFor (m : DownloadManager) : Int := signed 32 (m.fileSize - m.offset : Nat)

/-- A download in progress: what is left fits the type of a file offset. -/
structure Active (m : DownloadManager) : Prop where
  token : m.token ≠ none
  size : m.fileSize < 2 ^ 63
  offset : m.offset ≤ m.fileSize

/-- The caller is told what has happened. -/
def Reports (m : DownloadManager) (call : Sendfile) : Prop :=
  match call.moved with
  | some 0 => ∃ e, (m.sendCall call).2 = .error e
  | some k => (m.sendCall call).2 = .ok (k : Int) ∧ (m.sendCall call).1.offset = m.offset + k
  | none =>
    if call.errno = Sendfile.tryAgain then (m.sendCall call).1 = m ∧ ∃ n, (m.sendCall call).2 = .ok n
    else ∃ e, (m.sendCall call).2 = .error e

variable {m : DownloadManager} {call : Sendfile}

theorem Active.running (h : m.Active) : m.hasFinished = false := by
  cases ht : m.token with
  | none => exact absurd ht h.token
  | some token => simp [hasFinished, ht]

theorem Active.transferBytes (h : m.Active) (call : Sendfile) :
    call.transferBytes m.offset (m.fileSize - m.offset) =
      (m.offset + call.moved.getD 0, ((m.fileSize - m.offset : Nat) : Int), none) := by
  have hsize := h.size
  have hminus : unsigned 64 (-1) = 2 ^ 64 - 1 := rfl
  have hcode : ¬ ((m.fileSize - m.offset : Nat) : Int) = unsigned 64 (-1) := by
    rw [hminus]
    omega
  have hvalue : signed 64 ((m.fileSize - m.offset : Nat) : Int) = ((m.fileSize - m.offset : Nat) : Int) := by
    apply signed_eq_self_iff.mpr
    constructor <;> omega
  simp only [Sendfile.transferBytes, hcode, if_false, hvalue]

/-- `code` is never set, so a remaining count that becomes -1 is an error, and so is every call that
moves nothing. -/
theorem Active.sendCall (h : m.Active) (call : Sendfile) :
    m.sendCall call =
      if m.askedFor = -1 ∨ call.moved.getD 0 = 0 then
        ({ m with offset := m.offset + call.moved.getD 0 }, .error .fatal)
      else
        (if m.fileSize - (m.offset + call.moved.getD 0) = 0 then
            { m with offset := m.offset + call.moved.getD 0, token := none, file := none }
          else { m with offset := m.offset + call.moved.getD 0 }, .ok m.askedFor) := by
  simp only [DownloadManager.sendCall, h.running, Bool.false_eq_true, if_false, h.transferBytes, askedFor]
  by_cases hminus : signed 32 ((m.fileSize - m.offset : Nat) : Int) = -1
  · simp [hminus]
  · by_cases hmoved : call.moved.getD 0 = 0
    · simp [hminus, hmoved]
    · simp only [hminus, hmoved, false_and, if_false, or_self, Nat.add_eq_left]
      split <;> rfl

/-- Nothing is reported as it is when the socket would block, and a number of bytes only when it is what
is left of the remaining count in 31 bits. -/
theorem reports_iff (h : m.Active) (call : Sendfile) :
    m.Reports call ↔ ¬ call.WouldBlock ∧
      ∀ k, call.moved = some k → 0 < k → (m.fileSize - m.offset) % 2 ^ 32 = k ∧ k < 2 ^ 31 := by
  have hsend := h.sendCall call
  unfold Reports Sendfile.WouldBlock
  rcases hmoved : call.moved with - | - | k
  · rw [hmoved] at hsend
    simp only [Option.getD_none, Nat.add_zero, or_true, if_true] at hsend
    by_cases hagain : call.errno = Sendfile.tryAgain
    · simp [hagain, hsend]
    · simp [hagain, hsend]
  · rw [hmoved] at hsend
    simp only [Option.getD_some, Nat.add_zero, or_true, if_true] at hsend
    simp [hsend]
  · rw [hmoved, Option.getD_some] at hsend
    have hasked : m.askedFor = (k + 1 : Nat) ↔ (m.fileSize - m.offset) % 2 ^ 32 = k + 1 ∧ k + 1 < 2 ^ 31 :=
      signed_eq_natCast_iff
    have hright : (¬ (some (k + 1) = none ∧ call.errno = Sendfile.tryAgain) ∧ ∀ j, some (k + 1) = some j → 0 < j →
        (m.fileSize - m.offset) % 2 ^ 32 = j ∧ j < 2 ^ 31) ↔ m.askedFor = (k + 1 : Nat) := by
      rw [hasked]
      constructor
      · rintro ⟨-, hall⟩
        exact hall (k + 1) rfl (Nat.succ_pos k)
      · rintro hleft
        refine ⟨by simp, ?_⟩
        rintro _ ⟨⟩ -
        exact hleft
    rw [hright]
    by_cases hminus : m.askedFor = -1
    · simp only [hminus, true_or, if_true] at hsend
      refine iff_of_false (by simp [hsend]) ?_
      rw [hminus]
      omega
    · have hk : ¬ k + 1 = 0 := Nat.succ_ne_zero k
      simp only [hminus, hk, or_self, if_false] at hsend
      have hoffset : (m.sendCall call).1.offset = m.offset + (k + 1) := by
        rw [hsend]
        dsimp only
        split <;> rfl
      constructor
      · rintro ⟨hok, -⟩
        rw [hsend] at hok
        exact Except.ok.inj hok
      · intro heq
        rw [hoffset, hsend]
        exact ⟨congrArg Except.ok heq, rfl⟩

theorem askedFor_eq_neg_one_iff : m.askedFor = -1 ↔ (m.fileSize - m.offset) % 2 ^ 32 = 2 ^ 32 - 1 := by
  have hvalue : m.askedFor = ((m.fileSize - m.offset : Nat) : Int).bmod (2 ^ 32) := rfl
  rw [hvalue, Int.bmod_def]
  split <;> omega

/-- What is read from the file and put on the socket is what the call has moved. -/
theorem Active.send (h : m.Active) (fs : FileSystem) (room : Nat)
    (hmoved : call.moved.getD 0 = (m.send fs room).2.1.length) :
    (m.send fs room).1 = (m.sendCall call).1 ∧
      (m.send fs room).2.2 = (m.sendCall call).2.map fun _ => () := by
  obtain ⟨sent, hsend⟩ : ∃ sent : Bytes, m.send fs room =
      if m.askedFor = -1 ∨ sent.length = 0 then ({ m with offset := m.offset + sent.length }, sent, .error .fatal)
      else
        (if m.fileSize - (m.offset + sent.length) = 0 then
            { m with offset := m.offset + sent.length, token := none, file := none }
          else { m with offset := m.offset + sent.length }, sent, .ok ()) := by
    simp only [DownloadManager.send, h.running, Bool.false_eq_true, if_false, askedFor_eq_neg_one_iff]
    generalize List.take (min room (m.fileSize - m.offset)) _ = sent
    refine ⟨sent, ?_⟩
    by_cases hminus : (m.fileSize - m.offset) % 2 ^ 32 = 2 ^ 32 - 1
    · simp only [hminus, if_true, true_or]
    · by_cases hsent : sent = []
      · simp only [hminus, hsent, List.length_nil, if_true, if_false, or_true]
      · simp only [hminus, hsent, List.length_eq_zero_iff, if_false, or_self]
        split <;> rfl
  have hlength : call.moved.getD 0 = sent.length := by
    rw [hmoved, hsend]
    split <;> rfl
  rw [h.sendCall call, hlength, hsend]
  split <;> exact ⟨rfl, rfl⟩

def lastByte : DownloadManager := ⟨some ⟨⟨ascii "/r/x"⟩, 2, 0⟩, some 0, 1, 2⟩

theorem lastByte_active : lastByte.Active := ⟨by decide, by decide, by decide⟩

theorem reports_iff_lastByte : lastByte.Reports ⟨some 1, 0⟩ := by
  refine (reports_iff lastByte_active ⟨some 1, 0⟩).mpr ⟨by decide, ?_⟩
  rintro k ⟨⟩ -
  decide

/-- A socket that would block ends the download. -/
theorem wouldBlock_throws : ¬ ∀ m call, Active m → m.Reports call := by
  intro hall
  obtain ⟨-, n, hok⟩ := hall lastByte ⟨none, Sendfile.tryAgain⟩ lastByte_active
  cases hok

end DownloadManager

end TinDox
