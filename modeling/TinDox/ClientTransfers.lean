import TinDox.DownloadRetry
import TinDox.Sendfile

/-! The two loops of the console client that move a file. What ends them is a count of the remaining
bytes, which is unsigned. -/

namespace TinDox

namespace TDPService.Connection

/-! `exchangeWithServer` when it receives a file. -/

/-- The ways in which bytes can arrive. A read fits the buffer; there may be nothing to read when the
client is woken up. -/
structure Arrives (data : Bytes) (ready : List (List Bytes)) : Prop where
  fits : ∀ reads ∈ ready, ∀ buf ∈ reads, buf ≠ [] ∧ buf.length ≤ bufMaxSize - 1
  all : ready.flatten.flatten = data

/-- No read takes more than what is still expected. -/
def NeverWraps (r : Reception) (reads : List Bytes) : Prop :=
  ∀ before buf, before ++ [buf] <+: reads → buf.length ≤ (before.foldl (Reception.take true) r).bytesToRead

/-- What the client has done with the reads in `taken`: it has the file, and before the last time it was
woken up there was a byte missing. -/
structure Complete (r : Reception) (data : Bytes) (r' : Reception) (taken : List (List Bytes)) : Prop where
  file : r'.file = r.file ++ data
  soon : ∀ before reads, taken = before ++ [reads] → before.flatten.flatten.length < data.length
  counts : NeverWraps r taken.flatten

/-- The loop ends with the last byte, however the bytes arrive. -/
def Downloads (data : Bytes) : Prop :=
  ∀ message file ready, Arrives data ready →
    ∃ r taken later, ready = taken ++ later ∧
      exchangeWithServer true ⟨message, file, data.length⟩ ready = some (r, later) ∧
      Complete ⟨message, file, data.length⟩ data r taken

section Downloading

variable {data : Bytes} {ready : List (List Bytes)} {reads : List Bytes} {r : Reception}

theorem foldl_take_count (hlt : r.bytesToRead < 2 ^ 64) (hle : reads.flatten.length ≤ r.bytesToRead) :
    (reads.foldl (Reception.take true) r).bytesToRead = r.bytesToRead - reads.flatten.length := by
  induction reads generalizing r with
  | nil => simp
  | cons buf reads ih =>
    rw [List.flatten_cons, List.length_append] at hle
    have htake : (r.take true buf).bytesToRead = r.bytesToRead - buf.length := by
      show (r.bytesToRead + (2 ^ 64 - buf.length)) % 2 ^ 64 = _
      omega
    rw [List.foldl_cons, ih (by omega) (by omega), htake, List.flatten_cons, List.length_append]
    omega

theorem neverWraps (hlt : r.bytesToRead < 2 ^ 64) (hle : reads.flatten.length ≤ r.bytesToRead) :
    NeverWraps r reads := by
  rintro before buf ⟨after, rfl⟩
  simp only [List.flatten_append, List.flatten_cons, List.flatten_nil, List.append_nil, List.length_append] at hle
  rw [foldl_take_count hlt (by omega)]
  omega

theorem foldl_take_appends (reads : List Bytes) (r : Reception) :
    (reads.foldl (Reception.take true) r).file = r.file ++ reads.flatten := by
  induction reads generalizing r with
  | nil => simp
  | cons buf reads ih => simp [ih, Reception.take]

/-- The loop goes on as long as a byte is missing. -/
theorem exchangeWithServer_arrives (h : Arrives data ready) (hne : data ≠ []) (hcount : r.bytesToRead = data.length)
    (hlt : data.length < 2 ^ 64) :
    ∃ r' taken later, ready = taken ++ later ∧ exchangeWithServer true r ready = some (r', later) ∧
      taken.flatten.flatten = data ∧ r'.file = r.file ++ data ∧
      ∀ before reads, taken = before ++ [reads] → before.flatten.flatten.length < data.length := by
  induction ready generalizing r data with
  | nil => exact absurd h.all.symm hne
  | cons reads ready ih =>
    have hopen : [] ∉ reads := fun hnil => (h.fits reads (by simp) [] hnil).1 rfl
    have hdata : reads.flatten ++ ready.flatten.flatten = data := by
      rw [← List.flatten_append, ← List.flatten_cons, h.all]
    have hlength : reads.flatten.length + ready.flatten.flatten.length = data.length := by
      rw [← hdata, List.length_append]
    have hleft : (reads.foldl (Reception.take true) r).bytesToRead = r.bytesToRead - reads.flatten.length :=
      foldl_take_count (by omega) (by omega)
    have hfile := foldl_take_appends reads r
    rw [exchangeWithServer, receiveAllReadyFromServer, if_neg hopen]
    simp only [if_true, hleft]
    by_cases hrest : ready.flatten.flatten = []
    · -- the last byte has been read
      have hzero : r.bytesToRead - reads.flatten.length = 0 := by
        rw [hrest, List.length_nil] at hlength
        omega
      rw [hrest, List.append_nil] at hdata
      simp only [hzero, decide_true]
      refine ⟨_, [reads], ready, rfl, rfl, by simpa using hdata, by rw [hfile, hdata], ?_⟩
      intro before last hlast
      have hbefore : before = [] := by
        cases before with
        | nil => rfl
        | cons x xs => simp at hlast
      rw [hbefore]
      exact List.length_pos_of_ne_nil hne
    · have hmore : ¬ r.bytesToRead - reads.flatten.length = 0 := by
        have hpos := List.length_pos_of_ne_nil hrest
        omega
      have harrives : Arrives ready.flatten.flatten ready := ⟨fun reads hr => h.fits reads (by simp [hr]), rfl⟩
      obtain ⟨r', taken, later, hready, hloop, hall, hfile', hsoon⟩ :=
        ih (r := reads.foldl (Reception.take true) r) harrives hrest (by omega) (by omega)
      simp only [hmore, decide_false]
      refine ⟨r', reads :: taken, later, by rw [hready]; rfl, hloop, ?_, ?_, ?_⟩
      · rw [List.flatten_cons, List.flatten_append, hall, hdata]
      · rw [hfile', hfile, List.append_assoc, hdata]
      · intro before last hlast
        cases before with
        | nil => exact List.length_pos_of_ne_nil hne
        | cons x xs =>
          obtain ⟨rfl, htaken⟩ := List.cons.inj hlast
          have hlt' := hsoon xs last htaken
          rw [List.flatten_cons, List.flatten_append, List.length_append]
          omega

/-- Of an empty file nothing arrives, and without that the count is not looked at. -/
theorem downloads_iff (hlt : data.length < 2 ^ 64) : Downloads data ↔ data ≠ [] := by
  constructor
  · rintro hall rfl
    obtain ⟨r, taken, later, -, hloop, -⟩ := hall [] [] [] ⟨by simp, rfl⟩
    cases hloop
  · intro hne message file ready h
    obtain ⟨r, taken, later, hready, hloop, hall, hfile, hsoon⟩ :=
      exchangeWithServer_arrives (r := ⟨message, file, data.length⟩) h hne rfl hlt
    exact ⟨r, taken, later, hready, hloop, hfile, hsoon, neverWraps hlt (by rw [hall])⟩

theorem downloads_iff_one : Downloads [65] := (downloads_iff (by decide)).mpr (by decide)

theorem empty_file_hangs : ¬ ∀ data : Bytes, data.length < 2 ^ 64 → Downloads data := by
  intro hall
  obtain ⟨r, taken, later, -, hloop, -⟩ := hall [] (by decide) [] [] [] ⟨by simp, rfl⟩
  cases hloop

end Downloading

/-! `uploadFile`. -/

inductive Phase where
  | waiting
  | sending
  | returned
  | thrown
  deriving DecidableEq

/-- The variables of `uploadFile`, and where it is: in `epoll_wait`, in the loop around `sendfile`, or
out of it. -/
structure Upload where
  remainingSize : Nat
  offset : Nat
  phase : Phase
  deriving DecidableEq

inductive UploadEvent where
  | writable
  | sendfile (call : Sendfile)

namespace Upload

/-- At the head of a loop, both of which end when nothing remains. -/
def goOn (u : Upload) (phase : Phase) : Upload := { u with phase := if u.remainingSize = 0 then .returned else phase }

def start (size offset : Nat) : Upload := goOn ⟨(size + (2 ^ 64 - offset)) % 2 ^ 64, offset, .waiting⟩ .waiting

/-- The body of the inner loop. `written_bytes` has the type `size_t`. -/
def sendfile (u : Upload) (call : Sendfile) : Upload :=
  let writtenBytes := (MachineInt.unsigned 64 call.result).toNat
  let u := { u with offset := u.offset + call.moved.getD 0 }
  if writtenBytes ≥ 0 then
    goOn { u with remainingSize := (u.remainingSize + (2 ^ 64 - writtenBytes)) % 2 ^ 64 } .sending
  else if call.errno = Sendfile.tryAgain then goOn u .waiting
  else { u with phase := .thrown }

def step (u : Upload) : UploadEvent → Upload
  | .writable => if u.phase = .waiting then goOn u .sending else u
  | .sendfile call => if u.phase = .sending then u.sendfile call else u

/-- What can happen: the socket becomes writable while it is waited for, and `sendfile` moves some of
the bytes that it is asked for and that the file has, or reports an error. -/
def Possible (size : Nat) (u : Upload) : UploadEvent → Prop
  | .writable => u.phase = .waiting
  | .sendfile call => u.phase = .sending ∧
    ∀ k, call.moved = some k → 1 ≤ k ∧ k ≤ u.remainingSize ∧ u.offset + k ≤ size

def run (size offset : Nat) (events : List UploadEvent) : Upload := Runs.run step (start size offset) events

end Upload

namespace UploadEvent

def moved : UploadEvent → Nat
  | writable => 0
  | sendfile call => call.moved.getD 0

def Fails : UploadEvent → Prop
  | writable => False
  | sendfile call => call.moved = none

end UploadEvent

def sentBytes (events : List UploadEvent) : Nat := (events.map UploadEvent.moved).sum

/-- What the loop should have done after the events. -/
structure UploadsWell (size offset : Nat) (events : List UploadEvent) : Prop where
  remaining : (Upload.run size offset events).remainingSize = size - offset - sentBytes events
  success : (Upload.run size offset events).phase = .returned ↔ sentBytes events = size - offset
  waits : ∀ call : Sendfile, events.getLast? = some (.sendfile call) → call.WouldBlock →
    (Upload.run size offset events).phase = .waiting
  throws : ∀ call : Sendfile, events.getLast? = some (.sendfile call) → call.moved = none → ¬ call.WouldBlock →
    (Upload.run size offset events).phase = .thrown

namespace Upload

variable {size offset : Nat} {events : List UploadEvent} {u : Upload} {e : UploadEvent}

/-- While no call fails the count is right. -/
structure Sound (size offset sent : Nat) (u : Upload) : Prop where
  offset : u.offset = offset + sent
  remaining : u.remainingSize + u.offset = size
  returned : u.phase = .returned ↔ u.remainingSize = 0
  running : u.phase ≠ .thrown

theorem goOn_sound {sent : Nat} {phase : Phase} (ho : u.offset = offset + sent) (hr : u.remainingSize + u.offset = size)
    (hp : phase = .waiting ∨ phase = .sending) : (u.goOn phase).Sound size offset sent := by
  refine ⟨ho, hr, ?_, ?_⟩
  · by_cases hz : u.remainingSize = 0
    · simp [goOn, hz]
    · rcases hp with rfl | rfl <;> simp [goOn, hz]
  · by_cases hz : u.remainingSize = 0
    · simp [goOn, hz]
    · rcases hp with rfl | rfl <;> simp [goOn, hz]

theorem start_sound (hs : size < 2 ^ 63) (ho : offset ≤ size) : (start size offset).Sound size offset 0 := by
  apply goOn_sound
  · rfl
  · show (size + (2 ^ 64 - offset)) % 2 ^ 64 + offset = size
    omega
  · exact .inl rfl

theorem step_sound {sent : Nat} (hs : size < 2 ^ 63) (hu : u.Sound size offset sent) (hp : Possible size u e)
    (hf : ¬ e.Fails) : (u.step e).Sound size offset (sent + e.moved) := by
  cases e with
  | writable =>
    have hwaiting : u.phase = .waiting := hp
    rw [step, if_pos hwaiting]
    exact goOn_sound hu.offset hu.remaining (.inr rfl)
  | sendfile call =>
    obtain ⟨hsending, hbounds⟩ := hp
    obtain ⟨k, hk⟩ := Option.ne_none_iff_exists'.mp hf
    obtain ⟨hone, hle, hfile⟩ := hbounds k hk
    have hremaining := hu.remaining
    have hoffset := hu.offset
    have hwritten : (MachineInt.unsigned 64 call.result).toNat = k := by
      have hvalue : MachineInt.unsigned 64 (k : Int) = k := by
        apply MachineInt.unsigned_eq_self_iff.mpr
        omega
      rw [Sendfile.result, hk, Option.elim_some, hvalue, Int.toNat_natCast]
    rw [step, if_pos hsending]
    simp only [sendfile, hwritten, hk, Option.getD_some, ge_iff_le, Nat.zero_le, if_true, UploadEvent.moved]
    apply goOn_sound
    · dsimp only
      omega
    · dsimp only
      omega
    · exact .inr rfl

/-- The call that fails is counted as one that takes a byte back. -/
theorem step_fails {sent : Nat} (hs : size < 2 ^ 63) (hu : u.Sound size offset sent) (hp : Possible size u e)
    (hf : e.Fails) : (u.step e).remainingSize = u.remainingSize + 1 := by
  cases e with
  | writable => exact hf.elim
  | sendfile call =>
    have hnone : call.moved = none := hf
    have hremaining := hu.remaining
    have hwritten : (MachineInt.unsigned 64 call.result).toNat = 2 ^ 64 - 1 := by
      rw [Sendfile.result, hnone]
      rfl
    rw [step, if_pos hp.1]
    simp only [sendfile, hwritten, ge_iff_le, Nat.zero_le, if_true, goOn]
    omega

theorem run_sound (hs : size < 2 ^ 63) (ho : offset ≤ size)
    (h : Runs.AllMeet step (Possible size) (start size offset) events) (hf : ∀ e ∈ events, ¬ e.Fails) :
    (run size offset events).Sound size offset (sentBytes events) := by
  induction events using List.reverseRecOn with
  | nil => exact start_sound hs ho
  | append_singleton events e ih =>
    obtain ⟨hbefore, hlast, -⟩ := h.of_append
    have hu := ih hbefore (fun e he => hf e (by simp [he]))
    have hstep := step_sound hs hu hlast (hf e (by simp))
    have hsent : sentBytes (events ++ [e]) = sentBytes events + e.moved := by simp [sentBytes]
    rw [hsent, run, Runs.run_append]
    exact hstep

theorem Sound.uploadsWell (h : (run size offset events).Sound size offset (sentBytes events))
    (hf : ∀ e ∈ events, ¬ e.Fails) : UploadsWell size offset events := by
  have hremaining := h.remaining
  have hoffset := h.offset
  refine ⟨by omega, ?_, ?_, ?_⟩
  · rw [h.returned]
    omega
  · intro call hlast hblock
    exact absurd hblock.1 (hf _ (List.mem_of_getLast? hlast))
  · intro call hlast hnone
    exact absurd hnone (hf _ (List.mem_of_getLast? hlast))

end Upload

open Upload in
/-- The upload goes well up to the first call of `sendfile` that fails, and no further. -/
theorem uploadsWell_iff {size offset : Nat} {events : List UploadEvent} (hs : size < 2 ^ 63) (ho : offset ≤ size)
    (h : Runs.AllMeet step (Possible size) (start size offset) events) :
    (∀ p, p <+: events → UploadsWell size offset p) ↔ ∀ e ∈ events, ¬ e.Fails := by
  constructor
  · intro hall
    induction events using List.reverseRecOn with
    | nil => simp
    | append_singleton events e ih =>
      obtain ⟨hbefore, hlast, -⟩ := h.of_append
      have hgood := ih hbefore (fun p hp => hall p (hp.trans (List.prefix_append _ _)))
      have hu := run_sound hs ho hbefore hgood
      intro e' he'
      rcases List.mem_append.mp he' with he' | he'
      · exact hgood e' he'
      obtain rfl := List.mem_singleton.mp he'
      intro hf
      -- the last event has moved nothing, but the count has changed
      have hwell := (hall _ (List.prefix_refl _)).remaining
      have hsame : sentBytes (events ++ [e']) = sentBytes events := by
        cases e' with
        | writable => simp [sentBytes, UploadEvent.moved]
        | sendfile call => simp [sentBytes, UploadEvent.moved, show call.moved = none from hf]
      have hmore := step_fails hs hu hlast hf
      have hremaining := hu.remaining
      have hoffset := hu.offset
      rw [run, Runs.run_append, hsame] at hwell
      have hstep : (Runs.run step (Runs.run step (start size offset) events) [e']).remainingSize =
          (run size offset events).remainingSize + 1 := hmore
      omega
  · rintro hgood p ⟨later, rfl⟩
    have hp : ∀ e ∈ p, ¬ e.Fails := fun e he => hgood e (by simp [he])
    exact (run_sound hs ho h.of_append.1 hp).uploadsWell hp

open Upload in
theorem uploadsWell_iff_two :
    (∀ p, p <+: [UploadEvent.writable, .sendfile ⟨some 2, 0⟩] → UploadsWell 3 1 p) ↔
      ∀ e ∈ [UploadEvent.writable, .sendfile ⟨some 2, 0⟩], ¬ e.Fails := by
  have hpossible : Runs.AllMeet step (Possible 3) (start 3 1) [.writable, .sendfile ⟨some 2, 0⟩] := by
    refine ⟨rfl, ⟨rfl, ?_⟩, trivial⟩
    rintro k ⟨⟩
    decide +kernel
  exact uploadsWell_iff (by decide) (by decide) hpossible

open Upload in
theorem wouldBlock_miscounts : ¬ ∀ size offset events, size < 2 ^ 63 → offset ≤ size →
    Runs.AllMeet step (Possible size) (start size offset) events → ∀ p, p <+: events → UploadsWell size offset p := by
  intro hall
  have hpossible : Runs.AllMeet step (Possible 3) (start 3 0)
      [.writable, .sendfile ⟨some 1, 0⟩, .sendfile ⟨none, Sendfile.tryAgain⟩] := by
    refine ⟨rfl, ⟨rfl, ?_⟩, ⟨by decide +kernel, ?_⟩, trivial⟩
    · rintro k ⟨⟩
      decide +kernel
    · rintro k ⟨⟩
  have hwell := hall 3 0 _ (by decide) (by decide) hpossible _ (List.prefix_refl _)
  exact absurd hwell.remaining (by decide +kernel)

end TDPService.Connection

end TinDox
