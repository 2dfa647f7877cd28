import TinDox.Connection

/-! The ledger of received bytes: everything a connection has received was handed on to the
interpreter or to the upload manager, in order, or is still pending. Input that is pending
already is lost when it has to be parked again. -/

namespace TinDox

variable {srv : ServerContext} {others : Surroundings} {fs : FileSystem}

def consumed (trace : List Iteration) : Bytes := trace.flatMap Iteration.consumed

@[simp] theorem consumed_append (a b : List Iteration) : consumed (a ++ b) = consumed a ++ consumed b :=
  List.flatMap_append

@[simp] theorem consumed_singleton (it : Iteration) : consumed [it] = it.consumed := by simp [consumed]

namespace Client

variable {c : Client} {input : Bytes}

theorem consumed_append_rest {session : Session} {rest : Bytes} {d : Delivery}
    (hmode : session.context.mode ≠ .download) (h : rest <:+ input) :
    Iteration.parked ⟨fs, session, input, rest, d⟩ = false ∧
      Iteration.consumed ⟨fs, session, input, rest, d⟩ ++ rest = input := by
  have hp : Iteration.parked ⟨fs, session, input, rest, d⟩ = false := by simp [Iteration.parked, hmode]
  obtain ⟨pre, rfl⟩ := h
  exact ⟨hp, by simp [Iteration.consumed, hp]⟩

/-- How a run of the loop accounts for its input: all of it is handed on, or the last iteration
parks what is left. -/
inductive Accounts (c : Client) (input : Bytes) (h : Handling) : Prop
  | all (unparked : ∀ it ∈ h.trace, it.parked = false) (pending : h.client.pendingInput = c.pendingInput)
      (ledger : input = consumed h.trace)
  | parked (parks : ∃ it ∈ h.trace, it.parked = true) (left : input ≠ [] → h.client.pendingInput ≠ [])
      (ledger : input = consumed h.trace ++ h.client.pendingInput)

theorem handleInputLoop_accounts (fuel : Nat) (hc : Ready c) (hm : measure c input < fuel)
    (hf : (handleInputLoop srv others fuel fs c input).fatal = false) :
    Ready (handleInputLoop srv others fuel fs c input).client ∧
      Accounts c input (handleInputLoop srv others fuel fs c input) := by
  induction fuel generalizing fs c input with
  | zero => omega
  | succ fuel ih =>
    unfold handleInputLoop at hf ⊢
    rcases he : handleOnce srv others fs c input with ⟨h, rest⟩
    simp only [he] at hf ⊢
    by_cases hstop : h.fatal = true ∨ rest = []
    · simp only [hstop, if_true] at hf ⊢
      have hrest : rest = [] := by simpa [hf] using hstop
      obtain ⟨hready, ⟨d, htrace⟩, hparked, hsuffix, -⟩ := handleOnce_advances hc he hf
      refine ⟨hready, ?_⟩
      by_cases hmode : c.session.context.mode = .download
      · obtain ⟨-, hpending⟩ := hparked hmode
        have hp : Iteration.parked ⟨fs, c.session, input, rest, d⟩ = true := by simp [Iteration.parked, hmode]
        refine .parked ⟨_, htrace ▸ List.mem_singleton.mpr rfl, hp⟩ (by simp [hpending]) ?_
        simp [htrace, Iteration.consumed, Iteration.parked, hmode, hpending]
      · obtain ⟨hs, hpending⟩ := hsuffix hmode
        obtain ⟨hun, hledger⟩ := @consumed_append_rest fs input c.session rest d hmode hs
        refine .all (by simp [htrace, hun]) hpending ?_
        calc
          input = Iteration.consumed ⟨fs, c.session, input, rest, d⟩ ++ rest := hledger.symm
          _ = consumed h.trace := by rw [htrace, consumed_singleton, hrest, List.append_nil]
    · simp only [hstop, if_false] at hf ⊢
      simp only [not_or, Bool.not_eq_true] at hstop
      obtain ⟨hready, ⟨d, htrace⟩, hparked, hsuffix, hdecreases⟩ := handleOnce_advances hc he hstop.1
      have hmode : c.session.context.mode ≠ .download := fun hh => hstop.2 (hparked hh).1
      obtain ⟨hs, hpending⟩ := hsuffix hmode
      have hinput : input ≠ [] := fun hh => hstop.2 (by simpa [hh] using hs)
      have hlt := hdecreases hmode hinput
      obtain ⟨hready', hacc⟩ := ih hready (by omega) hf
      obtain ⟨hun, hledger⟩ := @consumed_append_rest fs input c.session rest d hmode hs
      refine ⟨hready', ?_⟩
      cases hacc with
      | all unparked pending ledger =>
        refine .all ?_ (pending.trans hpending) ?_
        · simpa [htrace, hun] using unparked
        · simp only [htrace, consumed_append, consumed_singleton]
          rw [← ledger, hledger]
      | parked parks left ledger =>
        obtain ⟨it, hit, hitp⟩ := parks
        refine .parked ⟨it, List.mem_append_right _ hit, hitp⟩ (fun _ => left hstop.2) ?_
        simp only [htrace, consumed_append, consumed_singleton, List.append_assoc]
        rw [← ledger, hledger]

theorem handleInput_accounts (hc : Ready c) (hf : (handleInput srv others fs c input).fatal = false) :
    Ready (handleInput srv others fs c input).client ∧ Accounts c input (handleInput srv others fs c input) := by
  refine handleInputLoop_accounts _ hc ?_ hf
  unfold measure
  split <;> omega

theorem handlePendingInput_ok (hf : (handlePendingInput srv others fs c).fatal = false) :
    (handleInput srv others fs c c.pendingInput).fatal = false ∧
    (handlePendingInput srv others fs c).trace = (handleInput srv others fs c c.pendingInput).trace ∧
    (handlePendingInput srv others fs c).client =
      { (handleInput srv others fs c c.pendingInput).client with pendingInput := [] } := by
  unfold handlePendingInput at hf ⊢
  cases hfatal : (handleInput srv others fs c c.pendingInput).fatal with
  | true => simp [hfatal] at hf
  | false => simp [hfatal]

theorem handleEvents_ledger {events : SocketEvents} (hc : Ready c)
    (hf : (handleEvents srv others fs c events).fatal = false) :
    Ready (handleEvents srv others fs c events).client ∧
    (c.pendingInput ++ (if c.pendingInput = [] ∧ events.input then events.received.getD [] else []) =
        consumed (handleEvents srv others fs c events).trace ++
          (handleEvents srv others fs c events).client.pendingInput ↔
      (c.pendingInput ≠ [] → ∀ it ∈ (handlePendingInput srv others fs c).trace, it.parked = false)) := by
  unfold handleEvents at hf ⊢
  by_cases hp : c.pendingInput = []
  · simp only [hp, ne_eq, not_true_eq_false, if_false, List.nil_append, true_and, IsEmpty.forall_iff, iff_true] at hf ⊢
    by_cases hin : events.input = true
    · simp only [hin, if_true] at hf ⊢
      cases hr : events.received with
      | none => simp [hr] at hf
      | some input =>
        simp only [hr] at hf ⊢
        obtain ⟨hready, hacc⟩ := handleInput_accounts hc hf
        refine ⟨hready, ?_⟩
        cases hacc with
        | all _ pending ledger => simpa [pending, hp] using ledger
        | parked _ _ ledger => simpa using ledger
    · simp only [hin, Bool.false_eq_true, if_false] at hf ⊢
      exact ⟨hc, by simp [hp, consumed]⟩
  · simp only [ne_eq, hp, not_false_eq_true, if_true, false_and, if_false, List.append_nil, forall_const] at hf ⊢
    obtain ⟨hfatal, htrace, hclient⟩ := handlePendingInput_ok hf
    obtain ⟨hready, hacc⟩ := handleInput_accounts hc hfatal
    rw [htrace, hclient]
    refine ⟨⟨hready.idle, hready.bounded⟩, ?_⟩
    simp only [List.append_nil]
    cases hacc with
    | all unparked _ ledger => exact iff_of_true ledger unparked
    | parked parks left ledger =>
      refine iff_of_false (fun hh => left hp ?_) (fun hh => ?_)
      · exact List.self_eq_append_right.mp (hh.symm.trans ledger)
      · obtain ⟨it, hit, hitp⟩ := parks
        simp [hh it hit] at hitp

theorem handleOutput_keeps (fs : FileSystem) (c : Client) (events : SocketEvents) :
    (handleOutput fs c events).1.pendingInput = c.pendingInput ∧
      (Ready c → Ready (handleOutput fs c events).1) := by
  rcases ho : handleOutput fs c events with ⟨c', e⟩
  cases handleOutput_outputs ho with
  | writes waiting => exact ⟨rfl, fun h => ⟨h.idle, h.bounded⟩⟩
  | idle none mode => exact ⟨rfl, id⟩
  | sends none mode handled | sendThrows none mode handled =>
    obtain ⟨mode', rfl⟩ := Session.handleDownloadManagerOutput_cases handled
    exact ⟨rfl, fun h => ⟨h.idle, h.bounded⟩⟩

end Client

namespace Connection

variable {x : Connection}

/-- Pending input is not handled in download mode. -/
def Keeps (srv : ServerContext) (x : Connection) (call : Call) : Prop :=
  x.client.pendingInput ≠ [] →
    ∀ it ∈ (x.client.handlePendingInput srv call.others call.fs).trace, it.session.context.mode ≠ .download

instance (srv : ServerContext) (x : Connection) (call : Call) : Decidable (Keeps srv x call) :=
  inferInstanceAs (Decidable (_ → _))

/-- Nothing that was received is lost or duplicated. -/
def Balanced (x : Connection) : Prop := x.received = consumed x.trace ++ x.client.pendingInput

instance (x : Connection) : Decidable x.Balanced := inferInstanceAs (Decidable (_ = _))

/-- A call after which the client is alive keeps the balance exactly when it does not handle
pending input in download mode. -/
theorem step_balanced {call : Call} (hr : x.client.Ready) (hb : x.Balanced)
    (halive : (step srv x call).client.isAlive = true) :
    (step srv x call).client.Ready ∧ ((step srv x call).Balanced ↔ x.client.isAlive = true → Keeps srv x call) := by
  by_cases hx : x.client.isAlive = true
  · have hs : step srv x call =
        ⟨(x.client.handle srv call.others call.fs call.events).fs,
          (x.client.handle srv call.others call.fs call.events).client, x.received ++ x.receives call,
          x.trace ++ (x.client.handle srv call.others call.fs call.events).trace⟩ := by
      simp [step, hx]
    rw [hs] at halive ⊢
    obtain ⟨-, htrace, hcases⟩ := Client.handle_cases srv call.others call.fs x.client call.events
    rcases hcases with ⟨-, hclient⟩ | ⟨hf, client, hclient, hout | hout⟩
    · simp [hclient] at halive
    · obtain ⟨hready, hledger⟩ := Client.handleEvents_ledger hr hf
      have hclient' : client.Ready ∧ client.pendingInput =
          (x.client.handleEvents srv call.others call.fs call.events).client.pendingInput := by
        rcases hclient with rfl | rfl
        · exact ⟨hready, rfl⟩
        · obtain ⟨hpending, hready'⟩ := Client.handleOutput_keeps _ _ call.events
          exact ⟨hready' hready, hpending⟩
      refine ⟨hout ▸ hclient'.1, ?_⟩
      simp only [Balanced, hout, htrace, hclient'.2]
      rw [hb, consumed_append, List.append_assoc, List.append_assoc, List.append_cancel_left_eq]
      simpa [receives, Keeps, Iteration.parked, hx] using hledger
    · simp [hout] at halive
  · have hs : step srv x call = x := by simp [step, hx]
    rw [hs]
    exact ⟨hr, by simp [hx, hb]⟩

/-- Along a run that never handles pending input in download mode, nothing is lost or
duplicated while the client is alive, and the next call keeps it so exactly when it does not
either. -/
theorem balanced_of_keeps (h : Runs.Reaches (step srv) (Keeps srv) (start fs) x)
    (halive : x.client.isAlive = true) :
    x.Balanced ∧ ∀ call, (step srv x call).client.isAlive = true →
      ((step srv x call).Balanced ↔ Keeps srv x call) := by
  have hinv : x.client.isAlive = true → x.client.Ready ∧ x.Balanced := by
    refine h.invariant (I := fun x => x.client.isAlive = true → x.client.Ready ∧ x.Balanced)
      (fun _ => ⟨Client.ready_new, rfl⟩) (fun y call ih hkeeps hy => ?_)
    by_cases hy' : y.client.isAlive = true
    · obtain ⟨hr, hb⟩ := ih hy'
      obtain ⟨hr', hiff⟩ := step_balanced hr hb hy
      exact ⟨hr', hiff.mpr (fun _ => hkeeps)⟩
    · have hs : step srv y call = y := by simp [step, hy']
      rw [hs] at hy
      exact absurd hy hy'
  obtain ⟨hr, hb⟩ := hinv halive
  exact ⟨hb, fun call hcall => by simpa [halive] using (step_balanced hr hb hcall).2⟩

end Connection

namespace Sample

def emptyFile : FileSystem := ⟨tree [([ascii "r", ascii "x"], .file 0)], [[]]⟩

/-- A client logs in and asks for `x`, takes the answers, and sends `dls` with a further request
behind it. The socket can then be written to in that same call, or only in the next one. -/
def pipelined (atOnce : Bool) : List Call :=
  [call emptyFile (some "auth\nlogin:u\npasswd:pw\n\ndl\nname:x\n\n") [], call emptyFile none [10, 10],
    call emptyFile (some "dls\n\nname\n\n") (if atOnce then [1] else []), call emptyFile none [1]]

end Sample

namespace Connection

theorem balanced_of_keeps_pipelined :
    let x := Runs.run (step Sample.server) (start Sample.emptyFile) (Sample.pipelined true)
    x.client.isAlive = true ∧ x.Balanced ∧ ∀ call, (step Sample.server x call).client.isAlive = true →
      ((step Sample.server x call).Balanced ↔ Keeps Sample.server x call) :=
  ⟨by decide +kernel, balanced_of_keeps
    (Runs.AllMeet.reaches ⟨by decide +kernel, by decide +kernel, by decide +kernel, by decide +kernel, trivial⟩)
    (by decide +kernel)⟩

/-- The request behind `dls` is parked, and gone after the next call. -/
theorem pipelined_request_lost :
    let x := Runs.run (step Sample.server) (start Sample.emptyFile) (Sample.pipelined false)
    x.client.isAlive = true ∧ ¬ x.Balanced := by
  decide +kernel

end Connection

end TinDox
