import TinDox.Killed
import TinDox.Replies
import TinDox.Termination
import Mathlib.Data.Prod.Lex

/-! What a client is rearmed for. As long as it waits for room in its socket, every call goes on with
what it has to do, so that in the end all its outcomes are sent and it waits for input, unless one of its
commands never returns. -/

namespace TinDox

/-- `EventType::in` and `EventType::out`. -/
inductive EventType where
  | input
  | output
  deriving DecidableEq

def Client.getRequiredEvents (c : Client) : EventType :=
  if (c.pendingInput ≠ [] ∧ c.session.context.mode = .command) ∨ c.responses ≠ [] ∨ c.session.context.mode = .download then
    .output
  else .input

/-- There is room in the socket, which is all that the call is about. -/
structure Call.Writable (call : Call) : Prop where
  output : call.events.output = true
  input : call.events.input = false
  accepted : ∃ n ns, call.events.accepted = (n + 1) :: ns

namespace Sender

theorem length_write_le (ns : List Nat) (rs : List Response) : (write ns rs).length ≤ rs.length := by
  induction ns generalizing rs with
  | nil => simp [write]
  | cons n ns ih =>
    cases rs with
    | nil => simp [write]
    | cons r rs =>
      by_cases hn : n = 0
      · simp [write, hn]
      · simp only [write, hn, if_false]
        split
        · have hle := ih rs
          rw [List.length_cons]
          omega
        · exact ih _

/-- What there is to do for the sender. -/
def load (rs : List Response) : Nat := (queued rs).length + rs.length

theorem load_write_le (ns : List Nat) (rs : List Response) : load (write ns rs) ≤ load rs := by
  have hcut := congrArg List.length (sent_append_queued ns rs)
  have hle := length_write_le ns rs
  rw [List.length_append] at hcut
  unfold load
  omega

theorem load_write_lt (n : Nat) (ns : List Nat) {rs : List Response} (h : rs ≠ []) :
    load (write ((n + 1) :: ns) rs) < load rs := by
  obtain ⟨r, rs, rfl⟩ := List.exists_cons_of_ne_nil h
  have hzero : n + 1 ≠ 0 := by omega
  simp only [write, hzero, if_false]
  by_cases hs : (r.addReadByteCount (n + 1)).isFullySent = true
  · rw [if_pos hs]
    refine lt_of_le_of_lt (load_write_le ns rs) ?_
    simp only [load, queued, List.flatMap_cons, List.length_append, List.length_cons]
    omega
  · rw [if_neg hs]
    refine lt_of_le_of_lt (load_write_le ns _) ?_
    have hrest := r.rest_addReadByteCount (n + 1)
    have hpos : 0 < r.rest.length := by
      by_contra hnone
      apply hs
      have hlen : (r.addReadByteCount (n + 1)).rest.length = 0 := by
        rw [hrest, List.length_drop]
        omega
      rw [Response.rest, List.length_drop] at hlen
      exact decide_eq_true hlen
    simp only [load, queued, List.flatMap_cons, List.length_append, List.length_cons, hrest, List.length_drop]
    omega

end Sender

namespace Client

variable {srv : ServerContext} {others : Surroundings} {fs : FileSystem} {c : Client} {call : Call}

/-- Input that waits comes first; behind it stand the responses and the file that is sent. -/
def rank (c : Client) : Nat ×ₗ Nat :=
  toLex (if c.pendingInput = [] then 0 else 1, Sender.load c.responses +
    if c.session.context.mode = .download then
      c.session.downloadManager.fileSize - c.session.downloadManager.offset + 1
    else 0)

theorem handleOutput_rank (hw : call.Writable) (hwaits : c.responses ≠ [] ∨ c.session.context.mode = .download)
    (hf : (handleOutput fs c call.events).2 = false) : (handleOutput fs c call.events).1.rank < c.rank := by
  rcases ho : handleOutput fs c call.events with ⟨c', e⟩
  rw [ho] at hf
  have hright {k l m : Nat} (h : l < m) : toLex (k, l) < toLex (k, m) := Prod.Lex.toLex_lt_toLex.mpr (.inr ⟨rfl, h⟩)
  cases handleOutput_outputs ho with
  | writes waiting =>
    obtain ⟨n, ns, haccepted⟩ := hw.accepted
    have hlt := Sender.load_write_lt n ns waiting
    apply hright
    rw [haccepted]
    dsimp only
    omega
  | sends none mode handled =>
    apply hright
    dsimp only
    rw [if_pos mode, Nat.add_lt_add_iff_left]
    unfold Session.handleDownloadManagerOutput at handled
    rcases DownloadManager.send_cases fs c.session.downloadManager call.events.room with
      ⟨hfin, hsend⟩ | ⟨hfin, ⟨-, hsend⟩ | ⟨⟨-, hpiece⟩, ⟨hdone, hsend⟩ | ⟨hmore, hsend⟩⟩⟩
    · rw [hsend] at handled
      cases handled
      rw [if_pos hfin, if_neg (by simp [ClientContext.setMode])]
      omega
    · rw [hsend] at handled
      cases handled
    · rw [hsend] at handled
      cases handled
      simp [DownloadManager.hasFinished, ClientContext.setMode]
    · rw [hsend] at handled
      cases handled
      have hpos := List.length_pos_of_ne_nil hpiece
      have hsame : ({ c.session.downloadManager with
          offset := c.session.downloadManager.offset + (c.session.downloadManager.piece fs call.events.room).length } :
          DownloadManager).hasFinished = false := hfin
      simp only [hsame, Bool.false_eq_true, if_false, mode, if_true]
      omega
  | sendThrows none mode handled => cases hf
  | idle none mode =>
    rcases hwaits with hwaits | hwaits
    · exact absurd none hwaits
    · exact absurd hwaits mode

/-- What the loop leaves of the input that has waited is nothing. -/
theorem handleEvents_pending {events : SocketEvents} (hp : c.pendingInput ≠ [])
    (hf : (handleEvents srv others fs c events).fatal = false) :
    (handleEvents srv others fs c events).client.pendingInput = [] := by
  rw [handleEvents, if_pos hp] at hf ⊢
  unfold handlePendingInput at hf ⊢
  generalize handleInput srv others fs c c.pendingInput = h at hf ⊢
  cases hh : h.fatal with
  | true =>
    simp only [hh, if_true] at hf
    cases hf
  | false => simp [hh]

theorem rank_handle (hw : call.Writable) (hwaits : c.getRequiredEvents = .output)
    (halive : (handle srv others fs c call.events).client.isAlive = true) :
    (handle srv others fs c call.events).client.rank < c.rank := by
  obtain ⟨hf, -, hout⟩ := handle_ok (handle_alive halive)
  by_cases hp : c.pendingInput = []
  · have hevents : handleEvents srv others fs c call.events = ⟨fs, c, false, []⟩ := by
      rw [handleEvents, if_neg (not_not.mpr hp), hw.input]
      rfl
    have hwaits' : c.responses ≠ [] ∨ c.session.context.mode = .download := by
      by_contra hnone
      rw [getRequiredEvents, if_neg] at hwaits
      · cases hwaits
      · rintro (⟨hne, -⟩ | hor)
        · exact hne hp
        · exact hnone hor
    rcases handleOut : handleOutput fs c call.events with ⟨c', e⟩
    have hhandle : handle srv others fs c call.events =
        if e = true then ⟨fs, c'.killed, true, []⟩ else ⟨fs, c', false, []⟩ := by
      rw [handle, hevents]
      simp only [Bool.false_eq_true, if_false, hw.output, if_true, handleOut]
      cases e <;> rfl
    rw [hhandle] at halive ⊢
    cases e with
    | true => simp at halive
    | false =>
      have hlt := handleOutput_rank hw hwaits' (by rw [handleOut])
      rwa [handleOut] at hlt
  · have hempty := handleEvents_pending hp hf
    have hpending : (handle srv others fs c call.events).client.pendingInput = [] := by
      rcases hout with hout | ⟨-, hout⟩
      · rw [hout, hempty]
      · rw [hout, (handleOutput_keeps _ _ _).1, hempty]
    apply Prod.Lex.toLex_lt_toLex.mpr
    left
    rw [if_pos hpending, if_neg hp]
    exact Nat.zero_lt_one

theorem measure_le (c : Client) (input : Bytes) : measure c input < 2 * input.length + 2 := by
  unfold measure
  split <;> omega

theorem handleDownloadManagerOutput_mode {s : Session} {room : Nat} (hm : s.context.mode = .download) :
    (s.handleDownloadManagerOutput fs room).1.context.mode ≠ .upload := by
  unfold Session.handleDownloadManagerOutput
  rcases s.downloadManager.send fs room with ⟨m, sent, e | u⟩
  · simp [hm]
  · dsimp only
    split
    · simp [ClientContext.setMode]
    · simp [hm]

/-- Input waits only where it is handled before new input is asked for. -/
def Parks (c : Client) : Prop := c.pendingInput = [] ∨ c.session.context.mode ≠ .upload

theorem handleOnce_parks {input rest : Bytes} {h : Handling} (hc : c.Ready)
    (hp : c.pendingInput = [] ∨ c.session.context.mode = .download)
    (he : handleOnce srv others fs c input = (h, rest)) (hf : h.fatal = false) :
    h.client.pendingInput = [] ∨ h.client.session.context.mode = .download := by
  have hadv := handleOnce_advances hc he hf
  by_cases hm : c.session.context.mode = .download
  · right
    rw [handleOnce, hm] at he
    cases he
    exact hm
  · left
    exact ((hadv.suffix hm).2).trans (hp.resolve_right hm)

theorem handleEvents_parks {events : SocketEvents} (hc : c.Ready) (hp : c.Parks)
    (hf : (handleEvents srv others fs c events).fatal = false) : (handleEvents srv others fs c events).client.Parks := by
  by_cases hpending : c.pendingInput = []
  · rw [handleEvents, if_neg (not_not.mpr hpending)] at hf ⊢
    by_cases hinput : events.input = true
    · rw [if_pos hinput] at hf ⊢
      cases hreceived : events.received with
      | none =>
        rw [hreceived] at hf
        cases hf
      | some input =>
        rw [hreceived] at hf
        dsimp only at hf ⊢
        suffices h : (handleInput srv others fs c input).client.pendingInput = [] ∨
            (handleInput srv others fs c input).client.session.context.mode = .download by
          rcases h with h | h
          · exact .inl h
          · refine .inr fun hh => ?_
            rw [h] at hh
            cases hh
        obtain ⟨l, h, rest, hreach, honce, -, -, hres⟩ :=
          @handleInputLoop_ends srv others fs c _ input [] hc (measure_le c input)
        rw [show handleInput srv others fs c input = handleInputLoop srv others (2 * input.length + 2) fs c input from rfl,
          hres] at hf ⊢
        have hlast : h.fatal = false := hf
        have hl : l.client.Ready ∧ (l.client.pendingInput = [] ∨ l.client.session.context.mode = .download) := by
          refine hreach.invariant
            (I := fun l => l.client.Ready ∧ (l.client.pendingInput = [] ∨ l.client.session.context.mode = .download))
            ⟨hc, .inl hpending⟩ (fun l h rest hl honce hf => ?_)
          exact ⟨(handleOnce_advances hl.1 honce hf).ready, handleOnce_parks hl.1 hl.2 honce hf⟩
        have hend := handleOnce_parks hl.1 hl.2 honce hlast
        exact hend
    · rw [if_neg hinput]
      exact hp
  · exact .inl (handleEvents_pending hpending hf)

theorem handle_parks {events : SocketEvents} (hc : c.Ready) (hp : c.Parks)
    (halive : (handle srv others fs c events).client.isAlive = true) : (handle srv others fs c events).client.Parks := by
  obtain ⟨hf, -, hout⟩ := handle_ok (handle_alive halive)
  have hevents := handleEvents_parks hc hp hf
  rcases hout with hout | ⟨-, hout⟩
  · rw [hout]
    exact hevents
  · rw [hout]
    generalize handleEvents srv others fs c events = h at hevents
    rcases ho : handleOutput h.fs h.client events with ⟨c', e⟩
    cases handleOutput_outputs ho with
    | writes waiting => exact hevents
    | idle none mode => exact hevents
    | sends none mode handled | sendThrows none mode handled =>
      right
      have hmode := @handleDownloadManagerOutput_mode h.fs h.client.session events.room mode
      rwa [handled] at hmode

end Client

/-- The iteration executes a `cp` whose renaming loop does not end. -/
def Iteration.Hangs (srv : ServerContext) (it : Iteration) : Prop :=
  ∃ r path name, it.delivery = .request r ∧ r.name = ascii "cp" ∧
    TransportCommand.parseFields srv it.fs it.session.context r.fields = .ok (path, name) ∧ ¬ Cp.Renames it.fs path name

theorem Hangs.never_ends {srv : ServerContext} {fs : FileSystem} {c : ClientContext} {r : Request} (h : Hangs srv fs c r) :
    r.name = ascii "cp" ∧ ∃ path name, TransportCommand.parseFields srv fs c r.fields = .ok (path, name) ∧
      ¬ Cp.Renames fs path name := by
  obtain ⟨hname, path, name, hparse, hnone⟩ := h
  obtain ⟨hdir, hs⟩ := TransportCommand.parseFields_target hparse
  exact ⟨hname, path, name, hparse, (Cp.newPath_eq_none_iff hdir hs).mp hnone⟩

namespace Client

variable {srv : ServerContext} {others : Surroundings} {fs : FileSystem} {c : Client}

/-- The thread is stuck only in what the iterations have executed. -/
def StuckBy (srv : ServerContext) (c : Client) (trace : List Iteration) : Prop :=
  c.session.context.stuck = true → ∃ it ∈ trace, it.Hangs srv

theorem StuckBy.handleOnce {input rest : Bytes} {h : Handling} {trace : List Iteration} (hc : c.StuckBy srv trace)
    (he : c.handleOnce srv others fs input = (h, rest)) : h.client.StuckBy srv (trace ++ h.trace) := by
  have hold (hstuck : c.session.context.stuck = true) : ∃ it ∈ trace ++ h.trace, it.Hangs srv := by
    obtain ⟨it, hit, hhangs⟩ := hc hstuck
    exact ⟨it, List.mem_append_left _ hit, hhangs⟩
  intro hstuck
  cases handleOnce_iterates he with
  | download mode | waits mode taken | interpreterThrows mode taken | refuses mode taken => exact hold hstuck
  | upload mode handled | uploadThrows mode handled =>
    obtain ⟨-, mode', rfl⟩ := Session.handleUpload_cases handled
    exact hold hstuck
  | @executes i rest r mode taken =>
    rcases (executeCommand_effect srv (surroundings others c.session) fs c.session r mode).stuck with hs | ⟨-, hhangs⟩
    · exact hold (hs.symm.trans hstuck)
    · obtain ⟨hname, path, name, hparse, hnever⟩ := hhangs.never_ends
      exact ⟨_, List.mem_append_right _ (List.mem_singleton_self _), r, path, name, rfl, hname, hparse, hnever⟩

theorem stuck_handleOutput (fs : FileSystem) (c : Client) (events : SocketEvents) :
    (handleOutput fs c events).1.session.context.stuck = c.session.context.stuck := by
  rcases ho : handleOutput fs c events with ⟨c', e⟩
  cases handleOutput_outputs ho with
  | writes waiting | idle none mode => rfl
  | sends none mode handled | sendThrows none mode handled =>
    obtain ⟨mode', rfl⟩ := Session.handleDownloadManagerOutput_cases handled
    rfl

theorem StuckBy.handle {events : SocketEvents} {trace : List Iteration} (hready : c.Ready) (hc : c.StuckBy srv trace) :
    (c.handle srv others fs events).client.StuckBy srv (trace ++ (c.handle srv others fs events).trace) := by
  have hevents : (c.handleEvents srv others fs events).client.StuckBy srv (trace ++ (c.handleEvents srv others fs events).trace) := by
    rcases @handleEvents_ends srv others fs c events trace hready with
      ⟨-, -, hclient, htrace⟩ | ⟨input, l, h, rest, -, hreach, honce, -, htrace, -, -, pending, hclient⟩
    · rw [hclient, htrace, List.append_nil]
      exact hc
    · have hl : l.client.StuckBy srv l.trace :=
        hreach.invariant (I := fun l => l.client.StuckBy srv l.trace) hc fun _ _ _ hl honce _ => hl.handleOnce honce
      rw [hclient, htrace]
      exact hl.handleOnce honce
  obtain ⟨-, htrace, ⟨-, hclient⟩ | ⟨-, client, hclient, hout⟩⟩ := handle_cases srv others fs c events
  · rw [htrace]
    intro hstuck
    apply hevents
    rwa [hclient, Client.killed, Session.stuck_kill] at hstuck
  · rw [htrace]
    intro hstuck
    apply hevents
    have hsame : client.session.context.stuck = (c.handleEvents srv others fs events).client.session.context.stuck := by
      rcases hclient with rfl | rfl
      · rfl
      · exact stuck_handleOutput _ _ events
    rw [← hsame]
    rcases hout with hout | hout
    · rwa [hout] at hstuck
    · rwa [hout, Client.killed, Session.stuck_kill] at hstuck

end Client

namespace Exchange

variable {srv : ServerContext} {fs : FileSystem} {x : Exchange} {call : Call}

/-- What holds between the calls of a client that is alive. -/
structure Served (x : Exchange) : Prop where
  accounted : x.Accounted
  parks : x.connection.client.Parks

theorem step_of_dead (hx : x.connection.client.isAlive = false) : x.step srv call = x := by
  rw [step, if_neg (by rw [hx]; exact Bool.false_ne_true)]

theorem served_of_reaches (h : Runs.Reaches (step srv) Undisturbed (start fs) x) (halive : x.connection.client.isAlive = true) :
    x.Served := by
  have hinv : x.connection.client.isAlive = true → x.Served := by
    refine h.invariant (I := fun x => x.connection.client.isAlive = true → x.Served) ?_ (fun y call ih hu hy => ?_)
    · exact fun _ => ⟨⟨Client.coherent_new, Client.ready_new, rfl⟩, .inl rfl⟩
    · cases hyalive : y.connection.client.isAlive with
      | false =>
        rw [step_of_dead hyalive, hyalive] at hy
        cases hy
      | true =>
        have hs := ih hyalive
        refine ⟨(step_accounted hs.accounted hu hyalive).2 hy, ?_⟩
        simp only [step, hyalive, if_true, Connection.step] at hy ⊢
        exact Client.handle_parks hs.accounted.ready hs.parks hy
  exact hinv halive

/-- Nothing is left to do until the client sends something. -/
structure Settled (x : Exchange) : Prop where
  requires : x.connection.client.getRequiredEvents = .input
  pending : x.connection.client.pendingInput = []
  sent : x.sent = x.outcomes.flatten

theorem settled_of_requires (h : x.Served) (hr : x.connection.client.getRequiredEvents = .input) : x.Settled := by
  have hnone : ¬ ((x.connection.client.pendingInput ≠ [] ∧ x.connection.client.session.context.mode = .command) ∨
      x.connection.client.responses ≠ [] ∨ x.connection.client.session.context.mode = .download) := by
    intro hh
    rw [Client.getRequiredEvents, if_pos hh] at hr
    cases hr
  simp only [not_or, not_and, not_not] at hnone
  obtain ⟨hcommand, hresponses, hdownload⟩ := hnone
  refine ⟨hr, ?_, ?_⟩
  · rcases h.parks with hp | hm
    · exact hp
    · by_contra hne
      cases hmode : x.connection.client.session.context.mode with
      | command => exact hcommand hne hmode
      | upload => exact hm hmode
      | download => exact hdownload hmode
  · have hledger := h.accounted.ledger
    rw [Client.pendingOutput, hresponses, Session.unsent, if_neg hdownload] at hledger
    simpa [Sender.queued] using hledger

/-- A call that reads nothing leaves it as it is. -/
theorem Settled.step (h : x.Settled) (hw : call.Writable) (hfs : call.fs = x.connection.fs) : x.step srv call = x := by
  have hnone : ¬ ((x.connection.client.pendingInput ≠ [] ∧ x.connection.client.session.context.mode = .command) ∨
      x.connection.client.responses ≠ [] ∨ x.connection.client.session.context.mode = .download) := by
    intro hh
    have hr := h.requires
    rw [Client.getRequiredEvents, if_pos hh] at hr
    cases hr
  obtain ⟨-, hidle⟩ := not_or.mp hnone
  obtain ⟨hresponses, hdownload⟩ := not_or.mp hidle
  have hevents : x.connection.client.handleEvents srv call.others call.fs call.events =
      ⟨call.fs, x.connection.client, false, []⟩ := by
    rw [Client.handleEvents, if_neg (not_not.mpr h.pending), hw.input]
    rfl
  have hout : x.connection.client.handleOutput call.fs call.events = (x.connection.client, false) := by
    rw [Client.handleOutput, if_neg hresponses, if_neg hdownload]
  have hhandle : x.connection.client.handle srv call.others call.fs call.events =
      ⟨call.fs, x.connection.client, false, []⟩ := by
    rw [Client.handle, hevents]
    simp only [hw.output, if_true, hout, Bool.false_eq_true, if_false]
  have hwrites : x.connection.client.writes srv call.others call.fs call.events = [] := by
    rw [Client.writes, hevents]
    simp only [hw.output, if_true, Client.written, hresponses, hdownload, Bool.false_eq_true, if_false]
  have hreceives : x.connection.receives call = [] := by
    rw [Connection.receives, hw.input, if_neg (by simp)]
  by_cases hx : x.connection.client.isAlive = true
  · rw [Exchange.step, if_pos hx, Connection.step, if_pos hx, hhandle, hwrites, hreceives, hfs]
    simp [traceOutcomes]
  · exact step_of_dead (by simpa using hx)

/-- The connection has been given up. -/
def Killed (x : Exchange) : Prop :=
  x.connection.client.session.context.alive = false ∧ x.connection.client.session.context.stuck = false

/-- The thread is in a renaming loop that does not end. -/
def Hanging (srv : ServerContext) (x : Exchange) : Prop :=
  x.connection.client.session.context.stuck = true ∧ ∃ it ∈ x.connection.trace, it.Hangs srv

def Rests (srv : ServerContext) (x : Exchange) : Prop := x.Settled ∨ x.Killed ∨ x.Hanging srv

theorem stuckBy_of_reaches (h : Runs.Reaches (step srv) Undisturbed (start fs) x) :
    x.connection.client.Ready ∧ x.connection.client.StuckBy srv x.connection.trace := by
  refine h.invariant (I := fun x => x.connection.client.Ready ∧ x.connection.client.StuckBy srv x.connection.trace)
    ⟨Client.ready_new, fun hstuck => nomatch hstuck⟩ (fun y call ⟨hready, hstuck⟩ _ => ?_)
  by_cases hy : y.connection.client.isAlive = true
  · simp only [step, hy, if_true, Connection.step]
    exact ⟨Client.handle_ready hready, hstuck.handle hready⟩
  · rw [step_of_dead (by simpa using hy)]
    exact ⟨hready, hstuck⟩

/-- A client that is not alive is killed, or its thread is stuck in what it has executed. -/
theorem rests_of_dead (h : Runs.Reaches (step srv) Undisturbed (start fs) x) (hdead : x.connection.client.isAlive = false) :
    x.Rests srv := by
  cases hstuck : x.connection.client.session.context.stuck with
  | true => exact .inr (.inr ⟨hstuck, (stuckBy_of_reaches h).2 hstuck⟩)
  | false =>
    rw [Client.isAlive, ClientContext.isAlive, hstuck] at hdead
    exact .inr (.inl ⟨by simpa using hdead, hstuck⟩)

/-- A client that is not asked to read anything gets to where all its outcomes are sent and none of its
input waits, or it is killed, or it has executed a command that never returns. -/
theorem settles (h : Runs.Reaches (step srv) Undisturbed (start fs) x) {calls : Nat → Call}
    (hw : ∀ n, (calls n).Writable) (hu : ∀ n, Undisturbed (Runs.along (step srv) x calls n) (calls n)) :
    ∃ n, Rests srv (Runs.along (step srv) x calls n) := by
  have hdown : ∀ n, ¬ Rests srv (Runs.along (step srv) x calls n) →
      (Runs.along (step srv) x calls (n + 1)).connection.client.rank <
        (Runs.along (step srv) x calls n).connection.client.rank ∨ Rests srv (Runs.along (step srv) x calls (n + 1)) := by
    intro n hn
    have hreach := h.trans (Runs.along_reaches hu n)
    have hreach' := h.trans (Runs.along_reaches hu (n + 1))
    rw [Runs.along] at hreach' ⊢
    generalize Runs.along (step srv) x calls n = y at hn hreach hreach' ⊢
    have hy : y.connection.client.isAlive = true := by
      by_contra hdead
      exact hn (rests_of_dead hreach (by simpa using hdead))
    cases hnext : (y.step srv (calls n)).connection.client.isAlive with
    | false => exact .inr (rests_of_dead hreach' hnext)
    | true =>
      left
      have hwaits : y.connection.client.getRequiredEvents = .output := by
        cases hr : y.connection.client.getRequiredEvents with
        | output => rfl
        | input => exact absurd (.inl (settled_of_requires (served_of_reaches hreach hy) hr)) hn
      simp only [step, hy, if_true, Connection.step] at hnext ⊢
      exact Client.rank_handle (hw n) hwaits hnext
  exact Runs.along_descends wellFounded_lt (fun x => x.connection.client.rank) hdown

end Exchange

namespace Sample

/-- A download has been asked for, and the socket has taken four bytes. -/
def halfSent : Exchange := Runs.run (Exchange.step server) (.start threeBytes) (downloading.take 1)

/-- The socket takes some bytes. -/
def room : Call := call threeBytes none [1, 5]

def draining : Nat → Exchange := Runs.along (Exchange.step server) halfSent fun _ => room

end Sample

namespace Exchange

theorem settles_download :
    (Sample.draining 0).sent = ascii "100 " ∧ (Sample.draining 4).sent = ascii "100 auth\n\n100 dl\n2\n\nbc" ∧
    ∃ n, Rests Sample.server (Sample.draining n) := by
  have hroom : Sample.room.Writable := ⟨rfl, rfl, 0, [5], rfl⟩
  have hsettled : (Sample.draining 4).Settled := ⟨by decide +kernel, by decide +kernel, by decide +kernel⟩
  have hstays : ∀ n, Sample.draining (4 + n) = Sample.draining 4 := by
    intro n
    induction n with
    | zero => rfl
    | succ n ih =>
      have hnext : Sample.draining (4 + (n + 1)) = (Sample.draining (4 + n)).step Sample.server Sample.room := rfl
      rw [hnext, ih]
      exact hsettled.step hroom (by decide +kernel)
  have hundisturbed : ∀ n, Undisturbed (Sample.draining n) Sample.room := by
    intro n
    by_cases hn : n < 4
    · have hfew : ∀ n < 4, Undisturbed (Sample.draining n) Sample.room := by decide +kernel
      exact hfew n hn
    · obtain ⟨m, rfl⟩ := Nat.exists_eq_add_of_le (Nat.not_lt.mp hn)
      rw [hstays m]
      decide +kernel
  have hreaches : Runs.Reaches (step Sample.server) Undisturbed (start Sample.threeBytes) Sample.halfSent :=
    Runs.AllMeet.reaches ⟨by decide +kernel, trivial⟩
  exact ⟨by decide +kernel, by decide +kernel, settles hreaches (fun _ => hroom) hundisturbed⟩

end Exchange

end TinDox
