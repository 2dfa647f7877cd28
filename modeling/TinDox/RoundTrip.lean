import TinDox.AnswerCodes

/-! A call of the console client against the server, from the first byte of the request to the last byte
of the response. While the client waits, the request is executed once, in the call that brings its
last byte, and the client gets the answer to it and nothing else. -/

namespace TinDox

open ProtocolInterpreter

theorem CommandExecutor.execute_downloads {srv : ServerContext} {around : Surroundings} {w : World} {command : Command}
    (hm : w.client.mode = .command) (h : (execute srv around w command).1.client.mode = .download) : command = .dls := by
  by_cases hp : command.isPlain = true
  · have hsame := (@execute_isPlain srv around command hp w).1
    rw [h, hm] at hsame
    cases hsame
  cases command with
  | auth u p =>
    rw [execute] at h
    rcases Auth.execute_cases srv around w u p with ⟨e, -, ⟨alive, count, hw⟩, -⟩ | ⟨token, -, -, hx | ⟨-, hx⟩⟩
    · rw [hw] at h
      cases hm.symm.trans h
    · rw [hx] at h
      cases hm.symm.trans h
    · rw [hx] at h
      cases hm.symm.trans h
  | logout => cases hm.symm.trans h
  | dls => rfl
  | ul name size retry =>
    rw [execute] at h
    rcases Ul.execute_cases srv around w name size retry with
      ⟨e, hx, -⟩ | ⟨cur, token, -, -, ⟨upload, -, -, hx⟩ |
        ⟨table, fs', removed, -, -, -, ⟨e, hx, -⟩ | ⟨upload, -, hx⟩⟩⟩
    · rw [hx] at h
      cases hm.symm.trans h
    · rw [hx] at h
      cases h
    · rw [hx] at h
      cases hm.symm.trans h
    · rw [hx] at h
      cases h
  | _ => exact absurd rfl hp

namespace Session

variable {srv : ServerContext} {around : Surroundings} {fs : FileSystem} {s : Session} {r : Request}

theorem refused_mode (fs : FileSystem) (s : Session) (r : Request) (e : Exception) :
    (refused fs s r e).session.context.mode = s.context.mode := by
  rw [refused_session]

/-- No other command than `dls` begins to send a file. -/
theorem executeCommand_downloads (hm : s.context.mode = .command)
    (hmode : (s.executeCommand srv around fs r).session.context.mode = .download) : r.name = ascii "dls" := by
  cases hset : CommandExecutor.setCommand s.context r.name with
  | error e =>
    rw [executeCommand_stopped hset, refused_mode, hm] at hmode
    cases hmode
  | ok n =>
    cases hparse : CommandExecutor.parseFields srv fs s.context r.fields n with
    | error e =>
      rw [executeCommand_unparsed hset hparse, refused_mode, hm] at hmode
      cases hmode
    | ok command =>
      obtain rfl := CommandExecutor.parseFields_commandName hparse
      have hname := (CommandExecutor.setCommand_ok hset).1
      suffices h : command = .dls by
        subst command
        exact hname
      apply @CommandExecutor.execute_downloads srv around ⟨fs, s.context⟩ command hm
      rcases hx : CommandExecutor.execute srv around ⟨fs, s.context⟩ command with ⟨w, e | lines⟩
      · rw [executeCommand_throws hset hparse hx, refused_mode] at hmode
        exact hmode
      · rw [executeCommand_executed hset hparse hx, accepted] at hmode
        have hcontext : (s.withContext w.client).context = w.client := rfl
        rw [hcontext] at hmode
        cases hw : w.client.mode with
        | download => rfl
        | command =>
          simp only [hw, hcontext] at hmode
          cases hmode
        | upload =>
          simp only [hw] at hmode
          rw [startUpload_mode, hcontext, hw] at hmode
          cases hmode

/-- A request other than `dls` is answered, unless an exception leaves the handler. -/
theorem executeCommand_answers (hs : s.Coherent) (hm : s.context.mode = .command) (hname : r.name ≠ ascii "dls")
    (hf : (s.executeCommand srv around fs r).fatal = false) :
    ∃ a, (s.executeCommand srv around fs r).answer = some a ∧
      (s.executeCommand srv around fs r).session.context.mode ≠ .download := by
  rcases @executeCommand_output srv around fs s r hs hm hf with h | ⟨token, -, -, hmode, -⟩
  · exact h
  · exact absurd (executeCommand_downloads hm hmode) hname

end Session

theorem Connection.coherent_of_alive {srv : ServerContext} {fs : FileSystem} {x : Connection}
    (h : Runs.Reaches (step srv) (fun _ _ => True) (start fs) x) (halive : x.client.isAlive = true) :
    x.client.Coherent x.trace ∧ x.client.Ready := by
  have hinv : x.client.isAlive = true → x.client.Coherent x.trace ∧ x.client.Ready := by
    refine h.invariant (I := fun x => x.client.isAlive = true → x.client.Coherent x.trace ∧ x.client.Ready)
      (fun _ => ⟨Client.coherent_new, Client.ready_new⟩) (fun y call ih _ hy => ?_)
    by_cases hyalive : y.client.isAlive = true
    · obtain ⟨hc, hr⟩ := ih hyalive
      apply step_coherent hc hr
      intro _
      rw [step, if_pos hyalive] at hy
      exact Client.handle_alive hy
    · rw [step, if_neg hyalive] at hy
      exact absurd hy hyalive
  exact hinv halive

namespace Client

variable {srv : ServerContext} {others : Surroundings} {fs : FileSystem} {c : Client} {input later : Bytes}
  {done : List Bytes} {cur : Bytes} {r : Request}

/-- A chunk either leaves something of the request to come, or it brings its end and no byte behind it. -/
theorem handleInput_arriving (hm : c.session.context.mode = .command) (hi : c.interpreter = Framing.ofState done cur)
    (hw : Framing.Within done cur (input ++ later))
    (hd : Framing.deliveries done cur (input ++ later) = [(.request r, [])]) :
    (∃ done' cur', handleInput srv others fs c input =
        ⟨fs, { c with interpreter := Framing.ofState done' cur' }, false, [⟨fs, c.session, input, [], .nothing⟩]⟩ ∧
      Framing.Within done' cur' later ∧ Framing.deliveries done' cur' later = [(.request r, [])]) ∨
    later = [] ∧
      let executed := c.session.executeCommand srv (surroundings others c.session) fs r
      handleInput srv others fs c input =
        ⟨executed.fs, { { c with interpreter := fresh }.addAnswer executed.answer with session := executed.session },
          executed.fatal, [⟨fs, c.session, input, [], .request r⟩]⟩ := by
  rcases Framing.takeRequest_ofState hw with ⟨done', cur', htake, hdel, hw'⟩ | ⟨d, rest, htake, -, -, -, hdel⟩
  · refine .inl ⟨done', cur', ?_, hw', hdel ▸ hd⟩
    rw [handleInput, handleInputLoop, handleOnce]
    simp only [hm, handleRequest, hi, htake, or_true, if_true]
  · right
    rw [hd] at hdel
    obtain ⟨hhead, -⟩ := List.cons.inj hdel
    obtain ⟨rfl, hrest⟩ := Prod.mk.inj hhead
    obtain ⟨rfl, rfl⟩ := List.append_eq_nil_iff.mp hrest.symm
    refine ⟨rfl, ?_⟩
    rw [handleInput, handleInputLoop, handleOnce]
    simp only [hm, handleRequest, hi, htake, or_true, if_true]

/-- An event that brings nothing does not make a client answer or send a file. -/
theorem handleInput_nil (hr : c.Ready) (hm : c.session.context.mode ≠ .download)
    (hf : (handleInput srv others fs c []).fatal = false) :
    (handleInput srv others fs c []).client.session.context.mode ≠ .download ∧
      (handleInput srv others fs c []).client.pendingInput = c.pendingInput ∧
      (handleInput srv others fs c []).client.responses = c.responses ∧
      traceOutcomes srv others (handleInput srv others fs c []).trace = [] := by
  rcases honce : handleOnce srv others fs c [] with ⟨h, rest⟩
  have hends : h.fatal = true ∨ rest = [] := by
    cases hh : h.fatal with
    | true => exact .inl rfl
    | false =>
      have hsuffix := ((handleOnce_advances hr honce hh).suffix hm).1
      exact .inr (List.suffix_nil.mp hsuffix)
  have hresult : handleInput srv others fs c [] = h := by
    rw [handleInput, handleInputLoop, honce]
    exact if_pos hends
  rw [hresult] at hf ⊢
  have htake : c.interpreter.takeRequest [] = (c.interpreter, [], .nothing) := takeRequest_nil hr.idle
  cases handleOnce_iterates honce with
  | download mode => exact absurd mode hm
  | upload mode handled =>
    obtain ⟨m, -, rfl⟩ := Session.handleUpload_eq_ok handled
    refine ⟨?_, rfl, rfl, rfl⟩
    dsimp only
    split
    · intro hh
      cases hh
    · exact hm
  | uploadThrows mode handled | interpreterThrows mode taken => cases hf
  | waits mode taken => exact ⟨hm, rfl, rfl, rfl⟩
  | refuses mode taken | executes mode taken =>
    rw [htake] at taken
    cases taken

/-- What a call leaves of the queue of a client that sends no file. -/
theorem handle_queued {events : SocketEvents} (hmode : (handleEvents srv others fs c events).client.session.context.mode ≠ .download)
    (halive : (handle srv others fs c events).client.isAlive = true) :
    (handleEvents srv others fs c events).fatal = false ∧ ∃ rs,
      (handle srv others fs c events).client = { (handleEvents srv others fs c events).client with responses := rs } ∧
      ((handleEvents srv others fs c events).client.responses = [] → rs = []) ∧
      c.writes srv others fs events ++ Sender.queued rs =
        Sender.queued (handleEvents srv others fs c events).client.responses := by
  rcases handle_writes srv others fs c events with ⟨-, -, hdead⟩ | ⟨hf, hw, hclient⟩ | ⟨hf, hw, hout⟩
  · rw [hdead] at halive
    cases halive
  · exact ⟨hf, _, hclient, fun hnone => hnone, by rw [hw, List.nil_append]⟩
  · refine ⟨hf, ?_⟩
    rcases hout with hdead | ⟨-, hclient⟩
    · rw [hdead] at halive
      cases halive
    · rw [hclient, hw]
      generalize handleEvents srv others fs c events = h at hmode
      by_cases hresponses : h.client.responses = []
      · refine ⟨[], ?_, fun _ => rfl, ?_⟩
        · rw [handleOutput, if_neg (not_not.mpr hresponses), if_neg hmode, ← hresponses]
        · rw [written, if_neg (not_not.mpr hresponses), if_neg hmode, hresponses, List.nil_append]
      · refine ⟨Sender.write events.accepted h.client.responses, ?_, fun hnone => absurd hnone hresponses, ?_⟩
        · rw [handleOutput, if_pos hresponses]
        · rw [written, if_pos hresponses]
          exact Sender.sent_append_queued _ _

end Client

/-- Without pending input a call handles what the receiver returns, if it is asked at all. -/
theorem Connection.handleEvents_receives {srv : ServerContext} {x : Connection} {call : Call} (hp : x.client.pendingInput = [])
    (hf : (x.client.handleEvents srv call.others call.fs call.events).fatal = false) :
    x.receives call = [] ∧ x.client.handleEvents srv call.others call.fs call.events = ⟨call.fs, x.client, false, []⟩ ∨
    x.client.handleEvents srv call.others call.fs call.events =
      x.client.handleInput srv call.others call.fs (x.receives call) := by
  unfold Client.handleEvents at hf ⊢
  unfold receives
  rw [if_neg (not_not.mpr hp)] at hf ⊢
  by_cases hinput : call.events.input = true
  · rw [if_pos hinput] at hf ⊢
    rw [if_pos ⟨hp, hinput⟩]
    cases hreceived : call.events.received with
    | none =>
      rw [hreceived] at hf
      cases hf
    | some input => exact .inr rfl
  · rw [if_neg hinput, if_neg fun hh => hinput hh.2]
    exact .inl ⟨rfl, rfl⟩

namespace Exchange

/-- What is left of one request is on its way to a client that has nothing else to do. -/
structure Awaits (x : Exchange) (s : Session) (r : Request) (later : Bytes) : Prop where
  coherent : x.connection.client.Coherent x.connection.trace
  ready : x.connection.client.Ready
  session : x.connection.client.session = s
  pending : x.connection.client.pendingInput = []
  silent : x.connection.client.responses = []
  outcomes : x.outcomes = []
  sent : x.sent = []
  reads : ∃ done cur, x.connection.client.interpreter = Framing.ofState done cur ∧ Framing.Within done cur later ∧
    Framing.deliveries done cur later = [(.request r, [])]

/-- The socket gets `data`, as the outcome of the one request there was. -/
structure Replies (x : Exchange) (data : Bytes) : Prop where
  coherent : x.connection.client.Coherent x.connection.trace
  ready : x.connection.client.Ready
  pending : x.connection.client.pendingInput = []
  mode : x.connection.client.session.context.mode ≠ .download
  outcomes : x.outcomes = [data]
  ledger : x.sent ++ Sender.queued x.connection.client.responses = data

variable {srv : ServerContext} {x : Exchange} {call : Call} {s : Session} {r : Request} {later data : Bytes}

theorem alive_of_step (h : (x.step srv call).connection.client.isAlive = true) : x.connection.client.isAlive = true := by
  by_cases hx : x.connection.client.isAlive = true
  · exact hx
  · rw [step, if_neg hx] at h
    exact h

theorem step_alive (hx : x.connection.client.isAlive = true) : x.step srv call =
    ⟨⟨(x.connection.client.handle srv call.others call.fs call.events).fs,
        (x.connection.client.handle srv call.others call.fs call.events).client,
        x.connection.received ++ x.connection.receives call,
        x.connection.trace ++ (x.connection.client.handle srv call.others call.fs call.events).trace⟩,
      x.outcomes ++ traceOutcomes srv call.others (x.connection.client.handle srv call.others call.fs call.events).trace,
      x.sent ++ x.connection.client.writes srv call.others call.fs call.events⟩ := by
  simp [step, Connection.step, hx]

theorem step_keeps (hc : x.connection.client.Coherent x.connection.trace) (hr : x.connection.client.Ready)
    (halive : (x.step srv call).connection.client.isAlive = true) :
    (x.step srv call).connection.client.Coherent (x.step srv call).connection.trace ∧
      (x.step srv call).connection.client.Ready := by
  have hx := alive_of_step halive
  rw [step_alive hx] at halive
  have hstays := Connection.step_coherent hc hr (show Connection.Handles srv x.connection call from fun _ => Client.handle_alive halive)
  simpa only [step, hx, if_true] using hstays

/-- What the input half of a call does while the request arrives. -/
theorem Awaits.handleEvents (h : x.Awaits s r (x.connection.receives call ++ later)) (hm : s.context.mode = .command)
    (hf : (x.connection.client.handleEvents srv call.others call.fs call.events).fatal = false) :
    (∃ done cur trace, x.connection.client.handleEvents srv call.others call.fs call.events =
        ⟨call.fs, { x.connection.client with interpreter := Framing.ofState done cur }, false, trace⟩ ∧
      traceOutcomes srv call.others trace = [] ∧ Framing.Within done cur later ∧
      Framing.deliveries done cur later = [(.request r, [])]) ∨
    later = [] ∧
      let executed := s.executeCommand srv (Client.surroundings call.others s) call.fs r
      ∃ input, x.connection.client.handleEvents srv call.others call.fs call.events =
        ⟨executed.fs, { { x.connection.client with interpreter := fresh }.addAnswer executed.answer with
            session := executed.session },
          executed.fatal, [⟨call.fs, s, input, [], .request r⟩]⟩ := by
  obtain ⟨done, cur, hi, hw, hd⟩ := h.reads
  rcases Connection.handleEvents_receives h.pending hf with ⟨hnone, heq⟩ | heq
  · rw [hnone, List.nil_append] at hw hd
    exact .inl ⟨done, cur, [], by rw [heq, ← hi], rfl, hw, hd⟩
  · have hmode : x.connection.client.session.context.mode = .command := by rw [h.session, hm]
    rw [heq]
    rcases @Client.handleInput_arriving srv call.others call.fs _ _ _ _ _ _ hmode hi hw hd with
      ⟨done', cur', heq', hw', hd'⟩ | ⟨hlater, heq'⟩
    · exact .inl ⟨done', cur', _, heq', rfl, hw', hd'⟩
    · rw [h.session] at heq'
      exact .inr ⟨hlater, _, heq'⟩

/-- The call that brings the last byte of the request executes it. -/
structure Answers (srv : ServerContext) (x : Exchange) (call : Call) (s : Session) (r : Request) (a : Answer) : Prop where
  session : x.connection.client.session = s
  answer : (s.executeCommand srv (Client.surroundings call.others s) call.fs r).answer = some a
  fs : (x.step srv call).connection.fs = (s.executeCommand srv (Client.surroundings call.others s) call.fs r).fs
  after : (x.step srv call).connection.client.session =
    (s.executeCommand srv (Client.surroundings call.others s) call.fs r).session

theorem Awaits.step (h : x.Awaits s r (x.connection.receives call ++ later)) (hm : s.context.mode = .command)
    (hname : r.name ≠ ascii "dls") (halive : (x.step srv call).connection.client.isAlive = true) :
    (x.step srv call).Awaits s r later ∨
      later = [] ∧ ∃ a, x.Answers srv call s r a ∧ (x.step srv call).Replies a.response.data := by
  obtain ⟨hcoherent, hready⟩ := step_keeps h.coherent h.ready halive
  have hx := alive_of_step halive
  rw [step_alive hx] at halive hcoherent hready
  have hhandle : (x.connection.client.handleEvents srv call.others call.fs call.events).fatal = false :=
    (Client.handle_ok (Client.handle_alive halive)).1
  obtain ⟨hfs, htrace, -⟩ := Client.handle_cases srv call.others call.fs x.connection.client call.events
  rw [step_alive hx]
  rcases h.handleEvents hm hhandle with ⟨done, cur, trace, hevents, hnone, hw, hd⟩ | ⟨hlater, input, hevents⟩
  · left
    have hmode : (x.connection.client.handleEvents srv call.others call.fs call.events).client.session.context.mode ≠ .download := by
      rw [hevents]
      simp [h.session, hm]
    obtain ⟨-, rs, hclient, hrs, hwrites⟩ := Client.handle_queued hmode halive
    rw [hevents] at hclient hwrites htrace hrs
    obtain rfl := hrs h.silent
    have hsilent : x.connection.client.writes srv call.others call.fs call.events = [] := by
      have hqueued : Sender.queued x.connection.client.responses = [] := by rw [h.silent]; rfl
      exact (List.append_eq_nil_iff.mp (hwrites.trans hqueued)).1
    refine ⟨hcoherent, hready, ?_, ?_, ?_, ?_, ?_, ⟨done, cur, ?_, hw, hd⟩⟩
    · dsimp only
      rw [hclient]
      exact h.session
    · dsimp only
      rw [hclient]
      exact h.pending
    · dsimp only
      rw [hclient]
    · dsimp only
      rw [htrace, hnone, h.outcomes, List.append_nil]
    · dsimp only
      rw [hsilent, h.sent, List.append_nil]
    · dsimp only
      rw [hclient]
  · right
    dsimp only at hevents
    rw [hevents] at hhandle hfs htrace
    have hs : s.Coherent := h.session ▸ h.coherent.session
    obtain ⟨a, ha, hmode⟩ := @Session.executeCommand_answers srv (Client.surroundings call.others s) call.fs s r hs hm
      hname hhandle
    have hmode' : (x.connection.client.handleEvents srv call.others call.fs call.events).client.session.context.mode ≠ .download := by
      rw [hevents]
      exact hmode
    obtain ⟨-, rs, hclient, -, hwrites⟩ := Client.handle_queued hmode' halive
    rw [hevents] at hclient hwrites
    have hqueued : Sender.queued (({ x.connection.client with interpreter := fresh } : Client).addAnswer (some a)).responses =
        a.response.data := by
      rw [Client.addAnswer, h.silent]
      exact Client.queued_response a
    refine ⟨hlater, a, ⟨h.session, ha, ?_, ?_⟩, hcoherent, hready, ?_, ?_, ?_, ?_⟩
    · rw [step_alive hx]
      exact hfs
    · rw [step_alive hx]
      dsimp only
      rw [hclient]
    · dsimp only
      rw [hclient]
      exact h.pending
    · dsimp only
      rw [hclient]
      exact hmode
    · dsimp only
      rw [htrace, h.outcomes]
      simp [traceOutcomes, Iteration.outcome, ha]
    · dsimp only
      rw [hclient, h.sent, List.nil_append, hwrites, ha]
      exact hqueued

theorem Replies.step (h : x.Replies data) (hnone : x.connection.receives call = [])
    (halive : (x.step srv call).connection.client.isAlive = true) : (x.step srv call).Replies data := by
  obtain ⟨hcoherent, hready⟩ := step_keeps h.coherent h.ready halive
  have hx := alive_of_step halive
  rw [step_alive hx] at halive hcoherent hready ⊢
  have hhandle : (x.connection.client.handleEvents srv call.others call.fs call.events).fatal = false :=
    (Client.handle_ok (Client.handle_alive halive)).1
  obtain ⟨-, htrace, -⟩ := Client.handle_cases srv call.others call.fs x.connection.client call.events
  obtain ⟨hmode, hpending, hresponses, houtcomes⟩ :
      (x.connection.client.handleEvents srv call.others call.fs call.events).client.session.context.mode ≠ .download ∧
      (x.connection.client.handleEvents srv call.others call.fs call.events).client.pendingInput = [] ∧
      (x.connection.client.handleEvents srv call.others call.fs call.events).client.responses =
        x.connection.client.responses ∧
      traceOutcomes srv call.others (x.connection.client.handleEvents srv call.others call.fs call.events).trace = [] := by
    rcases Connection.handleEvents_receives h.pending hhandle with ⟨-, heq⟩ | heq
    · rw [heq]
      exact ⟨h.mode, h.pending, rfl, rfl⟩
    · rw [hnone] at heq
      rw [heq] at hhandle ⊢
      obtain ⟨hmode, hpending, hrest⟩ := Client.handleInput_nil h.ready h.mode hhandle
      exact ⟨hmode, hpending.trans h.pending, hrest⟩
  obtain ⟨-, rs, hclient, -, hwrites⟩ := Client.handle_queued hmode halive
  refine ⟨hcoherent, hready, ?_, ?_, ?_, ?_⟩
  · dsimp only
    rw [hclient]
    exact hpending
  · dsimp only
    rw [hclient]
    exact hmode
  · dsimp only
    rw [htrace, houtcomes, h.outcomes, List.append_nil]
  · dsimp only
    rw [hclient, List.append_assoc, hwrites, hresponses]
    exact h.ledger

theorem alive_of_run {calls : List Call} (h : (Runs.run (Exchange.step srv) x calls).connection.client.isAlive = true) :
    x.connection.client.isAlive = true := by
  induction calls generalizing x with
  | nil => exact h
  | cons call calls ih => exact alive_of_step (ih h)

theorem received_step (hx : x.connection.client.isAlive = true) :
    (x.step srv call).connection.received = x.connection.received ++ x.connection.receives call := by
  rw [step_alive hx]

theorem received_run (srv : ServerContext) (x : Exchange) (calls : List Call) :
    x.connection.received <+: (Runs.run (Exchange.step srv) x calls).connection.received := by
  induction calls generalizing x with
  | nil => exact List.prefix_refl _
  | cons call calls ih =>
    refine List.IsPrefix.trans ?_ (ih (x.step srv call))
    by_cases hx : x.connection.client.isAlive = true
    · rw [received_step hx]
      exact List.prefix_append _ _
    · rw [Exchange.step, if_neg hx]

theorem Replies.run {calls : List Call} (h : x.Replies data)
    (hreceived : (Runs.run (Exchange.step srv) x calls).connection.received = x.connection.received)
    (halive : (Runs.run (Exchange.step srv) x calls).connection.client.isAlive = true) :
    (Runs.run (Exchange.step srv) x calls).Replies data := by
  induction calls generalizing x with
  | nil => exact h
  | cons call calls ih =>
    rw [Runs.run_cons] at hreceived halive ⊢
    have hstep := @received_step srv x call (alive_of_step (alive_of_run halive))
    obtain ⟨rest, hrest⟩ := received_run srv (x.step srv call) calls
    rw [hreceived, hstep, List.append_assoc] at hrest
    have hnone := (List.append_eq_nil_iff.mp (List.append_right_eq_self.mp hrest)).1
    refine ih (h.step hnone (alive_of_run halive)) ?_ halive
    rw [hreceived, hstep, hnone, List.append_nil]

/-- While the rest of a request arrives and nothing else, it is executed in one of the calls, and its
answer is all that is put out. -/
theorem Awaits.run {calls : List Call} (h : x.Awaits s r later) (hm : s.context.mode = .command) (hname : r.name ≠ ascii "dls")
    (hreceived : (Runs.run (Exchange.step srv) x calls).connection.received = x.connection.received ++ later)
    (halive : (Runs.run (Exchange.step srv) x calls).connection.client.isAlive = true) :
    ∃ before call after a, calls = before ++ call :: after ∧
      (Runs.run (Exchange.step srv) x before).Answers srv call s r a ∧
      (Runs.run (Exchange.step srv) x calls).Replies a.response.data := by
  induction calls generalizing x later with
  | nil =>
    obtain rfl : later = [] := List.append_right_eq_self.mp hreceived.symm
    obtain ⟨done, cur, -, -, hd⟩ := h.reads
    cases hd
  | cons call calls ih =>
    rw [Runs.run_cons] at hreceived halive ⊢
    have hstep := @received_step srv x call (alive_of_step (alive_of_run halive))
    obtain ⟨rest, hrest⟩ := received_run srv (x.step srv call) calls
    rw [hreceived, hstep, List.append_assoc] at hrest
    obtain rfl := List.append_cancel_left hrest
    rcases h.step hm hname (alive_of_run halive) with hawaits | ⟨rfl, a, hanswers, hreplies⟩
    · have hrun := ih hawaits (by rw [hreceived, hstep, List.append_assoc]) halive
      obtain ⟨before, k, after, a, rfl, hanswers, hreplies⟩ := hrun
      exact ⟨call :: before, k, after, a, rfl, hanswers, hreplies⟩
    · refine ⟨[], call, calls, a, rfl, hanswers, hreplies.run ?_ halive⟩
      rw [hreceived, hstep, List.append_nil]

end Exchange

namespace TDPService.Call

open ResponseAnalyzer TDPService.Connection

/-- However its bytes are split into reads, the client takes the whole answer and nothing else, and finds
the code and the lines of the server in it. -/
def Understands (call : Call) (a : TinDox.Answer) (data : Bytes) : Prop :=
  ∀ ready body, Splits data ready → receiveResponse ready = some (data, []) ∧ ∃ analysis,
    call.analyse data body = some analysis ∧ analysis.code.value = a.code.value ∧
      analysis.responseBody = call.keptBody a.code a.lines

theorem understands {call : Call} {a : TinDox.Answer} (hname : a.commandName = call.request.name)
    (h : call.Answers a.code a.lines) (hk : Known a.code) (hself : SelfDelimiting a.response.data) :
    call.Understands a a.response.data := by
  intro ready body hsplits
  refine ⟨hself.console ready hsplits, ?_⟩
  rw [TinDox.Answer.response, hname, analyse_eq]
  cases hanswer : call.answer with
  | none => exact absurd hanswer h.analysed
  | some kind =>
    refine ⟨_, rfl, ?_⟩
    rw [keptBody, hanswer]
    have hrefused (hcode : a.code ≠ .ok) (expected : Bool) :
        (analyseSimpleResponse call.request.name (buildResponse a.code call.request.name a.lines).data body
          expected).code.value = a.code.value ∧
        (analyseSimpleResponse call.request.name (buildResponse a.code call.request.name a.lines).data body
          expected).responseBody = a.lines.flatMap (· ++ [newline]) ++ [newline] := by
      obtain ⟨l, hl⟩ := List.length_eq_one_iff.mp (h.refusal hcode)
      have hproper := h.proper l (by rw [hl]; exact List.mem_singleton.mpr rfl)
      rw [hl]
      simpa using analyseSimpleResponse_line hk call.request.name body hproper fun hh => absurd hh hcode
    cases kind with
    | lines => simpa using analyseMultilineResponse_lines hk call.request.name body h.proper
    | silent =>
      by_cases hcode : a.code = .ok
      · rw [h.silent hcode hanswer]
        simpa [hcode] using analyseSimpleResponse_silent hk call.request.name body hcode
      · simpa [hcode] using hrefused hcode false
    | line =>
      by_cases hcode : a.code = .ok
      · obtain ⟨l, hl⟩ := List.length_eq_one_iff.mp (h.line hcode hanswer)
        have hproper := h.proper l (by rw [hl]; exact List.mem_singleton.mpr rfl)
        rw [hl]
        simpa using analyseSimpleResponse_line hk call.request.name body hproper fun _ => rfl
      · simpa [hcode] using hrefused hcode true

def commandName : Call → CommandName
  | closeConnection => .exit
  | logout => .logout
  | auth _ _ => .auth
  | mkdir _ => .mkdir
  | rm _ => .rm
  | rename _ _ => .rename
  | cp _ _ => .cp
  | mv _ _ => .mv
  | cd _ => .cd
  | ls _ _ _ => .ls
  | tree _ => .tree
  | name => .name
  | perms => .perms
  | pwd => .pwd
  | ul _ _ _ => .ul
  | dl _ _ _ => .dl
  | downloadFileData => .dls

theorem request_commandName (call : Call) : call.request.name = call.commandName.toBytes := by cases call <;> rfl

theorem lineCount_silent {call : Call} (h : call.answer = some .silent) : call.commandName.lineCount = some 0 := by
  cases call <;> first | rfl | cases h

theorem lineCount_line {call : Call} (h : call.answer = some .line) : call.commandName.lineCount = some 1 := by
  cases call <;> first | rfl | cases h

theorem not_dls_of_answer {call : Call} (h : call.answer ≠ none) : call.request.name ≠ ascii "dls" := by
  cases call <;> first | exact absurd rfl h | (dsimp only [request]; decide)

theorem unbroken_credential {arg : Bytes} (h : newline ∉ arg) : Unbroken (credential arg) := by
  unfold credential
  split
  · unfold Unbroken
    decide
  · exact h

theorem unbroken_pathField {path : Bytes} (h : newline ∉ path) : ∀ f ∈ pathField path, f.Unbroken := by
  unfold pathField
  split
  · simp
  · exact List.forall_mem_singleton.mpr (Field.unbroken_string h)

theorem unbroken_flagField (name : String) (flag : Bytes) : ∀ f ∈ flagField name flag, f.Unbroken := by
  unfold flagField
  split
  · simp
  · exact List.forall_mem_singleton.mpr (Field.unbroken_boolean _ _)

theorem request_unbroken {call : Call} (hc : call.Proper) : Request.Unbroken call.request := by
  refine ⟨call.request_name.2, ?_⟩
  cases call with
  | auth login passwd =>
    have hlogin : (textField "login" (credential login)).Unbroken := Field.unbroken_string (unbroken_credential hc.1)
    exact List.forall_mem_cons.mpr ⟨hlogin, List.forall_mem_singleton.mpr (Field.unbroken_string (unbroken_credential hc.2))⟩
  | mkdir n | rm n | cd path => exact List.forall_mem_singleton.mpr (Field.unbroken_string hc)
  | rename first second | cp first second | mv first second =>
    exact List.forall_mem_cons.mpr ⟨Field.unbroken_string hc.1, List.forall_mem_singleton.mpr (Field.unbroken_string hc.2)⟩
  | ls path size mod =>
    intro f hf
    rcases List.mem_append.mp hf with hf | hf
    · rcases List.mem_append.mp hf with hf | hf
      · exact unbroken_pathField hc.1 f hf
      · exact unbroken_flagField "size" size f hf
    · exact unbroken_flagField "mod" mod f hf
  | tree path => exact unbroken_pathField hc
  | ul n size retry =>
    refine List.forall_mem_cons.mpr ⟨Field.unbroken_string hc.1, ?_⟩
    exact List.forall_mem_cons.mpr ⟨Field.unbroken_integer _ _, List.forall_mem_singleton.mpr (Field.unbroken_boolean _ _)⟩
  | dl n size retry =>
    refine List.forall_mem_cons.mpr ⟨Field.unbroken_string hc.1, ?_⟩
    cases retry with
    | true => exact List.forall_mem_singleton.mpr (Field.unbroken_integer _ _)
    | false => exact List.forall_mem_nil _
  | _ => exact List.forall_mem_nil _

/-- An answer without empty lines has the shape the client expects. -/
theorem answers_of_answer {srv : ServerContext} {around : Surroundings} {fs : FileSystem} {s : Session} {call : Call}
    {a : TinDox.Answer} (hanswer : call.answer ≠ none) (h : (s.executeCommand srv around fs call.request).answer = some a)
    (hlines : ∀ l ∈ a.lines, l ≠ [] ∧ newline ∉ l) : call.Answers a.code a.lines := by
  obtain ⟨-, ⟨hcode, ⟨command, hexecutes, hcount⟩⟩ | ⟨hcode, hone, -⟩⟩ := executeCommand_answer_cases h
  · have hname : call.commandName = command.commandName := by
      have hset := (CommandExecutor.setCommand_ok hexecutes.1).1
      rw [request_commandName] at hset
      have hbytes := congrArg CommandName.ofBytes hset
      rw [CommandName.ofBytes_toBytes, CommandName.ofBytes_toBytes] at hbytes
      exact Option.some.inj hbytes
    rw [← hname] at hcount
    refine ⟨hlines, fun _ hsilent => ?_, fun _ hline => ?_, fun hne => absurd hcode hne, hanswer⟩
    · exact List.length_eq_zero_iff.mp (hcount 0 (lineCount_silent hsilent))
    · exact hcount 1 (lineCount_line hline)
  · exact ⟨hlines, fun hok => absurd hok hcode, fun hok => absurd hok hcode, fun _ => hone, hanswer⟩

end TDPService.Call

/-- A client that has answered everything and waits for a request. -/
structure Client.Quiet (c : Client) : Prop where
  mode : c.session.context.mode = .command
  fresh : c.interpreter = .fresh
  pending : c.pendingInput = []
  silent : c.responses = []

instance (c : Client) : Decidable c.Quiet :=
  decidable_of_iff (c.session.context.mode = .command ∧ c.interpreter = .fresh ∧ c.pendingInput = [] ∧ c.responses = [])
    ⟨fun ⟨h₁, h₂, h₃, h₄⟩ => ⟨h₁, h₂, h₃, h₄⟩, fun ⟨h₁, h₂, h₃, h₄⟩ => ⟨h₁, h₂, h₃, h₄⟩⟩

section Calls

variable {srv : ServerContext} {fs : FileSystem} {x : Connection} {call : TDPService.Call} {command : Bytes}

open TDPService.Connection

theorem Client.Quiet.awaits (hx : x.client.Quiet) (hc : x.client.Coherent x.trace) (hr : x.client.Ready)
    (hproper : call.Proper) (hsent : call.lastSentCommand = some command) :
    Exchange.Awaits ⟨x, [], []⟩ x.client.session call.request command := by
  obtain ⟨t, rfl, hdeliver⟩ := TDPService.Call.lastSentCommand_text hproper hsent
  have hstream : t.encode = encodeStream [(0, t)] 0 := by simp [encodeStream]
  refine ⟨hc, hr, rfl, hx.pending, hx.silent, rfl, rfl, [], [], ?_, ?_, ?_⟩
  · exact hx.fresh.trans Framing.ofState_fresh.symm
  · rw [hstream]
    exact Framing.within_encodeStream _ _
  · rw [hstream, Framing.deliveries_encodeStream]
    simp [Framing.expected, hdeliver, encodeStream]

/-- A call of the console client on a quiet connection: when its request has arrived and everything is
sent, the request has been executed once, in one of the calls of `handle`, and the client has been
sent the answer to it, which it understands unless it is irregular or has a code it does not know. -/
theorem TDPService.Call.answered (hroot : Unbroken srv.root.path.native)
    (h : Runs.Reaches (Connection.step srv) (fun _ _ => True) (.start fs) x) (hx : x.client.Quiet)
    (hproper : call.Proper) (hanswer : call.answer ≠ none) (hsent : call.lastSentCommand = some command)
    {calls : List TinDox.Call}
    (hreceived : (Runs.run (Exchange.step srv) ⟨x, [], []⟩ calls).connection.received = x.received ++ command)
    (halive : (Runs.run (Exchange.step srv) ⟨x, [], []⟩ calls).connection.client.isAlive = true)
    (hdone : (Runs.run (Exchange.step srv) ⟨x, [], []⟩ calls).connection.client.responses = []) :
    ∃ before k after a, calls = before ++ k :: after ∧
      (Runs.run (Exchange.step srv) ⟨x, [], []⟩ before).Answers srv k x.client.session call.request a ∧
      (Runs.run (Exchange.step srv) ⟨x, [], []⟩ calls).sent = a.response.data ∧
      (Runs.run (Exchange.step srv) ⟨x, [], []⟩ calls).outcomes = [a.response.data] ∧
      (Named k.others k.fs → ¬ Irregular srv k.fs x.client.session.context call.request →
        ResponseAnalyzer.Known a.code → call.Understands a a.response.data) := by
  have hxalive : x.client.isAlive = true := Exchange.alive_of_run halive
  obtain ⟨hc, hr⟩ := Connection.coherent_of_alive h hxalive
  have hawaits := hx.awaits hc hr hproper hsent
  obtain ⟨before, k, after, a, hcalls, hanswers, hreplies⟩ :=
    hawaits.run hx.mode (not_dls_of_answer hanswer) hreceived halive
  refine ⟨before, k, after, a, hcalls, hanswers, ?_, hreplies.outcomes, fun hnamed hregular hknown => ?_⟩
  · have hledger := hreplies.ledger
    rw [hdone] at hledger
    simpa [Sender.queued] using hledger
  · have hclient := Connection.unbroken_of_reaches hroot h hxalive
    have hunbroken := TDPService.Call.request_unbroken hproper
    have hnamed' : Named (Client.surroundings k.others x.client.session) k.fs := ⟨hnamed.names, hnamed.times⟩
    have htold := executeCommand_told hx.mode hclient.session hunbroken hnamed' hanswers.answer
    have hlegible := htold.legible.mpr hregular
    apply TDPService.Call.understands htold.commandName
    · apply TDPService.Call.answers_of_answer hanswer hanswers.answer
      exact fun l hl => ⟨(hlegible.2 l hl).1, htold.unbroken l hl⟩
    · exact hknown
    · have hname : newline ∉ a.commandName := htold.commandName ▸ call.request_name.2
      rw [Answer.response, selfDelimiting_response_iff hname htold.unbroken, htold.commandName]
      exact hlegible

end Calls

namespace Sample

/-- The request for a directory arrives in two pieces and its answer leaves in three; once there is an
event without a byte. -/
def makingDirectory : List Call :=
  [call ⟨tree [], []⟩ (some "mkdir\nna") [], call ⟨tree [], []⟩ (some "me:'d'\n\n") [4],
    call ⟨tree [([ascii "r", ascii "d"], .dir)], []⟩ (some "") [5], call ⟨tree [([ascii "r", ascii "d"], .dir)], []⟩ none [9]]

end Sample

theorem TDPService.Call.answered_mkdir :
    let run := Runs.run (Exchange.step Sample.server) ⟨Sample.asking Sample.server, [], []⟩
    (run Sample.makingDirectory).sent = ascii "100 mkdir\n\n" ∧
    ∃ before k after a, Sample.makingDirectory = before ++ k :: after ∧
      (run before).Answers Sample.server k (Sample.asking Sample.server).client.session
        (TDPService.Call.mkdir (ascii "d")).request a ∧
      (run Sample.makingDirectory).sent = a.response.data ∧ (run Sample.makingDirectory).outcomes = [a.response.data] ∧
      (Named k.others k.fs → ¬ Irregular Sample.server k.fs (Sample.asking Sample.server).client.session.context
          (TDPService.Call.mkdir (ascii "d")).request →
        ResponseAnalyzer.Known a.code → (TDPService.Call.mkdir (ascii "d")).Understands a a.response.data) := by
  have hasked : (TDPService.Call.mkdir (ascii "d")).lastSentCommand = some (ascii "mkdir\nname:'d'\n\n") := by decide
  have hproper : (TDPService.Call.mkdir (ascii "d")).Proper := by
    show newline ∉ ascii "d"
    decide
  have hroot : Unbroken Sample.server.root.path.native := by
    unfold Unbroken
    decide
  exact ⟨by decide +kernel, answered hroot (Connection.asking_reaches Sample.server) (by decide +kernel) hproper (by decide) hasked
    (by decide +kernel) (by decide +kernel) (by decide +kernel)⟩

end TinDox
