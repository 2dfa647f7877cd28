import TinDox.Replies

/-! The replies of a session that is coming to its end. `rearm_device` closes a client that is not
alive without looking at its queue, so the last replies reach the client only when the call that
executes the ending request also writes all of them. -/

namespace TinDox

variable {srv : ServerContext} {others : Surroundings} {fs : FileSystem}

def Iteration.reply (srv : ServerContext) (others : Surroundings) (it : Iteration) : Option Response :=
  match it.delivery with
  | .nothing => none
  | .error .fatal => none
  | .error (.protocol e) => some (Answer.response ⟨e.code, ascii "<interpreter>", [e.what]⟩)
  | .request r =>
    (it.session.executeCommand srv (Client.surroundings others it.session) it.fs r).answer.map Answer.response

def replies (srv : ServerContext) (others : Surroundings) (trace : List Iteration) : List Response :=
  trace.filterMap (Iteration.reply srv others)

theorem replies_append (t t' : List Iteration) :
    replies srv others (t ++ t') = replies srv others t ++ replies srv others t' := List.filterMap_append

theorem Kills.answer {s : Session} {r : Request} {around : Surroundings} (hm : s.context.mode = .command)
    (h : Kills srv around s.context r) : (s.executeCommand srv around fs r).answer ≠ none := by
  have hset {n : CommandName} (hn : CommandName.ofBytes r.name = some n) (hopen : n.requiresAuthorization = false)
      (hperms : n.requiredPerms = 0) : CommandExecutor.setCommand s.context r.name = .ok n := by
    rw [CommandExecutor.setCommand, hn]
    cases ht : s.context.authToken with
    | none => simp [hopen]
    | some token => simp [hopen, hperms]
  rcases h with hname | hname | ⟨hname, -, u, p, e, hparse, hauth, hcode⟩
  · have hn : CommandName.ofBytes r.name = some .exit := by rw [hname]; decide
    rw [Session.executeCommand_answered (w := ⟨fs, s.context.kill⟩) (hset hn rfl rfl) rfl rfl hm]
    simp
  · have hn : CommandName.ofBytes r.name = some .bye := by rw [hname]; decide
    rw [Session.executeCommand_answered (w := ⟨fs, s.context.kill⟩) (hset hn rfl rfl) rfl rfl hm]
    simp
  · have hn : CommandName.ofBytes r.name = some .auth := by rw [hname]; decide
    have hx : ∃ w, CommandExecutor.execute srv around ⟨fs, s.context⟩ (.auth u p) = (w, .error (.protocol e)) := by
      simp [CommandExecutor.execute, Auth.execute, hauth, hcode]
    obtain ⟨w, hx⟩ := hx
    rw [Session.executeCommand_throws (hset hn rfl rfl) hparse hx]
    simp [Session.refused]

namespace Sender

def Takes (accepted : List Nat) (rs : List Response) : Prop := sent accepted rs = queued rs

def Unfinished (rs : List Response) : Prop := ∀ r ∈ rs, r.rest ≠ []

theorem queued_eq_nil_iff {rs : List Response} (h : Unfinished rs) : queued rs = [] ↔ rs = [] := by
  constructor
  · intro hq
    cases rs with
    | nil => rfl
    | cons r rs =>
      simp only [queued, List.flatMap_cons, List.append_eq_nil_iff] at hq
      exact absurd hq.1 (h r (by simp))
  · rintro rfl
    rfl

theorem Unfinished.write {rs : List Response} (ns : List Nat) (h : Unfinished rs) : Unfinished (write ns rs) := by
  induction ns generalizing rs with
  | nil => simpa [Sender.write] using h
  | cons n ns ih =>
    cases rs with
    | nil => simpa [Sender.write] using h
    | cons r rs =>
      have hrs : Unfinished rs := fun r' hr' => h r' (by simp [hr'])
      by_cases hn : n = 0
      · simpa [Sender.write, hn] using h
      · by_cases hs : (r.addReadByteCount n).isFullySent = true
        · simpa [Sender.write, hn, hs] using ih hrs
        · have hr : (r.addReadByteCount n).rest ≠ [] := by
            intro hh
            apply hs
            have hlen := congrArg List.length hh
            simp only [Response.rest, List.length_drop, List.length_nil] at hlen
            exact decide_eq_true hlen
          have hboth : Unfinished (r.addReadByteCount n :: rs) := by
            intro r' hr'
            rcases List.mem_cons.mp hr' with rfl | hr'
            · exact hr
            · exact hrs r' hr'
          simpa [Sender.write, hn, hs] using ih hboth

theorem write_eq_nil_iff {accepted : List Nat} {rs : List Response} (h : Unfinished rs) :
    Sender.write accepted rs = [] ↔ Takes accepted rs := by
  have hcut := sent_append_queued accepted rs
  rw [← queued_eq_nil_iff (h.write accepted), Takes]
  constructor
  · intro hq
    rwa [hq, List.append_nil] at hcut
  · intro hs
    rw [hs] at hcut
    exact List.append_right_eq_self.mp hcut

end Sender

theorem unfinished_replies (trace : List Iteration) : Sender.Unfinished (replies srv others trace) := by
  intro r hr
  obtain ⟨it, -, hit⟩ := List.mem_filterMap.mp hr
  have hbuilt : ∃ answer : Answer, r = answer.response := by
    unfold Iteration.reply at hit
    split at hit
    · simp at hit
    · simp at hit
    · exact ⟨_, (Option.some.inj hit).symm⟩
    · obtain ⟨answer, -, rfl⟩ := Option.map_eq_some_iff.mp hit
      exact ⟨answer, rfl⟩
  obtain ⟨answer, rfl⟩ := hbuilt
  simp [Response.rest, Answer.response, buildResponse]

namespace Client

variable {c : Client} {input rest : Bytes} {h : Handling}

theorem handleOnce_responses (he : handleOnce srv others fs c input = (h, rest)) :
    h.client.responses = c.responses ++ replies srv others h.trace := by
  cases handleOnce_iterates he with
  | download mode | upload mode handled | uploadThrows mode handled => simp [replies, Iteration.reply]
  | waits mode taken | interpreterThrows mode taken => simp [replies, Iteration.reply]
  | refuses mode taken => simp [replies, Iteration.reply, addAnswer]
  | @executes i rest r mode taken =>
    cases ha : (c.session.executeCommand srv (surroundings others c.session) fs r).answer <;>
      simp [replies, Iteration.reply, addAnswer, ha]

theorem handleEvents_responses {events : SocketEvents} (hc : c.Ready) :
    (handleEvents srv others fs c events).client.responses =
      c.responses ++ replies srv others (handleEvents srv others fs c events).trace := by
  rcases handleEvents_ends [] hc with
    ⟨-, -, hclient, hnone⟩ | ⟨input, l, last, rest, -, hreach, honce, -, htrace, -, -, pending, hclient⟩
  · rw [hclient, hnone]
    simp [replies]
  · have hl : l.client.responses = c.responses ++ replies srv others l.trace := by
      refine hreach.invariant (I := fun l => l.client.responses = c.responses ++ replies srv others l.trace)
        (by simp [replies]) ?_
      intro l h rest hl honce _
      simp only [Loop.after]
      rw [handleOnce_responses honce, hl, replies_append, List.append_assoc]
    rw [List.nil_append] at htrace
    rw [hclient, htrace]
    show last.client.responses = _
    rw [handleOnce_responses honce, hl, replies_append, List.append_assoc]

theorem handleOutput_unfinished (fs : FileSystem) (events : SocketEvents) (hc : Sender.Unfinished c.responses) :
    Sender.Unfinished (handleOutput fs c events).1.responses := by
  rcases ho : handleOutput fs c events with ⟨c', e⟩
  cases handleOutput_outputs ho with
  | writes waiting => exact hc.write _
  | sends none mode handled | sendThrows none mode handled => exact hc
  | idle none mode => exact hc

theorem handleOnce_executes (he : handleOnce srv others fs c input = (h, rest)) :
    ∀ it ∈ h.trace, ∀ r, it.delivery = .request r → it.session.context.mode = .command := by
  intro it hit r hr
  cases handleOnce_iterates he with
  | download mode | upload mode handled | uploadThrows mode handled =>
    rw [List.mem_singleton.mp hit] at hr
    cases hr
  | waits mode taken | interpreterThrows mode taken | refuses mode taken | executes mode taken =>
    rw [List.mem_singleton.mp hit]
    exact mode

theorem handleEvents_executes {events : SocketEvents} (hc : c.Ready) :
    ∀ it ∈ (handleEvents srv others fs c events).trace, ∀ r, it.delivery = .request r →
      it.session.context.mode = .command := by
  rcases @handleEvents_ends srv others fs c events [] hc with
    ⟨-, -, -, hnone⟩ | ⟨input, l, last, rest, -, hreach, honce, -, htrace, -⟩
  · simp [hnone]
  · have hl : ∀ it ∈ l.trace, ∀ r, it.delivery = .request r → it.session.context.mode = .command := by
      refine hreach.invariant
        (I := fun l => ∀ it ∈ l.trace, ∀ r, it.delivery = .request r → it.session.context.mode = .command)
        (by simp) ?_
      intro l h rest hl honce _ it hit
      rcases List.mem_append.mp hit with hit | hit
      · exact hl it hit
      · exact handleOnce_executes honce it hit
    rw [List.nil_append] at htrace
    intro it hit
    rw [htrace] at hit
    rcases List.mem_append.mp hit with hit | hit
    · exact hl it hit
    · exact handleOnce_executes honce it hit

end Client

namespace Connection

variable {x : Connection} {call : Call}

/-- The call executes a request that ends the connection. -/
def Ends (srv : ServerContext) (x : Connection) (call : Call) : Prop :=
  ∃ it ∈ (x.client.handle srv call.others call.fs call.events).trace, ∃ r, it.delivery = .request r ∧
    Kills srv (Client.surroundings call.others it.session) it.session.context r

/-- When a request has ended the connection and no write has failed, nothing is left in the queue
of the client that is closed. -/
def Flushed (srv : ServerContext) (x : Connection) (call : Call) : Prop :=
  x.client.isAlive = true → Ends srv x call → call.events.writeFails = false →
    (step srv x call).client.responses = []

/-- A call that executes an ending request has an output event, its requests throw nothing but
protocol errors, and the socket takes the replies that were queued and those to its requests. -/
def Drains (srv : ServerContext) (x : Connection) (call : Call) : Prop :=
  x.client.isAlive = true → Ends srv x call → call.events.writeFails = false →
    call.events.output = true ∧ (x.client.handleEvents srv call.others call.fs call.events).fatal = false ∧
    Sender.Takes call.events.accepted (x.client.responses ++
      replies srv call.others (x.client.handleEvents srv call.others call.fs call.events).trace)

/-- What holds of a client that is alive, whatever has happened to its connection. -/
structure Sound (x : Connection) : Prop where
  coherent : x.client.Coherent x.trace
  ready : x.client.Ready
  unfinished : Sender.Unfinished x.client.responses

theorem Ends.replies_ne_nil (h : Ends srv x call) (hr : x.client.Ready) :
    replies srv call.others (x.client.handleEvents srv call.others call.fs call.events).trace ≠ [] := by
  obtain ⟨it, hit, r, hreq, hkills⟩ := h
  rw [(Client.handle_cases srv call.others call.fs x.client call.events).2.1] at hit
  have hmode := Client.handleEvents_executes hr it hit r hreq
  intro hnone
  have hreply := List.filterMap_eq_nil_iff.mp hnone it hit
  simp only [Iteration.reply, hreq, Option.map_eq_none_iff] at hreply
  exact hkills.answer hmode hreply

theorem flushed_iff_drains (h : x.client.isAlive = true → Sound x) : Flushed srv x call ↔ Drains srv x call := by
  refine forall_congr' fun halive => forall_congr' fun hends => forall_congr' fun hwrites => ?_
  obtain ⟨-, hr, hu⟩ := h halive
  have hqueue := @Client.handleEvents_responses srv call.others call.fs x.client call.events hr
  have hnew := hends.replies_ne_nil hr
  have hall : Sender.Unfinished (x.client.responses ++
      replies srv call.others (x.client.handleEvents srv call.others call.fs call.events).trace) := by
    intro r hr
    rcases List.mem_append.mp hr with hr | hr
    · exact hu r hr
    · exact unfinished_replies _ r hr
  have hstep : (step srv x call).client = (x.client.handle srv call.others call.fs call.events).client := by
    simp [step, halive]
  rw [hstep, ← Sender.write_eq_nil_iff hall, ← hqueue]
  have hne : (x.client.handleEvents srv call.others call.fs call.events).client.responses ≠ [] := by
    rw [hqueue]
    exact List.append_ne_nil_of_right_ne_nil _ hnew
  unfold Client.handle
  generalize x.client.handleEvents srv call.others call.fs call.events = done at hne ⊢
  obtain ⟨fs', c', fatal, trace⟩ := done
  cases fatal with
  | true => simpa using hne
  | false =>
    cases ho : call.events.output with
    | false => simpa [ho] using hne
    | true => simp [Client.handleOutput, hne, hwrites]

theorem Sound.step (h : Sound x) (halive : (Connection.step srv x call).client.isAlive = true)
    (hx : x.client.isAlive = true) : Sound (Connection.step srv x call) := by
  have hstep : (Connection.step srv x call).client = (x.client.handle srv call.others call.fs call.events).client := by
    simp [Connection.step, hx]
  have hf : (x.client.handle srv call.others call.fs call.events).fatal = false :=
    Client.handle_alive (by rwa [hstep] at halive)
  obtain ⟨hcoherent, hready⟩ := step_coherent h.coherent h.ready (show Handles srv x call from fun _ => hf)
  refine ⟨hcoherent, hready, ?_⟩
  have hqueue := @Client.handleEvents_responses srv call.others call.fs x.client call.events h.ready
  have hevents : Sender.Unfinished (x.client.handleEvents srv call.others call.fs call.events).client.responses := by
    rw [hqueue]
    intro r hr
    rcases List.mem_append.mp hr with hr | hr
    · exact h.unfinished r hr
    · exact unfinished_replies _ r hr
  rw [hstep]
  rcases (Client.handle_ok hf).2.2 with hout | ⟨-, hout⟩
  · rw [hout]
    exact hevents
  · rw [hout]
    exact Client.handleOutput_unfinished _ _ hevents

/-- In a run, no call leaves a reply of a connection it has ended behind exactly when every call
that ends it drains it. -/
theorem flushed_run_iff (fs : FileSystem) (calls : List Call) :
    Runs.AllMeet (step srv) (Flushed srv) (start fs) calls ↔ Runs.AllMeet (step srv) (Drains srv) (start fs) calls := by
  refine Runs.AllMeet.congr (I := fun x => x.client.isAlive = true → Sound x) ?_ (fun x call h => flushed_iff_drains h)
    (fun _ => ⟨Client.coherent_new, Client.ready_new, by simp [Sender.Unfinished, start, Client.new]⟩) calls
  intro x call h halive
  by_cases hx : x.client.isAlive = true
  · exact (h hx).step halive hx
  · have hsame : step srv x call = x := by simp [step, hx]
    rw [hsame] at halive
    exact absurd halive hx

/-- The reply to `exit` stays in the queue of the client that is closed. -/
theorem exit_reply_dropped :
    ¬ Runs.AllMeet (step Sample.server) (Flushed Sample.server) (start Sample.emptyFile)
      [Sample.call Sample.emptyFile (some "exit\n\n") []] := by
  rintro ⟨hflushed, -⟩
  have hempty := hflushed rfl ⟨_, .head _, _, rfl, .inl rfl⟩ rfl
  revert hempty
  decide +kernel

end Connection

end TinDox
