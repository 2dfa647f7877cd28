import TinDox.Connection
import TinDox.Framing

/-! What happens behind a request that ends the connection. The input loop does not ask whether
its client is alive, so complete requests that follow in the same input are executed; when none
follow, the connection has come to rest. -/

namespace TinDox

open ProtocolInterpreter

variable {srv : ServerContext} {around others : Surroundings} {fs fs' : FileSystem}

/-- The bytes hold no complete request for an interpreter that starts afresh. -/
def Quiet (input : Bytes) : Prop := ∀ d ∈ (driveChunk (input.length + 1) fresh input []).2, ∀ r, d.1 ≠ .request r

theorem Effect.alive {s s' : Session} {r : Request} (h : Effect srv around fs s r fs' s') :
    s'.context.alive = s.context.alive ∨ Kills srv around s.context r ∧ s'.context.mode = s.context.mode := by
  cases h with
  | none | login | logout | cd | cp | mkdir | mv | rename | rm | dl | dls | unbacked | ul => exact .inl rfl
  | flags alive stuck count cause =>
    rcases cause with h | h
    · exact .inl h
    · exact .inr ⟨h, rfl⟩

theorem Effect.stuck {s s' : Session} {r : Request} (h : Effect srv around fs s r fs' s') :
    s'.context.stuck = s.context.stuck ∨ s'.context.stuck = true ∧ Hangs srv fs s.context r := by
  cases h with
  | none | login | logout | cd | cp | mkdir | mv | rename | rm | dl | dls | unbacked | ul => exact .inl rfl
  | flags alive stuck count cause hangs => exact hangs

theorem Session.kill_of_dead {s : Session} (h : s.context.alive = false) : s.kill = s := by
  rw [kill_eq, h, Bool.false_and, ← h]

theorem ProtocolInterpreter.takeRequest_fresh {i i' : ProtocolInterpreter} {input rest : Bytes} {r : Request}
    (h : i.takeRequest input = (i', rest, .request r)) : i' = fresh := by
  unfold takeRequest at h
  split at h
  · simp at h
  · simp at h
  · split at h
    · simp only [Prod.mk.injEq] at h
      exact h.1.symm
    · simp at h

namespace Client

variable {c : Client} {input rest : Bytes} {h : Handling}

theorem handleRequest_undelivered {i : ProtocolInterpreter} {d : Delivery}
    (ht : c.interpreter.takeRequest input = (i, rest, d)) (hd : ∀ r, d ≠ .request r) :
    ∃ h, handleRequest srv others fs c input = (h, rest) ∧ h.fs = fs ∧ h.client.session = c.session ∧
      h.client.interpreter = i ∧ h.trace = [⟨fs, c.session, input, rest, d⟩] ∧
      (h.fatal = false → d ≠ .error .fatal) := by
  unfold handleRequest
  rw [ht]
  cases d with
  | nothing => exact ⟨_, rfl, rfl, rfl, rfl, rfl, by simp⟩
  | request r => exact absurd rfl (hd r)
  | error e =>
    cases e with
    | fatal => exact ⟨_, rfl, rfl, rfl, rfl, rfl, by simp⟩
    | protocol e => exact ⟨_, rfl, rfl, rfl, rfl, rfl, by simp⟩

theorem handleInputLoop_rests (fuel n : Nat) (hidle : c.interpreter.request = none)
    (hmode : c.session.context.mode = .command) (hn : input.length < n)
    (hquiet : ∀ d ∈ (driveChunk n c.interpreter input []).2, ∀ r, d.1 ≠ .request r) :
    (handleInputLoop srv others fuel fs c input).fs = fs ∧
    (handleInputLoop srv others fuel fs c input).client.session = c.session ∧
    ∀ it ∈ (handleInputLoop srv others fuel fs c input).trace,
      it.fs = fs ∧ it.session = c.session ∧ ∀ r, it.delivery ≠ .request r := by
  induction fuel generalizing n c input with
  | zero => simp [handleInputLoop]
  | succ fuel ih =>
    obtain ⟨n, rfl⟩ : ∃ m, n = m + 1 := ⟨n - 1, by omega⟩
    rcases ht : c.interpreter.takeRequest input with ⟨i, rest, d⟩
    have hsplit : driveChunk (n + 1) c.interpreter input [] =
        if rest = [] then (i, if d = .nothing then [] else [(d, rest)])
        else ((driveChunk n i rest []).1,
          (if d = .nothing then [] else [(d, rest)]) ++ (driveChunk n i rest []).2) := by
      simp [driveChunk, ht]
    have hd : ∀ r, d ≠ .request r := by
      rintro r rfl
      refine hquiet (.request r, rest) ?_ r rfl
      rw [hsplit]
      split <;> simp
    obtain ⟨h, hh, hfs, hsession, hi, htrace, hfatal⟩ :=
      @handleRequest_undelivered srv others fs c input rest i d ht hd
    have honce : handleOnce srv others fs c input = (h, rest) := by simp [handleOnce, hmode, hh]
    unfold handleInputLoop
    simp only [honce]
    by_cases hstop : h.fatal = true ∨ rest = []
    · simp only [hstop, if_true, hfs, hsession, htrace]
      simpa using hd
    · simp only [hstop, if_false]
      simp only [not_or, Bool.not_eq_true] at hstop
      have hidle' := c.interpreter.takeRequest_idle input
      have hrest := c.interpreter.takeRequest_rest input
      rw [ht] at hidle' hrest
      have hinput : input ≠ [] := fun hh => hstop.2 (by simpa [hh] using hrest.1)
      have hlt := hrest.2 hidle hinput
      simp only at hlt hidle'
      obtain ⟨h1, h2, h3⟩ := @ih h.client rest n (hi ▸ hidle') (hsession ▸ hmode) (by omega) (fun d' hd' => by
        refine hquiet d' ?_
        rw [hsplit, if_neg hstop.2]
        exact List.mem_append_right _ (hi ▸ hd'))
      rw [hfs]
      refine ⟨h1, h2.trans hsession, fun it hit => ?_⟩
      rcases List.mem_append.mp (htrace ▸ hit) with hit | hit
      · rw [List.mem_singleton.mp hit]
        exact ⟨rfl, rfl, hd⟩
      · obtain ⟨h4, h5, h6⟩ := h3 it hit
        exact ⟨h4, h5.trans hsession, h6⟩

theorem handleOnce_trace (he : handleOnce srv others fs c input = (h, rest)) :
    ∃ rest d, h.trace = [⟨fs, c.session, input, rest, d⟩] := by
  cases handleOnce_iterates he <;> exact ⟨_, _, rfl⟩

/-- An iteration after which a client is no longer alive has executed a request that ends the
connection. -/
theorem handleOnce_kills (halive : c.session.context.alive = true)
    (he : handleOnce srv others fs c input = (h, rest)) (hdead : h.client.session.context.alive = false) :
    h.client.interpreter = fresh ∧ h.client.session.context.mode = .command ∧
    ∃ r, h.trace = [⟨fs, c.session, input, rest, .request r⟩] ∧
      Kills srv (surroundings others c.session) c.session.context r := by
  cases handleOnce_iterates he with
  | download mode | waits mode taken | interpreterThrows mode taken | refuses mode taken =>
    simp [addAnswer, halive] at hdead
  | upload mode handled | uploadThrows mode handled =>
    obtain ⟨-, mode', rfl⟩ := Session.handleUpload_cases handled
    simp [ClientContext.setMode, halive] at hdead
  | @executes i rest r mode taken =>
    rcases (executeCommand_effect srv (surroundings others c.session) fs c.session r mode).alive with hs | ⟨hk, hmode⟩
    · simp [hs, halive] at hdead
    · exact ⟨takeRequest_fresh taken, hmode.trans mode, r, rfl, hk⟩

/-- The iterations of a client that is alive, and what has become of everything once it is not. -/
def AtRest (h : Handling) (it : Iteration) : Prop :=
  it.session.context.alive = true ∨
    it.session.context.mode = .command ∧ (∀ r, it.delivery ≠ .request r) ∧ h.fs = it.fs ∧
      h.client.session = it.session

/-- When no complete request follows one that ends the connection, the loop executes only what
it finds alive. -/
theorem handleInputLoop_atRest (fuel : Nat) (halive : c.session.context.alive = true)
    (hquiet : ∀ it ∈ (handleInputLoop srv others fuel fs c input).trace, ∀ r, it.delivery = .request r →
      Kills srv (surroundings others it.session) it.session.context r → Quiet it.rest) :
    ∀ it ∈ (handleInputLoop srv others fuel fs c input).trace,
      AtRest (handleInputLoop srv others fuel fs c input) it := by
  induction fuel generalizing fs c input with
  | zero => simp [handleInputLoop]
  | succ fuel ih =>
    rcases he : handleOnce srv others fs c input with ⟨h, rest⟩
    obtain ⟨rest', d, htrace⟩ := handleOnce_trace he
    unfold handleInputLoop at hquiet ⊢
    simp only [he] at hquiet ⊢
    by_cases hstop : h.fatal = true ∨ rest = []
    · simp only [hstop, if_true]
      intro it hit
      rw [htrace, List.mem_singleton] at hit
      exact .inl (hit ▸ halive)
    · simp only [hstop, if_false] at hquiet ⊢
      intro it hit
      rcases List.mem_append.mp hit with hit | hit
      · rw [htrace, List.mem_singleton] at hit
        exact .inl (hit ▸ halive)
      · by_cases halive' : h.client.session.context.alive = true
        · exact ih halive' (fun it hit => hquiet it (List.mem_append_right _ hit)) it hit
        · obtain ⟨hi, hmode, r, htrace', hk⟩ := handleOnce_kills halive he (by simpa using halive')
          have hmem : (⟨fs, c.session, input, rest, .request r⟩ : Iteration) ∈ h.trace := by simp [htrace']
          have hq : Quiet rest := hquiet _ (List.mem_append_left _ hmem) r rfl hk
          obtain ⟨h1, h2, h3⟩ := @handleInputLoop_rests srv others h.fs h.client rest fuel (rest.length + 1)
            (by simp [hi, fresh]) hmode (by omega) (hi ▸ hq)
          obtain ⟨h4, h5, h6⟩ := h3 it hit
          exact .inr ⟨h5 ▸ hmode, h6, h1.trans h4.symm, h2.trans h5.symm⟩

theorem handleEvents_atRest {events : SocketEvents} (halive : c.isAlive = true)
    (hquiet : ∀ it ∈ (handleEvents srv others fs c events).trace, ∀ r, it.delivery = .request r →
      Kills srv (surroundings others it.session) it.session.context r → Quiet it.rest) :
    ∀ it ∈ (handleEvents srv others fs c events).trace, AtRest (handleEvents srv others fs c events) it := by
  unfold handleEvents at hquiet ⊢
  by_cases hp : c.pendingInput = []
  · simp only [hp, ne_eq, not_true_eq_false, if_false] at hquiet ⊢
    by_cases hin : events.input = true
    · simp only [hin, if_true] at hquiet ⊢
      cases hr : events.received with
      | none => simp
      | some input =>
        simp only [hr] at hquiet ⊢
        exact handleInputLoop_atRest _ (ClientContext.alive_of_isAlive halive) hquiet
    · simp [hin]
  · simp only [ne_eq, hp, not_false_eq_true, if_true] at hquiet ⊢
    have hpending : (handlePendingInput srv others fs c).trace = (handleInput srv others fs c c.pendingInput).trace ∧
        (handlePendingInput srv others fs c).fs = (handleInput srv others fs c c.pendingInput).fs ∧
        (handlePendingInput srv others fs c).client.session =
          (handleInput srv others fs c c.pendingInput).client.session := by
      unfold handlePendingInput
      dsimp only
      split <;> exact ⟨rfl, rfl, rfl⟩
    simp only [AtRest, hpending] at hquiet ⊢
    exact handleInputLoop_atRest _ (ClientContext.alive_of_isAlive halive) hquiet

theorem handle_atRest {events : SocketEvents} {it : Iteration}
    (h : AtRest (c.handleEvents srv others fs events) it) : AtRest (c.handle srv others fs events) it := by
  rcases h with h | ⟨hmode, hd, hfs, hsession⟩
  · exact .inl h
  · by_cases halive : it.session.context.alive = true
    · exact .inl halive
    · have hdead : it.session.context.alive = false := by simpa using halive
      obtain ⟨hfs', -, hcases⟩ := handle_cases srv others fs c events
      refine .inr ⟨hmode, hd, hfs'.trans hfs, ?_⟩
      rcases hcases with ⟨-, hclient⟩ | ⟨-, client, hclient, hout⟩
      · rw [hclient, killed, hsession, Session.kill_of_dead hdead]
      · have hs : client.session = it.session := by
          rcases hclient with rfl | rfl
          · exact hsession
          · have hnot : (c.handleEvents srv others fs events).client.session.context.mode ≠ .download := by
              simp [hsession, hmode]
            rcases ho : handleOutput (c.handleEvents srv others fs events).fs
              (c.handleEvents srv others fs events).client events with ⟨c', e⟩
            cases handleOutput_outputs ho with
            | writes waiting => exact hsession
            | idle none mode => exact hsession
            | sends none mode handled | sendThrows none mode handled => exact absurd mode hnot
        rcases hout with hout | hout
        · rw [hout, hs]
        · rw [hout, killed, hs, Session.kill_of_dead hdead]

end Client

namespace Connection

variable {x : Connection}

/-- No complete request follows, in the same input, one that ends the connection. -/
def QuietAfterKill (srv : ServerContext) (x : Connection) (call : Call) : Prop :=
  ∀ it ∈ (x.client.handleEvents srv call.others call.fs call.events).trace, ∀ r, it.delivery = .request r →
    Kills srv (Client.surroundings call.others it.session) it.session.context r → Quiet it.rest

/-- Requests are executed only while the client is alive, and nothing changes afterwards. -/
def Ended (x : Connection) : Prop :=
  ∀ it ∈ x.trace, (∀ r, it.delivery = .request r → it.session.context.alive = true) ∧
    (it.session.context.alive = false → x.fs = it.fs ∧ x.client.session = it.session)

theorem ended_of_quietAfterKill
    (h : Runs.Reaches (step srv) (QuietAfterKill srv) (start fs) x) : x.Ended := by
  refine h.invariant (by simp [Ended, start]) (fun y call hy hquiet => ?_)
  by_cases halive : y.client.isAlive = true
  · intro it hit
    simp only [step, halive, if_true, List.mem_append] at hit ⊢
    rcases hit with hit | hit
    · have hit' : it.session.context.alive = true := by
        by_contra hne
        have hs := ((hy it hit).2 (by simpa using hne)).2
        exact hne (hs ▸ ClientContext.alive_of_isAlive halive)
      exact ⟨fun _ _ => hit', fun hdead => by simp [hit'] at hdead⟩
    · have htrace := (Client.handle_cases srv call.others call.fs y.client call.events).2.1
      rw [htrace] at hit
      rcases Client.handle_atRest (Client.handleEvents_atRest halive hquiet it hit) with h | ⟨-, hd, hfs, hs⟩
      · exact ⟨fun _ _ => h, fun hdead => by simp [h] at hdead⟩
      · exact ⟨fun r hr => absurd hr (hd r), fun _ => ⟨hfs, hs⟩⟩
  · have hs : step srv y call = y := by simp [step, halive]
    rwa [hs]

end Connection

/-- A client logs in and leaves, and something follows in the same input. -/
def Sample.leaving (following : String) : List Call :=
  [call ⟨tree [], []⟩ (some ("auth\nlogin:u\npasswd:pw\n\nexit\n\n" ++ following)) []]

namespace Connection

theorem ended_of_quietAfterKill_exit :
    (Runs.run (step Sample.server) (start ⟨Sample.tree [], []⟩) (Sample.leaving "mkdir\nna")).Ended := by
  refine ended_of_quietAfterKill (Runs.AllMeet.reaches ⟨fun it hit r hr hk => ?_, trivial⟩)
  have hcases : (driveChunk (it.rest.length + 1) fresh it.rest []).2 = [] ∨
      it.delivery = .request (Sample.auth "u") ∧
        it.session.context.countFailedAuth.getAuthTryCount ≠ Auth.maxTryCount := by
    clear hr hk
    revert it
    decide +kernel
  rcases hcases with hq | ⟨hd, hcount⟩
  · simp [Quiet, hq]
  · obtain rfl : Sample.auth "u" = r := by simpa [hd] using hr
    rcases hk with h | h | ⟨-, h, -⟩
    · exact absurd h (by decide)
    · exact absurd h (by decide)
    · exact absurd h hcount

/-- The directory is made although the client has left. -/
theorem mkdir_after_exit :
    let x := Runs.run (step Sample.server) (start ⟨Sample.tree [], []⟩) (Sample.leaving "mkdir\nname:d\n\n")
    x.fs.pathExists ⟨ascii "/r/d"⟩ = true ∧ ¬ x.Ended := by
  refine ⟨by decide +kernel, fun h => ?_⟩
  have hmem : ∃ it ∈ (Runs.run (step Sample.server) (start ⟨Sample.tree [], []⟩)
      (Sample.leaving "mkdir\nname:d\n\n")).trace,
      it.session.context.alive = false ∧ it.delivery = .request ⟨ascii "mkdir", [Sample.string "name" "d"]⟩ := by
    decide +kernel
  obtain ⟨it, hit, hdead, hd⟩ := hmem
  simp [(h it hit).1 _ hd] at hdead

end Connection

end TinDox
