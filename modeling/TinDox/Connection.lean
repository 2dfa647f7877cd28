import TinDox.Client
import TinDox.Effects
import TinDox.Runs

/-! A connection over all of its calls of `Client::handle`, together with what it has received
and the iterations its input loop has made. The loop makes progress in every iteration, so its
bound on them is never reached. -/

namespace TinDox

/-- The file system as other clients have left it, what they hold, and what the socket does. -/
structure Call where
  fs : FileSystem
  others : Surroundings
  events : SocketEvents

structure Connection where
  fs : FileSystem
  client : Client
  received : Bytes
  trace : List Iteration

namespace Connection

def start (fs : FileSystem) : Connection := ⟨fs, .new, [], []⟩

/-- What the receiver returns in a call; it is asked only when no input is pending. -/
def receives (x : Connection) (call : Call) : Bytes :=
  if x.client.pendingInput = [] ∧ call.events.input then call.events.received.getD [] else []

/-- One call of `handle`. A client that is not alive is closed and not handled again. -/
def step (srv : ServerContext) (x : Connection) (call : Call) : Connection :=
  if x.client.isAlive then
    let h := x.client.handle srv call.others call.fs call.events
    ⟨h.fs, h.client, x.received ++ x.receives call, x.trace ++ h.trace⟩
  else x

end Connection

variable {srv : ServerContext} {around others : Surroundings} {fs fs' : FileSystem}

theorem Effect.uploadManager {s s' : Session} {r : Request} (h : Effect srv around fs s r fs' s') :
    s'.uploadManager = s.uploadManager ∨
    ∃ fs₁ upload, AcceptsUpload srv around fs s.context r fs₁ upload ∧
      s'.uploadManager.token = some upload := by
  cases h with
  | none | flags | login | logout | cd | cp | mkdir | mv | rename | rm | dl | dls | unbacked => exact .inl rfl
  | @ul fs₁ upload _ accepted =>
    exact .inr ⟨fs₁, upload, accepted, UploadManager.startUpload_token srv fs₁ s.uploadManager upload⟩

namespace UploadManager

/-- The numbers of the token fit into their type. -/
def Bounded (m : UploadManager) : Prop := ∀ token ∈ m.token, token.size < 2 ^ 64 ∧ token.offset < 2 ^ 64

theorem Bounded.size {m : UploadManager} (h : m.Bounded) : ∀ token ∈ m.token, token.size < 2 ^ 64 :=
  fun token ht => (h token ht).1

theorem Bounded.commitBytes {m : UploadManager} (h : m.Bounded) (fs : FileSystem) (bytes : Bytes) :
    (m.commitBytes fs bytes).2.1.Bounded := by
  rcases commitBytes_cases fs m bytes with
    ⟨-, hc⟩ | ⟨token, i, ht, -, ⟨-, hc⟩ | ⟨-, ⟨fs₁, -, hc⟩ | ⟨e, -, hc⟩⟩⟩
  · rw [hc]
    exact h
  · rw [hc]
    rintro _ ⟨⟩
    exact ⟨(h token ht).1, advance_offset_lt token bytes⟩
  · rw [hc]
    rintro _ ⟨⟩
  · rw [hc]
    rintro _ ⟨⟩
    exact ⟨(h token ht).1, advance_offset_lt token bytes⟩

theorem commitBytes_progress {m m' : UploadManager} (h : m.Bounded) {bytes rest : Bytes}
    (hc : m.commitBytes fs bytes = (fs', m', .ok rest)) :
    rest <:+ bytes ∧ (bytes ≠ [] → rest.length < bytes.length ∨ m'.hasFinished = true) := by
  obtain ⟨token, i, -, -, ⟨-, -, rfl, rfl⟩ | ⟨-, -, rfl, rfl⟩⟩ := commitBytes_ok h.size hc
  · exact ⟨List.nil_suffix, fun hb => .inl (List.length_pos_of_ne_nil hb)⟩
  · exact ⟨List.drop_suffix _ bytes, fun _ => .inr rfl⟩

end UploadManager

namespace Client

/-- What the loop relies on: no request waits in the interpreter, and the numbers of the upload
token fit into their type. -/
structure Ready (c : Client) : Prop where
  idle : c.interpreter.request = none
  bounded : c.session.uploadManager.Bounded

theorem ready_new : Ready .new := ⟨rfl, by simp [UploadManager.Bounded, new, Session.new, UploadManager.new]⟩

/-- What decreases in every iteration. -/
def measure (c : Client) (input : Bytes) : Nat :=
  2 * input.length + if c.session.context.mode = .upload then 1 else 0

variable {c : Client} {input rest : Bytes} {h : Handling}

theorem measure_lt {c' : Client} (hlt : rest.length < input.length) : measure c' rest < measure c input := by
  unfold measure
  split <;> split <;> omega

/-- What an iteration does that no exception ends. -/
structure Advances (fs : FileSystem) (c : Client) (input : Bytes) (h : Handling) (rest : Bytes) : Prop where
  ready : Ready h.client
  trace : ∃ delivery, h.trace = [⟨fs, c.session, input, rest, delivery⟩]
  parked : c.session.context.mode = .download → rest = [] ∧ h.client.pendingInput = input
  suffix : c.session.context.mode ≠ .download → rest <:+ input ∧ h.client.pendingInput = c.pendingInput
  decreases : c.session.context.mode ≠ .download → input ≠ [] → measure h.client rest < measure c input

theorem handleRequest_ready (hc : Ready c) (hm : c.session.context.mode = .command) :
    Ready (handleRequest srv others fs c input).1.client := by
  have hidle := c.interpreter.takeRequest_idle input
  unfold handleRequest
  generalize c.interpreter.takeRequest input = taken at hidle ⊢
  obtain ⟨i, rest, d⟩ := taken
  cases d with
  | nothing => exact ⟨hidle, hc.bounded⟩
  | error e => cases e <;> exact ⟨hidle, hc.bounded⟩
  | request r =>
    refine ⟨hidle, ?_⟩
    have heffect := executeCommand_effect srv (surroundings others c.session) fs c.session r hm
    rcases heffect.uploadManager with hs | ⟨fs₁, upload, hacc, hs⟩
    · simpa [UploadManager.Bounded, hs] using hc.bounded
    · simpa [UploadManager.Bounded, hs] using hacc.bounded

theorem handleUpload_ready (hc : Ready c) : Ready (handleUpload fs c input).1.client := by
  have hbounded := hc.bounded.commitBytes fs input
  rcases hu : c.session.handleUpload fs input with ⟨fs', s, result⟩
  obtain ⟨-, mode, rfl⟩ := Session.handleUpload_cases hu
  unfold handleUpload
  rw [hu]
  cases result <;> exact ⟨hc.idle, hbounded⟩

/-- No iteration leaves a request in the interpreter or a number out of its bounds, not even one that
throws. -/
theorem handleOnce_ready (hc : Ready c) : Ready (handleOnce srv others fs c input).1.client := by
  unfold handleOnce
  cases hm : c.session.context.mode with
  | command => exact handleRequest_ready hc hm
  | upload => exact handleUpload_ready hc
  | download => exact ⟨hc.idle, hc.bounded⟩

theorem handleRequest_advances (hc : Ready c) (hm : c.session.context.mode = .command)
    (he : handleRequest srv others fs c input = (h, rest)) (hf : h.fatal = false) :
    Advances fs c input h rest := by
  have hready : Ready h.client := by
    have hready := @handleRequest_ready srv others fs c input hc hm
    rwa [he] at hready
  obtain ⟨hsuffix, hlt⟩ := c.interpreter.takeRequest_rest input
  unfold handleRequest at he
  generalize c.interpreter.takeRequest input = taken at he hsuffix hlt
  obtain ⟨i, rest', d⟩ := taken
  simp only at he hsuffix hlt
  -- all of it but the state of the client does not depend on what was delivered
  have hall : h.client.pendingInput = c.pendingInput → h.trace = [⟨fs, c.session, input, rest', d⟩] → rest = rest' →
      Advances fs c input h rest := by
    rintro hpending htrace rfl
    refine ⟨hready, ⟨d, htrace⟩, fun hh => ?_, fun _ => ⟨hsuffix, hpending⟩, fun _ hne => ?_⟩
    · simp [hm] at hh
    · exact measure_lt (hlt hc.idle hne)
  cases d with
  | nothing =>
    cases he
    exact hall rfl rfl rfl
  | error e =>
    cases e with
    | fatal =>
      cases he
      simp at hf
    | protocol e =>
      cases he
      exact hall rfl rfl rfl
  | request r =>
    cases he
    exact hall rfl rfl rfl

theorem handleUpload_advances (hc : Ready c) (hm : c.session.context.mode = .upload)
    (he : handleUpload fs c input = (h, rest)) (hf : h.fatal = false) : Advances fs c input h rest := by
  have hready : Ready h.client := by
    have hready := @handleUpload_ready fs c input hc
    rwa [he] at hready
  unfold handleUpload at he
  rcases hu : c.session.handleUpload fs input with ⟨fs', s, e | rest'⟩
  · simp only [hu] at he
    cases he
    simp at hf
  · simp only [hu] at he
    cases he
    obtain ⟨m, hcommit, rfl⟩ := Session.handleUpload_eq_ok hu
    obtain ⟨hsuffix, hprogress⟩ := UploadManager.commitBytes_progress hc.bounded hcommit
    refine ⟨hready, ⟨_, rfl⟩, fun hh => ?_, fun _ => ⟨hsuffix, rfl⟩, fun _ hne => ?_⟩
    · simp [hm] at hh
    · rcases hprogress hne with hlt | hfin
      · exact measure_lt hlt
      · have hle := hsuffix.length_le
        simp only [measure, hfin, if_true, ClientContext.setMode, hm, reduceCtorEq, if_false]
        omega

theorem handleOnce_advances (hc : Ready c) (he : handleOnce srv others fs c input = (h, rest))
    (hf : h.fatal = false) : Advances fs c input h rest := by
  have hready : Ready h.client := by
    have hready := @handleOnce_ready srv others fs c input hc
    rwa [he] at hready
  unfold handleOnce at he
  cases hm : c.session.context.mode with
  | command => exact handleRequest_advances hc hm (by simpa [hm] using he) hf
  | upload => exact handleUpload_advances hc hm (by simpa [hm] using he) hf
  | download =>
    simp only [hm] at he
    cases he
    exact ⟨hready, ⟨_, rfl⟩, fun _ => ⟨rfl, rfl⟩, by simp [hm], by simp [hm]⟩

/-- The client without its connection being of any more use. -/
def killed (c : Client) : Client := { c with session := c.session.kill }

@[simp] theorem isAlive_killed (c : Client) : c.killed.isAlive = false := c.session.isAlive_kill

theorem Ready.killed (hc : c.Ready) : c.killed.Ready := ⟨hc.idle, by simpa [Client.killed] using hc.bounded⟩

theorem handle_cases (srv : ServerContext) (others : Surroundings) (fs : FileSystem) (c : Client)
    (events : SocketEvents) :
    (c.handle srv others fs events).fs = (c.handleEvents srv others fs events).fs ∧
    (c.handle srv others fs events).trace = (c.handleEvents srv others fs events).trace ∧
    ((c.handleEvents srv others fs events).fatal = true ∧
        (c.handle srv others fs events).client = (c.handleEvents srv others fs events).client.killed ∨
      (c.handleEvents srv others fs events).fatal = false ∧
        ∃ client, (client = (c.handleEvents srv others fs events).client ∨
            client = ((c.handleEvents srv others fs events).client.handleOutput
              (c.handleEvents srv others fs events).fs events).1) ∧
          ((c.handle srv others fs events).client = client ∨
            (c.handle srv others fs events).client = client.killed)) := by
  unfold handle
  rcases c.handleEvents srv others fs events with ⟨fs', c', fatal, trace⟩
  cases fatal with
  | true => exact ⟨rfl, rfl, .inl ⟨rfl, rfl⟩⟩
  | false =>
    by_cases ho : events.output = true
    · rcases hout : c'.handleOutput fs' events with ⟨client, e⟩
      simp only [ho, hout, if_true]
      cases e with
      | false => exact ⟨rfl, rfl, .inr ⟨trivial, client, .inr rfl, .inl rfl⟩⟩
      | true => exact ⟨rfl, rfl, .inr ⟨trivial, client, .inr rfl, .inr rfl⟩⟩
    · simp only [ho]
      exact ⟨rfl, rfl, .inr ⟨trivial, c', .inl rfl, .inl rfl⟩⟩

end Client

/-- A call in which the receiver returns a text, if any, and the sender writes, if it can. -/
def Sample.call (fs : FileSystem) (received : Option String) (accepted : List Nat) : Call :=
  ⟨fs, Sample.around, ⟨received.isSome, accepted ≠ [], received.map ascii, accepted, false, 10⟩⟩

end TinDox
