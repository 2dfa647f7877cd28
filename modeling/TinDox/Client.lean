import TinDox.Interpreter
import TinDox.Session

/-! `Client`: one connection with its buffers, and what a call of `Client::handle` does to it.
The loop over the input also records its iterations, from which the bytes it has consumed and
the requests it has executed can be read off. -/

namespace TinDox

structure Client where
  session : Session
  interpreter : ProtocolInterpreter
  pendingInput : Bytes
  responses : List Response
  deriving DecidableEq

/-- One iteration of the loop of `handle_input`: the state and the input it finds, the input it
leaves, and what the interpreter has delivered. -/
structure Iteration where
  fs : FileSystem
  session : Session
  input : Bytes
  rest : Bytes
  delivery : Delivery

/-- In download mode the input is not handled but kept for later. -/
def Iteration.parked (it : Iteration) : Bool := it.session.context.mode = .download

/-- The bytes an iteration has handed to the interpreter or to the upload manager. -/
def Iteration.consumed (it : Iteration) : Bytes :=
  if it.parked then [] else it.input.take (it.input.length - it.rest.length)

structure Handling where
  fs : FileSystem
  client : Client
  fatal : Bool
  trace : List Iteration

namespace Client

def new : Client := ⟨.new, .fresh, [], []⟩

def isAlive (c : Client) : Bool := c.session.context.isAlive

/-- The surroundings of a request: those of the other clients, and the client's own locks. -/
def surroundings (others : Surroundings) (s : Session) : Surroundings :=
  { others with
    locks := others.locks ++ s.locks
    usernames := others.usernames ++ s.username.toList }

def addAnswer (c : Client) (answer : Option Answer) : Client :=
  { c with responses := c.responses ++ (answer.map Answer.response).toList }

/-- `handle_request`, with the input that is left. -/
def handleRequest (srv : ServerContext) (others : Surroundings) (fs : FileSystem) (c : Client)
    (input : Bytes) : Handling × Bytes :=
  match c.interpreter.takeRequest input with
  | (i, rest, delivery) =>
    let c' := { c with interpreter := i }
    let trace := [⟨fs, c.session, input, rest, delivery⟩]
    match delivery with
    | .nothing => (⟨fs, c', false, trace⟩, rest)
    | .error .fatal => (⟨fs, c', true, trace⟩, rest)
    | .error (.protocol e) =>
      (⟨fs, c'.addAnswer (some ⟨e.code, ascii "<interpreter>", [e.what]⟩), false, trace⟩, rest)
    | .request r =>
      let done := c.session.executeCommand srv (surroundings others c.session) fs r
      (⟨done.fs, { c'.addAnswer done.answer with session := done.session }, done.fatal, trace⟩, rest)

/-- `handle_upload`; the input stays as it was when the upload manager throws. -/
def handleUpload (fs : FileSystem) (c : Client) (input : Bytes) : Handling × Bytes :=
  match c.session.handleUpload fs input with
  | (fs', s, .ok rest) =>
    (⟨fs', { c with session := s }, false, [⟨fs, c.session, input, rest, .nothing⟩]⟩, rest)
  | (fs', s, .error _) =>
    (⟨fs', { c with session := s }, true, [⟨fs, c.session, input, input, .nothing⟩]⟩, input)

/-- The body of the loop of `handle_input`. -/
def handleOnce (srv : ServerContext) (others : Surroundings) (fs : FileSystem) (c : Client)
    (input : Bytes) : Handling × Bytes :=
  match c.session.context.mode with
  | .command => handleRequest srv others fs c input
  | .upload => handleUpload fs c input
  | .download =>
    (⟨fs, { c with pendingInput := input }, false, [⟨fs, c.session, input, [], .nothing⟩]⟩, [])

/-- The ways in which an iteration of the loop can go. -/
inductive Iterates (srv : ServerContext) (others : Surroundings) (fs : FileSystem) (c : Client) (input : Bytes) :
    Handling → Bytes → Prop
  | download (mode : c.session.context.mode = .download) :
      Iterates srv others fs c input
        ⟨fs, { c with pendingInput := input }, false, [⟨fs, c.session, input, [], .nothing⟩]⟩ []
  | upload {fs' : FileSystem} {s : Session} {rest : Bytes} (mode : c.session.context.mode = .upload)
      (handled : c.session.handleUpload fs input = (fs', s, .ok rest)) :
      Iterates srv others fs c input
        ⟨fs', { c with session := s }, false, [⟨fs, c.session, input, rest, .nothing⟩]⟩ rest
  | uploadThrows {fs' : FileSystem} {s : Session} {e : Exception} (mode : c.session.context.mode = .upload)
      (handled : c.session.handleUpload fs input = (fs', s, .error e)) :
      Iterates srv others fs c input
        ⟨fs', { c with session := s }, true, [⟨fs, c.session, input, input, .nothing⟩]⟩ input
  | waits {i : ProtocolInterpreter} {rest : Bytes} (mode : c.session.context.mode = .command)
      (taken : c.interpreter.takeRequest input = (i, rest, .nothing)) :
      Iterates srv others fs c input
        ⟨fs, { c with interpreter := i }, false, [⟨fs, c.session, input, rest, .nothing⟩]⟩ rest
  | interpreterThrows {i : ProtocolInterpreter} {rest : Bytes} (mode : c.session.context.mode = .command)
      (taken : c.interpreter.takeRequest input = (i, rest, .error .fatal)) :
      Iterates srv others fs c input
        ⟨fs, { c with interpreter := i }, true, [⟨fs, c.session, input, rest, .error .fatal⟩]⟩ rest
  | refuses {i : ProtocolInterpreter} {rest : Bytes} {e : ProtocolError} (mode : c.session.context.mode = .command)
      (taken : c.interpreter.takeRequest input = (i, rest, .error (.protocol e))) :
      Iterates srv others fs c input
        ⟨fs, { c with interpreter := i }.addAnswer (some ⟨e.code, ascii "<interpreter>", [e.what]⟩), false,
          [⟨fs, c.session, input, rest, .error (.protocol e)⟩]⟩ rest
  | executes {i : ProtocolInterpreter} {rest : Bytes} {r : Request} (mode : c.session.context.mode = .command)
      (taken : c.interpreter.takeRequest input = (i, rest, .request r)) :
      Iterates srv others fs c input
        ⟨(c.session.executeCommand srv (surroundings others c.session) fs r).fs,
          { { c with interpreter := i }.addAnswer
              (c.session.executeCommand srv (surroundings others c.session) fs r).answer with
            session := (c.session.executeCommand srv (surroundings others c.session) fs r).session },
          (c.session.executeCommand srv (surroundings others c.session) fs r).fatal,
          [⟨fs, c.session, input, rest, .request r⟩]⟩ rest

theorem handleOnce_iterates {srv : ServerContext} {others : Surroundings} {fs : FileSystem} {c : Client}
    {input rest : Bytes} {h : Handling} (he : handleOnce srv others fs c input = (h, rest)) :
    Iterates srv others fs c input h rest := by
  unfold handleOnce at he
  cases hm : c.session.context.mode with
  | download =>
    simp only [hm] at he
    cases he
    exact .download hm
  | upload =>
    simp only [hm, handleUpload] at he
    rcases hu : c.session.handleUpload fs input with ⟨fs', s, e | rest'⟩
    · simp only [hu] at he
      cases he
      exact .uploadThrows hm hu
    · simp only [hu] at he
      cases he
      exact .upload hm hu
  | command =>
    simp only [hm, handleRequest] at he
    rcases ht : c.interpreter.takeRequest input with ⟨i, rest', d⟩
    rw [ht] at he
    cases d with
    | nothing =>
      cases he
      exact .waits hm ht
    | error e =>
      cases e with
      | fatal =>
        cases he
        exact .interpreterThrows hm ht
      | protocol e =>
        cases he
        exact .refuses hm ht
    | request r =>
      cases he
      exact .executes hm ht

/-- `handle_input`, with fuel for its iterations. -/
def handleInputLoop (srv : ServerContext) (others : Surroundings) :
    Nat → FileSystem → Client → Bytes → Handling
  | 0, fs, c, _ => ⟨fs, c, false, []⟩
  | fuel + 1, fs, c, input =>
    match handleOnce srv others fs c input with
    | (h, rest) =>
      if h.fatal ∨ rest = [] then h
      else
        let h' := handleInputLoop srv others fuel h.fs h.client rest
        { h' with trace := h.trace ++ h'.trace }

/-- An iteration that consumes nothing is one in which an upload finishes without needing a
byte, so two iterations for each byte are enough. -/
def handleInput (srv : ServerContext) (others : Surroundings) (fs : FileSystem) (c : Client)
    (input : Bytes) : Handling :=
  handleInputLoop srv others (2 * input.length + 2) fs c input

/-- `handle_pending_input`: what the loop leaves of the input becomes the pending input, which
is nothing when the loop ends. -/
def handlePendingInput (srv : ServerContext) (others : Surroundings) (fs : FileSystem) (c : Client) :
    Handling :=
  let h := handleInput srv others fs c c.pendingInput
  if h.fatal then h else { h with client := { h.client with pendingInput := [] } }

end Client

/-- What the socket does when a client is handled. `received` is what `Receiver::receive` returns
on an input event, `none` when it throws; `accepted` are the byte counts of the writes of the
sender until one fails, with an error or because it would block; `room` is what `sendfile` can
move. -/
structure SocketEvents where
  input : Bool
  output : Bool
  received : Option Bytes
  accepted : List Nat
  writeFails : Bool
  room : Nat

namespace Sender

def write : List Nat → List Response → List Response
  | n :: ns, r :: rs =>
    if n = 0 then r :: rs
    else
      let r := r.addReadByteCount n
      if r.isFullySent then write ns rs else write ns (r :: rs)
  | _, rs => rs

end Sender

namespace Client

def handleOutput (fs : FileSystem) (c : Client) (events : SocketEvents) : Client × Bool :=
  if c.responses ≠ [] then
    ({ c with responses := Sender.write events.accepted c.responses }, events.writeFails)
  else if c.session.context.mode = .download then
    match c.session.handleDownloadManagerOutput fs events.room with
    | (s, _, .ok ()) => ({ c with session := s }, false)
    | (s, _, .error _) => ({ c with session := s }, true)
  else (c, false)

inductive Outputs (fs : FileSystem) (c : Client) (events : SocketEvents) : Client × Bool → Prop
  | writes (waiting : c.responses ≠ []) :
      Outputs fs c events ({ c with responses := Sender.write events.accepted c.responses }, events.writeFails)
  | sends {s : Session} {sent : Bytes} (none : c.responses = []) (mode : c.session.context.mode = .download)
      (handled : c.session.handleDownloadManagerOutput fs events.room = (s, sent, .ok ())) :
      Outputs fs c events ({ c with session := s }, false)
  | sendThrows {s : Session} {sent : Bytes} {e : Exception} (none : c.responses = [])
      (mode : c.session.context.mode = .download)
      (handled : c.session.handleDownloadManagerOutput fs events.room = (s, sent, .error e)) :
      Outputs fs c events ({ c with session := s }, true)
  | idle (none : c.responses = []) (mode : c.session.context.mode ≠ .download) : Outputs fs c events (c, false)

theorem handleOutput_outputs {fs : FileSystem} {c : Client} {events : SocketEvents} {out : Client × Bool}
    (ho : handleOutput fs c events = out) : Outputs fs c events out := by
  subst ho
  unfold handleOutput
  by_cases hresponses : c.responses = []
  · rw [if_neg (by simpa using hresponses)]
    by_cases hm : c.session.context.mode = .download
    · rw [if_pos hm]
      rcases hd : c.session.handleDownloadManagerOutput fs events.room with ⟨s, sent, e | u⟩
      · exact .sendThrows hresponses hm hd
      · exact .sends hresponses hm hd
    · rw [if_neg hm]
      exact .idle hresponses hm
  · rw [if_pos hresponses]
    exact .writes hresponses

/-- The input half of `handle`. -/
def handleEvents (srv : ServerContext) (others : Surroundings) (fs : FileSystem) (c : Client)
    (events : SocketEvents) : Handling :=
  if c.pendingInput ≠ [] then handlePendingInput srv others fs c
  else if events.input then
    match events.received with
    | some input => handleInput srv others fs c input
    | none => ⟨fs, c, true, []⟩
  else ⟨fs, c, false, []⟩

/-- `handle`: an exception ends the call and kills the client; a command that never returns leaves
everything as it is. -/
def handle (srv : ServerContext) (others : Surroundings) (fs : FileSystem) (c : Client)
    (events : SocketEvents) : Handling :=
  let h := handleEvents srv others fs c events
  if h.fatal then { h with client := { h.client with session := h.client.session.kill } }
  else if events.output then
    match handleOutput h.fs h.client events with
    | (c, false) => { h with client := c }
    | (c, true) => { h with client := { c with session := c.session.kill }, fatal := true }
  else h

end Client

end TinDox
