import TinDox.Modes

/-! Every request has one outcome: its encoded response, or the file bytes of an accepted `dls`.
What the socket has taken is at all times the beginning of the outcomes in the order of the
requests; the rest lies in the queue of the sender or is still to be sent by the download
manager. -/

namespace TinDox

namespace Response

def rest (r : Response) : Bytes := r.data.drop r.offset

theorem rest_addReadByteCount (r : Response) (n : Nat) : (r.addReadByteCount n).rest = r.rest.drop n := by
  simp only [rest, addReadByteCount, getRemainingByteCount, List.drop_drop]
  by_cases hn : n ≤ r.data.length - r.offset
  · rw [Nat.min_eq_left hn]
  · have hall : r.data.length ≤ r.offset + min n (r.data.length - r.offset) := by omega
    have hmore : r.data.length ≤ r.offset + n := by omega
    rw [List.drop_eq_nil_of_le hall, List.drop_eq_nil_of_le hmore]

theorem rest_of_isFullySent {r : Response} (h : r.isFullySent = true) : r.rest = [] := by
  have hzero : r.data.length - r.offset = 0 := of_decide_eq_true h
  have hall : r.data.length ≤ r.offset := by omega
  exact List.drop_eq_nil_of_le hall

end Response

namespace Sender

def queued (rs : List Response) : Bytes := rs.flatMap Response.rest

/-- The bytes that the writes of the sender put on the socket. -/
def sent : List Nat → List Response → Bytes
  | n :: ns, r :: rs =>
    if n = 0 then []
    else
      r.rest.take n ++
        (if (r.addReadByteCount n).isFullySent then sent ns rs else sent ns (r.addReadByteCount n :: rs))
  | _, _ => []

theorem sent_append_queued (ns : List Nat) (rs : List Response) : sent ns rs ++ queued (write ns rs) = queued rs := by
  induction ns generalizing rs with
  | nil => simp [sent, write]
  | cons n ns ih =>
    cases rs with
    | nil => simp [sent, write]
    | cons r rs =>
      by_cases hn : n = 0
      · simp [sent, write, hn]
      · have hrest := r.rest_addReadByteCount n
        simp only [sent, write, hn, if_false, List.append_assoc]
        by_cases hs : (r.addReadByteCount n).isFullySent = true
        · rw [Response.rest_of_isFullySent hs] at hrest
          have hall : r.rest.take n = r.rest := by
            have hcut := List.take_append_drop n r.rest
            rwa [← hrest, List.append_nil] at hcut
          rw [if_pos hs, if_pos hs, ih, hall]
          rfl
        · have hcut : r.rest.take n ++ (r.addReadByteCount n).rest = r.rest := by
            rw [hrest, List.take_append_drop]
          rw [if_neg hs, if_neg hs, ih]
          simp only [queued, List.flatMap_cons, ← List.append_assoc, hcut]

theorem queued_append (rs rs' : List Response) : queued (rs ++ rs') = queued rs ++ queued rs' := List.flatMap_append

end Sender

/-- The bytes a download token stands for. -/
def DownloadToken.bytes (fs : FileSystem) (token : DownloadToken) : Bytes :=
  (((fs.readFile token.path).getD []).drop token.offset).take (token.size - token.offset)

namespace DownloadManager

def content (fs : FileSystem) (m : DownloadManager) : Bytes :=
  match m.file with
  | some i => fs.contents i
  | none => []

def unsent (fs : FileSystem) (m : DownloadManager) : Bytes :=
  if m.hasFinished then [] else ((m.content fs).drop m.offset).take (m.fileSize - m.offset)

variable {fs : FileSystem} {m m' : DownloadManager} {token : DownloadToken}

theorem unsent_of_finished (h : m.hasFinished = true) : m.unsent fs = [] := by rw [unsent, if_pos h]

theorem unsent_of_not_finished (h : m.hasFinished = false) :
    m.unsent fs = ((m.content fs).drop m.offset).take (m.fileSize - m.offset) := by
  rw [unsent, h]
  rfl

theorem take_append_take (b : Bytes) {k n : Nat} (h : k ≤ n) :
    b.take k ++ (b.drop (b.take k).length).take (n - (b.take k).length) = b.take n := by
  by_cases hk : k ≤ b.length
  · have hlen : (b.take k).length = k := List.length_take_of_le hk
    rw [hlen, ← List.drop_take]
    have hcut : b.take k = (b.take n).take k := by rw [List.take_take, Nat.min_eq_left h]
    rw [hcut, List.take_append_drop]
  · have hall : b.length ≤ k := by omega
    have hmore : b.length ≤ n := by omega
    rw [List.take_of_length_le hall, List.take_of_length_le hmore]
    simp

/-- The bytes that the next transfer moves when the socket takes up to `room` bytes. -/
def piece (fs : FileSystem) (m : DownloadManager) (room : Nat) : Bytes :=
  ((m.content fs).drop m.offset).take (min room (m.fileSize - m.offset))

theorem send_cases (fs : FileSystem) (m : DownloadManager) (room : Nat) :
    m.hasFinished = true ∧ m.send fs room = (m, [], .ok ()) ∨
    m.hasFinished = false ∧
      (((m.fileSize - m.offset) % 2 ^ 32 = 2 ^ 32 - 1 ∨ m.piece fs room = []) ∧
          m.send fs room = ({ m with offset := m.offset + (m.piece fs room).length }, m.piece fs room, .error .fatal) ∨
        ((m.fileSize - m.offset) % 2 ^ 32 ≠ 2 ^ 32 - 1 ∧ m.piece fs room ≠ []) ∧
          (m.fileSize - (m.offset + (m.piece fs room).length) = 0 ∧ m.send fs room =
              ({ m with token := none, file := none, offset := m.offset + (m.piece fs room).length },
                m.piece fs room, .ok ()) ∨
            m.fileSize - (m.offset + (m.piece fs room).length) ≠ 0 ∧ m.send fs room =
              ({ m with offset := m.offset + (m.piece fs room).length }, m.piece fs room, .ok ()))) := by
  have hsend : m.send fs room = if m.hasFinished = true then (m, [], .ok ())
      else if (m.fileSize - m.offset) % 2 ^ 32 = 2 ^ 32 - 1 then
        ({ m with offset := m.offset + (m.piece fs room).length }, m.piece fs room, .error .fatal)
      else if m.piece fs room = [] then
        ({ m with offset := m.offset + (m.piece fs room).length }, m.piece fs room, .error .fatal)
      else if m.fileSize - (m.offset + (m.piece fs room).length) = 0 then
        ({ m with token := none, file := none, offset := m.offset + (m.piece fs room).length }, m.piece fs room, .ok ())
      else ({ m with offset := m.offset + (m.piece fs room).length }, m.piece fs room, .ok ()) := rfl
  rw [hsend]
  cases hfin : m.hasFinished with
  | true => exact .inl ⟨rfl, rfl⟩
  | false =>
    refine .inr ⟨rfl, ?_⟩
    rw [if_neg Bool.false_ne_true]
    by_cases hcount : (m.fileSize - m.offset) % 2 ^ 32 = 2 ^ 32 - 1
    · rw [if_pos hcount]
      exact .inl ⟨.inl hcount, rfl⟩
    · rw [if_neg hcount]
      by_cases hpiece : m.piece fs room = []
      · rw [if_pos hpiece]
        exact .inl ⟨.inr hpiece, rfl⟩
      · rw [if_neg hpiece]
        refine .inr ⟨⟨hcount, hpiece⟩, ?_⟩
        by_cases hdone : m.fileSize - (m.offset + (m.piece fs room).length) = 0
        · rw [if_pos hdone]
          exact .inl ⟨hdone, rfl⟩
        · rw [if_neg hdone]
          exact .inr ⟨hdone, rfl⟩

theorem piece_append (fs : FileSystem) (m : DownloadManager) (room : Nat) :
    m.piece fs room ++ ((m.content fs).drop (m.offset + (m.piece fs room).length)).take
        (m.fileSize - (m.offset + (m.piece fs room).length)) =
      ((m.content fs).drop m.offset).take (m.fileSize - m.offset) := by
  have hle : min room (m.fileSize - m.offset) ≤ m.fileSize - m.offset := by omega
  have hcut := take_append_take ((m.content fs).drop m.offset) hle
  rw [List.drop_drop] at hcut
  rw [Nat.sub_add_eq]
  exact hcut

theorem send_unsent (fs : FileSystem) (m : DownloadManager) (room : Nat) :
    (m.send fs room).2.1 <+: m.unsent fs ∧
    ((m.send fs room).2.2 = .ok () → (m.send fs room).2.1 ++ (m.send fs room).1.unsent fs = m.unsent fs) := by
  have hcut := piece_append fs m room
  have hpre : m.piece fs room <+: ((m.content fs).drop m.offset).take (m.fileSize - m.offset) := ⟨_, hcut⟩
  rcases send_cases fs m room with ⟨hfin, h⟩ | ⟨hfin, ⟨-, h⟩ | ⟨-, ⟨hdone, h⟩ | ⟨hmore, h⟩⟩⟩
  · rw [h, unsent_of_finished hfin]
    exact ⟨List.prefix_refl _, fun _ => rfl⟩
  · rw [h, unsent_of_not_finished hfin]
    exact ⟨hpre, by simp⟩
  · rw [h, unsent_of_not_finished hfin]
    rw [hdone, List.take_zero, List.append_nil] at hcut
    refine ⟨hpre, fun _ => ?_⟩
    rw [unsent_of_finished rfl, List.append_nil]
    exact hcut
  · rw [h, unsent_of_not_finished hfin]
    refine ⟨hpre, fun _ => ?_⟩
    have hfin' : ({ m with offset := m.offset + (m.piece fs room).length } : DownloadManager).hasFinished = false := hfin
    rw [unsent_of_not_finished hfin']
    exact hcut

theorem startDownload_unsent (hm : m.token = none) (h : m.startDownload fs token = (m', .ok ())) :
    m'.unsent fs = token.bytes fs := by
  unfold startDownload at h
  by_cases hs : token.size > 0
  · rw [if_pos hs] at h
    unfold DownloadToken.bytes FileSystem.readFile
    unfold FileSystem.status at h
    cases hres : fs.resolve token.path with
    | none => simp [hres] at h
    | some k =>
      simp only [hres, Option.bind_some] at h ⊢
      cases hget : fs.get k with
      | none => simp [hget] at h
      | some node =>
        cases node with
        | dir =>
          simp only [hget, Prod.mk.injEq, and_true] at h
          subst m'
          simp [unsent, hasFinished, content, FileSystem.read, hget]
        | file i =>
          simp only [hget, Prod.mk.injEq, and_true] at h
          subst m'
          simp [unsent, hasFinished, content, FileSystem.read, hget]
  · rw [if_neg hs] at h
    obtain ⟨rfl, -⟩ := Prod.mk.inj h
    have hzero : token.size = 0 := by omega
    simp [unsent, hasFinished, hm, DownloadToken.bytes, hzero]

end DownloadManager

def Session.unsent (fs : FileSystem) (s : Session) : Bytes :=
  if s.context.mode = .download then s.downloadManager.unsent fs else []

/-- The outcome of an iteration: the response to the request it executes or cannot read, or the
file bytes of an accepted `dls`. -/
def Iteration.outcome (srv : ServerContext) (others : Surroundings) (it : Iteration) : Option Bytes :=
  match it.delivery with
  | .nothing => none
  | .error .fatal => none
  | .error (.protocol e) => some (Answer.response ⟨e.code, ascii "<interpreter>", [e.what]⟩).data
  | .request r =>
    let done := it.session.executeCommand srv (Client.surroundings others it.session) it.fs r
    match done.answer, done.session.context.mode with
    | some answer, _ => some answer.response.data
    | none, .download => it.session.context.downloadToken.map (DownloadToken.bytes it.fs)
    | none, _ => none

def traceOutcomes (srv : ServerContext) (others : Surroundings) (trace : List Iteration) : List Bytes :=
  trace.filterMap (Iteration.outcome srv others)

namespace Session

variable {srv : ServerContext} {around : Surroundings} {fs : FileSystem} {s : Session} {r : Request}

theorem startUpload_mode (srv : ServerContext) (fs : FileSystem) (s : Session) (answer : Answer) :
    (startUpload srv fs s answer).session.context.mode = s.context.mode := by
  unfold startUpload
  split
  · rfl
  · dsimp only
    split <;> rfl

theorem startDownload_ok {token : DownloadToken} (ht : s.context.downloadToken = some token)
    (hf : (startDownload fs s).fatal = false) :
    ∃ m, s.downloadManager.startDownload fs token = (m, .ok ()) ∧ (startDownload fs s).session =
      { s with context := { s.context with downloadToken := none }, downloadManager := m } := by
  simp only [startDownload, ht] at hf ⊢
  rcases hstart : s.downloadManager.startDownload fs token with ⟨m, e | u⟩
  · simp [hstart] at hf
  · exact ⟨m, rfl, by simp⟩

theorem executeCommand_output (h : s.Coherent) (hm : s.context.mode = .command)
    (hf : (s.executeCommand srv around fs r).fatal = false) :
    (∃ answer, (s.executeCommand srv around fs r).answer = some answer ∧
      (s.executeCommand srv around fs r).session.context.mode ≠ .download) ∨
    ∃ token, (s.executeCommand srv around fs r).answer = none ∧ s.context.downloadToken = some token ∧
      (s.executeCommand srv around fs r).session.context.mode = .download ∧
      (s.executeCommand srv around fs r).fs = fs ∧
      (s.executeCommand srv around fs r).session.downloadManager.unsent fs = token.bytes fs := by
  have hrefused (fs' : FileSystem) (c : ClientContext) (e : Exception) (hc : c.mode = .command)
      (hx : s.executeCommand srv around fs r = refused fs' (s.withContext c) r e) :
      ∃ answer, (s.executeCommand srv around fs r).answer = some answer ∧
        (s.executeCommand srv around fs r).session.context.mode ≠ .download := by
    rw [hx] at hf ⊢
    cases e with
    | fatal => simp [refused] at hf
    | protocol e => exact ⟨_, rfl, by simp [refused, withContext, hc]⟩
  cases hset : CommandExecutor.setCommand s.context r.name with
  | error e => exact .inl (hrefused fs s.context e hm (executeCommand_stopped hset))
  | ok n =>
    cases hparse : CommandExecutor.parseFields srv fs s.context r.fields n with
    | error e => exact .inl (hrefused fs s.context e hm (executeCommand_unparsed hset hparse))
    | ok command =>
      rcases hx : CommandExecutor.execute srv around ⟨fs, s.context⟩ command with ⟨w, e | lines⟩
      · left
        refine hrefused w.fs w.client e ?_ (executeCommand_throws hset hparse hx)
        rcases @CommandExecutor.execute_mode srv around command ⟨fs, s.context⟩ hm with
          hmode | ⟨-, hd⟩ | ⟨w', lines', hu, -⟩
        · rw [hx] at hmode
          exact hmode
        · simp [hx] at hd
        · simp [hx] at hu
      · rcases @CommandExecutor.execute_mode srv around command ⟨fs, s.context⟩ hm with
          hmode | ⟨htoken, hd⟩ | ⟨w', lines', hu, hmode, -⟩
        · rw [hx] at hmode
          have hmode' : (s.withContext w.client).context.mode ≠ .download := by
            intro hh
            rw [show (s.withContext w.client).context.mode = .command from hmode] at hh
            cases hh
          rw [executeCommand_answered hset hparse hx hmode]
          exact .inl ⟨_, rfl, hmode'⟩
        · right
          obtain ⟨token, ht⟩ := Option.ne_none_iff_exists'.mp htoken
          have hdown : s.downloadManager.token = none := h.noDownload (by simp [hm])
          have hexec : s.executeCommand srv around fs r =
              startDownload fs (s.withContext (s.context.setMode .download)) :=
            executeCommand_executed hset hparse hd
          rw [hexec] at hf ⊢
          obtain ⟨m, hstart, hs⟩ := @startDownload_ok fs (s.withContext (s.context.setMode .download)) token ht hf
          refine ⟨token, startDownload_answer _ _, ht, ?_, startDownload_fs _ _, ?_⟩
          · rw [hs]
            rfl
          · rw [hs]
            exact DownloadManager.startDownload_unsent hdown hstart
        · left
          have hmode' : (s.withContext w'.client).context.mode = .upload := hmode
          rw [executeCommand_executed hset hparse hu, accepted, hmode']
          refine ⟨_, startUpload_answer srv w'.fs _ _, ?_⟩
          show (startUpload srv w'.fs (s.withContext w'.client) _).session.context.mode ≠ .download
          rw [startUpload_mode, hmode']
          simp

end Session

variable {srv : ServerContext} {others : Surroundings} {fs : FileSystem}

theorem traceOutcomes_append (t t' : List Iteration) :
    traceOutcomes srv others (t ++ t') = traceOutcomes srv others t ++ traceOutcomes srv others t' :=
  List.filterMap_append

namespace Client

/-- The output that is not sent yet: the queue of the sender, and behind it the download. -/
def pendingOutput (fs : FileSystem) (c : Client) : Bytes := Sender.queued c.responses ++ c.session.unsent fs

variable {c : Client} {trace : List Iteration} {input rest : Bytes} {h : Handling}

theorem queued_response (answer : Answer) : Sender.queued [answer.response] = answer.response.data := by
  simp [Sender.queued, Response.rest, Answer.response, buildResponse]

/-- An iteration adds its outcome to the end of the output. -/
theorem handleOnce_output (hc : c.Coherent trace) (he : handleOnce srv others fs c input = (h, rest))
    (hf : h.fatal = false) :
    h.client.pendingOutput h.fs = c.pendingOutput fs ++ (traceOutcomes srv others h.trace).flatten := by
  cases handleOnce_iterates he with
  | download mode => simp [pendingOutput, traceOutcomes, Iteration.outcome]
  | upload mode handled =>
    obtain ⟨-, hmode⟩ := hc.session.handleUpload mode handled
    simp [pendingOutput, traceOutcomes, Iteration.outcome, Session.unsent, mode, hmode]
  | uploadThrows mode handled | interpreterThrows mode taken => simp at hf
  | waits mode taken => simp [pendingOutput, traceOutcomes, Iteration.outcome]
  | refuses mode taken =>
    have hnone : c.session.unsent fs = [] := by simp [Session.unsent, mode]
    simp only [pendingOutput, addAnswer, Option.map_some, Option.toList_some, Sender.queued_append, queued_response,
      hnone, List.append_nil]
    simp [traceOutcomes, Iteration.outcome]
  | @executes i rest r mode taken =>
    have hnone : c.session.unsent fs = [] := by simp [Session.unsent, mode]
    have hout := @Session.executeCommand_output srv (surroundings others c.session) fs c.session r hc.session mode hf
    rcases hout with ⟨answer, ha, hmode⟩ | ⟨token, ha, htoken, hmode, hfs, hunsent⟩
    · simp only [pendingOutput, addAnswer, ha, Option.map_some, Option.toList_some, Sender.queued_append,
        queued_response, List.append_nil, Session.unsent, hmode, if_false]
      simp [traceOutcomes, Iteration.outcome, ha, mode]
    · simp only [pendingOutput, addAnswer, ha, Option.map_none, Option.toList_none, List.append_nil, hfs,
        Session.unsent, hmode, if_true, hunsent]
      simp [traceOutcomes, Iteration.outcome, ha, hmode, htoken, mode]

def written (fs : FileSystem) (c : Client) (events : SocketEvents) : Bytes :=
  if c.responses ≠ [] then Sender.sent events.accepted c.responses
  else if c.session.context.mode = .download then (c.session.handleDownloadManagerOutput fs events.room).2.1
  else []

theorem handleDownloadManagerOutput_unsent (room : Nat) {s : Session} (hm : s.context.mode = .download) :
    (s.handleDownloadManagerOutput fs room).2.1 <+: s.unsent fs ∧
    ((s.handleDownloadManagerOutput fs room).2.2 = .ok () →
      (s.handleDownloadManagerOutput fs room).2.1 ++ (s.handleDownloadManagerOutput fs room).1.unsent fs =
        s.unsent fs) := by
  obtain ⟨hpre, hcut⟩ := s.downloadManager.send_unsent fs room
  have hunsent : s.unsent fs = s.downloadManager.unsent fs := by rw [Session.unsent, if_pos hm]
  rw [hunsent]
  unfold Session.handleDownloadManagerOutput
  rcases hsend : s.downloadManager.send fs room with ⟨m, sent, e | u⟩
  · rw [hsend] at hpre
    exact ⟨hpre, by simp⟩
  · rw [hsend] at hpre hcut
    refine ⟨hpre, fun _ => ?_⟩
    rw [← hcut rfl]
    cases hfin : m.hasFinished with
    | true => simp [Session.unsent, ClientContext.setMode, DownloadManager.unsent_of_finished hfin]
    | false => simp [Session.unsent, hfin, hm]

theorem handleOutput_written (fs : FileSystem) (c : Client) (events : SocketEvents) :
    c.written fs events <+: c.pendingOutput fs ∧
    ((handleOutput fs c events).2 = false →
      c.written fs events ++ (handleOutput fs c events).1.pendingOutput fs = c.pendingOutput fs) := by
  unfold written handleOutput pendingOutput
  by_cases hresponses : c.responses ≠ []
  · simp only [if_pos hresponses]
    have hcut := Sender.sent_append_queued events.accepted c.responses
    refine ⟨?_, fun _ => ?_⟩
    · rw [← hcut, List.append_assoc]
      exact List.prefix_append _ _
    · rw [← List.append_assoc, hcut]
  · have hempty : c.responses = [] := not_not.mp hresponses
    simp only [if_neg hresponses]
    by_cases hm : c.session.context.mode = .download
    · simp only [if_pos hm]
      obtain ⟨hpre, hcut⟩ := @handleDownloadManagerOutput_unsent fs events.room c.session hm
      rcases hd : c.session.handleDownloadManagerOutput fs events.room with ⟨s, sent, e | u⟩
      · rw [hd] at hpre
        simpa [Sender.queued, hempty] using hpre
      · rw [hd] at hpre hcut
        simpa [Sender.queued, hempty] using ⟨hpre, hcut rfl⟩
    · simp only [if_neg hm]
      simp

def writes (srv : ServerContext) (others : Surroundings) (fs : FileSystem) (c : Client) (events : SocketEvents) : Bytes :=
  let h := handleEvents srv others fs c events
  if h.fatal then [] else if events.output then h.client.written h.fs events else []

/-- How the output half of a call goes on from the input half. -/
theorem handle_writes (srv : ServerContext) (others : Surroundings) (fs : FileSystem) (c : Client)
    (events : SocketEvents) :
    let h := handleEvents srv others fs c events
    h.fatal = true ∧ c.writes srv others fs events = [] ∧ (handle srv others fs c events).client.isAlive = false ∨
    h.fatal = false ∧ c.writes srv others fs events = [] ∧ (handle srv others fs c events).client = h.client ∨
    h.fatal = false ∧ c.writes srv others fs events = h.client.written h.fs events ∧
      ((handle srv others fs c events).client.isAlive = false ∨
        (handleOutput h.fs h.client events).2 = false ∧
          (handle srv others fs c events).client = (handleOutput h.fs h.client events).1) := by
  dsimp only
  unfold handle writes
  generalize handleEvents srv others fs c events = done
  obtain ⟨fs', c', fatal, trace⟩ := done
  cases fatal with
  | true => exact .inl ⟨rfl, rfl, c'.session.isAlive_kill⟩
  | false =>
    cases ho : events.output with
    | false => exact .inr (.inl ⟨rfl, rfl, rfl⟩)
    | true =>
      rcases hout : c'.handleOutput fs' events with ⟨client, e⟩
      refine .inr (.inr ⟨rfl, rfl, ?_⟩)
      cases e with
      | true => exact .inl (by simp [isAlive, hout])
      | false => exact .inr (by simp [hout])

end Client

/-- A connection with the outcomes of its requests and the bytes its socket has taken. -/
structure Exchange where
  connection : Connection
  outcomes : List Bytes
  sent : Bytes

namespace Exchange

def start (fs : FileSystem) : Exchange := ⟨.start fs, [], []⟩

def step (srv : ServerContext) (x : Exchange) (call : Call) : Exchange :=
  let client := x.connection.client
  if client.isAlive then
    ⟨x.connection.step srv call,
      x.outcomes ++ traceOutcomes srv call.others (client.handle srv call.others call.fs call.events).trace,
      x.sent ++ client.writes srv call.others call.fs call.events⟩
  else x

/-- Nobody has changed the file that is being downloaded. -/
def Undisturbed (x : Exchange) (call : Call) : Prop :=
  ∀ i ∈ x.connection.client.session.downloadManager.file, call.fs.contents i = x.connection.fs.contents i

/-- All outcomes are sent, or are still to be sent. -/
structure Accounted (x : Exchange) : Prop where
  coherent : x.connection.client.Coherent x.connection.trace
  ready : x.connection.client.Ready
  ledger : x.sent ++ x.connection.client.pendingOutput x.connection.fs = x.outcomes.flatten

variable {x : Exchange} {call : Call}

theorem Undisturbed.pendingOutput (h : x.Undisturbed call) :
    x.connection.client.pendingOutput call.fs = x.connection.client.pendingOutput x.connection.fs := by
  have hcontent : x.connection.client.session.downloadManager.content call.fs =
      x.connection.client.session.downloadManager.content x.connection.fs := by
    unfold DownloadManager.content
    cases hf : x.connection.client.session.downloadManager.file with
    | none => rfl
    | some i => exact h i hf
  simp only [Client.pendingOutput, Session.unsent, DownloadManager.unsent, hcontent]

theorem handleEvents_output (h : x.Accounted) (hu : x.Undisturbed call)
    (hf : (x.connection.client.handleEvents srv call.others call.fs call.events).fatal = false) :
    (x.connection.client.handleEvents srv call.others call.fs call.events).client.pendingOutput
        (x.connection.client.handleEvents srv call.others call.fs call.events).fs =
      x.connection.client.pendingOutput x.connection.fs ++ (traceOutcomes srv call.others
        (x.connection.client.handleEvents srv call.others call.fs call.events).trace).flatten := by
  rw [← hu.pendingOutput]
  rcases Client.handleEvents_ends x.connection.trace h.ready with
    ⟨-, hfs, hclient, hnone⟩ | ⟨input, l, last, rest, -, hreach, honce, -, htrace, hfs, hfatal, pending, hclient⟩
  · rw [hclient, hfs, hnone]
    simp [traceOutcomes]
  · obtain ⟨hl, -, t, ht, hout⟩ : l.client.Coherent l.trace ∧ l.client.Ready ∧ ∃ t, l.trace = x.connection.trace ++ t ∧
        l.client.pendingOutput l.fs =
          x.connection.client.pendingOutput call.fs ++ (traceOutcomes srv call.others t).flatten := by
      refine hreach.invariant (I := fun l => l.client.Coherent l.trace ∧ l.client.Ready ∧
        ∃ t, l.trace = x.connection.trace ++ t ∧ l.client.pendingOutput l.fs =
          x.connection.client.pendingOutput call.fs ++ (traceOutcomes srv call.others t).flatten)
        ⟨h.coherent, h.ready, [], by simp, by simp [traceOutcomes]⟩ ?_
      intro l done rest ⟨hl, hready, t, ht, hout⟩ honce hf
      refine ⟨Client.handleOnce_coherent hl hready honce hf, (Client.handleOnce_advances hready honce hf).ready,
        t ++ done.trace, by simp [Loop.after, ht], ?_⟩
      have hmore := Client.handleOnce_output hl honce hf
      simp only [Loop.after]
      rw [hmore, hout, traceOutcomes_append, List.flatten_append, List.append_assoc]
    rw [hfatal] at hf
    have hmore := Client.handleOnce_output hl honce hf
    have hsame : (x.connection.client.handleEvents srv call.others call.fs call.events).trace = t ++ last.trace := by
      have hh := htrace.trans (by rw [ht, List.append_assoc])
      exact List.append_cancel_left hh
    have hpending : ({ last.client with pendingInput := pending } : Client).pendingOutput last.fs =
        last.client.pendingOutput last.fs := rfl
    rw [hclient, hfs, hsame, hpending, hmore, hout, traceOutcomes_append, List.flatten_append, List.append_assoc]

/-- A call keeps what is sent a beginning of the outcomes, and nothing is lost while the client is
alive. -/
theorem step_accounted (h : x.Accounted) (hu : x.Undisturbed call) (hx : x.connection.client.isAlive = true) :
    (x.step srv call).sent <+: (x.step srv call).outcomes.flatten ∧
    ((x.step srv call).connection.client.isAlive = true → (x.step srv call).Accounted) := by
  obtain ⟨hfs, htrace, -⟩ := Client.handle_cases srv call.others call.fs x.connection.client call.events
  have hpre : x.sent <+: x.outcomes.flatten := ⟨_, h.ledger⟩
  have hstep : x.step srv call =
      ⟨⟨(x.connection.client.handle srv call.others call.fs call.events).fs,
          (x.connection.client.handle srv call.others call.fs call.events).client,
          x.connection.received ++ x.connection.receives call,
          x.connection.trace ++ (x.connection.client.handle srv call.others call.fs call.events).trace⟩,
        x.outcomes ++ traceOutcomes srv call.others (x.connection.client.handle srv call.others call.fs call.events).trace,
        x.sent ++ x.connection.client.writes srv call.others call.fs call.events⟩ := by
    simp [step, Connection.step, hx]
  have hkept (halive : (x.connection.client.handle srv call.others call.fs call.events).client.isAlive = true) :
      (x.step srv call).connection.client.Coherent (x.step srv call).connection.trace ∧
        (x.step srv call).connection.client.Ready := by
    have hstays := Connection.step_coherent h.coherent h.ready (show Connection.Handles srv x.connection call from fun _ => Client.handle_alive halive)
    simpa only [step, hx, if_true] using hstays
  rcases Client.handle_writes srv call.others call.fs x.connection.client call.events with
    ⟨-, hw, hdead⟩ | ⟨hf, hw, hclient⟩ | ⟨hf, hw, hout⟩
  · rw [hstep]
    refine ⟨?_, fun halive => by simp [hdead] at halive⟩
    rw [hw, List.append_nil, List.flatten_append]
    exact hpre.trans (List.prefix_append _ _)
  · have houtput := handleEvents_output h hu hf
    have hledger : x.sent ++ x.connection.client.writes srv call.others call.fs call.events ++
        (x.connection.client.handle srv call.others call.fs call.events).client.pendingOutput
          (x.connection.client.handle srv call.others call.fs call.events).fs =
        (x.outcomes ++ traceOutcomes srv call.others
          (x.connection.client.handle srv call.others call.fs call.events).trace).flatten := by
      rw [hw, hclient, hfs, htrace, houtput, List.flatten_append, ← h.ledger]
      simp
    rw [hstep] at hkept ⊢
    exact ⟨⟨_, hledger⟩, fun halive => ⟨(hkept halive).1, (hkept halive).2, hledger⟩⟩
  · have houtput := handleEvents_output h hu hf
    obtain ⟨hbegin, hcut⟩ := Client.handleOutput_written
      (x.connection.client.handleEvents srv call.others call.fs call.events).fs
      (x.connection.client.handleEvents srv call.others call.fs call.events).client call.events
    rw [← hw] at hbegin hcut
    rw [houtput] at hbegin hcut
    have hall : (x.outcomes ++ traceOutcomes srv call.others
          (x.connection.client.handle srv call.others call.fs call.events).trace).flatten =
        x.sent ++ (x.connection.client.pendingOutput x.connection.fs ++ (traceOutcomes srv call.others
          (x.connection.client.handleEvents srv call.others call.fs call.events).trace).flatten) := by
      rw [htrace, List.flatten_append, ← h.ledger, List.append_assoc]
    rw [hstep] at hkept ⊢
    dsimp only at hkept ⊢
    rw [hall]
    refine ⟨(List.prefix_append_right_inj x.sent).mpr hbegin, fun halive => ?_⟩
    rcases hout with hdead | ⟨hok, hclient⟩
    · simp [hdead] at halive
    · refine ⟨(hkept halive).1, (hkept halive).2, ?_⟩
      dsimp only
      rw [hall, List.append_assoc, hfs, hclient, hcut hok]

/-- As long as nobody changes a file while it is downloaded, the bytes that the socket has taken
are the beginning of the outcomes of all requests, in their order. -/
theorem sent_prefix_outcomes (h : Runs.Reaches (step srv) Undisturbed (start fs) x) :
    x.sent <+: x.outcomes.flatten := by
  have hinv : x.sent <+: x.outcomes.flatten ∧ (x.connection.client.isAlive = true → x.Accounted) := by
    refine h.invariant
      (I := fun x => x.sent <+: x.outcomes.flatten ∧ (x.connection.client.isAlive = true → x.Accounted))
      ⟨List.prefix_refl _, fun _ => ⟨Client.coherent_new, Client.ready_new, rfl⟩⟩ (fun y call hy hu => ?_)
    by_cases hx : y.connection.client.isAlive = true
    · exact step_accounted (hy.2 hx) hu hx
    · have hsame : y.step srv call = y := by simp [step, hx]
      rw [hsame]
      exact hy
  exact hinv.1

end Exchange

namespace Sample

def threeBytes : FileSystem := ⟨tree [([ascii "r", ascii "x"], .file 0)], [ascii "abc"]⟩

/-- A client logs in, asks for `x` behind its first byte and downloads it. The socket takes the
output in small pieces. -/
def downloading : List Call :=
  [call threeBytes (some "auth\nlogin:u\npasswd:pw\n\ndl\nname:x\noffset:1\n\ndls\n\n") [4],
    call threeBytes none [7, 100, 3], call threeBytes none [2, 3, 9], call threeBytes none [1]]

end Sample

namespace Exchange

instance (x : Exchange) (call : Call) : Decidable (Undisturbed x call) :=
  match hf : x.connection.client.session.downloadManager.file with
  | none => .isTrue (by simp [Undisturbed, hf])
  | some i => decidable_of_iff (call.fs.contents i = x.connection.fs.contents i) (by simp [Undisturbed, hf])

theorem sent_prefix_outcomes_download :
    let x := Runs.run (step Sample.server) (start Sample.threeBytes) Sample.downloading
    x.sent = ascii "100 auth\n\n100 dl\n2\n\nbc" ∧ x.sent <+: x.outcomes.flatten :=
  ⟨by decide +kernel, sent_prefix_outcomes
    (Runs.AllMeet.reaches ⟨by decide +kernel, by decide +kernel, by decide +kernel, by decide +kernel, trivial⟩)⟩

end Exchange

end TinDox
