import TinDox.Replies

/-! A download from `dl` to its last byte. The manager decides by the size of the file whether
there is anything to send, but by the bytes that are left whether it is done: a download that
starts at the end of a file that is not empty throws, and so does a transfer whose remaining count
reads as -1 when it is cut to an `int`. -/

namespace TinDox

variable {srv : ServerContext} {around around' : Surroundings} {fs : FileSystem} {s : Session}

theorem ServerContext.downloadFile_token {path : Path} {token : DownloadToken} {b : Bytes}
    (h : srv.downloadFile fs path = .ok token) (hb : fs.readFile path = some b) : token = ⟨path, b.length, 0⟩ := by
  unfold ServerContext.downloadFile at h
  split at h
  · split at h
    · rename_i b' hread
      rw [hb] at hread
      cases hread
      exact (Except.ok.inj h).symm
    · simp at h
  · simp at h

namespace Session

/-- The output half of `handle`, call after call, while the client downloads and nothing else is
queued; the socket takes up to `room` bytes in each of them. -/
def transfer (fs : FileSystem) : List Nat → Session → Session × Bytes
  | [], s => (s, [])
  | room :: rooms, s =>
    if s.context.mode = .download ∧ s.context.isAlive = true then
      match s.handleDownloadManagerOutput fs room with
      | (s, sent, .ok ()) => ((transfer fs rooms s).1, sent ++ (transfer fs rooms s).2)
      | (s, sent, .error _) => (s.kill, sent)
    else (s, [])

theorem transfer_cons {room : Nat} (rooms : List Nat) (h : s.context.mode = .download ∧ s.context.isAlive = true) :
    transfer fs (room :: rooms) s =
      ((transfer fs rooms (transfer fs [room] s).1).1,
        (transfer fs [room] s).2 ++ (transfer fs rooms (transfer fs [room] s).1).2) := by
  rw [transfer, transfer, if_pos h, if_pos h]
  rcases s.handleDownloadManagerOutput fs room with ⟨s', sent, e | u⟩
  · cases rooms <;> simp [transfer]
  · simp [transfer]

end Session

namespace Client

/-- Calls of `handle` while the client downloads, and all that they write. -/
def outputs (srv : ServerContext) (around : Surroundings) (fs : FileSystem) : List SocketEvents → Client → Client × Bytes
  | [], c => (c, [])
  | events :: later, c =>
    if c.session.context.mode = .download ∧ c.isAlive = true then
      let done := outputs srv around fs later (c.handle srv around fs events).client
      (done.1, c.writes srv around fs events ++ done.2)
    else (c, [])

/-- The socket can be written to, and there is nothing to read from it. -/
def WritableOnly (events : SocketEvents) : Prop := events.input = false ∧ events.output = true

/-- A call of `handle` with nothing else to do is a step of the transfer. -/
theorem handle_transfer {c : Client} {events : SocketEvents} (hp : c.pendingInput = []) (hr : c.responses = [])
    (hevents : WritableOnly events) (hm : c.session.context.mode = .download) (halive : c.isAlive = true) :
    (c.handle srv around fs events).client = { c with session := (Session.transfer fs [events.room] c.session).1 } ∧
    c.writes srv around fs events = (Session.transfer fs [events.room] c.session).2 := by
  obtain ⟨hin, hout⟩ := hevents
  have halive : c.session.context.isAlive = true := halive
  have hevents : c.handleEvents srv around fs events = ⟨fs, c, false, []⟩ := by
    simp [Client.handleEvents, hp, hin]
  rcases hsend : c.session.handleDownloadManagerOutput fs events.room with ⟨s, sent, e | u⟩
  · have houtput : c.handleOutput fs events = ({ c with session := s }, true) := by
      simp [Client.handleOutput, hr, hm, hsend]
    simp [Client.handle, Client.writes, Client.written, Session.transfer, hevents, houtput, hsend, hout, hr, hm, halive]
  · have houtput : c.handleOutput fs events = ({ c with session := s }, false) := by
      simp [Client.handleOutput, hr, hm, hsend]
    simp [Client.handle, Client.writes, Client.written, Session.transfer, hevents, houtput, hsend, hout, hr, hm, halive]

/-- Call after call, with nothing else to do, the client does what the transfer does. -/
theorem outputs_transfer {c : Client} (hp : c.pendingInput = []) (hr : c.responses = []) {events : List SocketEvents}
    (hevents : ∀ e ∈ events, WritableOnly e) :
    (c.outputs srv around fs events).1.session = (Session.transfer fs (events.map (·.room)) c.session).1 ∧
    (c.outputs srv around fs events).2 = (Session.transfer fs (events.map (·.room)) c.session).2 := by
  induction events generalizing c with
  | nil => exact ⟨rfl, rfl⟩
  | cons e events ih =>
    obtain ⟨he, hevents⟩ := List.forall_mem_cons.mp hevents
    rw [outputs, List.map_cons]
    by_cases h : c.session.context.mode = .download ∧ c.isAlive = true
    · obtain ⟨hclient, hwrites⟩ := @handle_transfer srv around fs c e hp hr he h.1 h.2
      obtain ⟨hsession, hsent⟩ := @ih { c with session := (Session.transfer fs [e.room] c.session).1 } hp hr hevents
      rw [if_pos h, Session.transfer_cons _ h, hclient, hwrites]
      exact ⟨hsession, congrArg _ hsent⟩
    · have hidle : ¬ (c.session.context.mode = .download ∧ c.session.context.isAlive = true) := h
      rw [if_neg h, Session.transfer, if_neg hidle]
      exact ⟨rfl, rfl⟩

end Client

namespace Session

/-- No transfer starts with a remaining count that an `int` takes for -1. -/
def CountsFit : Nat → List Nat → Prop
  | _, [] => True
  | left, room :: rooms => left % 2 ^ 32 ≠ 2 ^ 32 - 1 ∧ (room < left → CountsFit (left - room) rooms)

theorem transfer_idle (rooms : List Nat) (h : s.context.mode ≠ .download) : transfer fs rooms s = (s, []) := by
  cases rooms with
  | nil => rfl
  | cons room rooms => simp [transfer, h]

/-- What one call does to a download with bytes left: it fails on the count, sends the rest, or sends
as much as the socket takes. -/
theorem handleDownloadManagerOutput_sends {token : DownloadToken} {i offset room : Nat} {b : Bytes}
    (hmgr : s.downloadManager = ⟨some token, some i, offset, b.length⟩) (hb : fs.contents i = b)
    (ho : offset < b.length) (hroom : 0 < room) :
    (b.length - offset) % 2 ^ 32 = 2 ^ 32 - 1 ∧
      (∃ s' sent, s.handleDownloadManagerOutput fs room = (s', sent, .error .fatal)) ∨
    (b.length - offset) % 2 ^ 32 ≠ 2 ^ 32 - 1 ∧
      (¬ room < b.length - offset ∧ (∃ m, s.handleDownloadManagerOutput fs room =
          ({ s with downloadManager := m, context := s.context.setMode .command }, b.drop offset, .ok ())) ∨
        room < b.length - offset ∧ s.handleDownloadManagerOutput fs room =
          ({ s with downloadManager := ⟨some token, some i, offset + room, b.length⟩ }, (b.drop offset).take room,
            .ok ())) := by
  have hpiece : s.downloadManager.piece fs room = (b.drop offset).take (min room (b.length - offset)) := by
    simp only [hmgr, DownloadManager.piece, DownloadManager.content, hb]
  have hlen : (s.downloadManager.piece fs room).length = min room (b.length - offset) := by
    rw [hpiece, List.length_take, List.length_drop]
    omega
  have hleft : s.downloadManager.fileSize - s.downloadManager.offset = b.length - offset := by rw [hmgr]
  have hstart : s.downloadManager.offset = offset := by rw [hmgr]
  have hsize : s.downloadManager.fileSize = b.length := by rw [hmgr]
  unfold handleDownloadManagerOutput
  rcases s.downloadManager.send_cases fs room with
    ⟨hfin, -⟩ | ⟨-, ⟨hbad, hsend⟩ | ⟨⟨hfits, -⟩, ⟨hdone, hsend⟩ | ⟨hmore, hsend⟩⟩⟩
  · simp [hmgr, DownloadManager.hasFinished] at hfin
  · have hcount : (b.length - offset) % 2 ^ 32 = 2 ^ 32 - 1 := by
      rcases hbad with hbad | hbad
      · rwa [hleft] at hbad
      · rw [hbad, List.length_nil] at hlen
        omega
    rw [hsend]
    exact .inl ⟨hcount, _, _, rfl⟩
  · rw [hleft] at hfits
    have hsent : s.downloadManager.piece fs room = b.drop offset := by
      rw [hpiece, List.take_of_length_le]
      rw [List.length_drop]
      omega
    rw [hsend, hsent]
    refine .inr ⟨hfits, .inl ⟨by omega, _, rfl⟩⟩
  · rw [hleft] at hfits
    have hsome : room < b.length - offset := by omega
    have hmin : min room (b.length - offset) = room := by omega
    rw [hmin] at hpiece hlen
    rw [hsend, hlen, hpiece, hmgr]
    exact .inr ⟨hfits, .inr ⟨hsome, rfl⟩⟩

/-- A download with bytes left sends all of them, in whatever pieces the socket takes them,
exactly when the counts fit. -/
theorem transfer_iff {token : DownloadToken} {i offset : Nat} {b : Bytes} {rooms : List Nat}
    (hm : s.context.mode = .download) (halive : s.context.isAlive = true)
    (hmgr : s.downloadManager = ⟨some token, some i, offset, b.length⟩) (hb : fs.contents i = b)
    (ho : offset < b.length) (hpos : ∀ room ∈ rooms, 0 < room) (hsum : b.length - offset ≤ rooms.sum) :
    (transfer fs rooms s).2 = b.drop offset ∧ (transfer fs rooms s).1.context.isAlive = true ∧
        (transfer fs rooms s).1.context.mode = .command ↔
      CountsFit (b.length - offset) rooms := by
  induction rooms generalizing s offset with
  | nil =>
    rw [List.sum_nil] at hsum
    omega
  | cons room rooms ih =>
    rw [transfer, if_pos ⟨hm, halive⟩, CountsFit]
    rcases handleDownloadManagerOutput_sends hmgr hb ho (hpos room (by simp)) with
      ⟨hcount, s', sent, hsend⟩ | ⟨hfits, ⟨hall, m, hsend⟩ | ⟨hsome, hsend⟩⟩
    · rw [hsend]
      refine iff_of_false (fun hh => ?_) (fun hh => hh.1 hcount)
      simp at hh
    · rw [hsend]
      dsimp only
      rw [transfer_idle rooms (by simp [ClientContext.setMode])]
      refine iff_of_true ?_ ⟨hfits, fun hh => absurd hh hall⟩
      simp [halive]
    · rw [hsend]
      have hnext := @ih { s with downloadManager := ⟨some token, some i, offset + room, b.length⟩ }
        (offset + room) hm halive rfl (by omega) (fun r hr => hpos r (by simp [hr]))
        (by rw [List.sum_cons] at hsum; omega)
      rw [Nat.sub_add_eq] at hnext
      simp only [hfits, ne_eq, not_false_eq_true, hsome, forall_const, true_and, ← hnext]
      have hcut : b.drop offset = (b.drop offset).take room ++ b.drop (offset + room) := by
        rw [← List.drop_drop, List.take_append_drop]
      generalize (b.drop offset).take room = piece at hcut ⊢
      rw [hcut, List.append_cancel_left_eq]

/-- Whatever the socket takes and however the transfer ends, the client sees a beginning of what is
left of the file. -/
theorem transfer_prefix (rooms : List Nat) (s : Session) :
    (transfer fs rooms s).2 <+: (s.downloadManager.content fs).drop s.downloadManager.offset := by
  induction rooms generalizing s with
  | nil => exact List.nil_prefix
  | cons room rooms ih =>
    rw [transfer]
    split
    · have hpiece : s.downloadManager.piece fs room <+: (s.downloadManager.content fs).drop s.downloadManager.offset :=
        List.take_prefix _ _
      unfold handleDownloadManagerOutput
      rcases s.downloadManager.send_cases fs room with
        ⟨hfin, hsend⟩ | ⟨hfin, ⟨-, hsend⟩ | ⟨-, ⟨-, hsend⟩ | ⟨-, hsend⟩⟩⟩
      · rw [hsend]
        simp [hfin, transfer_idle, ClientContext.setMode]
      · rw [hsend]
        exact hpiece
      · rw [hsend]
        simpa [DownloadManager.hasFinished, transfer_idle, ClientContext.setMode] using hpiece
      · have hrest := ih { s with downloadManager := { s.downloadManager with
          offset := s.downloadManager.offset + (s.downloadManager.piece fs room).length } }
        obtain ⟨tail, htail⟩ := hpiece
        have hcut : (s.downloadManager.content fs).drop
            (s.downloadManager.offset + (s.downloadManager.piece fs room).length) = tail := by
          rw [← List.drop_drop, ← htail, List.drop_left]
        have hcontinue : ({ s.downloadManager with
            offset := s.downloadManager.offset + (s.downloadManager.piece fs room).length } :
              DownloadManager).hasFinished = false := hfin
        have hcontent : ({ s.downloadManager with
            offset := s.downloadManager.offset + (s.downloadManager.piece fs room).length } :
              DownloadManager).content fs = s.downloadManager.content fs := rfl
        rw [hsend]
        simp only [hcontinue, Bool.false_eq_true, if_false]
        rw [hcontent, hcut] at hrest
        rw [← htail]
        exact (List.prefix_append_right_inj _).mpr hrest
    · exact List.nil_prefix

theorem transfer_finished {room : Nat} {rooms : List Nat} (hm : s.context.mode = .download)
    (halive : s.context.isAlive = true) (hfin : s.downloadManager.token = none) :
    transfer fs (room :: rooms) s = ({ s with context := s.context.setMode .command }, []) := by
  have hfin' : s.downloadManager.hasFinished = true := by simp [DownloadManager.hasFinished, hfin]
  have hout : s.handleDownloadManagerOutput fs room = ({ s with context := s.context.setMode .command }, [], .ok ()) := by
    simp [handleDownloadManagerOutput, DownloadManager.send, hfin']
  rw [transfer, if_pos ⟨hm, halive⟩, hout]
  dsimp only
  rw [transfer_idle rooms (by simp [ClientContext.setMode])]
  rfl

theorem transfer_nothing (rooms : List Nat) (hfin : s.downloadManager.token = none) : (transfer fs rooms s).2 = [] := by
  cases rooms with
  | nil => rfl
  | cons room rooms =>
    by_cases h : s.context.mode = .download ∧ s.context.isAlive = true
    · rw [transfer_finished h.1 h.2 hfin]
    · rw [transfer, if_neg h]

theorem transfer_at_end {token : DownloadToken} {i : Nat} {b : Bytes} {room : Nat} {rooms : List Nat}
    (hm : s.context.mode = .download) (halive : s.context.isAlive = true)
    (hmgr : s.downloadManager = ⟨some token, some i, b.length, b.length⟩) (hb : fs.contents i = b) :
    (transfer fs (room :: rooms) s).1.context.isAlive = false := by
  have hpiece : s.downloadManager.piece fs room = [] := by
    simp [hmgr, DownloadManager.piece, DownloadManager.content, hb]
  rw [transfer, if_pos ⟨hm, halive⟩]
  unfold handleDownloadManagerOutput
  rcases s.downloadManager.send_cases fs room with ⟨hfin, -⟩ | ⟨-, ⟨-, hsend⟩ | ⟨⟨-, hmoved⟩, -⟩⟩
  · simp [hmgr, DownloadManager.hasFinished] at hfin
  · rw [hsend]
    exact isAlive_kill _
  · exact absurd hpiece hmoved

/-- A request for the bytes of a file `b` from `offset` on, which `dl` accepts. -/
structure AcceptsDl (srv : ServerContext) (fs : FileSystem) (s : Session) (r : Request) (b : Bytes)
    (offset : Nat) : Prop where
  allowed : CommandExecutor.setCommand s.context r.name = .ok .dl
  accepted : ∃ cur name w lines, s.context.currentPathLock = some cur ∧ fs.readFile (cur / name) = some b ∧
    Dl.parseFields fs s.context r.fields = .ok (.dl name offset) ∧
    Dl.execute srv ⟨fs, s.context⟩ name offset = (w, .ok lines)

/-- `dl` announces what is left of the file, `dls` sends it in the calls of `handle` that come with so
much room, and the client is back in command mode. -/
def Delivered (srv : ServerContext) (around around' : Surroundings) (fs : FileSystem) (s : Session)
    (r : Request) (fields : List Field) (b : Bytes) (offset : Nat) (rooms : List Nat) : Prop :=
  let asked := s.executeCommand srv around fs r
  let started := asked.session.executeCommand srv around' fs ⟨ascii "dls", fields⟩
  asked.answer = some ⟨.ok, r.name, [decimal (b.length - offset)]⟩ ∧
    ∀ (c : Client) (events : List SocketEvents), c.session = started.session → c.pendingInput = [] → c.responses = [] →
      (∀ e ∈ events, Client.WritableOnly e) → events.map (·.room) = rooms →
      let done := c.outputs srv around' fs events
      done.2 = b.drop offset ∧ done.1.isAlive = true ∧ done.1.session.context.mode = .command

variable {r : Request} {b : Bytes} {offset : Nat}

theorem delivered_iff_transfer {fields : List Field} {rooms : List Nat} :
    let asked := s.executeCommand srv around fs r
    let done := transfer fs rooms (asked.session.executeCommand srv around' fs ⟨ascii "dls", fields⟩).session
    Delivered srv around around' fs s r fields b offset rooms ↔
      asked.answer = some ⟨.ok, r.name, [decimal (b.length - offset)]⟩ ∧ done.2 = b.drop offset ∧
        done.1.context.isAlive = true ∧ done.1.context.mode = .command := by
  intro asked done
  refine and_congr_right fun _ => ⟨fun h => ?_, ?_⟩
  · let events : List SocketEvents := rooms.map fun room => ⟨false, true, none, [], false, room⟩
    have hevents : ∀ e ∈ events, Client.WritableOnly e := by
      intro e he
      obtain ⟨room, -, rfl⟩ := List.mem_map.mp he
      exact ⟨rfl, rfl⟩
    have hrooms : events.map (·.room) = rooms := by
      rw [List.map_map]
      exact List.map_id rooms
    let c : Client := { Client.new with session := (asked.session.executeCommand srv around' fs ⟨ascii "dls", fields⟩).session }
    obtain ⟨hsession, hsent⟩ := @Client.outputs_transfer srv around' fs c rfl rfl events hevents
    obtain ⟨hbytes, halive, hmode⟩ := h c events rfl rfl rfl hevents hrooms
    rw [hrooms] at hsession hsent
    rw [Client.isAlive] at halive
    exact ⟨hsent.symm.trans hbytes, hsession ▸ halive, hsession ▸ hmode⟩
  · rintro ⟨hbytes, halive, hmode⟩ c events hc hp hr hevents rfl
    obtain ⟨hsession, hsent⟩ := @Client.outputs_transfer srv around' fs c hp hr events hevents
    rw [hc] at hsession hsent
    refine ⟨hsent.trans hbytes, ?_, hsession ▸ hmode⟩
    rw [Client.isAlive, hsession]
    exact halive

theorem AcceptsDl.executed (h : AcceptsDl srv fs s r b offset) (hm : s.context.mode = .command) :
    offset ≤ b.length ∧ ∃ path, fs.readFile path = some b ∧ s.executeCommand srv around fs r =
      ⟨fs, s.withContext { s.context with downloadToken := some ⟨path, b.length, offset⟩ },
        some ⟨.ok, r.name, [decimal (b.length - offset)]⟩, false⟩ := by
  obtain ⟨hset, cur, name, w, lines, hcur, hb, hparse, hx⟩ := h
  rcases Dl.execute_cases srv ⟨fs, s.context⟩ name offset with ⟨e, he⟩ | ⟨cur', token, hcur', hd, ho, he⟩
  · simp [hx] at he
  · obtain rfl := Option.some.inj (hcur.symm.trans hcur')
    obtain rfl := ServerContext.downloadFile_token hd hb
    refine ⟨ho, cur / name, hb, ?_⟩
    exact executeCommand_answered hset (show CommandExecutor.parseFields srv fs s.context r.fields .dl = _ from hparse) he hm

theorem setCommand_dls {c : ClientContext} {name : Bytes} (h : CommandExecutor.setCommand c name = .ok .dl) :
    CommandExecutor.setCommand c (ascii "dls") = .ok .dls := by
  obtain ⟨hname, hauth⟩ := CommandExecutor.setCommand_ok h
  obtain ⟨token, ht⟩ := Option.isSome_iff_exists.mp (hauth rfl)
  have hdl : CommandName.ofBytes name = some .dl := by rw [hname]; decide
  have hdls : CommandName.ofBytes (ascii "dls") = some .dls := by decide
  simp only [CommandExecutor.setCommand, hdl, ClientContext.isAuthorized, ht] at h
  simp only [CommandExecutor.setCommand, hdls, ClientContext.isAuthorized, ht]
  by_cases hp : Permissions.download &&& token.perms = Permissions.download
  · simp [CommandName.requiredPerms, CommandName.requiresAuthorization, hp]
  · simp [CommandName.requiredPerms, CommandName.requiresAuthorization, hp] at h

theorem startDownload_of_readFile {path : Path} (m : DownloadManager) (h : fs.readFile path = some b)
    (hb : 0 < b.length) (offset : Nat) :
    ∃ i, fs.contents i = b ∧ m.startDownload fs ⟨path, b.length, offset⟩ =
      (⟨some ⟨path, b.length, offset⟩, some i, offset, b.length⟩, .ok ()) := by
  obtain ⟨k, hk, hread⟩ := Option.bind_eq_some_iff.mp h
  unfold FileSystem.read at hread
  split at hread
  · rename_i i hget
    refine ⟨i, Option.some.inj hread, ?_⟩
    simp [DownloadManager.startDownload, hb, FileSystem.status, hk, hget]
  · simp at hread

theorem AcceptsDl.started (h : AcceptsDl srv fs s r b offset) (hm : s.context.mode = .command) (fields : List Field) :
    ∃ path s', fs.readFile path = some b ∧ s'.context.mode = .download ∧ s'.context.isAlive = s.context.isAlive ∧
      s'.downloadManager = (s.downloadManager.startDownload fs ⟨path, b.length, offset⟩).1 ∧
      (s.executeCommand srv around fs r).answer = some ⟨.ok, r.name, [decimal (b.length - offset)]⟩ ∧
      ((s.executeCommand srv around fs r).session.executeCommand srv around' fs ⟨ascii "dls", fields⟩).fs = fs ∧
      ((s.executeCommand srv around fs r).session.executeCommand srv around' fs ⟨ascii "dls", fields⟩).answer = none ∧
      ((s.executeCommand srv around fs r).session.executeCommand srv around' fs ⟨ascii "dls", fields⟩).session = s' := by
  obtain ⟨-, path, hpath, hasked⟩ := h.executed hm
  let asked : Session := s.withContext { s.context with downloadToken := some ⟨path, b.length, offset⟩ }
  have hset : CommandExecutor.setCommand asked.context (ascii "dls") = .ok .dls := setCommand_dls h.allowed
  have hdls : CommandExecutor.execute srv around' ⟨fs, asked.context⟩ .dls =
      (⟨fs, asked.context.setMode .download⟩, .ok []) := rfl
  have hexec : (asked.executeCommand srv around' fs ⟨ascii "dls", fields⟩) =
      startDownload fs (asked.withContext (asked.context.setMode .download)) :=
    executeCommand_executed (r := ⟨ascii "dls", fields⟩) hset rfl hdls
  have hstart := @startDownload_session fs (asked.withContext (asked.context.setMode .download))
    ⟨path, b.length, offset⟩ rfl
  have hsecond : (s.executeCommand srv around fs r).session.executeCommand srv around' fs ⟨ascii "dls", fields⟩ =
      asked.executeCommand srv around' fs ⟨ascii "dls", fields⟩ := by rw [hasked]
  rw [hsecond, hexec, hstart]
  exact ⟨path, ⟨{ s.context with downloadToken := none, mode := .download },
    (s.downloadManager.startDownload fs ⟨path, b.length, offset⟩).1, s.uploadManager⟩, hpath, rfl, rfl, rfl,
    by rw [hasked], startDownload_fs fs _, startDownload_answer fs _, rfl⟩

/-- A download that `dl` has accepted delivers what it announces exactly when the file is empty, or
there is something left of it and no remaining count is mistaken for an error. -/
theorem delivered_iff (hc : s.Coherent) (hm : s.context.mode = .command) (halive : s.context.isAlive = true)
    (h : AcceptsDl srv fs s r b offset) (fields : List Field) {rooms : List Nat} (hne : rooms ≠ [])
    (hpos : ∀ room ∈ rooms, 0 < room) (hsum : b.length - offset ≤ rooms.sum) :
    Delivered srv around around' fs s r fields b offset rooms ↔
      b.length = 0 ∨ offset < b.length ∧ CountsFit (b.length - offset) rooms := by
  obtain ⟨path, s', hpath, hm', halive', hmgr, hanswer, -, -, hs⟩ :=
    @AcceptsDl.started srv around around' fs s r b offset h hm fields
  have ho := (@AcceptsDl.executed srv around fs s r b offset h hm).1
  obtain ⟨room, rooms, rfl⟩ := List.exists_cons_of_ne_nil hne
  rw [halive] at halive'
  simp only [delivered_iff_transfer, hanswer, hs, true_and]
  by_cases hzero : b.length = 0
  · have hempty : b = [] := List.eq_nil_of_length_eq_zero hzero
    have hdown : s'.downloadManager.token = none := by
      rw [hmgr, DownloadManager.startDownload, if_neg (by simp [hzero])]
      exact hc.noDownload (by simp [hm])
    rw [transfer_finished hm' halive' hdown]
    simp [hempty, halive']
  · obtain ⟨i, hi, hstart⟩ := startDownload_of_readFile s.downloadManager hpath (by omega) offset
    rw [hstart] at hmgr
    by_cases hend : offset = b.length
    · subst offset
      simp [transfer_at_end hm' halive' hmgr hi, hzero]
    · have hlt : offset < b.length := by omega
      rw [transfer_iff hm' halive' hmgr hi hlt hpos hsum]
      simp [hzero, hlt]

end Session

namespace Sample

def dl (offset : Nat) : Request := ⟨ascii "dl", [string "name" "x", ⟨ascii "offset", .integer offset⟩]⟩

end Sample

theorem Session.delivered_iff_pieces :
    Sample.session.Coherent ∧ Session.AcceptsDl Sample.server Sample.threeBytes Sample.session (Sample.dl 1) (ascii "abc") 1 ∧
    (Session.Delivered Sample.server Sample.around Sample.around Sample.threeBytes Sample.session (Sample.dl 1) []
        (ascii "abc") 1 [1, 5] ↔
      (ascii "abc").length = 0 ∨ 1 < (ascii "abc").length ∧ Session.CountsFit ((ascii "abc").length - 1) [1, 5]) := by
  have hc : Sample.session.Coherent := by constructor <;> decide
  have h : Session.AcceptsDl Sample.server Sample.threeBytes Sample.session (Sample.dl 1) (ascii "abc") 1 :=
    ⟨by decide, ⟨ascii "/r"⟩, ⟨ascii "x"⟩, _, _, rfl, by decide, by decide, rfl⟩
  exact ⟨hc, h, Session.delivered_iff hc rfl rfl h [] (by decide) (by decide) (by decide)⟩

/-- A download that starts at the end of its file kills the client. -/
theorem download_at_end_dies :
    Session.AcceptsDl Sample.server Sample.threeBytes Sample.session (Sample.dl 3) (ascii "abc") 3 ∧
    ¬ Session.Delivered Sample.server Sample.around Sample.around Sample.threeBytes Sample.session (Sample.dl 3) []
      (ascii "abc") 3 [1] := by
  refine ⟨⟨by decide, ⟨ascii "/r"⟩, ⟨ascii "x"⟩, _, _, rfl, by decide, by decide, rfl⟩, ?_⟩
  intro h
  obtain ⟨-, -, halive, -⟩ := Session.delivered_iff_transfer.mp h
  revert halive
  decide

end TinDox
