import TinDox.Gate
import TinDox.InputLoop
import TinDox.Ledger

/-! The mode of a client and the tokens that go with it. Commands, both transfer managers and the
output half of `handle` change them; as long as nothing but protocol errors is thrown they fit
together at the head of every iteration of the input loop and after every call. -/

namespace TinDox

namespace Session

/-- The mode agrees with the owners of the tokens, and a client that is logged in has a current
directory. -/
structure Coherent (s : Session) : Prop where
  upload : s.context.mode = .upload ↔ s.uploadManager.token ≠ none
  noUpload : s.context.uploadToken = none
  download : s.context.mode = .download → s.context.downloadToken = none
  noDownload : s.context.mode ≠ .download → s.downloadManager.token = none
  locked : s.context.authToken ≠ none → s.context.currentPathLock ≠ none

theorem coherent_new : new.Coherent := by
  constructor <;> simp [new, ClientContext.new, UploadManager.new, DownloadManager.new]

/-- The download manager works on the token, unless there is nothing to send. -/
def Downloads (s : Session) (token : DownloadToken) : Prop :=
  s.downloadManager.token = some token ∨ s.downloadManager.token = none ∧ token.size = 0

variable {srv : ServerContext} {around : Surroundings} {fs fs' : FileSystem} {s s' : Session} {r : Request}

theorem startDownload_downloads (fs : FileSystem) (m : DownloadManager) (token : DownloadToken) :
    (m.startDownload fs token).1.token = some token ∨
      (m.startDownload fs token).1 = m ∧ token.size = 0 := by
  unfold DownloadManager.startDownload
  by_cases hs : token.size > 0
  · rw [if_pos hs]
    left
    split <;> rfl
  · rw [if_neg hs]
    exact .inr ⟨rfl, by omega⟩

theorem Coherent.withContext {c : ClientContext} (h : s.Coherent) (hm : s.context.mode = .command)
    (hmode : c.mode = .command) (hu : c.uploadToken = s.context.uploadToken)
    (hlock : c.authToken ≠ none → c.currentPathLock ≠ none) : (s.withContext c).Coherent where
  upload := by
    have hh := h.upload
    simp only [hm, reduceCtorEq, false_iff] at hh
    simpa [Session.withContext, hmode] using hh
  noUpload := hu.trans h.noUpload
  download := by simp [Session.withContext, hmode]
  noDownload := fun _ => h.noDownload (by simp [hm])
  locked := hlock

end Session

variable {srv : ServerContext} {around : Surroundings} {fs fs' : FileSystem} {s s' : Session} {r : Request}

theorem Effect.coherent (he : Effect srv around fs s r fs' s') (h : s.Coherent) (hm : s.context.mode = .command)
    (hauth : s.context.authToken ≠ Option.none) : s'.Coherent := by
  have hlock := h.locked hauth
  cases he with
  | none | cp | mkdir | mv | rename | rm | unbacked => exact h
  | flags => exact h.withContext hm hm rfl (fun _ => hlock)
  | login loggedOut => exact absurd loggedOut hauth
  | logout => exact h.withContext hm hm rfl (fun _ => hlock)
  | cd => exact h.withContext hm hm rfl (by simp)
  | dl => exact h.withContext hm hm rfl (fun _ => hlock)
  | dls pending =>
    have hup := h.upload
    simp only [hm, reduceCtorEq, false_iff] at hup
    exact ⟨by simpa using hup, h.noUpload, fun _ => rfl, by simp, fun _ => hlock⟩
  | @ul fs₁ upload _ accepted =>
    have htoken := UploadManager.startUpload_token srv fs₁ s.uploadManager upload
    have hdown : s.downloadManager.token = Option.none := h.noDownload (by simp [hm])
    exact ⟨by simp [htoken], rfl, by simp, fun _ => hdown, fun _ => hlock⟩

theorem Effect.downloads (he : Effect srv around fs s r fs' s') (h : s.Coherent) (hm : s.context.mode = .command)
    (hmode : s'.context.mode = .download) : ∃ token, s.context.downloadToken = some token ∧ s'.Downloads token := by
  cases he with
  | none | cp | mkdir | mv | rename | rm | unbacked => simp [hm] at hmode
  | flags | login | logout | cd | dl => simp [Session.withContext, ClientContext.logout, hm] at hmode
  | ul => simp at hmode
  | @dls token pending =>
    refine ⟨token, pending, ?_⟩
    rcases Session.startDownload_downloads fs s.downloadManager token with htoken | ⟨hsame, hsize⟩
    · exact .inl htoken
    · refine .inr ⟨?_, hsize⟩
      show (s.downloadManager.startDownload fs token).1.token = Option.none
      rw [hsame]
      exact h.noDownload (by simp [hm])

namespace Session

theorem Coherent.executeCommand (h : s.Coherent) (hm : s.context.mode = .command)
    (hf : (s.executeCommand srv around fs r).fatal = false) : (s.executeCommand srv around fs r).session.Coherent := by
  by_cases hauth : s.context.authToken = none
  · obtain ⟨-, ⟨alive, count, hs⟩ | ⟨token, hs⟩ | ⟨token, hfatal, -⟩⟩ :=
      @executeCommand_unauthorized srv around fs s r hauth hm
    · rw [hs]
      exact h.withContext hm hm rfl (by simp [hauth])
    · rw [hs]
      exact h.withContext hm hm rfl (by simp)
    · simp [hf] at hfatal
  · exact (executeCommand_effect srv around fs s r hm).coherent h hm hauth

theorem Coherent.handleUpload {input rest : Bytes} (h : s.Coherent) (hm : s.context.mode = .upload)
    (hu : s.handleUpload fs input = (fs', s', .ok rest)) : s'.Coherent ∧ s'.context.mode ≠ .download := by
  have hdown : s.downloadManager.token = none := h.noDownload (by simp [hm])
  obtain ⟨m, -, rfl⟩ := handleUpload_eq_ok hu
  cases ht : m.token with
  | none =>
    simp only [UploadManager.hasFinished, ht, Option.isNone_none, if_true]
    exact ⟨⟨by simp [ClientContext.setMode, ht], h.noUpload, by simp [ClientContext.setMode], fun _ => hdown, h.locked⟩,
      by simp [ClientContext.setMode]⟩
  | some token =>
    simp only [UploadManager.hasFinished, ht, Option.isNone_some, Bool.false_eq_true, if_false]
    exact ⟨⟨by simp [hm, ht], h.noUpload, h.download, fun _ => hdown, h.locked⟩, by simp [hm]⟩

theorem Coherent.handleDownloadManagerOutput {room : Nat} {sent : Bytes} (h : s.Coherent)
    (hm : s.context.mode = .download) (hd : s.handleDownloadManagerOutput fs room = (s', sent, .ok ())) :
    s'.Coherent ∧ (s'.context.mode = .download → s'.downloadManager.token = s.downloadManager.token) := by
  have hup := h.upload
  simp only [hm, reduceCtorEq, false_iff] at hup
  unfold Session.handleDownloadManagerOutput at hd
  rcases hc : s.downloadManager.send fs room with ⟨m, sent', e | u⟩
  · simp [hc] at hd
  · simp only [hc, Prod.mk.injEq] at hd
    obtain ⟨rfl, -⟩ := hd
    cases ht : m.token with
    | none =>
      simp only [DownloadManager.hasFinished, ht, Option.isNone_none, if_true]
      exact ⟨⟨by simpa [ClientContext.setMode] using hup, h.noUpload, by simp [ClientContext.setMode], fun _ => ht,
        h.locked⟩, by simp [ClientContext.setMode]⟩
    | some token =>
      have hmem : token ∈ (s.downloadManager.send fs room).1.token := by simp [hc, ht]
      have hsame := DownloadManager.send_token hmem
      simp only [DownloadManager.hasFinished, ht, Option.isNone_some, Bool.false_eq_true, if_false]
      refine ⟨⟨by simpa [hm] using hup, h.noUpload, h.download, by simp [hm], h.locked⟩, fun _ => ?_⟩
      exact hsame.symm

end Session

theorem CommandExecutor.execute_mode (command : Command) {w : World} (hm : w.client.mode = .command) :
    (execute srv around w command).1.client.mode = .command ∨
    w.client.downloadToken ≠ none ∧
      execute srv around w command = ({ w with client := w.client.setMode .download }, .ok []) ∨
    ∃ w' lines, execute srv around w command = (w', .ok lines) ∧ w'.client.mode = .upload ∧
      w'.client.uploadToken ≠ none := by
  by_cases hp : command.isPlain = true
  · exact .inl ((execute_isPlain hp w).1.trans hm)
  cases command with
  | auth u p =>
    left
    simp only [CommandExecutor.execute]
    rcases Auth.execute_cases srv around w u p with ⟨e, -, ⟨alive, count, hw⟩, -⟩ | ⟨token, -, -, hx | ⟨-, hx⟩⟩
    · rw [hw]
      exact hm
    · rw [hx]
      exact hm
    · rw [hx]
      exact hm
  | logout => exact .inl hm
  | dls =>
    simp only [CommandExecutor.execute]
    rcases Dls.execute_cases w with ⟨e, hx⟩ | ⟨hd, hx⟩
    · rw [hx]
      exact .inl hm
    · exact .inr (.inl ⟨Option.isSome_iff_ne_none.mp hd, hx⟩)
  | ul name size retry =>
    simp only [CommandExecutor.execute]
    rcases Ul.execute_cases srv around w name size retry with
      ⟨e, hx, -⟩ | ⟨cur, token, -, -, ⟨upload, -, -, hx⟩ |
        ⟨table, fs', removed, -, -, -, ⟨e, hx, -⟩ | ⟨upload, -, hx⟩⟩⟩
    · rw [hx]
      exact .inl hm
    · exact .inr (.inr ⟨_, _, hx, rfl, by simp⟩)
    · rw [hx]
      exact .inl hm
    · exact .inr (.inr ⟨_, _, hx, rfl, by simp⟩)
  | _ => exact absurd rfl hp

/-- What the handlers rely on where they follow a pointer: the commands that use the auth token or
the current directory are those that ask for a login, and `start_download`, `start_upload` and
`commit_bytes` find their tokens. -/
structure Session.Safe (srv : ServerContext) (around : Surroundings) (fs : FileSystem) (s : Session) : Prop where
  login : ∀ name n, CommandExecutor.setCommand s.context name = .ok n → n.requiresAuthorization = true →
    s.context.authToken ≠ none ∧ s.context.currentPathLock ≠ none
  starts : s.context.mode = .command → ∀ command w lines,
    CommandExecutor.execute srv around ⟨fs, s.context⟩ command = (w, .ok lines) →
      (w.client.mode = .download → w.client.downloadToken ≠ none) ∧
      (w.client.mode = .upload → w.client.uploadToken ≠ none)
  chunk : s.context.mode = .upload → s.uploadManager.token ≠ none

theorem Session.Coherent.safe (h : s.Coherent) : s.Safe srv around fs where
  login name n hset hr := by
    have hsome := (CommandExecutor.setCommand_ok hset).2 hr
    have hauth : s.context.authToken ≠ none := Option.isSome_iff_ne_none.mp hsome
    exact ⟨hauth, h.locked hauth⟩
  starts hm command w lines hx := by
    rcases @CommandExecutor.execute_mode srv around command ⟨fs, s.context⟩ hm with
      hmode | ⟨htoken, hd⟩ | ⟨w', lines', hu, hmode, htoken⟩
    · rw [hx] at hmode
      dsimp only at hmode
      simp [hmode]
    · obtain ⟨rfl, -⟩ := Prod.mk.inj (hx.symm.trans hd)
      exact ⟨fun _ => htoken, by simp [ClientContext.setMode]⟩
    · obtain ⟨rfl, -⟩ := Prod.mk.inj (hx.symm.trans hu)
      exact ⟨by simp [hmode], fun _ => htoken⟩
  chunk := h.upload.mp

def Iteration.executes (it : Iteration) : Bool :=
  match it.delivery with
  | .request _ => true
  | _ => false

def lastRequest (trace : List Iteration) : Option Iteration := trace.reverse.find? Iteration.executes

theorem lastRequest_append_executes {it : Iteration} (trace : List Iteration) (h : it.executes = true) :
    lastRequest (trace ++ [it]) = some it := by
  simp [lastRequest, h]

theorem lastRequest_append_idle {it : Iteration} (trace : List Iteration) (h : it.executes = false) :
    lastRequest (trace ++ [it]) = lastRequest trace := by
  simp [lastRequest, h]

namespace Client

/-- What holds of a client between two iterations, and between two calls. In download mode the
last request has found the token of the download in the client context. -/
structure Coherent (trace : List Iteration) (c : Client) : Prop where
  session : c.session.Coherent
  idle : c.interpreter.request = none
  downloading : c.session.context.mode = .download →
    ∃ it token, lastRequest trace = some it ∧ it.session.context.downloadToken = some token ∧
      c.session.Downloads token

theorem coherent_new : Coherent [] new := ⟨Session.coherent_new, rfl, by simp [new, Session.new, ClientContext.new]⟩

variable {others : Surroundings} {c : Client} {trace : List Iteration} {input rest : Bytes} {h : Handling}

theorem handleOnce_coherent (hc : c.Coherent trace) (hr : c.Ready) (he : handleOnce srv others fs c input = (h, rest))
    (hf : h.fatal = false) : h.client.Coherent (trace ++ h.trace) := by
  have hidle := (handleOnce_advances hr he hf).ready.idle
  cases handleOnce_iterates he with
  | download mode =>
    refine ⟨hc.session, hidle, fun _ => ?_⟩
    rw [lastRequest_append_idle trace rfl]
    exact hc.downloading mode
  | upload mode handled =>
    obtain ⟨hs, hmode⟩ := hc.session.handleUpload mode handled
    exact ⟨hs, hidle, fun hh => absurd hh hmode⟩
  | uploadThrows mode handled | interpreterThrows mode taken => simp at hf
  | waits mode taken | refuses mode taken =>
    exact ⟨hc.session, hidle, fun hh => by simp [addAnswer, mode] at hh⟩
  | @executes i rest r mode taken =>
    refine ⟨hc.session.executeCommand mode hf, hidle, fun hh => ?_⟩
    obtain ⟨token, htoken, hdown⟩ :=
      (executeCommand_effect srv (surroundings others c.session) fs c.session r mode).downloads hc.session mode hh
    exact ⟨_, token, lastRequest_append_executes trace rfl, htoken, hdown⟩

theorem handleOutput_coherent {events : SocketEvents} (hc : c.Coherent trace)
    (hf : (handleOutput fs c events).2 = false) : (handleOutput fs c events).1.Coherent trace := by
  rcases ho : handleOutput fs c events with ⟨c', e⟩
  rw [ho] at hf
  cases handleOutput_outputs ho with
  | writes waiting => exact ⟨hc.session, hc.idle, hc.downloading⟩
  | idle none mode => exact hc
  | sendThrows none mode handled => cases hf
  | sends none mode handled =>
    obtain ⟨hs, hsame⟩ := hc.session.handleDownloadManagerOutput mode handled
    refine ⟨hs, hc.idle, fun hh => ?_⟩
    obtain ⟨it, token, hlast, htoken, hdown⟩ := hc.downloading mode
    refine ⟨it, token, hlast, htoken, ?_⟩
    simpa only [Session.Downloads, hsame hh] using hdown

end Client

namespace Connection

variable {x : Connection}

/-- The states at the head of the input loop in a call. -/
def Head (srv : ServerContext) (x : Connection) (call : Call) (l : Loop) : Prop :=
  x.client.isAlive = true ∧ ∃ input, x.client.callInput call.events = some input ∧
    Loop.Reaches srv call.others ⟨call.fs, x.client, input, x.trace⟩ l

def Handles (srv : ServerContext) (x : Connection) (call : Call) : Prop :=
  x.client.isAlive = true → (x.client.handle srv call.others call.fs call.events).fatal = false

instance (srv : ServerContext) (x : Connection) (call : Call) : Decidable (Handles srv x call) :=
  inferInstanceAs (Decidable (_ → _))

theorem Head.coherent {call : Call} {l : Loop} (h : Head srv x call l) (hc : x.client.Coherent x.trace)
    (hr : x.client.Ready) : l.client.Coherent l.trace := by
  obtain ⟨-, input, -, hreach⟩ := h
  have hboth : l.client.Coherent l.trace ∧ l.client.Ready := by
    refine hreach.invariant (I := fun l => l.client.Coherent l.trace ∧ l.client.Ready) ⟨hc, hr⟩ ?_
    intro l h rest ⟨hl, hready⟩ honce hf
    exact ⟨Client.handleOnce_coherent hl hready honce hf, (Client.handleOnce_advances hready honce hf).ready⟩
  exact hboth.1

/-- A call that throws nothing but protocol errors keeps the client coherent. -/
theorem step_coherent {call : Call} (hc : x.client.Coherent x.trace) (hr : x.client.Ready) (hh : Handles srv x call) :
    (step srv x call).client.Coherent (step srv x call).trace ∧ (step srv x call).client.Ready := by
  by_cases hx : x.client.isAlive = true
  · simp only [step, hx, if_true]
    obtain ⟨hf, htrace, hout⟩ := Client.handle_ok (hh hx)
    have hevents : (x.client.handleEvents srv call.others call.fs call.events).client.Coherent
          (x.trace ++ (x.client.handleEvents srv call.others call.fs call.events).trace) ∧
        (x.client.handleEvents srv call.others call.fs call.events).client.Ready := by
      rcases Client.handleEvents_ends x.trace hr with
        ⟨-, -, hclient, hnone⟩ | ⟨input, l, h, rest, hinput, hreach, honce, -, hall, -, hfatal, pending, hclient⟩
      · rw [hclient, hnone, List.append_nil]
        exact ⟨hc, hr⟩
      · have hl := Head.coherent ⟨hx, input, hinput, hreach⟩ hc hr
        have hready := hreach.ready hr
        rw [hfatal] at hf
        have hlast := Client.handleOnce_coherent hl hready honce hf
        have hready' := (Client.handleOnce_advances hready honce hf).ready
        rw [hall, hclient]
        exact ⟨⟨hlast.session, hlast.idle, hlast.downloading⟩, ⟨hready'.idle, hready'.bounded⟩⟩
    rw [htrace]
    rcases hout with hout | ⟨hwrites, hout⟩
    · rw [hout]
      exact hevents
    · rw [hout]
      exact ⟨Client.handleOutput_coherent hevents.1 hwrites, (Client.handleOutput_keeps _ _ _).2 hevents.2⟩
  · simp only [step, hx, Bool.false_eq_true, if_false]
    exact ⟨hc, hr⟩

/-- As long as the calls throw nothing but protocol errors, the client is coherent after each of
them and at the head of every iteration of the input loop, and what a handler there dereferences
is not null. -/
theorem coherent_of_handles (h : Runs.Reaches (step srv) (Handles srv) (start fs) x) :
    x.client.Coherent x.trace ∧ ∀ call l, Head srv x call l →
      l.client.Coherent l.trace ∧
      l.client.session.Safe srv (Client.surroundings call.others l.client.session) l.fs := by
  obtain ⟨hc, hr⟩ : x.client.Coherent x.trace ∧ x.client.Ready :=
    h.invariant (I := fun x => x.client.Coherent x.trace ∧ x.client.Ready) ⟨Client.coherent_new, Client.ready_new⟩
      (fun _ _ hx hok => step_coherent hx.1 hx.2 hok)
  refine ⟨hc, fun call l hl => ?_⟩
  have hcoherent := hl.coherent hc hr
  exact ⟨hcoherent, hcoherent.session.safe⟩

/-- The run stops in the middle of a download of an empty file. -/
theorem coherent_of_handles_pipelined :
    let x := Runs.run (step Sample.server) (start Sample.emptyFile) ((Sample.pipelined false).take 3)
    x.client.session.context.mode = .download ∧ x.client.session.downloadManager.token = none ∧
    x.client.Coherent x.trace ∧ ∀ call l, Head Sample.server x call l →
      l.client.Coherent l.trace ∧
      l.client.session.Safe Sample.server (Client.surroundings call.others l.client.session) l.fs :=
  ⟨by decide +kernel, by decide +kernel, coherent_of_handles
    (Runs.AllMeet.reaches ⟨by decide +kernel, by decide +kernel, by decide +kernel, trivial⟩)⟩

end Connection

end TinDox
