import TinDox.Modes
import TinDox.Segments
import TinDox.Termination
import TinDox.UploadRequest

/-! The end of an upload. It is looked for when bytes arrive, so an upload with no byte left to come
waits for the next input, whatever that is. -/

namespace TinDox

namespace Session

/-- In upload mode the upload has a byte to wait for. -/
def AwaitsData (s : Session) : Prop :=
  s.context.mode = .upload →
    ∃ token, s.uploadManager.token = some token ∧ s.uploadManager.file.isSome ∧ token.offset < token.size

/-- In upload mode the upload has a byte to wait for, or it is complete and input is at hand. -/
def Awaits (input : Bytes) (s : Session) : Prop :=
  s.context.mode = .upload →
    ∃ token, s.uploadManager.token = some token ∧ s.uploadManager.file.isSome ∧
      (token.offset < token.size ∨ token.offset = token.size ∧ input ≠ [])

theorem awaitsData_new : new.AwaitsData := by simp [AwaitsData, new, ClientContext.new]

theorem awaits_nil {s : Session} : s.Awaits [] ↔ s.AwaitsData := by simp [Awaits, AwaitsData]

theorem AwaitsData.awaits {s : Session} (h : s.AwaitsData) (input : Bytes) : s.Awaits input := by
  intro hm
  obtain ⟨token, ht, hfile, hlt⟩ := h hm
  exact ⟨token, ht, hfile, .inl hlt⟩

variable {srv : ServerContext} {around : Surroundings} {fs fs' : FileSystem} {s s' : Session} {r : Request}
  {input rest : Bytes}

/-- Only a command that succeeds leaves upload mode behind. -/
theorem executeCommand_answer (hm : s.context.mode = .command)
    (hmode : (s.executeCommand srv around fs r).session.context.mode = .upload) :
    ∃ a, (s.executeCommand srv around fs r).answer = some a ∧ a.code = .ok := by
  have hrefused : ∀ (fs : FileSystem) (s : Session) (e : Exception), s.context.mode = .command →
      (refused fs s r e).session.context.mode ≠ .upload := by
    intro fs s e hs
    cases e <;> simp [refused, hs]
  unfold executeCommand at hmode ⊢
  split at hmode
  · exact absurd hmode (hrefused fs s _ hm)
  · split at hmode
    · exact absurd hmode (hrefused fs s _ hm)
    · rename_i command _
      rcases @CommandExecutor.execute_mode srv around command ⟨fs, s.context⟩ hm with
        hcommand | ⟨-, hx⟩ | ⟨w', lines, hx, hupload, -⟩
      · split at hmode
        · rename_i w e hx
          rw [hx] at hcommand
          exact absurd hmode (hrefused w.fs _ e hcommand)
        · rename_i w lines hx
          rw [hx] at hcommand
          have hw : w.client.mode = .command := hcommand
          simp [accepted, hw] at hmode
      · rw [hx] at hmode
        simp only [accepted, startDownload, ClientContext.setMode] at hmode
        split at hmode
        · cases hmode
        · split at hmode <;> cases hmode
      · rw [hx]
        simp only [accepted, hupload, startUpload_answer]
        exact ⟨_, rfl, rfl⟩

/-- Upload mode begins with a `ul` that is accepted, and with its file open. -/
theorem executeCommand_uploads (hm : s.context.mode = .command)
    (hmode : (s.executeCommand srv around fs r).session.context.mode = .upload)
    (hf : (s.executeCommand srv around fs r).fatal = false) :
    r.name = ascii "ul" ∧ ∃ fs₁ upload, AcceptsUpload srv around fs s.context r fs₁ upload ∧
      (s.executeCommand srv around fs r).session.uploadManager.token = some upload ∧
      (s.executeCommand srv around fs r).session.uploadManager.file.isSome := by
  obtain ⟨hname, fs₁, upload, haccepted, -⟩ := (executeCommand_effect srv around fs s r hm).uploads hm hmode
  obtain ⟨name, size, retry, hparsed⟩ : ∃ name size retry, Ul.parseFields r.fields = .ok (.ul name size retry) := by
    cases haccepted with
    | fresh parsed => exact ⟨_, _, _, parsed⟩
    | resumed parsed => exact ⟨_, _, _, parsed⟩
  obtain ⟨a, ha, hcode⟩ := executeCommand_answer hm hmode
  obtain ⟨fs₂, upload₂, haccepted₂, he⟩ := executeCommand_ul hname hparsed ha hcode
  obtain ⟨ht, -, hfile⟩ := @startUpload_token srv fs₂ (s.uploading upload₂) upload₂ rfl
    ⟨.ok, r.name, [decimal upload₂.offset]⟩
  rw [he] at hf ⊢
  exact ⟨hname, fs₂, upload₂, haccepted₂, ht, hfile hf⟩

/-- What arrives in upload mode leaves a byte to wait for, or ends the upload. -/
theorem Awaits.handleUpload (h : s.Awaits input) (hb : s.uploadManager.Bounded) (hm : s.context.mode = .upload)
    (hu : s.handleUpload fs input = (fs', s', .ok rest)) : s'.AwaitsData := by
  obtain ⟨token, ht, hfile, hleft⟩ := h hm
  have hle : token.offset ≤ token.size := by omega
  obtain ⟨-, ⟨-, hc⟩ | ⟨hlen, hc, hmanager⟩⟩ := TinDox.handleUpload_ok ht hle (hb token ht).1 hu
  · intro hh
    simp [hc, ClientContext.setMode] at hh
  · intro _
    refine ⟨{ token with offset := token.offset + input.length }, by rw [hmanager], by rw [hmanager]; exact hfile, ?_⟩
    show token.offset + input.length < token.size
    omega

/-- When the upload is over, its file has been moved to the target. -/
def RenamesTo (target : Path) (fs : FileSystem) (s : Session) : Prop :=
  ∀ chunks fs' s' rest, uploadChunks fs s chunks = some (fs', s', rest) → s'.context.mode = .command →
    s'.uploadManager.token = none ∧
      ∃ fs₁ : FileSystem, fs₁.rename s.uploadManager.partialFileName target = .ok fs'

theorem handleUpload_renames {token : UploadToken} (ht : s.uploadManager.token = some token)
    (hb : s.uploadManager.Bounded) (hu : s.handleUpload fs input = (fs', s', .ok rest)) :
    s'.uploadManager.token = none ∧ s'.context.mode = .command ∧
        (∃ fs₁ : FileSystem, fs₁.rename s.uploadManager.partialFileName token.path = .ok fs') ∨
      s'.context = s.context ∧ s'.uploadManager.partialFileName = s.uploadManager.partialFileName ∧
        ∃ token', s'.uploadManager.token = some token' ∧ token'.path = token.path := by
  obtain ⟨m, hc, rfl⟩ := handleUpload_eq_ok hu
  obtain ⟨t, i, ht', -, hcase⟩ := UploadManager.commitBytes_ok hb.size hc
  obtain rfl : token = t := Option.some.inj (ht.symm.trans ht')
  rcases hcase with ⟨-, -, rfl, -⟩ | ⟨-, hr, rfl, -⟩
  · exact .inr ⟨by simp [UploadManager.hasFinished], rfl, _, rfl, rfl⟩
  · exact .inl ⟨rfl, by simp [UploadManager.hasFinished, ClientContext.setMode], _, hr⟩

theorem renamesTo {token : UploadToken} (ht : s.uploadManager.token = some token) (hb : s.uploadManager.Bounded)
    (hm : s.context.mode = .upload) : s.RenamesTo token.path fs := by
  intro chunks
  induction chunks generalizing fs s token with
  | nil =>
    intro fs' s' rest hc hcommand
    cases hc
    simp [hm] at hcommand
  | cons chunk chunks ih =>
    intro fs' s' rest hc hcommand
    rw [uploadChunks] at hc
    rcases hu : s.handleUpload fs chunk with ⟨fs₁, s₁, e | rest₁⟩
    · simp [hu] at hc
    · simp only [hu] at hc
      have hb₁ : s₁.uploadManager.Bounded := by
        obtain ⟨-, mode, rfl⟩ := handleUpload_cases hu
        exact hb.commitBytes fs chunk
      rcases handleUpload_renames ht hb hu with ⟨hnone, hmode, hrename⟩ | ⟨hcontext, hbehind, token', ht', hpath⟩
      · rw [hmode, if_neg (by decide)] at hc
        cases hc
        exact ⟨hnone, hrename⟩
      · have hm₁ : s₁.context.mode = .upload := by rw [hcontext, hm]
        rw [if_pos hm₁] at hc
        obtain ⟨hnone, fs₂, hr⟩ := ih ht' hb₁ hm₁ fs' s' rest hc hcommand
        rw [hbehind, hpath] at hr
        exact ⟨hnone, fs₂, hr⟩

/-- In upload mode there is a byte to wait for, and with the last of them, whatever else comes with it, the
file is moved to its target and commands are read again. -/
def CompletesOnLastByte (s : Session) : Prop :=
  s.context.mode = .upload →
    ∃ token, s.uploadManager.token = some token ∧ token.offset < token.size ∧
      ∀ fs, ReadsExactly (token.size - token.offset) token.path fs s ∧ s.RenamesTo token.path fs

theorem AwaitsData.completes (h : s.AwaitsData) (hb : s.uploadManager.Bounded) : s.CompletesOnLastByte := by
  intro hm
  obtain ⟨token, ht, hfile, hlt⟩ := h hm
  exact ⟨token, ht, hlt, fun fs => ⟨readsExactly ht hfile hlt.le (hb token ht).1 hm, renamesTo ht hb hm⟩⟩

end Session

/-- The iteration accepts no `ul` with nothing left to receive, unless its chunk goes on behind it. -/
def Iteration.LeavesData (srv : ServerContext) (others : Surroundings) (it : Iteration) : Prop :=
  ∀ r fs₁ upload, it.delivery = .request r → r.name = ascii "ul" →
    AcceptsUpload srv (Client.surroundings others it.session) it.fs it.session.context r fs₁ upload →
    upload.offset < upload.size ∨ upload.offset = upload.size ∧ it.rest ≠ []

def Connection.LeavesData (srv : ServerContext) (x : Connection) (call : Call) : Prop :=
  x.client.isAlive = true → ∀ it ∈ (x.client.handleEvents srv call.others call.fs call.events).trace,
    it.LeavesData srv call.others

theorem Session.handleDownloadManagerOutput_mode {fs : FileSystem} {s s' : Session} {room : Nat} {sent : Bytes}
    {result : Except Exception Unit} (hm : s.context.mode = .download)
    (h : s.handleDownloadManagerOutput fs room = (s', sent, result)) : s'.context.mode ≠ .upload := by
  unfold handleDownloadManagerOutput at h
  rcases hsend : s.downloadManager.send fs room with ⟨m, sent', e | u⟩
  · simp only [hsend, Prod.mk.injEq] at h
    obtain ⟨rfl, -⟩ := h
    simp [hm]
  · simp only [hsend, Prod.mk.injEq] at h
    obtain ⟨rfl, -⟩ := h
    by_cases hdone : m.hasFinished = true <;> simp [hdone, ClientContext.setMode, hm]

namespace Client

variable {srv : ServerContext} {others : Surroundings} {fs : FileSystem} {c : Client} {input rest : Bytes}
  {h : Handling}

theorem handleOnce_awaits (hr : c.Ready) (hc : c.session.Awaits input)
    (he : handleOnce srv others fs c input = (h, rest)) (hf : h.fatal = false)
    (hleaves : ∀ it ∈ h.trace, it.LeavesData srv others) : h.client.session.Awaits rest := by
  cases handleOnce_iterates he with
  | download mode =>
    intro hh
    simp [mode] at hh
  | upload mode handled => exact (hc.handleUpload hr.bounded mode handled).awaits rest
  | uploadThrows mode handled | interpreterThrows mode taken => simp at hf
  | waits mode taken | refuses mode taken =>
    intro hh
    simp [addAnswer, mode] at hh
  | @executes i rest r mode taken =>
    intro hmode
    obtain ⟨hname, fs₁, upload, haccepted, htoken, hfile⟩ := Session.executeCommand_uploads mode hmode hf
    exact ⟨upload, htoken, hfile, hleaves _ (List.mem_singleton.mpr rfl) r fs₁ upload rfl hname haccepted⟩

theorem awaits_of_reaches {l : Loop} (hr : c.Ready) (hc : c.session.AwaitsData)
    (h : Loop.Reaches srv others ⟨fs, c, input, []⟩ l) (hleaves : ∀ it ∈ l.trace, it.LeavesData srv others) :
    l.client.session.Awaits l.input := by
  refine (h.invariant (I := fun l => (∀ it ∈ l.trace, it.LeavesData srv others) →
    l.client.session.Awaits l.input ∧ l.client.Ready) (fun _ => ⟨hc.awaits input, hr⟩) ?_ hleaves).1
  intro l h rest ih honce hf hall
  obtain ⟨hawaits, hready⟩ := ih (fun it hit => hall it (List.mem_append_left _ hit))
  exact ⟨handleOnce_awaits hready hawaits honce hf (fun it hit => hall it (List.mem_append_right _ hit)),
    (handleOnce_advances hready honce hf).ready⟩

theorem handleOutput_awaits {events : SocketEvents} (hc : c.session.AwaitsData) :
    (handleOutput fs c events).1.session.AwaitsData := by
  rcases ho : handleOutput fs c events with ⟨c', e⟩
  cases handleOutput_outputs ho with
  | writes waiting => exact hc
  | idle none mode => exact hc
  | sends none mode handled | sendThrows none mode handled =>
    intro hmode
    exact absurd hmode (Session.handleDownloadManagerOutput_mode mode handled)

end Client

namespace Connection

variable {srv : ServerContext} {fs₀ : FileSystem} {x : Connection} {call : Call}

theorem handleEvents_awaits (hx : x.client.isAlive = true) (hr : x.client.Ready) (hc : x.client.session.AwaitsData)
    (hleaves : LeavesData srv x call)
    (hf : (x.client.handleEvents srv call.others call.fs call.events).fatal = false) :
    (x.client.handleEvents srv call.others call.fs call.events).client.session.AwaitsData := by
  have hall := hleaves hx
  rcases Client.handleEvents_ends [] hr with
    ⟨-, -, hclient, -⟩ | ⟨input, l, h, rest, -, hreach, honce, hend, htrace, -, hfatal, pending, hclient⟩
  · rw [hclient]
    exact hc
  · rw [List.nil_append] at htrace
    rw [htrace] at hall
    rw [hfatal] at hf
    have hhead := Client.awaits_of_reaches hr hc hreach (fun it hit => hall it (List.mem_append_left _ hit))
    have hawaits := Client.handleOnce_awaits (hreach.ready hr) hhead honce hf
      (fun it hit => hall it (List.mem_append_right _ hit))
    have hrest : rest = [] := by simpa [hf] using hend
    rw [hrest, Session.awaits_nil] at hawaits
    rw [hclient]
    exact hawaits

theorem step_awaits (hr : x.client.Ready) (hc : x.client.isAlive = true → x.client.session.AwaitsData)
    (hleaves : LeavesData srv x call) :
    (step srv x call).client.isAlive = true → (step srv x call).client.session.AwaitsData := by
  by_cases hx : x.client.isAlive = true
  · simp only [step, hx, if_true]
    intro halive
    obtain ⟨hf, -, hout⟩ := Client.handle_ok (Client.handle_alive halive)
    have hawaits := handleEvents_awaits hx hr (hc hx) hleaves hf
    rcases hout with hout | ⟨-, hout⟩
    · rw [hout]
      exact hawaits
    · rw [hout]
      exact Client.handleOutput_awaits hawaits
  · simp only [step, hx, Bool.false_eq_true, if_false]
    exact fun halive => halive.elim

/-- Where every `ul` leaves something to receive, an upload that goes on after `handle_input` has a byte
to wait for, and it ends with the last of them. -/
theorem uploads_complete (h : Runs.Reaches (step srv) (LeavesData srv) (start fs₀) x) (hx : x.client.isAlive = true) :
    x.client.session.CompletesOnLastByte ∧
    ∀ call, LeavesData srv x call → (x.client.handleEvents srv call.others call.fs call.events).fatal = false →
      (x.client.handleEvents srv call.others call.fs call.events).client.session.CompletesOnLastByte := by
  obtain ⟨hc, hr⟩ : (x.client.isAlive = true → x.client.session.AwaitsData) ∧ x.client.Ready := by
    refine h.invariant (I := fun x => (x.client.isAlive = true → x.client.session.AwaitsData) ∧ x.client.Ready)
      ⟨fun _ => Session.awaitsData_new, Client.ready_new⟩ ?_
    intro y call hy hleaves
    refine ⟨step_awaits hy.2 hy.1 hleaves, ?_⟩
    unfold step
    split
    · exact Client.handle_ready hy.2
    · exact hy.2
  refine ⟨(hc hx).completes hr.bounded, fun call hleaves hf => ?_⟩
  exact (handleEvents_awaits hx hr (hc hx) hleaves hf).completes (Client.handleEvents_ready hr).bounded

end Connection

namespace Sample

def login : Call := call emptyFile (some "auth\nlogin:u\npasswd:pw\n\n") []

def ulOf (size : String) : Call := call emptyFile (some ("ul\nname:y\nsize:" ++ size ++ "\n\n")) []

theorem leavesData_login : Connection.LeavesData server (Connection.start emptyFile) login := by
  rintro - it hit r fs₁ upload hd hname -
  have htrace : ((Connection.start emptyFile).client.handleEvents server login.others login.fs login.events).trace.map
      (·.delivery) = [.request ⟨ascii "auth", [string "login" "u", string "passwd" "pw"]⟩] := by decide +kernel
  have hmem := List.mem_map_of_mem (f := (·.delivery)) hit
  rw [htrace, hd, List.mem_singleton] at hmem
  obtain rfl := Delivery.request.inj hmem
  exact absurd hname (by decide)

theorem leavesData_ulOf_two :
    Connection.LeavesData server (Connection.step server (Connection.start emptyFile) login) (ulOf "2") := by
  rintro - it hit r fs₁ upload hd - haccepted
  have htrace : ((Connection.step server (Connection.start emptyFile) login).client.handleEvents server (ulOf "2").others
      (ulOf "2").fs (ulOf "2").events).trace.map (·.delivery) =
        [.request ⟨ascii "ul", [string "name" "y", ⟨ascii "size", .integer 2⟩]⟩] := by decide +kernel
  have hmem := List.mem_map_of_mem (f := (·.delivery)) hit
  rw [htrace, hd, List.mem_singleton] at hmem
  obtain rfl := Delivery.request.inj hmem
  have hparsed : Ul.parseFields [string "name" "y", ⟨ascii "size", .integer 2⟩] = .ok (.ul ⟨ascii "y"⟩ 2 false) := by
    decide +kernel
  cases haccepted with
  | fresh parsed =>
    rw [hparsed] at parsed
    cases parsed
    exact .inl (Nat.zero_lt_succ 1)
  | resumed parsed =>
    rw [hparsed] at parsed
    cases parsed

end Sample

namespace Connection

theorem uploads_complete_two :
    let x := Runs.run (step Sample.server) (start Sample.emptyFile) [Sample.login, Sample.ulOf "2"]
    x.client.session.context.mode = .upload ∧ x.client.session.CompletesOnLastByte := by
  have hmeet : Runs.AllMeet (step Sample.server) (LeavesData Sample.server) (start Sample.emptyFile)
      [Sample.login, Sample.ulOf "2"] := ⟨Sample.leavesData_login, Sample.leavesData_ulOf_two, trivial⟩
  exact ⟨by decide +kernel, (uploads_complete hmeet.reaches (by decide +kernel)).1⟩

/-- The upload of an empty file is not over when it is accepted. -/
theorem empty_upload_waits :
    let x := Runs.run (step Sample.server) (start Sample.emptyFile) [Sample.login, Sample.ulOf "0"]
    x.client.isAlive = true ∧ ¬ x.client.session.CompletesOnLastByte := by
  intro x
  refine ⟨by decide +kernel, fun h => ?_⟩
  obtain ⟨token, ht, hlt, -⟩ := h (by decide +kernel)
  have hsize : x.client.session.uploadManager.token.map (fun token => (token.offset, token.size)) = some (0, 0) := by
    decide +kernel
  rw [ht, Option.map_some, Option.some.injEq, Prod.mk.injEq] at hsize
  omega

end Connection

end TinDox
