import TinDox.Effects
import TinDox.Runs

/-! The server as a state machine: the file system and the connections, each of which takes
whole requests, chunks of upload data and pieces of a download one at a time. -/

namespace TinDox

structure Server where
  fs : FileSystem
  sessions : List (Nat × Session)

inductive Action where
  | connect (fd : Nat)
  | request (fd : Nat) (r : Request) (available : Nat) (lastWriteTime : Path → Bytes)
  | chunk (fd : Nat) (bytes : Bytes)
  | send (fd : Nat) (room : Nat)
  | disconnect (fd : Nat)

namespace Server

def start (fs : FileSystem) : Server := ⟨fs, []⟩

def lookup (S : Server) (fd : Nat) : Option Session := (S.sessions.find? (fun e => e.1 = fd)).map (·.2)

/-- The state in which the connection has a new session. -/
def put (S : Server) (fs : FileSystem) (fd : Nat) (s : Session) : Server :=
  ⟨fs, S.sessions.map (fun e => if e.1 = fd then (fd, s) else e)⟩

def locks (S : Server) : List Path := S.sessions.flatMap (fun e => e.2.locks)

def usernames (S : Server) : List Bytes := S.sessions.filterMap (fun e => e.2.username)

def surroundings (S : Server) (available : Nat) (lastWriteTime : Path → Bytes) : Surroundings :=
  ⟨S.locks, S.usernames, available, lastWriteTime⟩

/-- An exception that leaves a handler kills the client. One that is stuck takes no further part in
the code; here its session may, as if the command in which it is stuck had not been sent. -/
def killIf (fatal : Bool) (s : Session) : Session := if fatal then s.kill else s

theorem killIf_uploadManager (fatal : Bool) (s : Session) : (killIf fatal s).uploadManager = s.uploadManager := by
  cases fatal <;> simp [killIf]

/-- One action. A connection takes requests in command mode, upload data in upload mode and
sends in download mode. -/
def step (srv : ServerContext) (S : Server) : Action → Server
  | .connect fd =>
    match S.lookup fd with
    | some _ => S
    | none => { S with sessions := S.sessions ++ [(fd, .new)] }
  | .request fd r available lastWriteTime =>
    match S.lookup fd with
    | none => S
    | some s =>
      if s.context.mode = .command then
        let done := s.executeCommand srv (S.surroundings available lastWriteTime) S.fs r
        S.put done.fs fd (killIf done.fatal done.session)
      else S
  | .chunk fd bytes =>
    match S.lookup fd with
    | none => S
    | some s =>
      if s.context.mode = .upload then
        match s.handleUpload S.fs bytes with
        | (fs, s, .ok _) => S.put fs fd s
        | (fs, s, .error _) => S.put fs fd s.kill
      else S
  | .send fd room =>
    match S.lookup fd with
    | none => S
    | some s =>
      if s.context.mode = .download then
        match s.handleDownloadManagerOutput S.fs room with
        | (s, _, .ok ()) => S.put S.fs fd s
        | (s, _, .error _) => S.put S.fs fd s.kill
      else S
  | .disconnect fd =>
    match S.lookup fd with
    | none => S
    | some s => ⟨s.uploadManager.destroy S.fs, S.sessions.filter (fun e => e.1 ≠ fd)⟩

/-- What a connection that acts does to the file system and to its session. -/
inductive Acts (srv : ServerContext) (S : Server) (fd : Nat) (s : Session) : Action → FileSystem → Session → Prop
  | request {r : Request} {available : Nat} {lastWriteTime : Path → Bytes} {fs' : FileSystem} {s' : Session}
      (mode : s.context.mode = .command)
      (effect : Effect srv (S.surroundings available lastWriteTime) S.fs s r fs' s') :
      Acts srv S fd s (.request fd r available lastWriteTime) fs' s'
  | chunk {bytes : Bytes} {fs' : FileSystem} {s' : Session} {result : Except Exception Bytes}
      (mode : s.context.mode = .upload) (handled : s.handleUpload S.fs bytes = (fs', s', result)) :
      Acts srv S fd s (.chunk fd bytes) fs' s'
  | send {room : Nat} {s' : Session} {sent : Bytes} {result : Except Exception Unit}
      (mode : s.context.mode = .download)
      (handled : s.handleDownloadManagerOutput S.fs room = (s', sent, result)) :
      Acts srv S fd s (.send fd room) S.fs s'

inductive Transition (srv : ServerContext) (S : Server) (a : Action) : Server → Prop
  | idle : Transition srv S a S
  | connect {fd : Nat} (free : S.lookup fd = none) :
      Transition srv S a { S with sessions := S.sessions ++ [(fd, .new)] }
  | acts {fd : Nat} {s s' : Session} {fs' : FileSystem} (found : S.lookup fd = some s)
      (acts : Acts srv S fd s a fs' s') (fatal : Bool) : Transition srv S a (S.put fs' fd (killIf fatal s'))
  | disconnect {fd : Nat} {s : Session} (action : a = .disconnect fd) (found : S.lookup fd = some s) :
      Transition srv S a ⟨s.uploadManager.destroy S.fs, S.sessions.filter (fun e => e.1 ≠ fd)⟩

theorem step_transition (srv : ServerContext) (S : Server) (a : Action) : Transition srv S a (step srv S a) := by
  cases a with
  | connect fd =>
    simp only [step]
    cases hf : S.lookup fd with
    | some s => exact .idle
    | none => exact .connect hf
  | request fd r available lastWriteTime =>
    simp only [step]
    cases hf : S.lookup fd with
    | none => exact .idle
    | some s =>
      by_cases hm : s.context.mode = .command
      · simp only [hm, if_true]
        exact .acts hf (.request hm (executeCommand_effect srv _ S.fs s r hm)) _
      · simp only [hm, if_false]
        exact .idle
  | chunk fd bytes =>
    simp only [step]
    cases hf : S.lookup fd with
    | none => exact .idle
    | some s =>
      by_cases hm : s.context.mode = .upload
      · simp only [hm, if_true]
        rcases hh : s.handleUpload S.fs bytes with ⟨fs', s', e | rest⟩
        · exact .acts hf (.chunk hm hh) true
        · exact .acts hf (.chunk hm hh) false
      · simp only [hm, if_false]
        exact .idle
  | send fd room =>
    simp only [step]
    cases hf : S.lookup fd with
    | none => exact .idle
    | some s =>
      by_cases hm : s.context.mode = .download
      · simp only [hm, if_true]
        rcases hh : s.handleDownloadManagerOutput S.fs room with ⟨s', sent, e | u⟩
        · exact .acts hf (.send hm hh) true
        · exact .acts hf (.send hm hh) false
      · simp only [hm, if_false]
        exact .idle
  | disconnect fd =>
    simp only [step]
    cases hf : S.lookup fd with
    | none => exact .idle
    | some s => exact .disconnect rfl hf

theorem mem_of_lookup {S : Server} {fd : Nat} {s : Session} (h : S.lookup fd = some s) :
    (fd, s) ∈ S.sessions := by
  obtain ⟨e, he, rfl⟩ := Option.map_eq_some_iff.mp h
  have hfd := List.find?_some he
  simp only [decide_eq_true_eq] at hfd
  exact hfd ▸ List.mem_of_find?_eq_some he

theorem mem_put {S : Server} {fs : FileSystem} {fd : Nat} {s : Session} {e : Nat × Session}
    (h : e ∈ (S.put fs fd s).sessions) : e = (fd, s) ∨ e ∈ S.sessions ∧ e.1 ≠ fd := by
  simp only [put, List.mem_map] at h
  obtain ⟨e', he', rfl⟩ := h
  by_cases hfd : e'.1 = fd
  · exact .inl (by simp [hfd])
  · exact .inr (by simpa [hfd] using he')

@[simp] theorem put_fs (S : Server) (fs : FileSystem) (fd : Nat) (s : Session) : (S.put fs fd s).fs = fs :=
  rfl

theorem lookup_put {S : Server} {fd : Nat} {s : Session} (found : S.lookup fd = some s) (fs : FileSystem)
    (s' : Session) (fd' : Nat) : (S.put fs fd s').lookup fd' = if fd' = fd then some s' else S.lookup fd' := by
  have hfind : ∀ l : List (Nat × Session), ((l.map (fun e => if e.1 = fd then (fd, s') else e)).find?
      (fun e => e.1 = fd')).map (·.2) =
        if fd' = fd then ((l.find? (fun e => e.1 = fd)).map (fun _ => s')) else (l.find? (fun e => e.1 = fd')).map (·.2) := by
    intro l
    induction l with
    | nil => simp
    | cons e l ih =>
      by_cases he : e.1 = fd <;> by_cases hfd : fd' = fd
      · simp [he, hfd]
      · simpa [he, hfd, Ne.symm hfd] using ih
      · subst hfd
        simpa [he] using ih
      · by_cases he' : e.1 = fd'
        · simp [he', hfd]
        · simpa [he, he', hfd] using ih
  obtain ⟨e, he, -⟩ := Option.map_eq_some_iff.mp found
  simp only [lookup, put, hfind, he, Option.map_some]

theorem Transition.forall_sessions {srv : ServerContext} {S S' : Server} {a : Action}
    {I : FileSystem → Session → Prop} (h : Transition srv S a S') (hS : ∀ e ∈ S.sessions, I S.fs e.2)
    (hnew : I S.fs .new) (hkill : ∀ fs s, I fs s → I fs s.kill)
    (hact : ∀ fd s fs' s', S.lookup fd = some s → Acts srv S fd s a fs' s' →
      I fs' s' ∧ ∀ e ∈ S.sessions, I fs' e.2)
    (hgone : ∀ fd s, a = .disconnect fd → S.lookup fd = some s →
      ∀ e ∈ S.sessions, I (s.uploadManager.destroy S.fs) e.2) :
    ∀ e ∈ S'.sessions, I S'.fs e.2 := by
  intro e he
  cases h with
  | idle => exact hS e he
  | connect free =>
    rcases List.mem_append.mp he with he | he
    · exact hS e he
    · rw [List.mem_singleton.mp he]
      exact hnew
  | @acts fd s s' fs' found acts fatal =>
    obtain ⟨hs', hall⟩ := hact _ _ _ _ found acts
    rcases mem_put he with rfl | ⟨he, -⟩
    · cases fatal with
      | true => exact hkill fs' s' hs'
      | false => exact hs'
    · exact hall e he
  | disconnect action found => exact hgone _ _ action found e (List.mem_filter.mp he).1

end Server

namespace Sample

def request (fd : Nat) (name : String) (fields : List Field) : Action :=
  .request fd ⟨ascii name, fields⟩ 1000 (fun _ => [])

def loggedIn (fd : Nat) (username : String) (as : List Action) : List Action :=
  [.connect fd, .request fd (auth username) 1000 (fun _ => [])] ++ as

end Sample

end TinDox
