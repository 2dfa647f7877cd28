import TinDox.Confinement
import TinDox.Gate
import TinDox.Killed

/-! Logging out gives up the auth token and nothing else. A client that is logged in has a
current directory, so the lock on it outlives the session. -/

namespace TinDox

variable {srv : ServerContext} {around : Surroundings} {fs : FileSystem}

theorem Auth.execute_dead {w : World} (h : w.client.alive = false) (u p : Bytes) :
    (Auth.execute srv around w u p).1.client.alive = false := by
  unfold Auth.execute
  cases srv.authorizeUser around u p with
  | error e =>
    cases e with
    | fatal => exact h
    | protocol e =>
      by_cases hc : e.code = .invalidCredentials
      · simp only [hc, if_true]
        split
        · rfl
        · exact h
      · simpa only [hc, if_false] using h
  | ok token =>
    by_cases ht : w.client.isAuthorized = true
    · simpa only [ClientContext.setAuthToken, ht, if_true] using h
    · simp only [ClientContext.setAuthToken, ht, Bool.false_eq_true, if_false]
      split
      · exact h
      · exact h

theorem Kills.requiresAuthorization {c : ClientContext} {r : Request} {n : CommandName} (h : Kills srv around c r)
    (hn : r.name = n.toBytes) : n.requiresAuthorization = false := by
  rcases h with h | h | ⟨h, -⟩ <;> rw [hn] at h <;> revert h <;> cases n <;> decide

namespace Session

variable {s : Session} {r : Request}

theorem executeCommand_killed (hm : s.context.mode = .command) (h : s.context.alive = false) :
    (s.executeCommand srv around fs r).session.context.alive = false := by
  rcases (executeCommand_effect srv around fs s r hm).alive with hsame | ⟨hkills, -⟩
  · exact hsame.trans h
  cases hset : CommandExecutor.setCommand s.context r.name with
  | error e =>
    rw [executeCommand_stopped hset, refused_session]
    exact h
  | ok n =>
    cases hparse : CommandExecutor.parseFields srv fs s.context r.fields n with
    | error e =>
      rw [executeCommand_unparsed hset hparse, refused_session]
      exact h
    | ok command =>
      have hname := CommandExecutor.parseFields_commandName hparse
      have hopen := hkills.requiresAuthorization (CommandExecutor.setCommand_ok hset).1
      rcases CommandExecutor.requiresAuthorization_eq_false hopen with rfl | rfl | rfl
      · cases command <;> simp only [Command.commandName, reduceCtorEq] at hname
        rename_i u p
        rcases Auth.execute_cases srv around ⟨fs, s.context⟩ u p with ⟨e, he, -, -⟩ | ⟨token, -, -, hx | ⟨-, hx⟩⟩
        · have hdead : (Auth.execute srv around ⟨fs, s.context⟩ u p).1.client.alive = false := Auth.execute_dead h u p
          have hx : CommandExecutor.execute srv around ⟨fs, s.context⟩ (.auth u p) = (_, .error e) := Prod.ext rfl he
          rw [executeCommand_throws hset hparse hx, refused_session]
          exact hdead
        · rw [executeCommand_throws hset hparse hx]
          exact h
        · rw [executeCommand_answered hset hparse hx hm]
          exact h
      · cases command <;> simp only [Command.commandName, reduceCtorEq] at hname
        rw [executeCommand_answered hset hparse rfl hm]
        rfl
      · cases command <;> simp only [Command.commandName, reduceCtorEq] at hname
        rw [executeCommand_answered hset hparse rfl hm]
        rfl

theorem executeCommand_dead (hm : s.context.mode = .command) (h : s.context.isAlive = false) :
    (s.executeCommand srv around fs r).session.context.isAlive = false := by
  simp only [ClientContext.isAlive, Bool.and_eq_false_imp, Bool.not_eq_false'] at h ⊢
  intro halive
  rcases (executeCommand_effect srv around fs s r hm).stuck with hstuck | ⟨hstuck, -⟩
  · rw [hstuck]
    refine h ?_
    by_contra hdead
    rw [executeCommand_killed hm (by simpa using hdead)] at halive
    cases halive
  · exact hstuck

/-- A client that is logged in has a current directory. -/
def Housed (s : Session) : Prop :=
  s.context.isAlive = true → s.context.authToken.isSome → s.context.currentPathLock.isSome

theorem housed_of_lock {path : Path} (h : s.context.currentPathLock = some path) : s.Housed :=
  fun _ _ => by simp [h]

theorem housed_of_dead (h : s.context.isAlive = false) : s.Housed := fun ha => by simp [h] at ha

theorem Housed.executeCommand (h : s.Housed) (hm : s.context.mode = .command) :
    (Server.killIf (s.executeCommand srv around fs r).fatal (s.executeCommand srv around fs r).session).Housed := by
  have hkill : ∀ (fatal : Bool) (s' : Session), s'.Housed → (Server.killIf fatal s').Housed := by
    intro fatal s' hs'
    cases fatal with
    | true => exact housed_of_dead s'.isAlive_kill
    | false => exact hs'
  by_cases hnone : s.context.authToken = none
  · -- The login that fails at the lock of the root is the one that kills its client.
    rcases (@executeCommand_unauthorized srv around fs s r hnone hm).2 with
      ⟨alive, count, hs⟩ | ⟨token, hs⟩ | ⟨token, hfatal, -⟩
    · rw [hs]
      refine hkill _ _ fun _ hsome => ?_
      simp [withContext, hnone] at hsome
    · rw [hs]
      exact hkill _ _ (housed_of_lock rfl)
    · rw [hfatal]
      exact housed_of_dead (isAlive_kill _)
  · refine hkill _ _ ?_
    by_cases ha : s.context.isAlive = true
    · have hlock := h ha (Option.isSome_iff_ne_none.mpr hnone)
      rcases (executeCommand_effect srv around fs s r hm).currentPathLock with hcur | hcur | ⟨-, path, -, hcur⟩
      · exact fun _ _ => by rw [hcur]; exact hlock
      · exact housed_of_lock hcur
      · exact housed_of_lock hcur
    · exact housed_of_dead (executeCommand_dead hm (by simpa using ha))

end Session

namespace Server

variable {S : Server} {fd : Nat} {s : Session}

def Housed (S : Server) : Prop := ∀ e ∈ S.sessions, e.2.Housed

theorem Housed.put (h : S.Housed) (fs : FileSystem) (fd : Nat) (hs : s.Housed) : (S.put fs fd s).Housed := by
  intro e he
  rcases mem_put he with rfl | ⟨he, -⟩
  · exact hs
  · exact h e he

theorem Housed.step (h : S.Housed) (a : Action) : (Server.step srv S a).Housed := by
  cases a with
  | connect fd =>
    simp only [Server.step]
    split
    · exact h
    · intro e he
      rcases List.mem_append.mp he with he | he
      · exact h e he
      · rw [List.mem_singleton.mp he]
        exact fun _ hsome => by simp [Session.new, ClientContext.new] at hsome
  | request fd r available lastWriteTime =>
    simp only [Server.step]
    split
    · exact h
    · rename_i s found
      have hs : s.Housed := h _ (mem_of_lookup found)
      split
      · rename_i hm
        exact h.put _ fd (hs.executeCommand hm)
      · exact h
  | chunk fd bytes =>
    simp only [Server.step]
    split
    · exact h
    · rename_i s found
      have hs : s.Housed := h _ (mem_of_lookup found)
      split
      · rcases hu : s.handleUpload S.fs bytes with ⟨fs', s', e | rest⟩
        · exact h.put _ fd (Session.housed_of_dead s'.isAlive_kill)
        · obtain ⟨-, mode, rfl⟩ := Session.handleUpload_cases hu
          exact h.put _ fd hs
      · exact h
  | send fd room =>
    simp only [Server.step]
    split
    · exact h
    · rename_i s found
      have hs : s.Housed := h _ (mem_of_lookup found)
      split
      · rcases hd : s.handleDownloadManagerOutput S.fs room with ⟨s', sent, e | u⟩
        · exact h.put _ fd (Session.housed_of_dead s'.isAlive_kill)
        · obtain ⟨mode, rfl⟩ := Session.handleDownloadManagerOutput_cases hd
          exact h.put _ fd hs
      · exact h
  | disconnect fd =>
    simp only [Server.step]
    split
    · exact h
    · exact fun e he => h e (List.mem_filter.mp he).1

def reply (srv : ServerContext) (S : Server) : Action → Option Answer
  | .request fd r available lastWriteTime =>
    match S.lookup fd with
    | none => none
    | some s =>
      if s.context.mode = .command then
        (s.executeCommand srv (S.surroundings available lastWriteTime) S.fs r).answer
      else none
  | _ => none

def replies (srv : ServerContext) : Server → List Action → List (Option Answer)
  | _, [] => []
  | S, a :: as => S.reply srv a :: replies srv (S.step srv a) as

/-- The same server with a connection that never authenticated in the place of one that did. -/
def renewed (S : Server) (fd : Nat) : Server := S.put S.fs fd .new

/-- Nothing is left of the session of a client that has logged out. -/
structure Ended (srv : ServerContext) (S : Server) (fd : Nat) : Prop where
  noLock : ∀ s, S.lookup fd = some s → s.context.currentPathLock = none
  noToken : ∀ s, S.lookup fd = some s → s.context.downloadToken = none
  sameReplies : ∀ as, replies srv S as = replies srv (S.renewed fd) as

def logout (fd : Nat) (fields : List Field) (available : Nat) (lastWriteTime : Path → Bytes) : Action :=
  .request fd ⟨ascii "logout", fields⟩ available lastWriteTime

theorem step_logout (found : S.lookup fd = some s) (hm : s.context.mode = .command)
    (hauth : s.context.isAuthorized = true) (fields : List Field) (available : Nat) (lastWriteTime : Path → Bytes) :
    S.step srv (logout fd fields available lastWriteTime) = S.put S.fs fd (s.withContext s.context.logout) := by
  have hset : CommandExecutor.setCommand s.context (ascii "logout") = .ok .logout := by
    obtain ⟨token, ht⟩ := Option.isSome_iff_exists.mp hauth
    have hof : CommandName.ofBytes (ascii "logout") = some .logout := by decide
    simp [CommandExecutor.setCommand, hof, hauth, CommandName.requiredPerms, Permissions.none, ht]
  have hdone := @Session.executeCommand_answered srv (S.surroundings available lastWriteTime) S.fs s
    ⟨ascii "logout", fields⟩ _ _ _ _ hset rfl rfl hm
  simp only [step, logout, found, hm, if_true, hdone]
  rfl

theorem isPathLocked_of_mem {lock path : Path} (h : lock ∈ S.locks) (hp : PathLock.hasLockedPath lock path = true)
    (habs : path.isAbsolute = true) (available : Nat) (lastWriteTime : Path → Bytes) :
    (S.surroundings available lastWriteTime).isPathLocked path = .ok true := by
  have hany : S.locks.any (fun lock => PathLock.hasLockedPath lock path) = true := List.any_eq_true.mpr ⟨lock, h, hp⟩
  simp [Surroundings.isPathLocked, surroundings, habs, hany]

/-- Logging out never ends a session completely: in every reachable state, a live client that
logs out keeps its download token and the lock on its directory, which stays in use for everybody. -/
theorem logout_never_ends (h : Runs.Reaches (Server.step srv) (fun _ _ => True) (Server.start fs) S)
    (found : S.lookup fd = some s) (alive : s.context.isAlive = true) (hauth : s.context.isAuthorized = true)
    (hm : s.context.mode = .command) (fields : List Field) (available : Nat) (lastWriteTime : Path → Bytes) :
    let S' := S.step srv (logout fd fields available lastWriteTime)
    ¬ S'.Ended srv fd ∧ ∃ s' cur, S'.lookup fd = some s' ∧ s'.context.authToken = none ∧
      s'.context.currentPathLock = some cur ∧ s'.context.downloadToken = s.context.downloadToken ∧
      ∀ path, PathLock.hasLockedPath cur path = true → path.isAbsolute = true →
        (S'.surroundings available lastWriteTime).isPathLocked path = .ok true := by
  have hhoused : S.Housed := h.invariant (by simp [Housed, Server.start]) (fun _ a hS _ => hS.step a)
  obtain ⟨cur, hcur⟩ := Option.isSome_iff_exists.mp (hhoused _ (mem_of_lookup found) alive hauth)
  have hput : (S.put S.fs fd (s.withContext s.context.logout)).lookup fd = some (s.withContext s.context.logout) := by
    rw [lookup_put found, if_pos rfl]
  rw [step_logout found hm hauth]
  have hlock : (s.withContext s.context.logout).context.currentPathLock = some cur := hcur
  refine ⟨fun hend => ?_, _, cur, hput, rfl, hlock, rfl, fun path hp habs => ?_⟩
  · have hnone := hend.noLock _ hput
    simp [hlock] at hnone
  · refine isPathLocked_of_mem (List.mem_flatMap.mpr ⟨_, mem_of_lookup hput, ?_⟩) hp habs _ _
    simp [Session.locks, ClientContext.locks, hlock]

end Server

namespace Sample

def places : FileSystem := ⟨tree [([ascii "r", ascii "d"], .dir), ([ascii "r", ascii "x"], .file 0)], [ascii "abc"]⟩

/-- The first client logs out from a directory, then a second one logs in. -/
def leftDirectory : Server :=
  Runs.run (Server.step server) (.start places)
    (loggedIn 0 "u" [request 0 "cd" [string "path" "/d"], request 0 "logout" []] ++ loggedIn 1 "v" [])

/-- A client logs out with a download pending. -/
def leftDownload : Server :=
  Runs.run (Server.step server) (.start places)
    (loggedIn 0 "u" [request 0 "dl" [string "name" "x"], request 0 "logout" []])

def loginAndDls : List Action := [.request 0 (auth "u") 0 (fun _ => []), request 0 "dls" []]

end Sample

namespace Server

theorem logout_never_ends_directory :
    ¬ (Runs.run (Server.step Sample.server) (.start Sample.places)
      (Sample.loggedIn 0 "u" [Sample.request 0 "logout" []])).Ended Sample.server 0 := by
  have hreach : Runs.Reaches (Server.step Sample.server) (fun _ _ => True) (.start Sample.places)
      (Runs.run (Server.step Sample.server) (.start Sample.places) (Sample.loggedIn 0 "u" [])) :=
    Runs.AllMeet.reaches ⟨trivial, trivial, trivial⟩
  have found : (Runs.run (Server.step Sample.server) (.start Sample.places) (Sample.loggedIn 0 "u" [])).lookup 0 =
      some Sample.session := by decide
  exact (logout_never_ends hreach found (by decide) (by decide) (by decide) [] 1000
    (fun _ => [])).1

/-- The directory stays in use for the second client, and the token serves the next login. -/
theorem logout_leaves_traces :
    replies Sample.server Sample.leftDirectory [Sample.request 1 "rm" [Sample.string "name" "d"]] =
      [some ⟨.inUse, ascii "rm", [ProtocolCode.inUse.message]⟩] ∧
    replies Sample.server (Sample.leftDirectory.renewed 0) [Sample.request 1 "rm" [Sample.string "name" "d"]] =
      [some ⟨.ok, ascii "rm", [ascii "1"]⟩] ∧
    ¬ Sample.leftDirectory.Ended Sample.server 0 ∧
    replies Sample.server Sample.leftDownload Sample.loginAndDls = [some ⟨.ok, ascii "auth", []⟩, none] ∧
    replies Sample.server (Sample.leftDownload.renewed 0) Sample.loginAndDls =
      [some ⟨.ok, ascii "auth", []⟩, some ⟨.dlsWithoutDl, ascii "dls", [ProtocolCode.dlsWithoutDl.message]⟩] ∧
    ¬ Sample.leftDownload.Ended Sample.server 0 := by
  refine ⟨by decide, by decide, fun h => ?_, by decide, by decide, fun h => ?_⟩
  · exact absurd (h.sameReplies [Sample.request 1 "rm" [Sample.string "name" "d"]]) (by decide)
  · exact absurd (h.sameReplies Sample.loginAndDls) (by decide)

end Server

end TinDox
