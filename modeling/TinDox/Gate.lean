import TinDox.Effects

/-! The gate in front of the commands: what `set_command` lets through, and what is left for a
client that is not logged in. -/

namespace TinDox

namespace CommandExecutor

variable {c : ClientContext} {name : Bytes} {n : CommandName}

/-- The client holds a token with the permissions of the command. -/
def Allowed (c : ClientContext) (n : CommandName) : Prop :=
  ∃ token, c.authToken = some token ∧ n.requiredPerms &&& token.perms = n.requiredPerms

theorem single_bit : ∀ n : Fin 256, ∀ perms ∈ [Permissions.write, .copy, .move, .download, .upload],
    (perms &&& UInt8.ofFin n = perms ↔ UInt8.ofFin n &&& perms ≠ 0) := by
  decide +kernel

/-- The permissions of the commands. -/
theorem allowed_iff :
    Allowed c n ↔ ∃ token, c.authToken = some token ∧
      ((n = .mkdir ∨ n = .rm ∨ n = .rename) → token.perms &&& .write ≠ 0) ∧
      (n = .cp → token.perms &&& .copy ≠ 0) ∧ (n = .mv → token.perms &&& .move ≠ 0) ∧
      ((n = .dl ∨ n = .dls) → token.perms &&& .download ≠ 0) ∧ (n = .ul → token.perms &&& .upload ≠ 0) := by
  apply exists_congr
  intro token
  apply and_congr_right
  intro _
  have hbit (perms : Permissions) (hmem : perms ∈ [Permissions.write, .copy, .move, .download, .upload]) :
      perms &&& token.perms = perms ↔ token.perms &&& perms ≠ 0 := single_bit token.perms.toFin perms hmem
  cases n with
  | mkdir | rm | rename => simpa [CommandName.requiredPerms] using hbit .write (by decide)
  | cp => simpa [CommandName.requiredPerms] using hbit .copy (by decide)
  | mv => simpa [CommandName.requiredPerms] using hbit .move (by decide)
  | dl | dls => simpa [CommandName.requiredPerms] using hbit .download (by decide)
  | ul => simpa [CommandName.requiredPerms] using hbit .upload (by decide)
  | auth | bye | cd | exit | logout | ls | name | perms | pwd | tree => simp [CommandName.requiredPerms, Permissions.none]

theorem setCommand_unknown (h : CommandName.ofBytes name = none) :
    setCommand c name =
      .error (refuseWith .badCommand (ascii "No such command '" ++ name.takeWhile (· ≠ 0) ++ ascii "'")) := by
  rw [setCommand, h]

theorem setCommand_refuses (hn : CommandName.ofBytes name = some n) (hr : n.requiresAuthorization = true)
    (h : ¬ Allowed c n) :
    setCommand c name = .error (refuse .notLoggedIn) ∧ c.authToken = none ∨
    setCommand c name = .error (refuse .notEnoughPerms) ∧ c.authToken ≠ none := by
  cases ht : c.authToken with
  | none => exact .inl ⟨by simp [setCommand, hn, hr, ClientContext.isAuthorized, ht], rfl⟩
  | some token =>
    have hperms : n.requiredPerms &&& token.perms ≠ n.requiredPerms := fun hh => h ⟨token, ht, hh⟩
    exact .inr ⟨by simp [setCommand, hn, ClientContext.isAuthorized, ht, hperms], by simp⟩

theorem setCommand_unrestricted {c : ClientContext} {name : Bytes} {token : AuthToken}
    (hn : CommandName.ofBytes name = some n) (ht : c.authToken = some token) (hp : n.requiredPerms = 0) :
    setCommand c name = .ok n := by
  simp [setCommand, hn, ht, hp, ClientContext.isAuthorized]

theorem requiresAuthorization_eq_false (h : n.requiresAuthorization = false) : n = .auth ∨ n = .bye ∨ n = .exit := by
  cases n <;> simp [CommandName.requiresAuthorization] at h ⊢

end CommandExecutor

namespace Session

variable {srv : ServerContext} {around : Surroundings} {fs : FileSystem} {s : Session} {r : Request}

theorem executeCommand_stopped {e : Exception} (h : CommandExecutor.setCommand s.context r.name = .error e) :
    s.executeCommand srv around fs r = refused fs s r e := by
  simp only [executeCommand, h]

theorem executeCommand_unparsed {e : Exception} {n : CommandName} (hn : CommandExecutor.setCommand s.context r.name = .ok n)
    (h : CommandExecutor.parseFields srv fs s.context r.fields n = .error e) :
    s.executeCommand srv around fs r = refused fs s r e := by
  simp only [executeCommand, hn, h]

theorem executeCommand_throws {e : Exception} {n : CommandName} {command : Command} {w : World}
    (hn : CommandExecutor.setCommand s.context r.name = .ok n)
    (hp : CommandExecutor.parseFields srv fs s.context r.fields n = .ok command)
    (h : CommandExecutor.execute srv around ⟨fs, s.context⟩ command = (w, .error e)) :
    s.executeCommand srv around fs r = refused w.fs (s.withContext w.client) r e := by
  simp only [executeCommand, hn, hp, h]
  rfl

theorem executeCommand_executed {n : CommandName} {command : Command} {w : World} {lines : List Bytes}
    (hn : CommandExecutor.setCommand s.context r.name = .ok n)
    (hp : CommandExecutor.parseFields srv fs s.context r.fields n = .ok command)
    (h : CommandExecutor.execute srv around ⟨fs, s.context⟩ command = (w, .ok lines)) :
    s.executeCommand srv around fs r = accepted srv w.fs (s.withContext w.client) ⟨.ok, r.name, lines⟩ := by
  simp only [executeCommand, hn, hp, h]
  rfl

theorem executeCommand_answered {n : CommandName} {command : Command} {w : World} {lines : List Bytes}
    (hn : CommandExecutor.setCommand s.context r.name = .ok n)
    (hp : CommandExecutor.parseFields srv fs s.context r.fields n = .ok command)
    (h : CommandExecutor.execute srv around ⟨fs, s.context⟩ command = (w, .ok lines))
    (hm : w.client.mode = .command) :
    s.executeCommand srv around fs r = ⟨w.fs, s.withContext w.client, some ⟨.ok, r.name, lines⟩, false⟩ := by
  have hm' : (s.withContext w.client).context.mode = .command := hm
  rw [executeCommand_executed hn hp h, accepted, hm']

theorem refused_fs (fs : FileSystem) (s : Session) (r : Request) (e : Exception) : (refused fs s r e).fs = fs := by
  cases e <;> rfl

theorem refused_session (fs : FileSystem) (s : Session) (r : Request) (e : Exception) :
    (refused fs s r e).session = s := by
  cases e <;> rfl

/-- Whatever a client that is not logged in requests leaves the file system alone. It fails, or
it ends the connection, or it logs the client in. -/
theorem executeCommand_unauthorized (hnone : s.context.authToken = none) (hm : s.context.mode = .command) :
    (s.executeCommand srv around fs r).fs = fs ∧
    ((∃ alive count, (s.executeCommand srv around fs r).session =
        s.withContext { s.context with alive := alive, authTryCount := count }) ∨
      (∃ token, (s.executeCommand srv around fs r).session =
        s.withContext { s.context with
          authToken := some token, authTryCount := 0, currentPathLock := some srv.root.path }) ∨
      ∃ token, (s.executeCommand srv around fs r).fatal = true ∧ (s.executeCommand srv around fs r).session =
        s.withContext { s.context with authToken := some token, authTryCount := 0 }) := by
  cases hset : CommandExecutor.setCommand s.context r.name with
  | error e =>
    rw [executeCommand_stopped hset, refused_fs, refused_session]
    exact ⟨rfl, .inl ⟨s.context.alive, s.context.authTryCount, rfl⟩⟩
  | ok n =>
    have hopen : n.requiresAuthorization = false := by
      by_contra hr
      have hsome := (CommandExecutor.setCommand_ok hset).2 (by simpa using hr)
      simp [hnone] at hsome
    cases hparse : CommandExecutor.parseFields srv fs s.context r.fields n with
    | error e =>
      rw [executeCommand_unparsed hset hparse, refused_fs, refused_session]
      exact ⟨rfl, .inl ⟨s.context.alive, s.context.authTryCount, rfl⟩⟩
    | ok command =>
      have hname := CommandExecutor.parseFields_commandName hparse
      have hkill : CommandExecutor.execute srv around ⟨fs, s.context⟩ command = (⟨fs, s.context.kill⟩, .ok []) →
          (s.executeCommand srv around fs r).fs = fs ∧
          ∃ alive count, (s.executeCommand srv around fs r).session =
            s.withContext { s.context with alive := alive, authTryCount := count } := by
        intro hx
        rw [executeCommand_answered hset hparse hx hm]
        exact ⟨rfl, false, s.context.authTryCount, rfl⟩
      rcases CommandExecutor.requiresAuthorization_eq_false hopen with rfl | rfl | rfl
      · cases command <;> simp only [Command.commandName, reduceCtorEq] at hname
        rename_i u p
        rcases Auth.execute_cases srv around ⟨fs, s.context⟩ u p with
          ⟨e, he, ⟨alive, count, hw⟩, -⟩ | ⟨token, -, -, h | ⟨-, h⟩⟩
        · have hx : CommandExecutor.execute srv around ⟨fs, s.context⟩ (.auth u p) = (_, .error e) := Prod.ext hw he
          rw [executeCommand_throws hset hparse hx, refused_fs, refused_session]
          exact ⟨rfl, .inl ⟨alive, count, rfl⟩⟩
        · rw [executeCommand_throws hset hparse h]
          exact ⟨rfl, .inr (.inr ⟨token, rfl, rfl⟩)⟩
        · rw [executeCommand_answered hset hparse h hm]
          exact ⟨rfl, .inr (.inl ⟨token, rfl⟩)⟩
      · cases command <;> simp only [Command.commandName, reduceCtorEq] at hname
        obtain ⟨hfs, hs⟩ := hkill rfl
        exact ⟨hfs, .inl hs⟩
      · cases command <;> simp only [Command.commandName, reduceCtorEq] at hname
        obtain ⟨hfs, hs⟩ := hkill rfl
        exact ⟨hfs, .inl hs⟩

end Session

end TinDox
