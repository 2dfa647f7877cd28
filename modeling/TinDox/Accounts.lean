import TinDox.Gate
import TinDox.Server
import TinDox.WeakRegistry

/-! Accounts and their sessions. The server keeps weak pointers to the auth tokens, which the
clients own. The machine of this module has that table; it turns out to answer as if it asked
the clients themselves, and to let one session at a time into an account. -/

namespace TinDox

variable {srv : ServerContext} {around : Surroundings} {fs : FileSystem}

/-- `m_auth_tokens`: the owner of a token is the client whose context points to it. -/
abbrev AuthTokens := WeakRegistry Nat Bytes

namespace AuthTokens

/-- What `Auth::execute` does to the table. The token is registered before the client accepts it;
a client that is logged in already throws, and the token is dropped. -/
def auth (srv : ServerContext) (around : Surroundings) (fds : List Nat) (T : AuthTokens) (fd : Nat)
    (c : ClientContext) (username password : Bytes) : AuthTokens :=
  let T := T.removeExpired fds
  match srv.authorizeUser around username password with
  | .error _ => T
  | .ok _ => if c.isAuthorized then T.register username else (T.register username).hold fd T.next

def executed (srv : ServerContext) (around : Surroundings) (fds : List Nat) (T : AuthTokens) (fd : Nat)
    (c : ClientContext) : Command → AuthTokens
  | .auth username password => T.auth srv around fds fd c username password
  | .logout => T.release fd
  | _ => T

def requested (srv : ServerContext) (around : Surroundings) (fs : FileSystem) (fds : List Nat) (T : AuthTokens)
    (fd : Nat) (c : ClientContext) (r : Request) : AuthTokens :=
  match CommandExecutor.setCommand c r.name with
  | .error _ => T
  | .ok n =>
    match CommandExecutor.parseFields srv fs c r.fields n with
    | .error _ => T
    | .ok command => T.executed srv around fds fd c command

end AuthTokens

def Server.fds (S : Server) : List Nat := S.sessions.map (·.1)

def Server.user (S : Server) (fd : Nat) : Option Bytes := (S.lookup fd).bind Session.username

structure AccountServer where
  server : Server
  tokens : AuthTokens

namespace AccountServer

def start (fs : FileSystem) : AccountServer := ⟨.start fs, .empty⟩

/-- The sessions as `authorize_user` sees them, after it has removed the expired tokens. -/
def surroundings (M : AccountServer) (available : Nat) (lastWriteTime : Path → Bytes) : Surroundings :=
  { M.server.surroundings available lastWriteTime with
    usernames := (M.tokens.removeExpired M.server.fds).values }

def execute (srv : ServerContext) (M : AccountServer) (s : Session) (r : Request) (available : Nat)
    (lastWriteTime : Path → Bytes) : Executed :=
  s.executeCommand srv (M.surroundings available lastWriteTime) M.server.fs r

def step (srv : ServerContext) (M : AccountServer) : Action → AccountServer
  | .request fd r available lastWriteTime =>
    match M.server.lookup fd with
    | none => M
    | some s =>
      if s.context.mode = .command then
        let done := M.execute srv s r available lastWriteTime
        ⟨M.server.put done.fs fd (Server.killIf done.fatal done.session),
          M.tokens.requested srv (M.surroundings available lastWriteTime) M.server.fs M.server.fds fd s.context r⟩
      else M
  | .disconnect fd => ⟨M.server.step srv (.disconnect fd), M.tokens.release fd⟩
  | a => { M with server := M.server.step srv a }

end AccountServer

/-! ### The commands and the token of their client -/

theorem CommandExecutor.execute_authToken {command : Command} (w : World)
    (ha : ∀ u p, command ≠ .auth u p) (hl : command ≠ .logout) :
    (execute srv around w command).1.client.authToken = w.client.authToken := by
  by_cases hp : command.isPlain = true
  · exact (execute_isPlain hp w).2
  cases command with
  | auth u p => exact absurd rfl (ha u p)
  | logout => exact absurd rfl hl
  | dls =>
    simp only [execute]
    rcases Dls.execute_cases w with ⟨e, hx⟩ | ⟨-, hx⟩
    · rw [hx]
    · rw [hx]
      rfl
  | ul name size retry =>
    simp only [execute]
    rcases Ul.execute_cases srv around w name size retry with
      ⟨e, hx, -⟩ | ⟨cur, token, -, -, ⟨upload, -, -, hx⟩ | ⟨table, fs', removed, -, -, -, ⟨e, hx, -⟩ | ⟨upload, -, hx⟩⟩⟩ <;>
      rw [hx]
  | _ => exact absurd rfl hp

namespace Session

variable {s : Session} {r : Request}

theorem accepted_username (fs : FileSystem) (s : Session) (answer : Answer) :
    (accepted srv fs s answer).session.username = s.username := by
  unfold accepted
  split
  · unfold startDownload
    split
    · rfl
    · dsimp only
      split <;> rfl
  · unfold startUpload
    split
    · rfl
    · dsimp only
      split <;> rfl
  · rfl

theorem executeCommand_username {n : CommandName} {command : Command}
    (hset : CommandExecutor.setCommand s.context r.name = .ok n)
    (hparse : CommandExecutor.parseFields srv fs s.context r.fields n = .ok command) :
    (s.executeCommand srv around fs r).session.username =
      (CommandExecutor.execute srv around ⟨fs, s.context⟩ command).1.client.authToken.map (·.username) := by
  rcases hx : CommandExecutor.execute srv around ⟨fs, s.context⟩ command with ⟨w, e | lines⟩
  · rw [executeCommand_throws hset hparse hx, refused_session]
    rfl
  · rw [executeCommand_executed hset hparse hx, accepted_username]
    rfl

end Session

def ServerContext.Credentials (srv : ServerContext) (username password : Bytes) : Prop :=
  ∃ u, srv.getUser username = some u ∧ srv.verifyPasswordOfUser u password = true

theorem ServerContext.authorizeUser_cases (srv : ServerContext) (around : Surroundings) (username password : Bytes) :
    (¬ srv.Credentials username password ∧
      srv.authorizeUser around username password = .error (refuse .invalidCredentials)) ∨
    (srv.Credentials username password ∧ username ∈ around.usernames ∧
      srv.authorizeUser around username password = .error (refuse .userAlreadyLogged)) ∨
    (srv.Credentials username password ∧ username ∉ around.usernames ∧ ∃ token,
      srv.authorizeUser around username password = .ok token ∧ token.username = username) := by
  cases hu : srv.getUser username with
  | none =>
    left
    refine ⟨?_, by simp [authorizeUser, hu]⟩
    rintro ⟨u, hu', -⟩
    simp [hu] at hu'
  | some u =>
    by_cases hp : srv.verifyPasswordOfUser u password = true
    · have hcred : srv.Credentials username password := ⟨u, hu, hp⟩
      by_cases hin : username ∈ around.usernames
      · exact .inr (.inl ⟨hcred, hin, by simp [authorizeUser, hu, hp, hin]⟩)
      · exact .inr (.inr ⟨hcred, hin, ⟨username, u.perms⟩, by simp [authorizeUser, hu, hp, hin], rfl⟩)
    · left
      refine ⟨?_, by simp [authorizeUser, hu, hp]⟩
      rintro ⟨u', hu', hp'⟩
      obtain rfl : u = u' := Option.some.inj (hu.symm.trans hu')
      exact hp hp'

theorem Auth.execute_authToken (w : World) (u p : Bytes) :
    (Auth.execute srv around w u p).1.client.authToken =
      match srv.authorizeUser around u p with
      | .error _ => w.client.authToken
      | .ok token => if w.client.isAuthorized then w.client.authToken else some token := by
  unfold Auth.execute
  cases ha : srv.authorizeUser around u p with
  | error e =>
    cases e with
    | fatal => rfl
    | protocol e =>
      by_cases hc : e.code = .invalidCredentials
      · simp only [hc, if_true]
        split <;> rfl
      · simp only [hc, if_false]
  | ok token =>
    by_cases ht : w.client.isAuthorized = true
    · simp only [ClientContext.setAuthToken, ht, if_true]
    · simp only [ClientContext.setAuthToken, ht, Bool.false_eq_true, if_false]
      split <;> rfl

namespace AuthTokens

/-- What a request can do to the table and to the user of its client. -/
inductive Step (T : AuthTokens) (fds : List Nat) (fd : Nat) (around : Surroundings) (old : Option Bytes) :
    Option Bytes → AuthTokens → Prop
  | same : Step T fds fd around old old T
  | purged : Step T fds fd around old old (T.removeExpired fds)
  | dropped (u : Bytes) : Step T fds fd around old old ((T.removeExpired fds).register u)
  | login {u : Bytes} (out : old = none) (free : u ∉ around.usernames) :
      Step T fds fd around old (some u) (((T.removeExpired fds).register u).hold fd T.next)
  | logout : Step T fds fd around old none (T.release fd)

theorem requested_step (T : AuthTokens) (fds : List Nat) (fd : Nat) (s : Session) (r : Request) :
    Step T fds fd around s.username (s.executeCommand srv around fs r).session.username
      (T.requested srv around fs fds fd s.context r) := by
  cases hset : CommandExecutor.setCommand s.context r.name with
  | error e =>
    have hT : T.requested srv around fs fds fd s.context r = T := by simp only [requested, hset]
    rw [Session.executeCommand_stopped hset, Session.refused_session, hT]
    exact .same
  | ok n =>
    cases hparse : CommandExecutor.parseFields srv fs s.context r.fields n with
    | error e =>
      have hT : T.requested srv around fs fds fd s.context r = T := by simp only [requested, hset, hparse]
      rw [Session.executeCommand_unparsed hset hparse, Session.refused_session, hT]
      exact .same
    | ok command =>
      have hT : T.requested srv around fs fds fd s.context r = T.executed srv around fds fd s.context command := by
        simp only [requested, hset, hparse]
      rw [Session.executeCommand_username hset hparse, hT]
      by_cases hl : command = .logout
      · subst hl
        exact .logout
      by_cases ha : ∃ u p, command = .auth u p
      · obtain ⟨u, p, rfl⟩ := ha
        have htoken : (CommandExecutor.execute srv around ⟨fs, s.context⟩ (.auth u p)).1.client.authToken = _ :=
          Auth.execute_authToken ⟨fs, s.context⟩ u p
        rw [htoken]
        simp only [executed, auth]
        rcases srv.authorizeUser_cases around u p with ⟨-, he⟩ | ⟨-, -, he⟩ | ⟨-, hfree, token, hok, hname⟩
        · simp only [he]
          exact .purged
        · simp only [he]
          exact .purged
        · simp only [hok]
          by_cases hauth : s.context.isAuthorized = true
          · simp only [hauth, if_true]
            exact .dropped u
          · have hnone : s.context.authToken = none := by simpa [ClientContext.isAuthorized] using hauth
            have hout : s.username = none := by simp [Session.username, hnone]
            simp only [hauth, Bool.false_eq_true, if_false, Option.map_some, hname]
            exact .login hout hfree
      · have hsame := @CommandExecutor.execute_authToken srv around command ⟨fs, s.context⟩
          (fun u p hc => ha ⟨u, p, hc⟩) hl
        rw [hsame]
        have hkeep : T.executed srv around fds fd s.context command = T := by
          cases command with
          | auth u p => exact absurd ⟨u, p, rfl⟩ ha
          | logout => exact absurd rfl hl
          | _ => rfl
        rw [hkeep]
        exact .same

theorem Step.tracks {T T' : AuthTokens} {fds : List Nat} {fd : Nat} {value : Nat → Option Bytes} {new : Option Bytes}
    (h : Step T fds fd around (value fd) new T') (ht : T.Tracks fds value) (hfd : fd ∈ fds)
    (hnames : around.usernames = (T.removeExpired fds).values) : T'.Tracks fds (Function.update value fd new) := by
  cases h with
  | same =>
    rw [Function.update_eq_self]
    exact ht
  | purged =>
    rw [Function.update_eq_self]
    exact ht.removeExpired
  | dropped u =>
    rw [Function.update_eq_self]
    exact ht.removeExpired.register u
  | login out free =>
    refine ht.removeExpired.hold hfd fun o ho => free ?_
    rw [hnames, ht.mem_values]
    exact ⟨o, ho⟩
  | logout => exact ht.release fun _ ho _ => ho

end AuthTokens

namespace Server

variable {S : Server} {fd : Nat} {s : Session}

theorem lookup_of_mem (hn : S.fds.Nodup) (h : (fd, s) ∈ S.sessions) : S.lookup fd = some s := by
  have hfind : ∀ l : List (Nat × Session), (l.map (·.1)).Nodup → (fd, s) ∈ l →
      l.find? (fun e => e.1 = fd) = some (fd, s) := by
    intro l
    induction l with
    | nil => simp
    | cons e l ih =>
      intro hl hmem
      obtain ⟨hnot, hl⟩ := List.nodup_cons.mp hl
      rcases List.mem_cons.mp hmem with rfl | hmem
      · simp
      · have hne : e.1 ≠ fd := fun he => hnot (List.mem_map.mpr ⟨_, hmem, he.symm⟩)
        simpa [hne] using ih hl hmem
  rw [lookup, hfind _ hn h]
  rfl

theorem mem_fds_of_lookup (found : S.lookup fd = some s) : fd ∈ S.fds :=
  List.mem_map.mpr ⟨_, mem_of_lookup found, rfl⟩

theorem lookup_eq_none (h : S.lookup fd = none) : fd ∉ S.fds := by
  intro hmem
  obtain ⟨e, he, rfl⟩ := List.mem_map.mp hmem
  simp only [lookup, Option.map_eq_none_iff, List.find?_eq_none, decide_eq_true_eq] at h
  exact h e he rfl

@[simp] theorem fds_put (fs : FileSystem) (fd : Nat) (s : Session) : (S.put fs fd s).fds = S.fds := by
  simp only [fds, put, List.map_map]
  refine List.map_congr_left fun e _ => ?_
  by_cases he : e.1 = fd <;> simp [he]

theorem user_put (found : S.lookup fd = some s) (fs : FileSystem) (s' : Session) :
    (S.put fs fd s').user = Function.update S.user fd s'.username := by
  funext fd'
  simp only [user, lookup_put found]
  by_cases he : fd' = fd <;> simp [he, user]

theorem user_connect (S : Server) (fd : Nat) :
    Server.user { S with sessions := S.sessions ++ [(fd, .new)] } = S.user := by
  funext fd'
  simp only [user, lookup, List.find?_append]
  cases hf : S.sessions.find? (fun e => e.1 = fd') with
  | some e => rfl
  | none =>
    by_cases he : fd = fd'
    · simp [he, Session.username, Session.new, ClientContext.new]
    · simp [he]

theorem user_gone (S : Server) (fs : FileSystem) (fd : Nat) :
    Server.user ⟨fs, S.sessions.filter (fun e => e.1 ≠ fd)⟩ = Function.update S.user fd none := by
  funext fd'
  have hfind : (S.sessions.filter (fun e => e.1 ≠ fd)).find? (fun e => e.1 = fd') =
      if fd' = fd then none else S.sessions.find? (fun e => e.1 = fd') := by
    rw [List.find?_filter]
    by_cases he : fd' = fd
    · rw [if_pos he, List.find?_eq_none]
      simp [he]
    · rw [if_neg he]
      congr 1
      funext e
      by_cases h : e.1 = fd' <;> simp [h, he]
  simp only [user, lookup, hfind]
  by_cases he : fd' = fd <;> simp [he, user, lookup]

theorem mem_usernames (hn : S.fds.Nodup) {u : Bytes} : u ∈ S.usernames ↔ ∃ fd, S.user fd = some u := by
  simp only [usernames, List.mem_filterMap, user]
  constructor
  · rintro ⟨⟨fd, s⟩, he, hu⟩
    exact ⟨fd, by rw [lookup_of_mem hn he]; exact hu⟩
  · rintro ⟨fd, hu⟩
    obtain ⟨s, hs, hu⟩ := Option.bind_eq_some_iff.mp hu
    exact ⟨(fd, s), mem_of_lookup hs, hu⟩

end Server

theorem killIf_username (fatal : Bool) (s : Session) : (Server.killIf fatal s).username = s.username := by
  cases fatal with
  | true => exact s.username_kill
  | false => rfl

namespace AccountServer

variable {M : AccountServer} {fd : Nat} {s : Session}

structure Inv (M : AccountServer) : Prop where
  nodup : M.server.fds.Nodup
  tracks : M.tokens.Tracks M.server.fds M.server.user

theorem inv_start (fs : FileSystem) : (start fs).Inv :=
  ⟨List.nodup_nil, WeakRegistry.tracks_empty []⟩

theorem Inv.of_same (h : M.Inv) {S : Server} (hfds : S.fds = M.server.fds) (huser : S.user = M.server.user) :
    Inv { M with server := S } := by
  refine ⟨?_, ?_⟩
  · rw [hfds]
    exact h.nodup
  · rw [hfds, huser]
    exact h.tracks

theorem Inv.put_same (h : M.Inv) (found : M.server.lookup fd = some s) (fs : FileSystem) {s' : Session}
    (hs : s'.username = s.username) : Inv { M with server := M.server.put fs fd s' } := by
  refine h.of_same (Server.fds_put fs fd s') ?_
  rw [Server.user_put found, hs]
  have huser : s.username = M.server.user fd := by simp [Server.user, found]
  rw [huser, Function.update_eq_self]

theorem Inv.connect (h : M.Inv) (free : M.server.lookup fd = none) :
    Inv { M with server := { M.server with sessions := M.server.sessions ++ [(fd, .new)] } } := by
  have hnew := Server.lookup_eq_none free
  refine ⟨?_, ?_⟩
  · simp only [Server.fds, List.map_append, List.map_cons, List.map_nil]
    refine List.nodup_append.mpr ⟨h.nodup, by simp, fun o ho o' ho' heq => ?_⟩
    rw [heq, List.mem_singleton.mp ho'] at ho
    exact hnew ho
  · rw [Server.user_connect]
    exact h.tracks.mono (by simp [Server.fds])

theorem Inv.request (h : M.Inv) (found : M.server.lookup fd = some s) (r : Request) (available : Nat)
    (lastWriteTime : Path → Bytes) :
    Inv ⟨M.server.put (M.execute srv s r available lastWriteTime).fs fd
        (Server.killIf (M.execute srv s r available lastWriteTime).fatal (M.execute srv s r available lastWriteTime).session),
      M.tokens.requested srv (M.surroundings available lastWriteTime) M.server.fs M.server.fds fd s.context r⟩ := by
  have huser : s.username = M.server.user fd := by simp [Server.user, found]
  have hstep := @AuthTokens.requested_step srv (M.surroundings available lastWriteTime) M.server.fs
    M.tokens M.server.fds fd s r
  rw [huser] at hstep
  refine ⟨?_, ?_⟩
  · rw [Server.fds_put]
    exact h.nodup
  · rw [Server.fds_put, Server.user_put found, killIf_username]
    exact hstep.tracks h.tracks (Server.mem_fds_of_lookup found) rfl

theorem Inv.release (h : M.Inv) (absent : M.server.lookup fd = none) :
    Inv { M with tokens := M.tokens.release fd } := by
  have huser : M.server.user fd = none := by simp [Server.user, absent]
  refine ⟨h.nodup, ?_⟩
  have hrelease : (M.tokens.release fd).Tracks M.server.fds (Function.update M.server.user fd none) :=
    h.tracks.release fun _ ho _ => ho
  rw [← huser, Function.update_eq_self] at hrelease
  exact hrelease

theorem Inv.gone (h : M.Inv) (fs : FileSystem) (fd : Nat) :
    Inv ⟨⟨fs, M.server.sessions.filter (fun e => e.1 ≠ fd)⟩, M.tokens.release fd⟩ := by
  refine ⟨List.Nodup.sublist (List.filter_sublist.map _) h.nodup, ?_⟩
  rw [Server.user_gone]
  refine h.tracks.release fun o ho hne => ?_
  obtain ⟨e, he, rfl⟩ := List.mem_map.mp ho
  exact List.mem_map.mpr ⟨e, List.mem_filter.mpr ⟨he, by simpa using hne⟩, rfl⟩

theorem Inv.step (h : M.Inv) (a : Action) : (M.step srv a).Inv := by
  cases a with
  | connect fd =>
    simp only [AccountServer.step, Server.step]
    split
    · exact h
    · rename_i free
      exact h.connect free
  | request fd r available lastWriteTime =>
    simp only [AccountServer.step]
    split
    · exact h
    · rename_i s found
      split
      · exact h.request found r available lastWriteTime
      · exact h
  | chunk fd bytes =>
    simp only [AccountServer.step, Server.step]
    split
    · exact h
    · rename_i s found
      split
      · rcases hu : s.handleUpload M.server.fs bytes with ⟨fs', s', e | rest⟩
        · obtain ⟨-, mode, rfl⟩ := Session.handleUpload_cases hu
          exact h.put_same found _ (Session.username_kill _)
        · obtain ⟨-, mode, rfl⟩ := Session.handleUpload_cases hu
          exact h.put_same found _ rfl
      · exact h
  | send fd room =>
    simp only [AccountServer.step, Server.step]
    split
    · exact h
    · rename_i s found
      split
      · rcases hd : s.handleDownloadManagerOutput M.server.fs room with ⟨s', sent, e | u⟩
        · obtain ⟨mode, rfl⟩ := Session.handleDownloadManagerOutput_cases hd
          exact h.put_same found _ (Session.username_kill _)
        · obtain ⟨mode, rfl⟩ := Session.handleDownloadManagerOutput_cases hd
          exact h.put_same found _ rfl
      · exact h
  | disconnect fd =>
    simp only [AccountServer.step, Server.step]
    split
    · rename_i absent
      exact h.release absent
    · rename_i s found
      exact h.gone (s.uploadManager.destroy M.server.fs) fd

theorem Inv.mem_usernames (h : M.Inv) {u : Bytes} {available : Nat} {lastWriteTime : Path → Bytes} :
    u ∈ (M.surroundings available lastWriteTime).usernames ↔ ∃ fd, M.server.user fd = some u :=
  h.tracks.mem_values

end AccountServer

theorem ServerContext.authorizeUser_congr {around' : Surroundings}
    (h : ∀ u, u ∈ around.usernames ↔ u ∈ around'.usernames) (username password : Bytes) :
    srv.authorizeUser around username password = srv.authorizeUser around' username password := by
  simp only [authorizeUser, h]

theorem Session.executeCommand_usernames {l : List Bytes} (h : ∀ u, u ∈ l ↔ u ∈ around.usernames) (s : Session)
    (r : Request) :
    s.executeCommand srv { around with usernames := l } fs r = s.executeCommand srv around fs r := by
  have hauth : ∀ u p, srv.authorizeUser { around with usernames := l } u p = srv.authorizeUser around u p :=
    ServerContext.authorizeUser_congr h
  have hexecute : ∀ (w : World) (command : Command), CommandExecutor.execute srv { around with usernames := l } w command =
      CommandExecutor.execute srv around w command := by
    intro w command
    cases command with
    | auth u p => simp only [CommandExecutor.execute, Auth.execute, hauth]
    | _ => rfl
  simp only [executeCommand, hexecute]

namespace AccountServer

variable {M : AccountServer} {fd : Nat} {s : Session}

/-- The server with its table of weak pointers behaves like one that asks the clients who is
logged in. -/
theorem Inv.step_server (h : M.Inv) (a : Action) : (M.step srv a).server = M.server.step srv a := by
  cases a with
  | request fd r available lastWriteTime =>
    have hnames : ∀ u, u ∈ (M.tokens.removeExpired M.server.fds).values ↔
        u ∈ (M.server.surroundings available lastWriteTime).usernames := fun u =>
      h.tracks.mem_values.trans (Server.mem_usernames h.nodup).symm
    simp only [AccountServer.step, Server.step, execute, surroundings, Session.executeCommand_usernames hnames]
    cases M.server.lookup fd with
    | none => rfl
    | some s => by_cases hm : s.context.mode = .command <;> simp [hm]
  | _ => rfl

end AccountServer

theorem bind_ne_fatal {α β : Type} {x : Except Exception α} {f : α → Except Exception β} (hx : x ≠ .error .fatal)
    (hf : ∀ a, f a ≠ .error .fatal) : (x >>= f) ≠ .error .fatal := by
  cases x with
  | error e => exact fun h => hx (by cases h; rfl)
  | ok a => exact hf a

theorem foldlM_ne_fatal {α β : Type} {f : β → α → Except Exception β} (hf : ∀ b a, f b a ≠ .error .fatal)
    (l : List α) (b : β) : l.foldlM f b ≠ .error .fatal := by
  induction l generalizing b with
  | nil => exact fun h => by cases h
  | cons a l ih =>
    rw [List.foldlM_cons]
    exact bind_ne_fatal (hf b a) ih

theorem parseString_ne_fatal (name : Bytes) (current : Option Bytes) (field : Field) :
    parseString name current field ≠ .error .fatal := by
  unfold parseString
  split
  · simp [refuseWith]
  · split <;> simp [refuseWith]

theorem require_ne_fatal {α : Type} (value : Option α) (message : Bytes) : require value message ≠ .error .fatal := by
  cases value <;> simp [require, refuseWith]

theorem Auth.parseFields_ne_fatal (fields : List Field) : Auth.parseFields fields ≠ .error .fatal := by
  refine bind_ne_fatal (foldlM_ne_fatal (fun b field => ?_) fields _) fun b => ?_
  · obtain ⟨username, password⟩ := b
    dsimp only
    split
    · exact bind_ne_fatal (parseString_ne_fatal _ _ _) fun _ => by simp
    · split
      · exact bind_ne_fatal (parseString_ne_fatal _ _ _) fun _ => by simp
      · simp
  · exact bind_ne_fatal (require_ne_fatal _ _) fun _ => bind_ne_fatal (require_ne_fatal _ _) fun _ => by simp

namespace Session

variable {s : Session} {r : Request} {u p : Bytes}

theorem setCommand_auth (c : ClientContext) : CommandExecutor.setCommand c (ascii "auth") = .ok .auth := by
  have hof : CommandName.ofBytes (ascii "auth") = some .auth := by decide
  cases ht : c.authToken <;>
    simp [CommandExecutor.setCommand, hof, ht, CommandName.requiresAuthorization, CommandName.requiredPerms,
      Permissions.none]

theorem execute_auth_outcome (fs : FileSystem) (c : ClientContext) (u p : Bytes) :
    (¬ srv.Credentials u p ∧ ∃ c', c'.authToken = c.authToken ∧
      CommandExecutor.execute srv around ⟨fs, c⟩ (.auth u p) = (⟨fs, c'⟩, .error (refuse .invalidCredentials))) ∨
    (srv.Credentials u p ∧ (u ∈ around.usernames ∨ c.isAuthorized = true) ∧
      CommandExecutor.execute srv around ⟨fs, c⟩ (.auth u p) = (⟨fs, c⟩, .error (refuse .userAlreadyLogged))) ∨
    (srv.Credentials u p ∧ u ∉ around.usernames ∧ c.authToken = none ∧
      ∃ c', c'.mode = c.mode ∧ (CommandExecutor.execute srv around ⟨fs, c⟩ (.auth u p) = (⟨fs, c'⟩, .error .fatal) ∨
        CommandExecutor.execute srv around ⟨fs, c⟩ (.auth u p) = (⟨fs, c'⟩, .ok []))) := by
  rcases srv.authorizeUser_cases around u p with ⟨hbad, he⟩ | ⟨hcred, hin, he⟩ | ⟨hcred, hfree, token, hok, hname⟩
  · refine .inl ⟨hbad, ?_⟩
    rcases hx : CommandExecutor.execute srv around ⟨fs, c⟩ (.auth u p) with ⟨w, out⟩
    have htoken : (CommandExecutor.execute srv around ⟨fs, c⟩ (.auth u p)).1.client.authToken = _ :=
      Auth.execute_authToken ⟨fs, c⟩ u p
    rw [he, hx] at htoken
    simp only [CommandExecutor.execute, Auth.execute, he, refuse, protocolError, if_true, Prod.mk.injEq] at hx
    obtain ⟨rfl, rfl⟩ := hx
    exact ⟨_, htoken, rfl⟩
  · refine .inr (.inl ⟨hcred, .inl hin, ?_⟩)
    simp [CommandExecutor.execute, Auth.execute, he, refuse, protocolError]
  · by_cases hauth : c.isAuthorized = true
    · refine .inr (.inl ⟨hcred, .inr hauth, ?_⟩)
      simp [CommandExecutor.execute, Auth.execute, hok, ClientContext.setAuthToken, hauth]
    · have hnone : c.authToken = none := by simpa [ClientContext.isAuthorized] using hauth
      refine .inr (.inr ⟨hcred, hfree, hnone, ?_⟩)
      cases hl : srv.lockPath fs srv.root.path with
      | error e =>
        have hfatal : e = .fatal := by
          simp only [ServerContext.lockPath] at hl
          split at hl
          · cases hl
          · cases hl
            rfl
        refine ⟨{ c with authToken := some token, authTryCount := 0 }, rfl, .inl ?_⟩
        simp [CommandExecutor.execute, Auth.execute, hok, ClientContext.setAuthToken, hauth, hl, hfatal]
      | ok lock =>
        refine ⟨{ c with authToken := some token, authTryCount := 0, currentPathLock := some lock }, rfl, .inr ?_⟩
        simp [CommandExecutor.execute, Auth.execute, hok, ClientContext.setAuthToken, hauth, hl,
          ClientContext.setPathLock]

/-- The ways in which a well-formed `auth` can end. -/
theorem executeCommand_auth (hm : s.context.mode = .command) (hr : r.name = ascii "auth")
    (hp : Auth.parseFields r.fields = .ok (.auth u p)) :
    (¬ srv.Credentials u p ∧ ∃ s', s'.username = s.username ∧
      s.executeCommand srv around fs r = refused fs s' r (refuse .invalidCredentials)) ∨
    (srv.Credentials u p ∧ (u ∈ around.usernames ∨ s.context.isAuthorized = true) ∧
      s.executeCommand srv around fs r = refused fs s r (refuse .userAlreadyLogged)) ∨
    (srv.Credentials u p ∧ u ∉ around.usernames ∧ s.username = none ∧
      ((s.executeCommand srv around fs r).fatal = true ∧ (s.executeCommand srv around fs r).answer = none ∨
        ∃ s', s.executeCommand srv around fs r = ⟨fs, s', some ⟨.ok, r.name, []⟩, false⟩)) := by
  have hset : CommandExecutor.setCommand s.context r.name = .ok .auth := hr ▸ setCommand_auth s.context
  have hparse : CommandExecutor.parseFields srv fs s.context r.fields .auth = .ok (.auth u p) := hp
  rcases execute_auth_outcome fs s.context u p with
    ⟨hbad, c, htoken, hx⟩ | ⟨hcred, hor, hx⟩ | ⟨hcred, hfree, hnone, c, hmode, hx | hx⟩
  · refine .inl ⟨hbad, s.withContext c, ?_, executeCommand_throws hset hparse hx⟩
    simp only [username, withContext, htoken]
  · exact .inr (.inl ⟨hcred, hor, executeCommand_throws hset hparse hx⟩)
  · refine .inr (.inr ⟨hcred, hfree, by simp [username, hnone], .inl ?_⟩)
    rw [executeCommand_throws hset hparse hx]
    exact ⟨rfl, rfl⟩
  · refine .inr (.inr ⟨hcred, hfree, by simp [username, hnone], .inr ?_⟩)
    exact ⟨_, executeCommand_answered hset hparse hx (hmode.trans hm)⟩

theorem refused_alreadyLogged {s' : Session} {e : ProtocolCode} :
    (∃ a, (refused fs s' r (refuse e)).answer = some a ∧ a.code = .userAlreadyLogged) ↔ e = .userAlreadyLogged := by
  simp [refused, refuse, protocolError]

theorem executeCommand_auth_iff (hm : s.context.mode = .command) (hr : r.name = ascii "auth")
    (hp : Auth.parseFields r.fields = .ok (.auth u p)) :
    (∃ a, (s.executeCommand srv around fs r).answer = some a ∧ a.code = .userAlreadyLogged) ↔
      srv.Credentials u p ∧ (u ∈ around.usernames ∨ s.context.isAuthorized = true) := by
  rcases @executeCommand_auth srv around fs s r u p hm hr hp with
    ⟨hbad, s', -, hx⟩ | ⟨hcred, hor, hx⟩ | ⟨-, hfree, hnone, hx⟩
  · rw [hx, refused_alreadyLogged]
    simp [hbad]
  · rw [hx, refused_alreadyLogged]
    simp [hcred, hor]
  · have hout : ¬ s.context.isAuthorized = true := by
      simpa [username, ClientContext.isAuthorized] using hnone
    have hno : ¬ ∃ a, (s.executeCommand srv around fs r).answer = some a ∧ a.code = .userAlreadyLogged := by
      rintro ⟨a, ha, hcode⟩
      rcases hx with ⟨-, hx⟩ | ⟨s', hx⟩
      · simp [hx] at ha
      · rw [hx] at ha
        rw [← Option.some.inj ha] at hcode
        cases hcode
    simp [hno, hfree, hout]

theorem executeCommand_auth_fails (hm : s.context.mode = .command) (hr : r.name = ascii "auth")
    (hfail : ¬ ∃ a, (s.executeCommand srv around fs r).answer = some a ∧ a.code = .ok) :
    (s.executeCommand srv around fs r).fatal = false ∧
      (s.executeCommand srv around fs r).session.username = s.username ∨
    (s.executeCommand srv around fs r).fatal = true ∧ s.username = none := by
  have hset : CommandExecutor.setCommand s.context r.name = .ok .auth := hr ▸ setCommand_auth s.context
  cases hp : Auth.parseFields r.fields with
  | error e =>
    rw [executeCommand_unparsed hset hp]
    cases e with
    | fatal => exact absurd hp (Auth.parseFields_ne_fatal r.fields)
    | protocol e => exact .inl ⟨rfl, rfl⟩
  | ok command =>
    have hname := @CommandExecutor.parseFields_commandName srv fs s.context r.fields .auth command hp
    cases command <;> simp only [Command.commandName, reduceCtorEq] at hname
    rename_i u p
    rcases @executeCommand_auth srv around fs s r u p hm hr hp with
      ⟨-, s', hs', hx⟩ | ⟨-, -, hx⟩ | ⟨-, -, hnone, ⟨hx, -⟩ | ⟨s', hx⟩⟩
    · rw [hx, refused_session]
      exact .inl ⟨rfl, hs'⟩
    · rw [hx, refused_session]
      exact .inl ⟨rfl, rfl⟩
    · exact .inr ⟨hx, hnone⟩
    · exact absurd ⟨_, by rw [hx], rfl⟩ hfail

end Session

namespace AccountServer

variable {M : AccountServer}

/-- The state after a request; a client that has thrown is removed. -/
def settled (srv : ServerContext) (M : AccountServer) (fd : Nat) (s : Session) (r : Request) (available : Nat)
    (lastWriteTime : Path → Bytes) : AccountServer :=
  let M' := M.step srv (.request fd r available lastWriteTime)
  if (M.execute srv s r available lastWriteTime).fatal then M'.step srv (.disconnect fd) else M'

theorem step_request {fd : Nat} {s : Session} (found : M.server.lookup fd = some s) (hm : s.context.mode = .command)
    (r : Request) (available : Nat) (lastWriteTime : Path → Bytes) :
    (M.step srv (.request fd r available lastWriteTime)).server =
      M.server.put (M.execute srv s r available lastWriteTime).fs fd
        (Server.killIf (M.execute srv s r available lastWriteTime).fatal
          (M.execute srv s r available lastWriteTime).session) := by
  simp only [step, found, hm, if_true]

theorem settled_user {fd : Nat} {s : Session} (found : M.server.lookup fd = some s) (hm : s.context.mode = .command)
    {r : Request} (hr : r.name = ascii "auth") {available : Nat} {lastWriteTime : Path → Bytes}
    (hfail : ¬ ∃ a, (M.execute srv s r available lastWriteTime).answer = some a ∧ a.code = .ok) :
    (M.settled srv fd s r available lastWriteTime).server.user = M.server.user := by
  have huser : s.username = M.server.user fd := by simp [Server.user, found]
  have hserver := @step_request srv M fd s found hm r available lastWriteTime
  rcases Session.executeCommand_auth_fails hm hr hfail with ⟨hfatal, hsame⟩ | ⟨hfatal, hnone⟩
  · have hfatal' : (M.execute srv s r available lastWriteTime).fatal = false := hfatal
    simp only [settled, hfatal', Bool.false_eq_true, if_false]
    rw [hserver, Server.user_put found, killIf_username]
    have hsame' : (M.execute srv s r available lastWriteTime).session.username = s.username := hsame
    rw [hsame', huser, Function.update_eq_self]
  · have hfatal' : (M.execute srv s r available lastWriteTime).fatal = true := hfatal
    have hput := fun s' => Server.lookup_put found (M.execute srv s r available lastWriteTime).fs s' fd
    simp only [settled, hfatal', if_true, step, Server.step, found, hm, hput]
    rw [Server.user_gone, Server.user_put found, Function.update_idem, ← hnone, huser, Function.update_eq_self]

/-- One session for each account: no two clients are logged in as the same user, every token that
is held is registered, `auth` is refused to a user with valid credentials exactly when the user or
the client is logged in, and an `auth` that fails changes nothing for anybody. -/
theorem one_session_per_account
    (h : Runs.Reaches (AccountServer.step srv) (fun _ _ => True) (AccountServer.start fs) M) :
    (∀ e ∈ M.server.sessions, ∀ e' ∈ M.server.sessions, ∀ u, e.2.username = some u → e'.2.username = some u → e = e') ∧
    (∀ e ∈ M.server.sessions, ∀ u, e.2.username = some u →
      ∃ id, M.tokens.held e.1 = some id ∧ (id, u) ∈ M.tokens.registered) ∧
    (∀ fd s r u p available lastWriteTime, M.server.lookup fd = some s → s.context.mode = .command →
      r.name = ascii "auth" → Auth.parseFields r.fields = .ok (.auth u p) →
      ((∃ a, (M.execute srv s r available lastWriteTime).answer = some a ∧ a.code = .userAlreadyLogged) ↔
        srv.Credentials u p ∧
          ((∃ e ∈ M.server.sessions, e.2.username = some u) ∨ s.context.isAuthorized = true))) ∧
    (∀ fd s r available lastWriteTime, M.server.lookup fd = some s → s.context.mode = .command →
      r.name = ascii "auth" →
      (¬ ∃ a, (M.execute srv s r available lastWriteTime).answer = some a ∧ a.code = .ok) →
      let M' := M.settled srv fd s r available lastWriteTime
      M'.server.user = M.server.user ∧ ∀ u p available lastWriteTime,
        srv.authorizeUser (M'.surroundings available lastWriteTime) u p =
          srv.authorizeUser (M.surroundings available lastWriteTime) u p) := by
  have hinv : M.Inv := h.invariant (inv_start fs) fun _ a hM _ => hM.step a
  have huser : ∀ e ∈ M.server.sessions, M.server.user e.1 = e.2.username := by
    intro e he
    simp [Server.user, Server.lookup_of_mem hinv.nodup he]
  refine ⟨?_, ?_, ?_, ?_⟩
  · intro e he e' he' u hu hu'
    have hfd := hinv.tracks.distinct e.1 e'.1 u ((huser e he).trans hu) ((huser e' he').trans hu')
    have hlook := Server.lookup_of_mem hinv.nodup he
    rw [hfd, Server.lookup_of_mem hinv.nodup he'] at hlook
    exact Prod.ext hfd (Option.some.inj hlook).symm
  · intro e he u hu
    exact hinv.tracks.held e.1 u ((huser e he).trans hu)
  · intro fd s r u p available lastWriteTime found hm hr hp
    rw [execute, Session.executeCommand_auth_iff hm hr hp, hinv.mem_usernames,
      ← Server.mem_usernames hinv.nodup]
    simp [Server.usernames]
  · intro fd s r available lastWriteTime found hm hr hfail
    have hsame := settled_user found hm hr hfail
    have hinv' : (M.settled srv fd s r available lastWriteTime).Inv := by
      simp only [settled]
      split
      · exact (hinv.step _).step _
      · exact hinv.step _
    refine ⟨hsame, fun u p available' lastWriteTime' => ServerContext.authorizeUser_congr (fun v => ?_) u p⟩
    rw [hinv'.mem_usernames, hinv.mem_usernames, hsame]

/-- A second client asks for the account of the first. -/
theorem one_session_per_account_refused :
    let M := Runs.run (AccountServer.step Sample.server) (.start ⟨Sample.tree [], []⟩)
      (Sample.loggedIn 0 "u" [.connect 1])
    ∃ a, (M.execute Sample.server .new (Sample.auth "u") 0 (fun _ => [])).answer = some a ∧
      a.code = .userAlreadyLogged := by
  have hreach : Runs.Reaches (AccountServer.step Sample.server) (fun _ _ => True) (.start ⟨Sample.tree [], []⟩)
      (Runs.run (AccountServer.step Sample.server) (.start ⟨Sample.tree [], []⟩) (Sample.loggedIn 0 "u" [.connect 1])) :=
    Runs.AllMeet.reaches ⟨trivial, trivial, trivial, trivial⟩
  obtain ⟨-, -, hiff, -⟩ := one_session_per_account hreach
  refine (hiff 1 .new (Sample.auth "u") (ascii "u") (ascii "pw") 0 (fun _ => []) (by decide) rfl rfl rfl).mpr ⟨?_, ?_⟩
  · exact ⟨⟨ascii "u", ascii "pw", 62⟩, rfl, by decide⟩
  · exact .inl ⟨(0, Sample.session), by decide, rfl⟩

end AccountServer

end TinDox
