import TinDox.Gate
import TinDox.Killed
import TinDox.Replies

/-! All connections of the server, down to the bytes they send. A request that the gate stops
has no effect, so clients that never log in are invisible to the others. -/

namespace TinDox

structure Network where
  fs : FileSystem
  clients : List (Nat × Client)

/-- What happens at a socket: a connection is accepted, handled or closed. -/
inductive Happening where
  | connect (fd : Nat)
  | handle (fd : Nat) (events : SocketEvents) (available : Nat) (lastWriteTime : Path → Bytes)
  | close (fd : Nat)

def Happening.fd : Happening → Nat
  | connect fd => fd
  | handle fd _ _ _ => fd
  | close fd => fd

/-- It concerns a client outside of the set. -/
def Happening.low (U : Nat → Bool) (a : Happening) : Bool := ! U a.fd

namespace Network

def start (fs : FileSystem) : Network := ⟨fs, []⟩

def lookup (N : Network) (fd : Nat) : Option Client := (N.clients.find? (fun e => e.1 = fd)).map (·.2)

def put (N : Network) (fs : FileSystem) (fd : Nat) (c : Client) : Network :=
  ⟨fs, N.clients.map (fun e => if e.1 = fd then (fd, c) else e)⟩

def locks (N : Network) : List Path := N.clients.flatMap (fun e => e.2.session.locks)

/-- What the other clients hold when one of them is handled. -/
def others (N : Network) (fd : Nat) (available : Nat) (lastWriteTime : Path → Bytes) : Surroundings :=
  let rest := N.clients.filter (fun e => e.1 ≠ fd)
  ⟨rest.flatMap (fun e => e.2.session.locks), rest.filterMap (fun e => e.2.session.username), available, lastWriteTime⟩

/-- A client that is not alive is closed and not handled again. -/
def step (srv : ServerContext) (N : Network) : Happening → Network
  | .connect fd =>
    match N.lookup fd with
    | some _ => N
    | none => { N with clients := N.clients ++ [(fd, .new)] }
  | .handle fd events available lastWriteTime =>
    match N.lookup fd with
    | none => N
    | some c =>
      if c.isAlive then
        let h := c.handle srv (N.others fd available lastWriteTime) N.fs events
        N.put h.fs fd h.client
      else N
  | .close fd =>
    match N.lookup fd with
    | none => N
    | some c => ⟨c.session.uploadManager.destroy N.fs, N.clients.filter (fun e => e.1 ≠ fd)⟩

def sends (srv : ServerContext) (N : Network) : Happening → Option (Nat × Bytes)
  | .handle fd events available lastWriteTime =>
    match N.lookup fd with
    | none => none
    | some c =>
      if c.isAlive then some (fd, c.writes srv (N.others fd available lastWriteTime) N.fs events) else none
  | _ => none

/-- The clients of a set are not logged in at any time while they are handled. -/
def LoggedOut (srv : ServerContext) (U : Nat → Bool) (N : Network) : Happening → Prop
  | .handle fd events available lastWriteTime =>
    U fd = true → ∀ c, N.lookup fd = some c → c.isAlive = true →
      let h := c.handle srv (N.others fd available lastWriteTime) N.fs events
      (∀ it ∈ h.trace, it.session.context.authToken = none) ∧ h.client.session.context.authToken = none
  | _ => True

instance (srv : ServerContext) (U : Nat → Bool) (N : Network) (a : Happening) : Decidable (LoggedOut srv U N a) :=
  match a with
  | .handle fd events available lastWriteTime =>
    inferInstanceAs (Decidable (U fd = true → ∀ c ∈ N.lookup fd, c.isAlive = true →
      let h := c.handle srv (N.others fd available lastWriteTime) N.fs events
      (∀ it ∈ h.trace, it.session.context.authToken = none) ∧ h.client.session.context.authToken = none))
  | .connect _ | .close _ => inferInstanceAs (Decidable True)

end Network

namespace Session

/-- The session of a client that has never been logged in. -/
def Blank (s : Session) : Prop :=
  ∃ alive count, s = ⟨{ ClientContext.new with alive := alive, authTryCount := count }, .new, .new⟩

theorem blank_new : Blank .new := ⟨true, 0, rfl⟩

variable {s : Session}

theorem Blank.kill (h : s.Blank) : s.kill.Blank := by
  obtain ⟨alive, count, rfl⟩ := h
  exact ⟨false, count, rfl⟩

theorem Blank.locks (h : s.Blank) : s.locks = [] := by
  obtain ⟨alive, count, rfl⟩ := h
  rfl

theorem Blank.username (h : s.Blank) : s.username = none := by
  obtain ⟨alive, count, rfl⟩ := h
  rfl

theorem Blank.authToken (h : s.Blank) : s.context.authToken = none := by
  obtain ⟨alive, count, rfl⟩ := h
  rfl

theorem Blank.mode (h : s.Blank) : s.context.mode = .command := by
  obtain ⟨alive, count, rfl⟩ := h
  rfl

theorem Blank.destroy (h : s.Blank) (fs : FileSystem) : s.uploadManager.destroy fs = fs := by
  obtain ⟨alive, count, rfl⟩ := h
  rfl

theorem Blank.executeCommand {srv : ServerContext} {around : Surroundings} {fs : FileSystem} (h : s.Blank) (r : Request) :
    (s.executeCommand srv around fs r).fs = fs ∧
    ((s.executeCommand srv around fs r).session.Blank ∨
      (s.executeCommand srv around fs r).session.context.authToken ≠ none) := by
  obtain ⟨hfs, hs⟩ := @executeCommand_unauthorized srv around fs s r h.authToken h.mode
  refine ⟨hfs, ?_⟩
  rcases hs with ⟨alive, count, hs⟩ | ⟨token, hs⟩ | ⟨token, -, hs⟩
  · obtain ⟨alive', count', rfl⟩ := h
    exact .inl ⟨alive, count, hs⟩
  · exact .inr (by simp [hs, withContext])
  · exact .inr (by simp [hs, withContext])

end Session

/-- Unless its client is logged in at some time, the handling leaves no trace. -/
def Handling.Unseen (fs : FileSystem) (h : Handling) : Prop :=
  (∀ it ∈ h.trace, it.session.context.authToken = none) → h.client.session.context.authToken = none →
    h.fs = fs ∧ h.client.session.Blank

namespace Client

variable {srv : ServerContext} {others : Surroundings} {fs : FileSystem} {c : Client} {input rest : Bytes} {h : Handling}

theorem handleOnce_blank (hc : c.session.Blank) (he : handleOnce srv others fs c input = (h, rest)) :
    h.fs = fs ∧ (h.client.session.Blank ∨ h.client.session.context.authToken ≠ none) := by
  simp only [handleOnce, hc.mode, handleRequest] at he
  rcases ht : c.interpreter.takeRequest input with ⟨i, rest', d⟩
  simp only [ht] at he
  rcases d with - | r | (e | -)
  · cases he
    exact ⟨rfl, .inl hc⟩
  · cases he
    exact hc.executeCommand r
  · cases he
    exact ⟨rfl, .inl hc⟩
  · cases he
    exact ⟨rfl, .inl hc⟩

theorem handleInputLoop_blank (fuel : Nat) (input : Bytes) (hc : c.session.Blank) :
    (handleInputLoop srv others fuel fs c input).Unseen fs := by
  induction fuel generalizing c input with
  | zero => exact fun _ _ => ⟨rfl, hc⟩
  | succ fuel ih =>
    rcases he : handleOnce srv others fs c input with ⟨h, rest⟩
    obtain ⟨hfs, hblank⟩ := handleOnce_blank hc he
    simp only [handleInputLoop, he]
    by_cases hstop : h.fatal = true ∨ rest = []
    · simp only [hstop, if_true]
      intro _ hend
      rcases hblank with hblank | hlogin
      · exact ⟨hfs, hblank⟩
      · exact absurd hend hlogin
    · simp only [hstop, if_false, hfs]
      intro htrace hend
      have hrest : ∀ it ∈ (handleInputLoop srv others fuel fs h.client rest).trace, it.session.context.authToken = none :=
        fun it hit => htrace it (List.mem_append_right _ hit)
      rcases hblank with hblank | hlogin
      · exact ih rest hblank hrest hend
      · cases fuel with
        | zero => exact absurd hend hlogin
        | succ fuel =>
          rcases he' : handleOnce srv others fs h.client rest with ⟨h', rest'⟩
          obtain ⟨rest'', d, htrace'⟩ := handleOnce_trace he'
          have hmem : ⟨fs, h.client.session, rest, rest'', d⟩ ∈
              (handleInputLoop srv others (fuel + 1) fs h.client rest).trace := by
            simp only [handleInputLoop, he']
            split <;> simp [htrace']
          exact absurd (hrest _ hmem) hlogin

theorem handleEvents_blank (events : SocketEvents) (hc : c.session.Blank) :
    (handleEvents srv others fs c events).Unseen fs := by
  unfold handleEvents
  split
  · have hloop : (handleInput srv others fs c c.pendingInput).Unseen fs := handleInputLoop_blank _ c.pendingInput hc
    unfold handlePendingInput
    dsimp only
    split
    · exact hloop
    · exact hloop
  · split
    · split
      · exact handleInputLoop_blank _ _ hc
      · exact fun _ _ => ⟨rfl, hc⟩
    · exact fun _ _ => ⟨rfl, hc⟩

theorem handleOutput_blank (events : SocketEvents) (hc : c.session.Blank) :
    (handleOutput fs c events).1.session.Blank := by
  rcases ho : handleOutput fs c events with ⟨c', e⟩
  cases handleOutput_outputs ho with
  | writes waiting => exact hc
  | idle none mode => exact hc
  | sends none mode handled | sendThrows none mode handled => simp [hc.mode] at mode

theorem handleOutput_authToken (fs : FileSystem) (c : Client) (events : SocketEvents) :
    (handleOutput fs c events).1.session.context.authToken = c.session.context.authToken := by
  rcases ho : handleOutput fs c events with ⟨c', e⟩
  cases handleOutput_outputs ho with
  | writes waiting => rfl
  | idle none mode => rfl
  | sends none mode handled | sendThrows none mode handled =>
    obtain ⟨mode', rfl⟩ := Session.handleDownloadManagerOutput_cases handled
    rfl

theorem handle_blank (events : SocketEvents) (hc : c.session.Blank) : (handle srv others fs c events).Unseen fs := by
  have hevents := @handleEvents_blank srv others fs c events hc
  unfold handle
  generalize handleEvents srv others fs c events = done at hevents ⊢
  obtain ⟨fs', c', fatal, trace⟩ := done
  cases fatal with
  | true =>
    intro htrace hend
    obtain ⟨hfs, hblank⟩ := hevents htrace (c'.session.authToken_kill.symm.trans hend)
    exact ⟨hfs, hblank.kill⟩
  | false =>
    by_cases ho : events.output = true
    · have htoken := handleOutput_authToken fs' c' events
      have hblank' := @handleOutput_blank fs' c' events
      simp only [ho, Bool.false_eq_true, if_false, if_true]
      rcases hwrite : handleOutput fs' c' events with ⟨c'', threw⟩
      rw [hwrite] at htoken hblank'
      cases threw with
      | true =>
        intro htrace hend
        obtain ⟨hfs, hblank⟩ := hevents htrace (htoken.symm.trans (c''.session.authToken_kill.symm.trans hend))
        exact ⟨hfs, (hblank' hblank).kill⟩
      | false =>
        intro htrace hend
        obtain ⟨hfs, hblank⟩ := hevents htrace (htoken.symm.trans hend)
        exact ⟨hfs, hblank' hblank⟩
    · simp only [ho, Bool.false_eq_true, if_false]
      exact hevents

end Client

namespace Network

variable {srv : ServerContext} {U : Nat → Bool} {N N' : Network} {fd : Nat} {c : Client}

def visible (U : Nat → Bool) (N : Network) : List (Nat × Client) := N.clients.filter (fun e => ! U e.1)

theorem mem_of_lookup (h : N.lookup fd = some c) : (fd, c) ∈ N.clients := by
  obtain ⟨e, he, rfl⟩ := Option.map_eq_some_iff.mp h
  have hfd := List.find?_some he
  simp only [decide_eq_true_eq] at hfd
  exact hfd ▸ List.mem_of_find?_eq_some he

theorem lookup_visible (hU : U fd = false) (N : Network) :
    N.lookup fd = ((N.visible U).find? (fun e => e.1 = fd)).map (·.2) := by
  rw [lookup, visible, List.find?_filter]
  congr 2
  funext e
  by_cases he : e.1 = fd <;> simp [he, hU]

theorem flatMap_filter_of_nil {α β : Type} {p : α → Bool} {f : α → List β} {l : List α}
    (h : ∀ e ∈ l, p e = false → f e = []) : (l.filter p).flatMap f = l.flatMap f := by
  induction l with
  | nil => rfl
  | cons e l ih =>
    have hl := ih fun x hx => h x (by simp [hx])
    cases he : p e with
    | true => rw [List.filter_cons_of_pos he, List.flatMap_cons, List.flatMap_cons, hl]
    | false => rw [List.filter_cons_of_neg (by simp [he]), List.flatMap_cons, h e (by simp) he, hl, List.nil_append]

theorem filterMap_filter_of_none {α β : Type} {p : α → Bool} {f : α → Option β} {l : List α}
    (h : ∀ e ∈ l, p e = false → f e = none) : (l.filter p).filterMap f = l.filterMap f := by
  rw [List.filterMap_filter]
  refine List.filterMap_congr fun e he => ?_
  cases hp : p e with
  | true => simp
  | false => simp [h e he hp]

/-- The clients of the set have never been logged in. -/
def Blank (U : Nat → Bool) (N : Network) : Prop := ∀ e ∈ N.clients, U e.1 = true → e.2.session.Blank

theorem Blank.locks (h : N.Blank U) : N.locks = (N.visible U).flatMap (fun e => e.2.session.locks) := by
  refine (flatMap_filter_of_nil fun e he hu => ?_).symm
  exact (h e he (by simpa using hu)).locks

theorem Blank.others (h : N.Blank U) (fd available : Nat) (lastWriteTime : Path → Bytes) :
    N.others fd available lastWriteTime =
      let rest := (N.visible U).filter (fun e => e.1 ≠ fd)
      ⟨rest.flatMap (fun e => e.2.session.locks), rest.filterMap (fun e => e.2.session.username), available,
        lastWriteTime⟩ := by
  have hrest : (N.visible U).filter (fun e => e.1 ≠ fd) =
      (N.clients.filter (fun e => e.1 ≠ fd)).filter (fun e => ! U e.1) := by
    simp only [visible, List.filter_filter, Bool.and_comm]
  have hblank : ∀ e ∈ N.clients.filter (fun e => e.1 ≠ fd), (! U e.1) = false → e.2.session.Blank :=
    fun e he hu => h e (List.mem_filter.mp he).1 (by simpa using hu)
  simp only [Network.others, hrest, flatMap_filter_of_nil fun e he hu => (hblank e he hu).locks,
    filterMap_filter_of_none fun e he hu => (hblank e he hu).username]

theorem visible_put (fs : FileSystem) (fd : Nat) (c : Client) :
    (N.put fs fd c).visible U = (N.visible U).map (fun e => if e.1 = fd then (fd, c) else e) := by
  have hkey : ((fun e : Nat × Client => ! U e.1) ∘ fun e => if e.1 = fd then (fd, c) else e) = fun e => ! U e.1 := by
    funext e
    by_cases he : e.1 = fd <;> simp [he]
  simp only [visible, put, List.filter_map, hkey]

theorem visible_put_of_hidden (hU : U fd = true) (fs : FileSystem) (c : Client) :
    (N.put fs fd c).visible U = N.visible U := by
  rw [visible_put]
  refine (List.map_congr_left fun e he => ?_).trans (List.map_id _)
  have hne : e.1 ≠ fd := by
    rintro rfl
    have hu := (List.mem_filter.mp he).2
    simp [hU] at hu
  simp [hne]

theorem Blank.put (h : N.Blank U) (fs : FileSystem) (hc : U fd = true → c.session.Blank) : (N.put fs fd c).Blank U := by
  intro e he hu
  simp only [Network.put, List.mem_map] at he
  obtain ⟨e', he', rfl⟩ := he
  by_cases hfd : e'.1 = fd
  · simp only [hfd, if_true] at hu ⊢
    exact hc hu
  · simp only [hfd, if_false] at hu ⊢
    exact h e' he' hu

theorem Blank.connect (h : N.Blank U) (fd : Nat) : Blank U { N with clients := N.clients ++ [(fd, .new)] } := by
  intro e he hue
  rcases List.mem_append.mp he with he | he
  · exact h e he hue
  · rw [List.mem_singleton.mp he]
    exact Session.blank_new

/-- Two networks that look the same from outside of the set. -/
structure Alike (U : Nat → Bool) (N N' : Network) : Prop where
  fs : N.fs = N'.fs
  visible : N.visible U = N'.visible U
  blank : N.Blank U
  blank' : N'.Blank U

theorem alike_refl (h : N.Blank U) : N.Alike U N := ⟨rfl, rfl, h, h⟩

/-- What a client of the set does while it is not logged in cannot be seen. -/
theorem Alike.hidden (h : N.Alike U N') {a : Happening} (hU : a.low U = false) (hok : N.LoggedOut srv U a) :
    (N.step srv a).Alike U N' := by
  have hu : U a.fd = true := by simpa [Happening.low] using hU
  cases a with
  | connect fd =>
    simp only [step]
    split
    · exact h
    · refine ⟨h.fs, ?_, h.blank.connect fd, h.blank'⟩
      have hu' : U fd = true := hu
      rw [← h.visible]
      simp [Network.visible, hu']
  | handle fd events available lastWriteTime =>
    simp only [step]
    split
    · exact h
    · rename_i c found
      split
      · rename_i halive
        obtain ⟨htrace, hend⟩ := hok hu c found halive
        have hc : c.session.Blank := h.blank _ (mem_of_lookup found) hu
        obtain ⟨hfs, hblank⟩ := Client.handle_blank events hc htrace hend
        refine ⟨hfs.trans h.fs, ?_, h.blank.put _ fun _ => hblank, h.blank'⟩
        have hu' : U fd = true := hu
        rw [visible_put_of_hidden hu']
        exact h.visible
      · exact h
  | close fd =>
    simp only [step]
    split
    · exact h
    · rename_i c found
      have hc : c.session.Blank := h.blank _ (mem_of_lookup found) hu
      refine ⟨(hc.destroy N.fs).trans h.fs, ?_, fun e he => h.blank e (List.mem_filter.mp he).1, h.blank'⟩
      rw [← h.visible]
      simp only [Network.visible, List.filter_filter]
      refine List.filter_congr fun e _ => ?_
      by_cases hfd : e.1 = fd
      · have hu' : U e.1 = true := hfd ▸ hu
        simp [hu']
      · simp [hfd]

/-- What the other clients do has the same result, with the same bytes on their sockets. -/
theorem Alike.seen (h : N.Alike U N') {a : Happening} (hU : a.low U = true) :
    (N.step srv a).Alike U (N'.step srv a) ∧ N.sends srv a = N'.sends srv a := by
  have hu : U a.fd = false := by simpa [Happening.low] using hU
  have hlookup : N.lookup a.fd = N'.lookup a.fd := by rw [lookup_visible hu, lookup_visible hu, h.visible]
  have hothers : ∀ available lastWriteTime, N.others a.fd available lastWriteTime =
      N'.others a.fd available lastWriteTime := by
    intro available lastWriteTime
    rw [h.blank.others, h.blank'.others, h.visible]
  cases a with
  | connect fd =>
    refine ⟨?_, rfl⟩
    have hlookup' : N.lookup fd = N'.lookup fd := hlookup
    simp only [step, ← hlookup']
    split
    · exact h
    · refine ⟨h.fs, ?_, h.blank.connect fd, h.blank'.connect fd⟩
      have hv : N.clients.filter (fun e => ! U e.1) = N'.clients.filter (fun e => ! U e.1) := h.visible
      simp only [Network.visible, List.filter_append, hv]
  | handle fd events available lastWriteTime =>
    have hlookup' : N.lookup fd = N'.lookup fd := hlookup
    have hothers' := hothers available lastWriteTime
    simp only [Happening.fd] at hothers'
    simp only [step, sends, ← hlookup', ← hothers', ← h.fs]
    cases N.lookup fd with
    | none => exact ⟨h, trivial⟩
    | some c =>
      by_cases halive : c.isAlive = true
      · simp only [halive, if_true, and_true]
        have hnot : U fd = true → (c.handle srv (N.others fd available lastWriteTime) N.fs events).client.session.Blank :=
          fun hh => absurd (hh.symm.trans hu) (by simp)
        exact ⟨rfl, by rw [visible_put, visible_put, h.visible], h.blank.put _ hnot, h.blank'.put _ hnot⟩
      · simp only [halive, Bool.false_eq_true, if_false, and_true]
        exact h
  | close fd =>
    refine ⟨?_, rfl⟩
    have hlookup' : N.lookup fd = N'.lookup fd := hlookup
    simp only [step, ← hlookup', ← h.fs]
    split
    · exact h
    · refine ⟨rfl, ?_, fun e he => h.blank e (List.mem_filter.mp he).1, fun e he => h.blank' e (List.mem_filter.mp he).1⟩
      have hcomm : ∀ N : Network, (N.clients.filter (fun e => e.1 ≠ fd)).filter (fun e => ! U e.1) =
          (N.visible U).filter (fun e => e.1 ≠ fd) := by
        intro N
        simp only [Network.visible, List.filter_filter, Bool.and_comm]
      simp only [Network.visible] at hcomm ⊢
      rw [hcomm, hcomm]
      exact congrArg _ h.visible

end Network

theorem Client.handleOnce_gate (srv : ServerContext) (others : Surroundings) (fs : FileSystem) {c : Client}
    {input rest : Bytes} {i : ProtocolInterpreter} {r : Request} (hm : c.session.context.mode = .command)
    (ht : c.interpreter.takeRequest input = (i, rest, .request r))
    (hname : r.name ≠ ascii "auth" ∧ r.name ≠ ascii "exit" ∧ r.name ≠ ascii "bye")
    (hno : ∀ n, CommandName.ofBytes r.name = some n → ¬ CommandExecutor.Allowed c.session.context n) :
    ∃ e : ProtocolError, handleOnce srv others fs c input =
        (⟨fs, { c with interpreter := i, responses := c.responses ++ [buildResponse e.code r.name [e.what]] }, false,
          [⟨fs, c.session, input, rest, .request r⟩]⟩, rest) ∧
      e.code = if CommandName.ofBytes r.name = none then .badCommand
        else if c.session.context.authToken = none then .notLoggedIn else .notEnoughPerms := by
  have hrefused : ∀ e : ProtocolError, CommandExecutor.setCommand c.session.context r.name = .error (.protocol e) →
      handleOnce srv others fs c input =
        (⟨fs, { c with interpreter := i, responses := c.responses ++ [buildResponse e.code r.name [e.what]] }, false,
          [⟨fs, c.session, input, rest, .request r⟩]⟩, rest) := by
    intro e he
    simp only [handleOnce, hm, handleRequest, ht, Session.executeCommand_stopped he]
    rfl
  cases hn : CommandName.ofBytes r.name with
  | none => exact ⟨_, hrefused _ (CommandExecutor.setCommand_unknown hn), by simp [protocolError]⟩
  | some n =>
    have hauth : n.requiresAuthorization = true := by
      by_contra hh
      have hbytes := CommandName.ofBytes_eq hn
      rcases CommandExecutor.requiresAuthorization_eq_false (by simpa using hh) with rfl | rfl | rfl
      · exact hname.1 hbytes
      · exact hname.2.2 hbytes
      · exact hname.2.1 hbytes
    rcases CommandExecutor.setCommand_refuses hn hauth (hno n hn) with ⟨hset, hnone⟩ | ⟨hset, hsome⟩
    · exact ⟨_, hrefused _ hset, by simp [protocolError, hnone]⟩
    · exact ⟨_, hrefused _ hset, by simp [protocolError, hsome]⟩

namespace Network

open Runs

/-- The gate. A delivered request for a command that needs a login, and that the client may not
run, is answered with the reason and has no other effect, in whatever state its client is. It may run
what its permissions say. So two runs that differ only in what a set of clients does that never log in
have the same file system, the same locks, the same other clients and the same bytes on their sockets. -/
theorem gate (srv : ServerContext) :
    (∀ (c : ClientContext) (n : CommandName), CommandExecutor.Allowed c n ↔ ∃ token, c.authToken = some token ∧
      ((n = .mkdir ∨ n = .rm ∨ n = .rename) → token.perms &&& .write ≠ 0) ∧
      (n = .cp → token.perms &&& .copy ≠ 0) ∧ (n = .mv → token.perms &&& .move ≠ 0) ∧
      ((n = .dl ∨ n = .dls) → token.perms &&& .download ≠ 0) ∧ (n = .ul → token.perms &&& .upload ≠ 0)) ∧
    (∀ (others : Surroundings) (fs : FileSystem) (c : Client) (input rest : Bytes) (i : ProtocolInterpreter) (r : Request),
      c.session.context.mode = .command → c.interpreter.takeRequest input = (i, rest, .request r) →
      (r.name ≠ ascii "auth" ∧ r.name ≠ ascii "exit" ∧ r.name ≠ ascii "bye") →
      (∀ n, CommandName.ofBytes r.name = some n → ¬ CommandExecutor.Allowed c.session.context n) →
      ∃ e : ProtocolError, c.handleOnce srv others fs input =
          (⟨fs, { c with interpreter := i, responses := c.responses ++ [buildResponse e.code r.name [e.what]] }, false,
            [⟨fs, c.session, input, rest, .request r⟩]⟩, rest) ∧
        e.code = if CommandName.ofBytes r.name = none then .badCommand
          else if c.session.context.authToken = none then .notLoggedIn else .notEnoughPerms) ∧
    (∀ (U : Nat → Bool) (fs : FileSystem) (as bs : List Happening),
      AllMeet (step srv) (LoggedOut srv U) (start fs) as → AllMeet (step srv) (LoggedOut srv U) (start fs) bs →
      as.filter (Happening.low U) = bs.filter (Happening.low U) →
      (run (step srv) (start fs) as).fs = (run (step srv) (start fs) bs).fs ∧
      (run (step srv) (start fs) as).locks = (run (step srv) (start fs) bs).locks ∧
      (∀ fd, U fd = false → (run (step srv) (start fs) as).lookup fd = (run (step srv) (start fs) bs).lookup fd) ∧
      outputs (step srv) (sends srv) (Happening.low U) (start fs) as =
        outputs (step srv) (sends srv) (Happening.low U) (start fs) bs) := by
  refine ⟨fun c n => CommandExecutor.allowed_iff,
    fun others fs c input rest i r hm ht hname hno => Client.handleOnce_gate srv others fs hm ht hname hno, ?_⟩
  intro U fs as bs has hbs hsame
  have hstart : (start fs).Alike U (start fs) := alike_refl (by simp [Blank, start])
  have hpurge : ∀ {cs : List Happening}, AllMeet (step srv) (LoggedOut srv U) (start fs) cs → _ ∧ _ := fun hcs =>
    hcs.purge (R := Alike U) (sends srv) (Happening.low U) (fun _ _ _ h hl hok => h.hidden hl hok)
      (fun _ _ _ h hl => h.seen hl) hstart
  obtain ⟨ha, houta⟩ := hpurge has
  obtain ⟨hb, houtb⟩ := hpurge hbs
  rw [← hsame] at hb houtb
  refine ⟨ha.fs.trans hb.fs.symm, ?_, fun fd hU => ?_, houta.trans houtb.symm⟩
  · rw [ha.blank.locks, hb.blank.locks, ha.visible, hb.visible]
  · rw [lookup_visible hU, lookup_visible hU, ha.visible, hb.visible]

end Network

namespace Sample

def receives (fd : Nat) (input : String) : Happening :=
  .handle fd ⟨true, false, some (ascii input), [], false, 0⟩ 1000 (fun _ => [])

/-- A client logs in, while another one that does not may send something. -/
def knocking (input : List Happening) : List Happening :=
  [.connect 0, .connect 1] ++ input ++ [receives 1 "auth\nlogin:u\npasswd:pw\n\nmkdir\nname:x\n\n"]

end Sample

namespace Network

open Runs

theorem gate_knocking :
    (∃ e : ProtocolError, Client.new.handleOnce Sample.server Sample.around ⟨Sample.tree [], []⟩ (ascii "mkdir\nname:x\n\n") =
        (⟨⟨Sample.tree [], []⟩, { Client.new with responses := [buildResponse e.code (ascii "mkdir") [e.what]] }, false,
          [⟨⟨Sample.tree [], []⟩, .new, ascii "mkdir\nname:x\n\n", [], .request ⟨ascii "mkdir", [Sample.string "name" "x"]⟩⟩]⟩, []) ∧
      e.code = .notLoggedIn) ∧
    let N := run (step Sample.server) (start ⟨Sample.tree [], []⟩) (Sample.knocking [Sample.receives 0 "mkdir\nname:x\n\n"])
    let N' := run (step Sample.server) (start ⟨Sample.tree [], []⟩) (Sample.knocking [])
    N.fs = N'.fs ∧ N.fs.get [ascii "r", ascii "x"] = some .dir ∧ N.locks = N'.locks ∧ N.lookup 1 = N'.lookup 1 := by
  obtain ⟨-, hrefused, hsame⟩ := gate Sample.server
  constructor
  · obtain ⟨e, hstep, hcode⟩ := hrefused Sample.around ⟨Sample.tree [], []⟩ .new (ascii "mkdir\nname:x\n\n") [] _
      ⟨ascii "mkdir", [Sample.string "name" "x"]⟩ rfl (by decide +kernel : _ = (ProtocolInterpreter.fresh, _, _)) (by decide) (by
        rintro n - ⟨token, ht, -⟩
        cases ht)
    exact ⟨e, hstep, hcode⟩
  · intro N N'
    obtain ⟨hfs, hlocks, hclients, -⟩ := hsame (fun fd => fd = 0) ⟨Sample.tree [], []⟩
      (Sample.knocking [Sample.receives 0 "mkdir\nname:x\n\n"]) (Sample.knocking []) (by decide +kernel) (by decide +kernel) rfl
    exact ⟨hfs, by decide +kernel, hlocks, hclients 1 rfl⟩

end Network

end TinDox
