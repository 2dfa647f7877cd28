import TinDox.Runs
import TinDox.Session
import TinDox.WeakRegistry

/-! `authorize_user` step by step. The call holds the mutex of the tokens from its purge to the
registration, but a token lives in a client's context, and logging out, closing a connection and a
refused second login let it go without the mutex. -/

namespace TinDox

namespace LoginRace

/-- How far the `auth` request of a client has got. -/
inductive Stage where
  | atRest
  | locked (username password : Bytes)
  | purged (username password : Bytes)
  | verified (username : Bytes)
  | scanned (username : Bytes)
  | returned
  | refused (e : Exception)
  deriving DecidableEq

namespace Stage

def rests : Stage → Bool
  | atRest | refused _ => true
  | _ => false

/-- Inside `authorize_user`. -/
def inside : Stage → Bool
  | locked .. | purged .. | verified _ | scanned _ => true
  | _ => false

/-- Between the purge and the end of the scan. -/
def betweenPurgeAndScan : Stage → Bool
  | purged .. | verified _ => true
  | _ => false

end Stage

/-- A client points to a token from its context, and from the running call that has just been
given one; `clients` are those that have connected so far. -/
structure Logins where
  tokens : WeakRegistry (Nat × Bool) Bytes
  clients : List Nat
  stage : Nat → Stage
  mutex : Option Nat
  crashed : Bool

def start : Logins := ⟨.empty, [], fun _ => .atRest, none, false⟩

inductive Action where
  | connect (client : Nat)
  | lock (client : Nat) (username password : Bytes)
  | purge (client : Nat)
  | verify (client : Nat)
  | scan (client : Nat)
  | register (client : Nat)
  | accept (client : Nat)
  | release (client : Nat)
  deriving DecidableEq

namespace Logins

def context (client : Nat) : Nat × Bool := (client, false)

def call (client : Nat) : Nat × Bool := (client, true)

def owners (S : Logins) : List (Nat × Bool) := S.clients.flatMap (fun client => [context client, call client])

def setStage (S : Logins) (client : Nat) (stage : Stage) : Logins :=
  { S with stage := Function.update S.stage client stage }

/-- An exception leaves `authorize_user` and the mutex is free again. -/
def throw (S : Logins) (client : Nat) (e : Exception) : Logins :=
  { S.setStage client (.refused e) with mutex := none }

/-- An action that is not the next one of its client does nothing. -/
def step (srv : ServerContext) (S : Logins) : Action → Logins
  | .connect client => { S with clients := S.clients ++ [client] }
  | .lock client username password =>
    if S.mutex = none ∧ client ∈ S.clients ∧ (S.stage client).rests then
      { S.setStage client (.locked username password) with mutex := some client }
    else S
  | .purge client =>
    match S.stage client with
    | .locked username password =>
      { S.setStage client (.purged username password) with tokens := S.tokens.removeExpired S.owners }
    | _ => S
  | .verify client =>
    match S.stage client with
    | .purged username password =>
      match srv.getUser username with
      | none => S.throw client (refuse .invalidCredentials)
      | some u =>
        if ¬ srv.verifyPasswordOfUser u password then S.throw client (refuse .invalidCredentials)
        else S.setStage client (.verified username)
    | _ => S
  | .scan client =>
    match S.stage client with
    | .verified username =>
      match S.tokens.search S.owners (· = username) S.tokens.registered with
      | none => { S with crashed := true }
      | some true => S.throw client (refuse .userAlreadyLogged)
      | some false => S.setStage client (.scanned username)
    | _ => S
  | .register client =>
    match S.stage client with
    | .scanned username =>
      { S.setStage client .returned with
        tokens := (S.tokens.register username).hold (call client) S.tokens.next
        mutex := none }
    | _ => S
  | .accept client =>
    match S.stage client, S.tokens.held (call client) with
    | .returned, some id =>
      if (S.tokens.held (context client)).isSome then
        { S.setStage client (.refused (refuse .userAlreadyLogged)) with tokens := S.tokens.release (call client) }
      else
        { S.setStage client .atRest with
          tokens := (S.tokens.hold (context client) id).release (call client) }
    | _, _ => S
  | .release client =>
    if (S.stage client).rests then { S with tokens := S.tokens.release (context client) } else S

theorem stage_setStage (S : Logins) (client : Nat) (stage : Stage) : (S.setStage client stage).stage client = stage := by
  simp [setStage]

theorem step_purge {srv : ServerContext} {S : Logins} {client : Nat} {username password : Bytes}
    (hst : S.stage client = .locked username password) :
    S.step srv (.purge client) =
      { S.setStage client (.purged username password) with tokens := S.tokens.removeExpired S.owners } := by
  simp only [step, hst]

/-- Undisturbed, the steps are `authorize_user`. -/
theorem run_authorizeUser (srv : ServerContext) (S : Logins) (client : Nat) (username password : Bytes)
    (around : Surroundings) (hfree : S.mutex = none) (hk : client ∈ S.clients) (hr : (S.stage client).rests = true)
    (hus : around.usernames = (S.tokens.removeExpired S.owners).values) :
    (Runs.run (step srv) S [.lock client username password, .purge client, .verify client, .scan client]).stage client =
      match srv.authorizeUser around username password with
      | .ok _ => .scanned username
      | .error e => .refused e := by
  let locked : Logins := { S.setStage client (.locked username password) with mutex := some client }
  let purged : Logins :=
    { locked.setStage client (.purged username password) with tokens := S.tokens.removeExpired S.owners }
  have hlock : S.step srv (.lock client username password) = locked := by
    rw [step, if_pos ⟨hfree, hk, hr⟩]
  have hpurge : locked.step srv (.purge client) = purged := step_purge (S.stage_setStage client _)
  have hst : purged.stage client = .purged username password := locked.stage_setStage client _
  simp only [Runs.run_cons, Runs.run_nil, hlock, hpurge, ServerContext.authorizeUser, hus]
  cases hu : srv.getUser username with
  | none => simp [step, hst, hu, Logins.throw, setStage]
  | some u =>
    by_cases hv : srv.verifyPasswordOfUser u password = true
    · have hverify : purged.step srv (.verify client) = purged.setStage client (.verified username) := by
        simp [step, hst, hu, hv]
      have hst' := purged.stage_setStage client (.verified username)
      have hsearch : (purged.setStage client (.verified username)).tokens.search
          (purged.setStage client (.verified username)).owners (· = username)
          (purged.setStage client (.verified username)).tokens.registered =
          some ((S.tokens.removeExpired S.owners).values.any (· = username)) :=
        (WeakRegistry.allHeld_removeExpired S.tokens S.owners).search_eq (· = username)
      rw [hverify]
      by_cases hm : username ∈ (S.tokens.removeExpired S.owners).values
      · have hany : (S.tokens.removeExpired S.owners).values.any (· = username) = true := by simpa using hm
        rw [hany] at hsearch
        simp only [step, hst', hsearch]
        simp [hv, hm, Logins.throw, setStage]
      · have hany : (S.tokens.removeExpired S.owners).values.any (· = username) = false := by
          simp only [List.any_eq_false, decide_eq_true_eq]
          exact fun x hx heq => hm (heq ▸ hx)
        rw [hany] at hsearch
        simp only [step, hst', hsearch]
        simp [hv, hm, setStage]
    · simp [step, hst, hu, hv, Logins.throw, setStage]

/-- Some client is between its purge and the end of its scan. -/
def searching (S : Logins) : Bool :=
  match S.mutex with
  | some client => (S.stage client).betweenPurgeAndScan
  | none => false

/-- No token is let go while a login is between its purge and its scan. -/
def ReleasesApart (S : Logins) : Action → Prop
  | .release client =>
    S.searching = true → (S.stage client).rests = true → S.tokens.held (context client) = none
  | .accept client =>
    S.searching = true → S.stage client = .returned → S.tokens.held (context client) = none
  | _ => True

instance (S : Logins) (a : Action) : Decidable (S.ReleasesApart a) := by
  cases a <;> unfold ReleasesApart <;> infer_instance

structure Inv (S : Logins) : Prop where
  safe : S.crashed = false
  owner : ∀ client, (S.stage client).inside = true → S.mutex = some client
  known : ∀ client, (S.stage client).rests = false → client ∈ S.clients
  live : S.searching = true → S.tokens.AllHeld S.owners

theorem inv_start : start.Inv where
  safe := rfl
  owner _ h := by simp [start, Stage.inside] at h
  known _ h := by simp [start, Stage.rests] at h
  live h := by simp [start, searching] at h

variable {srv : ServerContext} {S : Logins} {client : Nat}

theorem mem_owners (h : client ∈ S.clients) : context client ∈ S.owners := by
  simp only [owners, List.mem_flatMap]
  exact ⟨client, h, by simp⟩

/-- A client that moves on outside of the window, with the same mutex. -/
theorem Inv.owner_setStage (h : S.Inv) {stage : Stage} (hi : stage.inside = true → S.mutex = some client) :
    ∀ c, ((S.setStage client stage).stage c).inside = true → S.mutex = some c := by
  intro c hc
  by_cases he : c = client
  · subst he
    exact hi (by simpa [setStage] using hc)
  · exact h.owner c (by simpa [setStage, he] using hc)

theorem Inv.known_setStage (h : S.Inv) {stage : Stage} (hk : client ∈ S.clients) :
    ∀ c, ((S.setStage client stage).stage c).rests = false → c ∈ S.clients := by
  intro c hc
  by_cases he : c = client
  · exact he ▸ hk
  · exact h.known c (by simpa [setStage, he] using hc)

theorem Inv.throw (h : S.Inv) (hin : (S.stage client).inside = true) (e : Exception) : (S.throw client e).Inv := by
  have hm := h.owner client hin
  refine ⟨h.safe, ?_, ?_, ?_⟩
  · intro c hc
    by_cases he : c = client
    · simp [Logins.throw, setStage, he, Stage.inside] at hc
    · have hmc := h.owner c (by simpa [Logins.throw, setStage, he] using hc)
      exact absurd (Option.some.inj (hm.symm.trans hmc)).symm he
  · intro c hc
    by_cases he : c = client
    · simp [Logins.throw, setStage, he, Stage.rests] at hc
    · exact h.known c (by simpa [Logins.throw, setStage, he] using hc)
  · intro hs
    simp [Logins.throw, searching] at hs

theorem Inv.connect (h : S.Inv) (client : Nat) : Inv { S with clients := S.clients ++ [client] } where
  safe := h.safe
  owner := h.owner
  known c hc := List.mem_append_left _ (h.known c hc)
  live hs := by
    refine (h.live hs).mono ?_
    intro o ho
    simp only [owners, List.flatMap_append, List.mem_append]
    exact .inl ho

theorem Inv.lock (h : S.Inv) {username password : Bytes} (hfree : S.mutex = none) (hk : client ∈ S.clients) :
    Inv { S.setStage client (.locked username password) with mutex := some client } where
  safe := h.safe
  owner c hc := by
    by_cases he : c = client
    · rw [he]
    · have hm := h.owner c (by simpa [setStage, he] using hc)
      simp [hfree] at hm
  known := h.known_setStage hk
  live hs := by simp [searching, setStage, Stage.betweenPurgeAndScan] at hs

theorem Inv.purge (h : S.Inv) {username password : Bytes} (hst : S.stage client = .locked username password) :
    Inv { S.setStage client (.purged username password) with tokens := S.tokens.removeExpired S.owners } where
  safe := h.safe
  owner := h.owner_setStage (fun _ => h.owner client (by simp [hst, Stage.inside]))
  known := h.known_setStage (h.known client (by simp [hst, Stage.rests]))
  live _ := WeakRegistry.allHeld_removeExpired S.tokens S.owners

theorem Inv.advance (h : S.Inv) {stage : Stage} (hst : (S.stage client).betweenPurgeAndScan = true) :
    (S.setStage client stage).Inv := by
  have hin : (S.stage client).inside = true := by
    revert hst
    cases S.stage client <;> simp [Stage.betweenPurgeAndScan, Stage.inside]
  have hrest : (S.stage client).rests = false := by
    revert hst
    cases S.stage client <;> simp [Stage.betweenPurgeAndScan, Stage.rests]
  have hm := h.owner client hin
  have hs : S.searching = true := by simpa [searching, hm] using hst
  exact ⟨h.safe, h.owner_setStage (fun _ => hm), h.known_setStage (h.known client hrest), fun _ => h.live hs⟩

theorem Inv.scan (h : S.Inv) {username : Bytes} (hst : S.stage client = .verified username) :
    (S.step srv (.scan client)).Inv := by
  have hm := h.owner client (by simp [hst, Stage.inside])
  have hs : S.searching = true := by simp [searching, hm, hst, Stage.betweenPurgeAndScan]
  have hsearch := (h.live hs).search_eq (· = username)
  simp only [step, hst, hsearch]
  cases S.tokens.values.any (· = username) with
  | true => exact h.throw (by simp [hst, Stage.inside]) _
  | false => exact h.advance (by simp [hst, Stage.betweenPurgeAndScan])

theorem Inv.register (h : S.Inv) {username : Bytes} (hst : S.stage client = .scanned username) :
    Inv { S.setStage client .returned with
      tokens := (S.tokens.register username).hold (call client) S.tokens.next
      mutex := none } := by
  have hm := h.owner client (by simp [hst, Stage.inside])
  refine ⟨h.safe, ?_, h.known_setStage (h.known client (by simp [hst, Stage.rests])), ?_⟩
  · intro c hc
    by_cases he : c = client
    · simp [setStage, he, Stage.inside] at hc
    · have hmc := h.owner c (by simpa [setStage, he] using hc)
      exact absurd (Option.some.inj (hm.symm.trans hmc)).symm he
  · intro hs
    simp [searching] at hs

theorem searching_of_setStage {stage : Stage} (hst : stage.betweenPurgeAndScan = false)
    (hs : (S.setStage client stage).searching = true) : S.searching = true := by
  cases hm : S.mutex with
  | none => simp [searching, setStage, hm] at hs
  | some c =>
    by_cases he : c = client
    · simp [searching, setStage, hm, he, hst] at hs
    · simpa [searching, setStage, hm, he] using hs

theorem Inv.settle (h : S.Inv) {stage : Stage} {tokens : WeakRegistry (Nat × Bool) Bytes} (hr : stage.rests = true)
    (hlive : S.searching = true → tokens.AllHeld S.owners) :
    Inv { S.setStage client stage with tokens := tokens } := by
  have hin : stage.inside = false := by
    revert hr
    cases stage <;> simp [Stage.rests, Stage.inside]
  have hwin : stage.betweenPurgeAndScan = false := by
    revert hr
    cases stage <;> simp [Stage.rests, Stage.betweenPurgeAndScan]
  refine ⟨h.safe, h.owner_setStage (by simp [hin]), ?_, fun hs => hlive (searching_of_setStage hwin hs)⟩
  intro c hc
  by_cases he : c = client
  · simp [setStage, he, hr] at hc
  · exact h.known c (by simpa [setStage, he] using hc)

theorem Inv.step (h : S.Inv) {a : Action} (ha : S.ReleasesApart a) : (S.step srv a).Inv := by
  cases a with
  | connect client => exact h.connect client
  | lock client username password =>
    rw [Logins.step]
    split
    · rename_i hl
      exact h.lock hl.1 hl.2.1
    · exact h
  | purge client =>
    rw [Logins.step]
    split
    · exact h.purge ‹_›
    · exact h
  | verify client =>
    rw [Logins.step]
    split
    · rename_i username password hst
      split
      · exact h.throw (by simp [hst, Stage.inside]) _
      · split
        · exact h.throw (by simp [hst, Stage.inside]) _
        · exact h.advance (by simp [hst, Stage.betweenPurgeAndScan])
    · exact h
  | scan client =>
    cases hst : S.stage client with
    | verified username => exact h.scan hst
    | _ => simpa only [Logins.step, hst] using h
  | register client =>
    rw [Logins.step]
    split
    · exact h.register ‹_›
    · exact h
  | accept client =>
    rw [Logins.step]
    split
    · rename_i id hst hid
      split
      · rename_i hheld
        refine h.settle rfl (fun hs => ?_)
        simp [ha hs hst] at hheld
      · refine h.settle rfl (fun hs => ?_)
        have hk : client ∈ S.clients := h.known client (by simp [hst, Stage.rests])
        exact (h.live hs).transfer hid (mem_owners hk) (ha hs hst)
    · exact h
  | release client =>
    rw [Logins.step]
    split
    · rename_i hr
      exact ⟨h.safe, h.owner, h.known, fun hs => (h.live hs).release_of_none (ha hs hr)⟩
    · exact h

/-- While no token is let go between a login's purge and its scan, no scan follows an expired
pointer. -/
theorem login_never_crashes (h : Runs.Reaches (Logins.step srv) ReleasesApart start S) : S.crashed = false :=
  (h.invariant inv_start (fun _ _ hS ha => hS.step ha)).safe

def login (client : Nat) (username : String) : List Action :=
  [.connect client, .lock client (ascii username) (ascii "pw"), .purge client, .verify client, .scan client,
    .register client, .accept client]

theorem login_never_crashes_twice :
    (Runs.run (Logins.step Sample.server) start (login 0 "u" ++ [.release 0] ++ login 1 "v")).crashed = false :=
  login_never_crashes (Runs.AllMeet.reaches (by decide))

/-- A client logs out between the purge and the scan of another client's login. -/
theorem login_crashes :
    ¬ ∀ as : List Action, (Runs.run (Logins.step Sample.server) start as).crashed = false := by
  intro hall
  have hsafe := hall (login 0 "u" ++ [.connect 1, .lock 1 (ascii "v") (ascii "pw"), .purge 1, .release 0,
    .verify 1, .scan 1])
  exact absurd hsafe (by decide)

end Logins

end LoginRace

end TinDox
