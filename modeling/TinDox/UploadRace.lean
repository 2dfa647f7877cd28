import TinDox.Reservation
import TinDox.Runs
import TinDox.Session

/-! `ul` requests of several clients. `upload_file` tests the target, looks it up among the live
locks and inserts its token in three steps, and takes the mutex of the locks only inside the last two. -/

namespace TinDox

namespace UploadRace

/-- How far the `upload_file` call of a client has got. -/
inductive Phase where
  | idle
  | admitted (path : Path) (size : Nat)
  | cleared (path : Path) (size : Nat)
  | answered (result : Except Exception UploadToken)

/-- The live upload tokens, the live locks of other kinds, and the calls of the clients. -/
structure Uploads where
  tokens : List UploadToken
  locks : List Path
  requests : Nat → Phase

def start : Uploads := ⟨[], [], fun _ => .idle⟩

/-- Steps of `upload_file`, and what else happens to tokens and locks: a token's owner sets its
offset and its file name or lets it go, and clients take and leave locks. -/
inductive Action where
  | begin (client : Nat) (path : Path) (size : Nat) (fs : FileSystem) (available : Nat)
  | check (client : Nat)
  | insert (client : Nat)
  | update (token offset : Nat) (stem : Bytes)
  | release (token : Nat)
  | otherLocks (locks : List Path)

/-- The tests of `upload_file` that take no mutex. -/
def testTarget (srv : ServerContext) (fs : FileSystem) (available : Nat) (path : Path) (size : Nat) :
    Option Exception :=
  if ¬ path.isAbsolute then some (refuse .invalidFileType)
  else
    match fs.fsExists path, fs.fsExists path.parentPath, fs.fsSpace srv.root.path available with
    | .error e, _, _ => some e
    | .ok true, _, _ => some (refuse .fileAlreadyExists)
    | .ok false, .error e, _ => some e
    | .ok false, .ok false, _ => some (refuse .notFound)
    | .ok false, .ok true, .error e => some e
    | .ok false, .ok true, .ok available =>
      if size > srv.uploadMaxSize ∨ size > available then some (refuse .tooLargeFile) else none

namespace Uploads

def setRequest (S : Uploads) (client : Nat) (phase : Phase) : Uploads :=
  { S with requests := Function.update S.requests client phase }

def livePaths (S : Uploads) : List Path := S.tokens.map (·.path) ++ S.locks

/-- An action that is not the next one of its client does nothing. -/
def step (srv : ServerContext) (S : Uploads) : Action → Uploads
  | .begin client path size fs available =>
    match S.requests client with
    | .idle | .answered _ =>
      match testTarget srv fs available path size with
      | some e => S.setRequest client (.answered (.error e))
      | none => S.setRequest client (.admitted path size)
    | _ => S
  | .check client =>
    match S.requests client with
    | .admitted path size =>
      if S.livePaths.any (fun lock => lock.equal path) then
        S.setRequest client (.answered (.error (refuse .inUse)))
      else S.setRequest client (.cleared path size)
    | _ => S
  | .insert client =>
    match S.requests client with
    | .cleared path size =>
      { S.setRequest client (.answered (.ok ⟨path, size, 0, []⟩)) with
        tokens := S.tokens ++ [⟨path, size, 0, []⟩] }
    | _ => S
  | .update token offset stem =>
    { S with
      tokens := S.tokens.modify token (fun t => { t with offset := offset, temporaryFilenameStem := stem }) }
  | .release token => { S with tokens := S.tokens.eraseIdx token }
  | .otherLocks locks => { S with locks := locks }

theorem uploadFile_eq (srv : ServerContext) (around : Surroundings) (fs : FileSystem) (path : Path) (size : Nat) :
    srv.uploadFile around fs path size =
      match testTarget srv fs around.available path size with
      | some e => .error e
      | none =>
        if around.locks.any (fun lock => lock.equal path) then .error (refuse .inUse) else .ok ⟨path, size, 0, []⟩ := by
  unfold ServerContext.uploadFile testTarget
  by_cases habs : path.isAbsolute = true
  · simp only [habs, not_true_eq_false, if_false]
    rcases fs.fsExists path with e | - | -
    · rfl
    · rcases fs.fsExists path.parentPath with e | - | -
      · rfl
      · rfl
      · rcases fs.fsSpace srv.root.path around.available with e | available
        · rfl
        · by_cases hsize : size > srv.uploadMaxSize ∨ size > available
          · simp only [hsize, if_true]
          · simp only [hsize, if_false]
    · rfl
  · simp [habs]

/-- Undisturbed, the steps are `upload_file`. -/
theorem run_uploadFile (srv : ServerContext) (S : Uploads) (client : Nat) (path : Path) (size : Nat)
    (fs : FileSystem) (around : Surroundings) (hidle : S.requests client = .idle)
    (hlocks : around.locks = S.livePaths) :
    (Runs.run (step srv) S [.begin client path size fs around.available, .check client, .insert client]).requests
      client = .answered (srv.uploadFile around fs path size) := by
  rw [uploadFile_eq, hlocks]
  simp only [Runs.run_cons, Runs.run_nil]
  cases htest : testTarget srv fs around.available path size with
  | some e => simp [step, hidle, htest, setRequest]
  | none =>
    have hsame : (S.setRequest client (.admitted path size)).livePaths = S.livePaths := rfl
    have hphase : (S.setRequest client (.admitted path size)).requests client = .admitted path size := by
      simp [setRequest]
    by_cases hlive : S.livePaths.any (fun lock => lock.equal path) = true
    · simp only [step, hidle, htest, hphase, hsame, if_pos hlive]
      simp [setRequest]
    · simp only [step, hidle, htest, hphase, hsame, if_neg hlive]
      simp [setRequest]

end Uploads

/-- The key of a request that has been cleared and has not inserted its token. -/
def Phase.window : Phase → Option (List Bytes)
  | cleared path _ => some path.elements
  | _ => none

namespace Uploads

/-- The targets as keys: paths are compared element by element. -/
def reservation (S : Uploads) : Reservation Nat (List Bytes) :=
  ⟨S.tokens.map (·.path.elements), fun client => (S.requests client).window⟩

/-- A target is looked up only while no other request for it is between its own look-up and the
insertion of its token. -/
def ChecksAlone (S : Uploads) : Action → Prop
  | .check client => ∀ path size, S.requests client = .admitted path size →
      ∀ other, other ≠ client → (S.requests other).window ≠ some path.elements
  | _ => True

theorem window_setRequest (S : Uploads) (client : Nat) (phase : Phase) :
    (S.setRequest client phase).reservation =
      ⟨S.reservation.granted, Function.update S.reservation.window client phase.window⟩ := by
  simp only [reservation, setRequest, Reservation.mk.injEq, true_and]
  funext other
  by_cases ho : other = client
  · simp [ho]
  · simp [ho]

variable {srv : ServerContext} {S : Uploads}

theorem exclusive_leave (h : S.reservation.Exclusive) (client : Nat) {phase : Phase} (hp : phase.window = none) :
    (S.setRequest client phase).reservation.Exclusive := by
  rw [window_setRequest, hp]
  exact h.leave client

theorem targets_update (tokens : List UploadToken) (i offset : Nat) (stem : Bytes) :
    (tokens.modify i (fun t => { t with offset := offset, temporaryFilenameStem := stem })).map (·.path.elements) =
      tokens.map (·.path.elements) := by
  induction tokens generalizing i with
  | nil => simp
  | cons t tokens ih =>
    cases i with
    | zero => rfl
    | succ i => simp [List.modify_succ_cons, ih]

theorem exclusive_step (h : S.reservation.Exclusive) {a : Action} (ha : S.ChecksAlone a) :
    (S.step srv a).reservation.Exclusive := by
  cases a with
  | begin client path size fs available =>
    rw [step]
    split
    · split
      · exact exclusive_leave h client rfl
      · exact exclusive_leave h client rfl
    · split
      · exact exclusive_leave h client rfl
      · exact exclusive_leave h client rfl
    · exact h
  | check client =>
    rw [step]
    split
    · rename_i path size hphase
      split
      · exact exclusive_leave h client rfl
      · rename_i hlive
        rw [window_setRequest]
        refine h.enter ?_ (ha path size hphase)
        intro hm
        obtain ⟨t, ht, he⟩ := List.mem_map.mp hm
        apply hlive
        rw [List.any_eq_true]
        exact ⟨t.path, List.mem_append_left _ (List.mem_map.mpr ⟨t, ht, rfl⟩), by simp [Path.equal, he]⟩
    · exact h
  | insert client =>
    rw [step]
    split
    · rename_i path size hphase
      have hw : S.reservation.window client = some path.elements := by simp [reservation, hphase, Phase.window]
      have hg := h.grant hw
      have he : ({ S.setRequest client (.answered (.ok ⟨path, size, 0, []⟩)) with
          tokens := S.tokens ++ [⟨path, size, 0, []⟩] } : Uploads).reservation =
          S.reservation.grant client path.elements := by
        have hwin := congrArg Reservation.window (S.window_setRequest client (.answered (.ok ⟨path, size, 0, []⟩)))
        simp only [reservation, Reservation.grant, List.map_append, List.map_singleton, Reservation.mk.injEq,
          true_and] at hwin ⊢
        exact hwin
      rw [he]
      exact hg
    · exact h
  | update token offset stem =>
    simpa only [step, reservation, targets_update] using h
  | release token =>
    exact h.drop ((List.eraseIdx_sublist S.tokens token).map _)
  | otherLocks locks => exact h

/-- While no target is looked up inside another request's window, no two live upload tokens have
the same target. -/
theorem upload_targets_distinct (h : Runs.Reaches (step srv) ChecksAlone start S) :
    S.tokens.Pairwise (fun t t' => t.path.equal t'.path = false) := by
  have hex : S.reservation.Exclusive :=
    h.invariant Reservation.exclusive_empty (fun S a hS ha => exclusive_step hS ha)
  have hnd := hex.nodup
  simp only [reservation, List.Nodup, List.pairwise_map] at hnd
  refine hnd.imp ?_
  intro t t' hne
  simpa [Path.equal] using hne

/-- The second client looks the target up while the first is in its window. -/
def racing : List Action :=
  [.begin 0 ⟨ascii "/r/x"⟩ 5 ⟨Sample.tree [], []⟩ 1000, .begin 1 ⟨ascii "/r/x"⟩ 7 ⟨Sample.tree [], []⟩ 1000,
    .check 0, .check 1, .insert 0, .insert 1]

def inTurn : List Action :=
  [.begin 0 ⟨ascii "/r/x"⟩ 5 ⟨Sample.tree [], []⟩ 1000, .begin 1 ⟨ascii "/r/x"⟩ 7 ⟨Sample.tree [], []⟩ 1000,
    .check 0, .insert 0, .check 1, .insert 1]

theorem upload_targets_distinct_inTurn :
    let S := Runs.run (step Sample.server) start inTurn
    S.tokens = [⟨⟨ascii "/r/x"⟩, 5, 0, []⟩] ∧ S.tokens.Pairwise (fun t t' => t.path.equal t'.path = false) := by
  have hfirst : testTarget Sample.server ⟨Sample.tree [], []⟩ 1000 ⟨ascii "/r/x"⟩ 5 = none := by decide
  have hsecond : testTarget Sample.server ⟨Sample.tree [], []⟩ 1000 ⟨ascii "/r/x"⟩ 7 = none := by decide
  have hsteps : Runs.AllMeet (step Sample.server) ChecksAlone start inTurn := by
    refine ⟨trivial, trivial, ?_, trivial, ?_, trivial, trivial⟩
    · intro path size hp other ho
      by_cases h1 : other = 1 <;> simp [step, start, hfirst, hsecond, setRequest, Phase.window, ho, h1]
    · intro path size hp other ho
      by_cases h0 : other = 0 <;>
        simp [step, start, hfirst, hsecond, setRequest, livePaths, Phase.window, ho, h0]
  exact ⟨by decide, upload_targets_distinct hsteps.reaches⟩

theorem upload_targets_collide :
    ¬ ∀ as : List Action, (Runs.run (step Sample.server) start as).tokens.Pairwise
      (fun t t' => t.path.equal t'.path = false) := by
  intro hall
  have htokens : (Runs.run (step Sample.server) start racing).tokens =
      [⟨⟨ascii "/r/x"⟩, 5, 0, []⟩, ⟨⟨ascii "/r/x"⟩, 7, 0, []⟩] := by decide
  have hrace := hall racing
  rw [htokens] at hrace
  exact absurd hrace (by decide)

end Uploads

end UploadRace

end TinDox
