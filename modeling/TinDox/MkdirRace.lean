import TinDox.Runs
import TinDox.Session
import TinDox.Views

/-! Two clients that ask for the same directory. `Mkdir::execute` tests the name and then creates
the directory, and creating a directory that is there reports no error. -/

namespace TinDox

namespace MkdirRace

inductive Phase where
  | requested
  | absent
  | answered (outcome : Outcome)
  deriving DecidableEq

/-- The file system and the requests of the two clients. -/
structure Race where
  fs : FileSystem
  phase : Bool → Phase

def start (fs : FileSystem) : Race := ⟨fs, fun _ => .requested⟩

/-- The two file-system steps of a request, and whatever other clients do to the file system. -/
inductive Action where
  | test (client : Bool)
  | create (client : Bool)
  | others (fs : FileSystem)

def alreadyExists : Outcome := .error (refuseWith .fileAlreadyExists (ascii "this directory already exists"))

namespace Race

def answer (S : Race) (client : Bool) (phase : Phase) : Race :=
  { S with phase := Function.update S.phase client phase }

/-- The other clients leave the directory alone once it is there, and the directories on the way
to it. -/
def step (fullPath : Path) (S : Race) : Action → Race
  | .test client =>
    if S.phase client = .requested then
      match S.fs.fsExists fullPath with
      | .error e => S.answer client (.answered (.error e))
      | .ok true => S.answer client (.answered alreadyExists)
      | .ok false => S.answer client .absent
    else S
  | .create client =>
    if S.phase client = .absent then
      match S.fs.createDirectory fullPath with
      | .ok fs => { S.answer client (.answered (.ok [])) with fs := fs }
      | .error _ => S.answer client (.answered (.error .fatal))
    else S
  | .others fs =>
    if (S.fs.isDirectory fullPath → fs.isDirectory fullPath) ∧ fs.tooLong fullPath = S.fs.tooLong fullPath then
      { S with fs := fs }
    else S

/-- Undisturbed, the two steps are `Mkdir::execute`. -/
theorem run_execute (S : Race) (client : Bool) (c : ClientContext) {cur name : Path}
    (hcur : c.currentPathLock = some cur) (hphase : S.phase client = .requested) :
    let S' := Runs.run (step (cur / name)) S [.test client, .create client]
    Mkdir.execute ⟨S.fs, c⟩ name = (⟨S'.fs, c⟩, (Mkdir.execute ⟨S.fs, c⟩ name).2) ∧
    S'.phase client = .answered (Mkdir.execute ⟨S.fs, c⟩ name).2 := by
  simp only [Runs.run_cons, Runs.run_nil, Mkdir.execute, hcur]
  rcases hex : S.fs.fsExists (cur / name) with e | - | -
  · simp [step, hphase, hex, answer]
  · cases hc : S.fs.createDirectory (cur / name) with
    | ok fs => simp [step, hphase, hex, answer, hc]
    | error e => simp [step, hphase, hex, answer, hc]
  · simp [step, hphase, hex, answer, alreadyExists]

/-- The directory is created where nothing stands and the parent is a directory. -/
def CreatesNew (fullPath : Path) (S : Race) : Action → Prop
  | .create client => S.phase client = .absent → ∃ k, S.fs.locate fullPath = .ok k ∧ S.fs.get k = none
  | _ => True

def Won (S : Race) (client : Bool) : Prop := S.phase client = .answered (.ok [])

structure Inv (fullPath : Path) (S : Race) : Prop where
  made : ∀ client, S.Won client → S.fs.isDirectory fullPath = true
  looked : ∀ client, S.phase client = .absent ∨ S.Won client → S.fs.tooLong fullPath = false
  answers : ∀ client outcome, S.phase client = .answered outcome →
    outcome = .ok [] ∨ outcome = alreadyExists ∨ outcome = .error .fatal ∧ S.fs.tooLong fullPath = true
  single : ∀ client client', S.Won client → S.Won client' → client = client'

variable {fullPath : Path} {S : Race}

theorem inv_start (fullPath : Path) (fs : FileSystem) : (start fs).Inv fullPath where
  made _ h := by simp [Won, start] at h
  looked _ h := by simp [Won, start] at h
  answers _ _ h := by simp [start] at h
  single _ _ h := by simp [Won, start] at h

theorem Inv.others (h : S.Inv fullPath) {fs : FileSystem}
    (hkeep : S.fs.isDirectory fullPath = true → fs.isDirectory fullPath = true)
    (hlong : fs.tooLong fullPath = S.fs.tooLong fullPath) : Inv fullPath { S with fs := fs } where
  made client hw := hkeep (h.made client hw)
  looked client hl := hlong.trans (h.looked client hl)
  answers client outcome ha := hlong ▸ h.answers client outcome ha
  single := h.single

/-- An answer that is not a success leaves the winner alone. -/
theorem Inv.answer (h : S.Inv fullPath) (client : Bool) {phase : Phase}
    (hp : phase = .absent ∧ S.fs.tooLong fullPath = false ∨ phase = .answered alreadyExists ∨
      phase = .answered (.error .fatal) ∧ S.fs.tooLong fullPath = true) : (S.answer client phase).Inv fullPath := by
  have hwon : ∀ client', (S.answer client phase).Won client' → S.Won client' := by
    intro client' hw
    by_cases hc : client' = client
    · subst hc
      rcases hp with ⟨rfl, -⟩ | rfl | ⟨rfl, -⟩ <;> simp [Won, Race.answer, alreadyExists] at hw
    · simpa [Won, Race.answer, hc] using hw
  refine ⟨fun client' hw => h.made client' (hwon client' hw), ?_, ?_,
    fun c₁ c₂ h₁ h₂ => h.single c₁ c₂ (hwon c₁ h₁) (hwon c₂ h₂)⟩
  · rintro client' (habsent | hw)
    · by_cases hc : client' = client
      · subst hc
        rcases hp with ⟨-, hlong⟩ | rfl | ⟨rfl, -⟩
        · exact hlong
        · simp [Race.answer] at habsent
        · simp [Race.answer] at habsent
      · exact h.looked client' (.inl (by simpa [Race.answer, hc] using habsent))
    · exact h.looked client' (.inr (hwon client' hw))
  · intro client' outcome ha
    by_cases hc : client' = client
    · subst hc
      rcases hp with ⟨rfl, -⟩ | rfl | ⟨rfl, hlong⟩
      · simp [Race.answer] at ha
      · exact .inr (.inl (by simpa [Race.answer, eq_comm] using ha))
      · exact .inr (.inr ⟨by simpa [Race.answer, eq_comm] using ha, hlong⟩)
    · exact h.answers client' outcome (by simpa [Race.answer, hc] using ha)

/-- The first to create the directory wins, and nobody had won before. -/
theorem Inv.created (h : S.Inv fullPath) (client : Bool) {k : Key} (hphase : S.phase client = .absent)
    (hl : S.fs.locate fullPath = .ok k) (hf : S.fs.get k = none) :
    Inv fullPath { S.answer client (.answered (.ok [])) with fs := S.fs.insert k .dir } := by
  have hc : S.fs.createDirectory fullPath = .ok (S.fs.insert k .dir) := by simp [FileSystem.createDirectory, hl, hf]
  have hlong : S.fs.tooLong fullPath = false := h.looked client (.inl hphase)
  have hstays : (S.fs.insert k .dir).tooLong fullPath = false := FileSystem.tooLong_insert hl hf hlong
  have hnone : ∀ client', ¬ S.Won client' := by
    intro client' hw
    have hdir := h.made client' hw
    cases hr : S.fs.resolve fullPath with
    | none => simp [FileSystem.isDirectory, FileSystem.status, hr] at hdir
    | some j =>
      have hj : j = k := (FileSystem.resolve_eq_key hr).trans (FileSystem.locate_ok hl).1.symm
      subst hj
      simp [FileSystem.isDirectory, FileSystem.status, hr, hf] at hdir
  have hwon : ∀ client', (S.answer client (.answered (.ok []))).Won client' → client' = client := by
    intro client' hw
    by_contra hne
    exact hnone client' (by simpa [Won, Race.answer, hne] using hw)
  refine ⟨fun _ _ => FileSystem.isDirectory_createDirectory hc, fun _ _ => hstays, ?_,
    fun c₁ c₂ h₁ h₂ => (hwon c₁ h₁).trans (hwon c₂ h₂).symm⟩
  intro client' outcome ha
  by_cases hcl : client' = client
  · subst hcl
    exact .inl (by simpa [Race.answer, eq_comm] using ha)
  · rcases h.answers client' outcome (by simpa [Race.answer, hcl] using ha) with ha | ha | ⟨-, ha⟩
    · exact .inl ha
    · exact .inr (.inl ha)
    · rw [hlong] at ha
      cases ha

theorem Inv.step (h : S.Inv fullPath) {a : Action} (ha : S.CreatesNew fullPath a) : (S.step fullPath a).Inv fullPath := by
  cases a with
  | test client =>
    rw [Race.step]
    split
    · split
      · rename_i he
        obtain ⟨hlong, rfl⟩ := FileSystem.fsExists_eq_error.mp he
        exact h.answer client (.inr (.inr ⟨rfl, hlong⟩))
      · exact h.answer client (.inr (.inl rfl))
      · rename_i he
        exact h.answer client (.inl ⟨rfl, (FileSystem.fsExists_eq_ok.mp he).1⟩)
    · exact h
  | create client =>
    rw [Race.step]
    split
    · rename_i hphase
      obtain ⟨k, hl, hf⟩ := ha hphase
      have hc : S.fs.createDirectory fullPath = .ok (S.fs.insert k .dir) := by
        simp [FileSystem.createDirectory, hl, hf]
      rw [hc]
      exact h.created client hphase hl hf
    · exact h
  | others fs =>
    rw [Race.step]
    split
    · rename_i hkeep
      exact h.others hkeep.1 hkeep.2
    · exact h

/-- When each of the two directories is created where nothing stands, at most one request is
answered with success, and the other, once it is answered, with `file_already_exists`. -/
theorem mkdir_single_winner {fs : FileSystem} (h : Runs.Reaches (Race.step fullPath) (CreatesNew fullPath) (start fs) S) :
    (∀ client client', S.Won client → S.Won client' → client = client') ∧
    ∀ client other outcome, S.Won client → other ≠ client → S.phase other = .answered outcome →
      outcome = alreadyExists := by
  have hS : S.Inv fullPath := h.invariant (inv_start fullPath fs) (fun S a hS ha => hS.step ha)
  refine ⟨hS.single, ?_⟩
  intro client other outcome hw hne ha
  rcases hS.answers other outcome ha with rfl | he | ⟨-, hlong⟩
  · exact absurd (hS.single other client ha hw) hne
  · exact he
  · rw [hS.looked client (.inr hw)] at hlong
    cases hlong

theorem mkdir_single_winner_inTurn :
    let S := Runs.run (Race.step ⟨ascii "/r/d"⟩) (start ⟨Sample.tree [], []⟩) [.test true, .create true, .test false]
    S.Won true ∧ S.phase false = .answered alreadyExists ∧
      ∀ client client', S.Won client → S.Won client' → client = client' := by
  have hsteps : Runs.AllMeet (Race.step ⟨ascii "/r/d"⟩) (CreatesNew ⟨ascii "/r/d"⟩) (start ⟨Sample.tree [], []⟩)
      [.test true, .create true, .test false] :=
    ⟨trivial, fun _ => ⟨[ascii "r", ascii "d"], by decide, by decide⟩, trivial, trivial⟩
  refine ⟨?_, by decide, (mkdir_single_winner hsteps.reaches).1⟩
  unfold Won
  decide

/-- Both requests find the name free and both are told that they made the directory. -/
theorem mkdir_two_winners :
    ¬ ∀ as : List Action, ∀ client client',
      (Runs.run (Race.step ⟨ascii "/r/d"⟩) (start ⟨Sample.tree [], []⟩) as).Won client →
      (Runs.run (Race.step ⟨ascii "/r/d"⟩) (start ⟨Sample.tree [], []⟩) as).Won client' → client = client' := by
  intro hall
  have htrue := hall [.test true, .test false, .create true, .create false] true false
    (by unfold Won; decide) (by unfold Won; decide)
  cases htrue

end Race

end MkdirRace

end TinDox
