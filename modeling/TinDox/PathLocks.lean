import TinDox.RelativePaths
import TinDox.Runs
import TinDox.WeakRefs

/-! The path locks of the server. It keeps weak pointers to them; the locks themselves belong to the
clients, which move them and drop them without a word to the server. -/

namespace TinDox

namespace Path

/-- An absolute path in normal form that ends in a name, or the topmost directory. -/
def Normal (p : Path) : Prop :=
  p.isAbsolute = true ∧ p.lexicallyNormal = p ∧ (p.key ≠ [] → p.native.getLast? ≠ some slash)

instance (p : Path) : Decidable p.Normal := inferInstanceAs (Decidable (_ ∧ _))

theorem Normal.eq_ofKey {p : Path} (h : p.Normal) : p = ofKey p.key := by
  obtain ⟨ha, hnormal, hlast⟩ := h
  rcases (canonical_lexicallyNormal ha).2 with hp | ⟨hk, hp⟩
  · exact hnormal.symm.trans hp
  · have hslash : p.native = spell p.key ++ [slash] := congrArg Path.native (hnormal.symm.trans hp)
    exact absurd (by rw [hslash, List.getLast?_concat]) (hlast hk)

end Path

/-- `m_path_locks`, and the locks it refers to. -/
abbrev PathLocks := WeakRefs Path

namespace PathLocks

/-- The locks as a search over the weak pointers meets them, for the functions that are given them. -/
def around (L : PathLocks) (available : Nat) : Surroundings := ⟨L.visible, [], available, fun _ => []⟩

/-- `is_path_locked`: the first lock that has the path locked, or throws because the path is not absolute. -/
def isPathLockedFrom (L : PathLocks) (path : Path) : List Nat → Except Exception Bool
  | [] => .ok false
  | id :: ids =>
    match L.objects id with
    | none => isPathLockedFrom L path ids
    | some lock =>
      if ¬ path.isAbsolute then .error .fatal
      else if PathLock.hasLockedPath lock path then .ok true
      else isPathLockedFrom L path ids

def isPathLocked (L : PathLocks) (path : Path) : Except Exception Bool := isPathLockedFrom L path L.refs

/-- The lock is made after the checks, and `insert_path_lock` registers it. -/
def lockPath (srv : ServerContext) (fs : FileSystem) (path : Path) (L : PathLocks) : PathLocks × Except Exception Nat :=
  match srv.lockPath fs path with
  | .ok lock => (L.insert lock, .ok L.next)
  | .error e => (L, .error e)

def downloadFile (srv : ServerContext) (fs : FileSystem) (path : Path) (L : PathLocks) :
    PathLocks × Except Exception Nat :=
  match srv.downloadFile fs path with
  | .ok token => (L.insert token.path, .ok L.next)
  | .error e => (L, .error e)

def uploadFile (srv : ServerContext) (available : Nat) (fs : FileSystem) (path : Path) (size : Nat) (L : PathLocks) :
    PathLocks × Except Exception Nat :=
  match srv.uploadFile (L.around available) fs path size with
  | .ok token => (L.insert token.path, .ok L.next)
  | .error e => (L, .error e)

/-- What happens to the locks: the calls of the server context, each in the file system of its time, and
the end of the last owner of a lock. -/
inductive Use where
  | lockPath (fs : FileSystem) (path : Path)
  | downloadFile (fs : FileSystem) (path : Path)
  | uploadFile (available : Nat) (fs : FileSystem) (path : Path) (size : Nat)
  | setPathOfClient (lock : Nat) (newPath : Path)
  | release (lock : Nat)

def use (srv : ServerContext) (L : PathLocks) : Use → PathLocks
  | .lockPath fs path => (lockPath srv fs path L).1
  | .downloadFile fs path => (downloadFile srv fs path L).1
  | .uploadFile available fs path size => (uploadFile srv available fs path size L).1
  | .setPathOfClient lock newPath => L.update lock newPath
  | .release lock => L.release lock

variable {srv : ServerContext} {L : PathLocks} {p : Path}

theorem exact_use (h : L.Exact) (u : Use) : (use srv L u).Exact := by
  cases u with
  | lockPath fs path =>
    simp only [use, lockPath]
    split
    · exact h.insert _
    · exact h
  | downloadFile fs path =>
    simp only [use, downloadFile]
    split
    · exact h.insert _
    · exact h
  | uploadFile available fs path size =>
    simp only [use, uploadFile]
    split
    · exact h.insert _
    · exact h
  | setPathOfClient lock newPath => exact h.update lock newPath
  | release lock => exact h.release lock

theorem exact_run (us : List Use) : (Runs.run (use srv) .empty us).Exact := by
  suffices hall : ∀ L : PathLocks, L.Exact → (Runs.run (use srv) L us).Exact from hall _ WeakRefs.exact_empty
  induction us with
  | nil => exact fun L h => h
  | cons u us ih => exact fun L h => ih _ (exact_use h u)

/-- The search over the weak pointers answers like one over the live locks. -/
theorem isPathLocked_eq (h : L.Exact) (p : Path) :
    L.isPathLocked p =
      if L.live ≠ [] ∧ ¬ p.isAbsolute then .error .fatal
      else .ok (L.live.any (fun lock => PathLock.hasLockedPath lock p)) := by
  rw [← h.visible_eq, isPathLocked, WeakRefs.visible]
  induction L.refs with
  | nil => simp [isPathLockedFrom]
  | cons id ids ih =>
    rw [isPathLockedFrom]
    cases hobject : L.objects id with
    | none => simpa [hobject] using ih
    | some lock =>
      by_cases ha : p.isAbsolute = true
      · by_cases hlocked : PathLock.hasLockedPath lock p = true
        · simp [hobject, ha, hlocked]
        · simpa [hobject, ha, hlocked] using ih
      · simp [hobject, ha]

/-- A live lock is the path, or lies below it. -/
def Covers (L : PathLocks) (p : Path) : Prop := ∃ id lock, L.objects id = some lock ∧ p.key <+: lock.key

/-- A live lock lies in or below a sibling of the path whose name properly extends the path's last name. -/
def CoversBeside (L : PathLocks) (p : Path) : Prop :=
  ∃ id lock, L.objects id = some lock ∧ Path.Beside p.key lock.key

/-- The query is answered, and with whether a live lock is the path or lies below it. -/
def Answers (L : PathLocks) (p : Path) : Prop := ∃ b, L.isPathLocked p = .ok b ∧ (b = true ↔ L.Covers p)

theorem isPathLocked_normal (h : L.Exact) (hl : ∀ id lock, L.objects id = some lock → lock.Normal) (hp : p.Normal) :
    ∃ b, L.isPathLocked p = .ok b ∧ (b = true ↔ L.Covers p ∨ L.CoversBeside p) := by
  refine ⟨L.live.any (fun lock => PathLock.hasLockedPath lock p), ?_, ?_⟩
  · rw [isPathLocked_eq h, if_neg]
    simp [hp.1]
  · -- each live lock is compared as a string
    have hlock : ∀ id lock, L.objects id = some lock →
        (PathLock.hasLockedPath lock p = true ↔ p.key <+: lock.key ∨ Path.Beside p.key lock.key) := by
      intro id lock hobject
      have hcanonical : lock.Canonical lock.key := ⟨lock.key_isName, .inl (hl id lock hobject).eq_ofKey⟩
      have hiff := hcanonical.startsWith_iff p.key_isName
      rwa [← hp.eq_ofKey] at hiff
    rw [List.any_eq_true]
    constructor
    · rintro ⟨lock, hlive, hhas⟩
      obtain ⟨id, hobject⟩ := h.mem_live.mp hlive
      rcases (hlock id lock hobject).mp hhas with hin | hbeside
      · exact .inl ⟨id, lock, hobject, hin⟩
      · exact .inr ⟨id, lock, hobject, hbeside⟩
    · rintro (⟨id, lock, hobject, hin⟩ | ⟨id, lock, hobject, hbeside⟩)
      · exact ⟨lock, h.mem_live.mpr ⟨id, hobject⟩, (hlock id lock hobject).mpr (.inl hin)⟩
      · exact ⟨lock, h.mem_live.mpr ⟨id, hobject⟩, (hlock id lock hobject).mpr (.inr hbeside)⟩

/-- The answer is the same whenever the same locks are alive, whatever has happened before. -/
theorem isPathLocked_of_live {L' : PathLocks} (h : L.Exact) (h' : L'.Exact)
    (hlive : ∀ lock, (∃ id, L.objects id = some lock) ↔ ∃ id, L'.objects id = some lock) (p : Path) :
    L.isPathLocked p = L'.isPathLocked p := by
  have hmem : ∀ lock, lock ∈ L.live ↔ lock ∈ L'.live := by
    intro lock
    rw [h.mem_live, h'.mem_live]
    exact hlive lock
  have hnil : L.live = [] ↔ L'.live = [] := by simp only [List.eq_nil_iff_forall_not_mem, hmem]
  have hany : L.live.any (fun lock => PathLock.hasLockedPath lock p) =
      L'.live.any (fun lock => PathLock.hasLockedPath lock p) := by
    rw [Bool.eq_iff_iff, List.any_eq_true, List.any_eq_true]
    simp only [hmem]
  simp only [isPathLocked_eq h, isPathLocked_eq h', ne_eq, hnil, hany]

/-- After any history, a query about a path among locks on paths in normal form is answered as it should
be exactly when the path is locked anyway or no lock is beside it; the history before does not matter. -/
theorem answers_iff (us : List Use)
    (hl : ∀ id lock, (Runs.run (use srv) .empty us).objects id = some lock → lock.Normal) (hp : p.Normal) :
    ((Runs.run (use srv) .empty us).Answers p ↔
      (Runs.run (use srv) .empty us).Covers p ∨ ¬ (Runs.run (use srv) .empty us).CoversBeside p) ∧
    ∀ us', (∀ lock, (∃ id, (Runs.run (use srv) .empty us).objects id = some lock) ↔
        ∃ id, (Runs.run (use srv) .empty us').objects id = some lock) →
      (Runs.run (use srv) .empty us).isPathLocked p = (Runs.run (use srv) .empty us').isPathLocked p := by
  refine ⟨?_, fun us' hlive => isPathLocked_of_live (exact_run us) (exact_run us') hlive p⟩
  obtain ⟨b, hb, hiff⟩ := isPathLocked_normal (exact_run us) hl hp
  constructor
  · rintro ⟨b', hb', hcovers⟩
    obtain rfl := Except.ok.inj (hb.symm.trans hb')
    by_cases hin : (Runs.run (use srv) .empty us).Covers p
    · exact .inl hin
    · exact .inr (fun hbeside => hin (hcovers.mp (hiff.mpr (.inr hbeside))))
  · intro hcond
    refine ⟨b, hb, hiff.trans ⟨fun h => h.elim id (fun hbeside => ?_), .inl⟩⟩
    exact hcond.resolve_right (fun hnot => hnot hbeside)

end PathLocks

namespace Sample

/-- Two directories, the name of the second beginning with that of the first. -/
def besideEachOther : FileSystem :=
  ⟨tree [([ascii "r", ascii "a"], .dir), ([ascii "r", ascii "a", ascii "b"], .dir), ([ascii "r", ascii "ab"], .dir)], []⟩

end Sample

namespace PathLocks

/-- A lock inside a directory; another one has been released. -/
theorem answers_inside :
    (Runs.run (use Sample.server) .empty [.lockPath Sample.besideEachOther ⟨ascii "/r/a/b"⟩,
      .lockPath Sample.besideEachOther ⟨ascii "/r/ab"⟩, .release 1]).Answers ⟨ascii "/r/a"⟩ := by
  refine (answers_iff _ ?_ (by decide)).1.mpr (.inl ⟨0, ⟨ascii "/r/a/b"⟩, by decide, by decide⟩)
  intro id lock hobject
  have hlive := (exact_run _).mem_live.mpr ⟨id, hobject⟩
  rw [show WeakRefs.live _ = [⟨ascii "/r/a/b"⟩] by decide, List.mem_singleton] at hlive
  rw [hlive]
  decide

/-- The lock of a directory locks its neighbour too. -/
theorem neighbour_locked :
    ¬ (Runs.run (use Sample.server) .empty [.lockPath Sample.besideEachOther ⟨ascii "/r/ab"⟩]).Answers
      ⟨ascii "/r/a"⟩ := by
  rintro ⟨b, hb, hcovers⟩
  rw [show isPathLocked _ _ = .ok true by decide] at hb
  obtain rfl := Except.ok.inj hb
  obtain ⟨id, lock, hobject, hin⟩ := hcovers.mp rfl
  have hlive := (exact_run _).mem_live.mpr ⟨id, hobject⟩
  rw [show WeakRefs.live _ = [⟨ascii "/r/ab"⟩] by decide, List.mem_singleton] at hlive
  rw [hlive] at hin
  exact absurd hin (by decide)

end PathLocks

end TinDox
