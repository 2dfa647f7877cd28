import Mathlib.Logic.Function.Basic
import Mathlib.Data.List.Basic

/-! A list of weak references to objects that change while they are alive. The references to dead
objects stay in the list until the next insertion, which purges it. -/

/-- Objects are numbered as they are made; `objects` has those that somebody owns. -/
structure WeakRefs (α : Type*) where
  objects : Nat → Option α
  refs : List Nat
  next : Nat

namespace WeakRefs

variable {α : Type*} {R : WeakRefs α} {a : α} {id : Nat}

def empty : WeakRefs α := ⟨fun _ => none, [], 0⟩

def isAlive (R : WeakRefs α) (id : Nat) : Bool := (R.objects id).isSome

def removeExpired (R : WeakRefs α) : WeakRefs α := { R with refs := R.refs.filter R.isAlive }

/-- A new object is made, and referred to in a purged list. -/
def insert (R : WeakRefs α) (a : α) : WeakRefs α :=
  ⟨Function.update R.objects R.next (some a), R.removeExpired.refs ++ [R.next], R.next + 1⟩

def update (R : WeakRefs α) (id : Nat) (a : α) : WeakRefs α :=
  if R.isAlive id then { R with objects := Function.update R.objects id (some a) } else R

/-- The last owner lets the object go. -/
def release (R : WeakRefs α) (id : Nat) : WeakRefs α :=
  { R with objects := Function.update R.objects id none }

/-- What can be reached through the list. -/
def visible (R : WeakRefs α) : List α := R.refs.filterMap R.objects

def live (R : WeakRefs α) : List α := (List.range R.next).filterMap R.objects

/-- The references that can be followed are those to the live objects, in the order in which these were
made. -/
structure Exact (R : WeakRefs α) : Prop where
  bounded : ∀ id, R.isAlive id = true → id < R.next
  reached : R.refs.filter R.isAlive = (List.range R.next).filter R.isAlive

theorem exact_empty : (empty : WeakRefs α).Exact := ⟨fun _ h => by simp [empty, isAlive] at h, rfl⟩

theorem filterMap_objects (R : WeakRefs α) (ids : List Nat) :
    ids.filterMap R.objects = (ids.filter R.isAlive).filterMap R.objects := by
  induction ids with
  | nil => rfl
  | cons id ids ih =>
    cases h : R.objects id with
    | none => simpa [isAlive, h] using ih
    | some a => simpa [isAlive, h] using ih

theorem Exact.visible_eq (h : R.Exact) : R.visible = R.live := by
  rw [visible, live, filterMap_objects, h.reached, ← filterMap_objects]

theorem Exact.mem_live (h : R.Exact) : a ∈ R.live ↔ ∃ id, R.objects id = some a := by
  rw [live, List.mem_filterMap]
  constructor
  · rintro ⟨id, -, ha⟩
    exact ⟨id, ha⟩
  · rintro ⟨id, ha⟩
    exact ⟨id, List.mem_range.mpr (h.bounded id (by simp [isAlive, ha])), ha⟩

theorem isAlive_insert_of_lt (h : id < R.next) : (R.insert a).isAlive id = R.isAlive id := by
  simp [insert, isAlive, Function.update_of_ne (by omega : id ≠ R.next)]

theorem Exact.insert (h : R.Exact) (a : α) : (R.insert a).Exact where
  bounded id halive := by
    show id < R.next + 1
    by_cases hid : id = R.next
    · omega
    · have hold : R.isAlive id = true := by simpa [WeakRefs.insert, isAlive, hid] using halive
      have hlt := h.bounded id hold
      omega
  reached := by
    -- the objects made before are as alive as they were
    have hsame : ∀ ids : List Nat, (∀ id ∈ ids, id < R.next) →
        ids.filter (R.insert a).isAlive = ids.filter R.isAlive :=
      fun ids hids => List.filter_congr (fun id hid => isAlive_insert_of_lt (hids id hid))
    have hpurged : ∀ id ∈ R.refs.filter R.isAlive, id < R.next :=
      fun id hid => h.bounded id (List.mem_filter.mp hid).2
    show (R.refs.filter R.isAlive ++ [R.next]).filter (R.insert a).isAlive =
      (List.range (R.next + 1)).filter (R.insert a).isAlive
    rw [List.range_succ, List.filter_append, List.filter_append, hsame _ hpurged,
      hsame _ (fun id hid => List.mem_range.mp hid), List.filter_eq_self.mpr (fun id hid => (List.mem_filter.mp hid).2),
      h.reached]

theorem Exact.of_subset {R' : WeakRefs α} (h : R.Exact) (hsub : ∀ id, R'.isAlive id = true → R.isAlive id = true)
    (hrefs : R'.refs = R.refs) (hnext : R'.next = R.next) : R'.Exact where
  bounded id halive := by
    rw [hnext]
    exact h.bounded id (hsub id halive)
  reached := by
    have hcut : ∀ ids : List Nat, ids.filter R'.isAlive = (ids.filter R.isAlive).filter R'.isAlive := by
      intro ids
      rw [List.filter_filter]
      refine List.filter_congr (fun id _ => ?_)
      cases halive : R'.isAlive id with
      | false => rfl
      | true => simp [hsub id halive]
    rw [hrefs, hnext, hcut R.refs, hcut (List.range R.next), h.reached]

theorem Exact.update (h : R.Exact) (id : Nat) (a : α) : (R.update id a).Exact := by
  unfold WeakRefs.update
  split
  · rename_i halive
    refine h.of_subset (fun id' h' => ?_) rfl rfl
    by_cases hid : id' = id
    · rw [hid]
      exact halive
    · simpa [isAlive, hid] using h'
  · exact h

theorem Exact.release (h : R.Exact) (id : Nat) : (R.release id).Exact := by
  refine h.of_subset (fun id' h' => ?_) rfl rfl
  by_cases hid : id' = id
  · simp [WeakRefs.release, isAlive, hid] at h'
  · simpa [WeakRefs.release, isAlive, hid] using h'

end WeakRefs
