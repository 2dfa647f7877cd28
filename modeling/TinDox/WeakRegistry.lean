import Mathlib.Logic.Function.Basic

/-! A registry of weak references. Objects are numbered as they are made, and an owner may hold
one of them. An object that nobody holds has expired, and the registry forgets it when it is
purged. -/

structure WeakRegistry (Owner Value : Type*) where
  registered : List (Nat × Value)
  held : Owner → Option Nat
  next : Nat

namespace WeakRegistry

variable {Owner Value : Type*} {R : WeakRegistry Owner Value} {owners : List Owner}
  {value : Owner → Option Value} {o : Owner} {v : Value}

def empty : WeakRegistry Owner Value := ⟨[], fun _ => none, 0⟩

def expired (R : WeakRegistry Owner Value) (owners : List Owner) (id : Nat) : Bool :=
  owners.all (fun o => R.held o ≠ some id)

def removeExpired (R : WeakRegistry Owner Value) (owners : List Owner) : WeakRegistry Owner Value :=
  { R with registered := R.registered.filter (fun e => ! R.expired owners e.1) }

def register (R : WeakRegistry Owner Value) (v : Value) : WeakRegistry Owner Value :=
  { R with registered := R.registered ++ [(R.next, v)], next := R.next + 1 }

def hold [DecidableEq Owner] (R : WeakRegistry Owner Value) (o : Owner) (id : Nat) : WeakRegistry Owner Value :=
  { R with held := Function.update R.held o (some id) }

def release [DecidableEq Owner] (R : WeakRegistry Owner Value) (o : Owner) : WeakRegistry Owner Value :=
  { R with held := Function.update R.held o none }

def values (R : WeakRegistry Owner Value) : List Value := R.registered.map (·.2)

/-- The registry accounts for the values the owners hold, and no two of them hold the same one. -/
structure Tracks (R : WeakRegistry Owner Value) (owners : List Owner) (value : Owner → Option Value) : Prop where
  known : ∀ o, value o ≠ none → o ∈ owners
  held : ∀ o v, value o = some v → ∃ id, R.held o = some id ∧ (id, v) ∈ R.registered
  free : ∀ o, value o = none → R.held o = none
  functional : ∀ id v v', (id, v) ∈ R.registered → (id, v') ∈ R.registered → v = v'
  fresh : ∀ e ∈ R.registered, e.1 < R.next
  distinct : ∀ o o' v, value o = some v → value o' = some v → o = o'

theorem tracks_empty (owners : List Owner) : (empty : WeakRegistry Owner Value).Tracks owners (fun _ => none) where
  known _ h := absurd rfl h
  held _ _ h := by simp at h
  free _ _ := rfl
  functional _ _ _ h := by simp [empty] at h
  fresh _ h := by simp [empty] at h
  distinct _ _ _ h := by simp at h

theorem Tracks.value_of_held (h : R.Tracks owners value) {id : Nat} (ho : R.held o = some id)
    (hv : (id, v) ∈ R.registered) : value o = some v := by
  cases hval : value o with
  | none =>
    have hnone := h.free o hval
    simp [ho] at hnone
  | some w =>
    obtain ⟨id', hid', hw⟩ := h.held o w hval
    obtain rfl : id = id' := Option.some.inj (ho.symm.trans hid')
    rw [h.functional id v w hv hw]

theorem mem_removeExpired {e : Nat × Value} :
    e ∈ (R.removeExpired owners).registered ↔ e ∈ R.registered ∧ ∃ o ∈ owners, R.held o = some e.1 := by
  simp [removeExpired, expired, List.mem_filter]

/-- After a purge exactly the values that are held are registered. -/
theorem Tracks.mem_values (h : R.Tracks owners value) :
    v ∈ (R.removeExpired owners).values ↔ ∃ o, value o = some v := by
  constructor
  · intro hv
    obtain ⟨⟨id, w⟩, he, rfl⟩ := List.mem_map.mp hv
    obtain ⟨he, o, -, ho⟩ := mem_removeExpired.mp he
    exact ⟨o, h.value_of_held ho he⟩
  · rintro ⟨o, ho⟩
    obtain ⟨id, hid, hreg⟩ := h.held o v ho
    have hmem : o ∈ owners := h.known o (by simp [ho])
    exact List.mem_map.mpr ⟨(id, v), mem_removeExpired.mpr ⟨hreg, o, hmem, hid⟩, rfl⟩

theorem Tracks.removeExpired (h : R.Tracks owners value) : (R.removeExpired owners).Tracks owners value where
  known := h.known
  held o v ho := by
    obtain ⟨id, hid, hreg⟩ := h.held o v ho
    exact ⟨id, hid, mem_removeExpired.mpr ⟨hreg, o, h.known o (by simp [ho]), hid⟩⟩
  free := h.free
  functional id v v' hv hv' := h.functional id v v' (mem_removeExpired.mp hv).1 (mem_removeExpired.mp hv').1
  fresh e he := h.fresh e (mem_removeExpired.mp he).1
  distinct := h.distinct

/-- An object that is made and dropped again leaves an expired entry behind. -/
theorem Tracks.register (h : R.Tracks owners value) (w : Value) : (R.register w).Tracks owners value where
  known := h.known
  held o v ho := by
    obtain ⟨id, hid, hreg⟩ := h.held o v ho
    exact ⟨id, hid, List.mem_append_left _ hreg⟩
  free := h.free
  functional id v v' hv hv' := by
    simp only [WeakRegistry.register, List.mem_append, List.mem_singleton, Prod.mk.injEq] at hv hv'
    rcases hv with hv | ⟨rfl, rfl⟩ <;> rcases hv' with hv' | ⟨hid, rfl⟩
    · exact h.functional id v v' hv hv'
    · have hlt := h.fresh _ hv
      simp only at hlt
      omega
    · have hlt := h.fresh _ hv'
      simp only at hlt
      omega
    · rfl
  fresh e he := by
    simp only [WeakRegistry.register, List.mem_append, List.mem_singleton] at he ⊢
    rcases he with he | rfl
    · have hlt := h.fresh e he
      omega
    · simp
  distinct := h.distinct

theorem Tracks.hold [DecidableEq Owner] (h : R.Tracks owners value) (ho : o ∈ owners) (hv : ∀ o', value o' ≠ some v) :
    ((R.register v).hold o R.next).Tracks owners (Function.update value o (some v)) where
  known o' ho' := by
    by_cases he : o' = o
    · exact he ▸ ho
    · exact h.known o' (by simpa [he] using ho')
  held o' v' ho' := by
    by_cases he : o' = o
    · subst he
      obtain rfl : v = v' := by simpa using ho'
      exact ⟨R.next, by simp [WeakRegistry.hold], by simp [WeakRegistry.hold, WeakRegistry.register]⟩
    · obtain ⟨id, hid, hreg⟩ := h.held o' v' (by simpa [he] using ho')
      exact ⟨id, by simpa [WeakRegistry.hold, WeakRegistry.register, he] using hid, List.mem_append_left _ hreg⟩
  free o' ho' := by
    by_cases he : o' = o
    · simp [he] at ho'
    · simpa [WeakRegistry.hold, WeakRegistry.register, he] using h.free o' (by simpa [he] using ho')
  functional := (h.register v).functional
  fresh := (h.register v).fresh
  distinct o₁ o₂ w h₁ h₂ := by
    by_cases he₁ : o₁ = o <;> by_cases he₂ : o₂ = o
    · rw [he₁, he₂]
    · obtain rfl : v = w := by simpa [he₁] using h₁
      exact absurd (by simpa [he₂] using h₂) (hv o₂)
    · obtain rfl : v = w := by simpa [he₂] using h₂
      exact absurd (by simpa [he₁] using h₁) (hv o₁)
    · exact h.distinct o₁ o₂ w (by simpa [he₁] using h₁) (by simpa [he₂] using h₂)

theorem Tracks.release [DecidableEq Owner] (h : R.Tracks owners value) {owners' : List Owner}
    (hk : ∀ o' ∈ owners, o' ≠ o → o' ∈ owners') :
    (R.release o).Tracks owners' (Function.update value o none) where
  known o' ho' := by
    by_cases he : o' = o
    · simp [he] at ho'
    · exact hk o' (h.known o' (by simpa [he] using ho')) he
  held o' v' ho' := by
    by_cases he : o' = o
    · simp [he] at ho'
    · obtain ⟨id, hid, hreg⟩ := h.held o' v' (by simpa [he] using ho')
      exact ⟨id, by simpa [WeakRegistry.release, he] using hid, hreg⟩
  free o' ho' := by
    by_cases he : o' = o
    · simp [WeakRegistry.release, he]
    · simpa [WeakRegistry.release, he] using h.free o' (by simpa [he] using ho')
  functional := h.functional
  fresh := h.fresh
  distinct o₁ o₂ w h₁ h₂ := by
    by_cases he₁ : o₁ = o
    · simp [he₁] at h₁
    · by_cases he₂ : o₂ = o
      · simp [he₂] at h₂
      · exact h.distinct o₁ o₂ w (by simpa [he₁] using h₁) (by simpa [he₂] using h₂)

theorem Tracks.mono (h : R.Tracks owners value) {owners' : List Owner} (hk : owners ⊆ owners') :
    R.Tracks owners' value := { h with known := fun o ho => hk (h.known o ho) }

def AllHeld (R : WeakRegistry Owner Value) (owners : List Owner) : Prop :=
  ∀ e ∈ R.registered, ∃ o ∈ owners, R.held o = some e.1

theorem allHeld_removeExpired (R : WeakRegistry Owner Value) (owners : List Owner) :
    (R.removeExpired owners).AllHeld owners := fun _ he => (mem_removeExpired.mp he).2

theorem AllHeld.mono {owners' : List Owner} (h : R.AllHeld owners) (hk : owners ⊆ owners') : R.AllHeld owners' := by
  intro e he
  obtain ⟨o, ho, hh⟩ := h e he
  exact ⟨o, hk ho, hh⟩

theorem AllHeld.release_of_none [DecidableEq Owner] (h : R.AllHeld owners) (hn : R.held o = none) :
    (R.release o).AllHeld owners := by
  have hsame : Function.update R.held o none = R.held := by rw [← hn, Function.update_eq_self]
  intro e he
  obtain ⟨o', ho', hh⟩ := h e he
  exact ⟨o', ho', by simpa [WeakRegistry.release, hsame] using hh⟩

theorem AllHeld.transfer [DecidableEq Owner] (h : R.AllHeld owners) {o' : Owner} {id : Nat} (ho : R.held o = some id)
    (ho' : o' ∈ owners) (hfree : R.held o' = none) : ((R.hold o' id).release o).AllHeld owners := by
  have hne : o' ≠ o := by
    rintro rfl
    simp [ho] at hfree
  intro e he
  obtain ⟨x, hx, hh⟩ := h e he
  by_cases hxo : x = o
  · refine ⟨o', ho', ?_⟩
    rw [hxo, ho] at hh
    simpa [WeakRegistry.hold, WeakRegistry.release, hne] using hh
  · have hxo' : x ≠ o' := by
      rintro rfl
      simp [hfree] at hh
    exact ⟨x, hx, by simpa [WeakRegistry.hold, WeakRegistry.release, hxo, hxo'] using hh⟩

/-- A search that follows the references one by one up to the first match; `none` when it follows
one whose object has expired. -/
def search (R : WeakRegistry Owner Value) (owners : List Owner) (p : Value → Bool) :
    List (Nat × Value) → Option Bool
  | [] => some false
  | e :: es => if R.expired owners e.1 then none else if p e.2 then some true else R.search owners p es

theorem AllHeld.search_eq (h : R.AllHeld owners) (p : Value → Bool) :
    R.search owners p R.registered = some (R.values.any p) := by
  have hall : ∀ es : List (Nat × Value), (∀ e ∈ es, e ∈ R.registered) →
      R.search owners p es = some ((es.map (·.2)).any p) := by
    intro es hes
    induction es with
    | nil => rfl
    | cons e es ih =>
      obtain ⟨o, ho, hh⟩ := h e (hes e (by simp))
      have hlive : R.expired owners e.1 = false := by
        simp only [expired, List.all_eq_false, decide_eq_true_eq, not_not]
        exact ⟨o, ho, hh⟩
      have hrest := ih (fun e' he' => hes e' (by simp [he']))
      by_cases hp : p e.2 = true
      · simp [search, hlive, hp]
      · simp [search, hlive, hp, hrest]
  exact hall R.registered (fun _ he => he)

end WeakRegistry
