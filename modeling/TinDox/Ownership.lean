import Mathlib.Data.Set.Insert
import Mathlib.Logic.Equiv.Basic

/-! Resources and the handles that hold them. Every handle holds at most one resource, and what is
live is what is held, each resource by one handle. -/

structure Owns {ι ρ : Type*} (live : Set ρ) (holds : ι → Option ρ) : Prop where
  held : ∀ r, r ∈ live ↔ ∃ i, holds i = some r
  unique : ∀ i j r, holds i = some r → holds j = some r → i = j

namespace Owns

variable {ι ρ : Type*} {live live' : Set ρ} {holds : ι → Option ρ} {i j : ι} {r : ρ}

theorem nothing : Owns (∅ : Set ρ) (fun _ : ι => none) where
  held r := by simp
  unique i j r hi := by simp at hi

theorem live_of_holds (h : Owns live holds) (hi : holds i = some r) : r ∈ live := (h.held r).mpr ⟨i, hi⟩

theorem not_holds (h : Owns live holds) (hr : r ∉ live) (i : ι) : holds i ≠ some r :=
  fun hi => hr (h.live_of_holds hi)

/-- What the other handles hold is what is live and not with this one. -/
theorem held_by_others (h : Owns live holds) (i : ι) (r : ρ) :
    (∃ j, j ≠ i ∧ holds j = some r) ↔ r ∈ live ∧ holds i ≠ some r := by
  constructor
  · rintro ⟨j, hj, hr⟩
    exact ⟨h.live_of_holds hr, fun hi => hj (h.unique j i r hr hi)⟩
  · rintro ⟨hlive, hi⟩
    obtain ⟨j, hj⟩ := (h.held r).mp hlive
    refine ⟨j, ?_, hj⟩
    intro hji
    exact hi (hji ▸ hj)

section Update

variable [DecidableEq ι]

theorem holds_update (holds : ι → Option ρ) (i : ι) (new : Option ρ) (r : ρ) :
    (∃ j, Function.update holds i new j = some r) ↔ (∃ j, j ≠ i ∧ holds j = some r) ∨ new = some r := by
  constructor
  · rintro ⟨j, hj⟩
    by_cases hji : j = i
    · subst hji
      exact Or.inr (by simpa using hj)
    · rw [Function.update_of_ne hji] at hj
      exact Or.inl ⟨j, hji, hj⟩
  · rintro (⟨j, hji, hj⟩ | hnew)
    · exact ⟨j, by rw [Function.update_of_ne hji]; exact hj⟩
    · exact ⟨i, by rw [Function.update_self]; exact hnew⟩

/-- One handle is given something else. This is sound exactly when what it held is live no more, unless
it still holds it, and what it holds now is live and with no other handle. -/
theorem update_iff (h : Owns live holds) (i : ι) (new : Option ρ) :
    Owns live' (Function.update holds i new) ↔
      (∀ r, r ∈ live' ↔ r ∈ live ∧ holds i ≠ some r ∨ new = some r) ∧
        ∀ j r, j ≠ i → holds j = some r → new ≠ some r := by
  constructor
  · intro h'
    constructor
    · intro r
      rw [h'.held, holds_update, h.held_by_others]
    · intro j r hji hj hnew
      apply hji
      apply h'.unique j i r
      · rw [Function.update_of_ne hji]
        exact hj
      · rw [Function.update_self]
        exact hnew
  · rintro ⟨hlive, hnew⟩
    refine ⟨?_, ?_⟩
    · intro r
      rw [hlive, holds_update, h.held_by_others]
    · intro j k r hj hk
      by_cases hji : j = i
      · by_cases hki : k = i
        · rw [hji, hki]
        · rw [hji, Function.update_self] at hj
          rw [Function.update_of_ne hki] at hk
          exact absurd hj (hnew k r hki hk)
      · rw [Function.update_of_ne hji] at hj
        by_cases hki : k = i
        · rw [hki, Function.update_self] at hk
          exact absurd hk (hnew j r hji hj)
        · rw [Function.update_of_ne hki] at hk
          exact h.unique j k r hj hk

/-- A handle that gives up what it holds is sound when that is released and nothing else. -/
theorem drop_iff (h : Owns live holds) (i : ι) :
    Owns live' (Function.update holds i none) ↔ ∀ r, r ∈ live' ↔ r ∈ live ∧ holds i ≠ some r := by
  simp [h.update_iff]

/-- Nothing is released: the handle must have been empty. -/
theorem forget_iff (h : Owns live holds) (i : ι) :
    Owns live (Function.update holds i none) ↔ holds i = none := by
  rw [h.drop_iff]
  constructor
  · intro hlive
    apply Option.eq_none_iff_forall_ne_some.mpr
    intro r hi
    exact ((hlive r).mp (h.live_of_holds hi)).2 hi
  · intro hi r
    simp [hi]

/-- A resource that was not live goes to a handle, and nothing is released. -/
theorem acquire_iff (h : Owns live holds) (i : ι) (hr : r ∉ live) :
    Owns (insert r live) (Function.update holds i (some r)) ↔ holds i = none := by
  rw [h.update_iff]
  constructor
  · rintro ⟨hlive, -⟩
    apply Option.eq_none_iff_forall_ne_some.mpr
    intro r' hi
    have hne : r ≠ r' := fun he => hr (he ▸ h.live_of_holds hi)
    have hr' := (hlive r').mp (Set.mem_insert_of_mem r (h.live_of_holds hi))
    exact hr'.elim (fun hold => hold.2 hi) (fun hnew => hne (Option.some.inj hnew))
  · intro hi
    refine ⟨?_, ?_⟩
    · intro r'
      simp [hi, or_comm, eq_comm]
    · intro j r' _ hj he
      exact h.not_holds hr j (Option.some.inj he ▸ hj)

theorem swap (h : Owns live holds) (i j : ι) : Owns live (holds ∘ Equiv.swap i j) where
  held r := (h.held r).trans ((Equiv.swap i j).exists_congr_left.trans (by simp))
  unique k l r hk hl := (Equiv.swap i j).injective (h.unique _ _ r hk hl)

/-- One handle hands over what it holds: the other must have been empty. -/
theorem transfer_iff (h : Owns live holds) (hij : i ≠ j) :
    Owns live (Function.update (Function.update holds i none) j (holds i)) ↔ holds j = none := by
  have hswap : Function.update (Function.update holds i none) j (holds i) =
      Function.update (holds ∘ Equiv.swap i j) i none := by
    funext k
    by_cases hki : k = i
    · subst hki
      rw [Function.update_of_ne hij, Function.update_self, Function.update_self]
    · rw [Function.update_of_ne hki]
      by_cases hkj : k = j
      · subst hkj
        rw [Function.update_self, Function.comp_apply, Equiv.swap_apply_right]
      · rw [Function.update_of_ne hkj, Function.update_of_ne hki, Function.comp_apply,
          Equiv.swap_apply_of_ne_of_ne hki hkj]
  rw [hswap, (h.swap i j).forget_iff, Function.comp_apply, Equiv.swap_apply_left]

end Update

end Owns
