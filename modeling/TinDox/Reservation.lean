import Mathlib.Data.List.Nodup
import Mathlib.Logic.Function.Basic

/-! Reservations made in two steps: an owner checks that a key is not granted, and is granted it
later. Between the two the owner is in a window in which the key is still free for others. -/

structure Reservation (Owner Key : Type*) where
  granted : List Key
  window : Owner → Option Key

namespace Reservation

variable {Owner Key : Type*} [DecidableEq Owner] {R : Reservation Owner Key} {o : Owner} {k : Key}

/-- No key is granted twice, no key in a window is granted, and no two owners are in a window
with the same key. -/
structure Exclusive (R : Reservation Owner Key) : Prop where
  nodup : R.granted.Nodup
  apart : ∀ o k, R.window o = some k → k ∉ R.granted
  distinct : ∀ o o' k, R.window o = some k → R.window o' = some k → o = o'

def enter (R : Reservation Owner Key) (o : Owner) (k : Key) : Reservation Owner Key :=
  { R with window := Function.update R.window o (some k) }

def leave (R : Reservation Owner Key) (o : Owner) : Reservation Owner Key :=
  { R with window := Function.update R.window o none }

def grant (R : Reservation Owner Key) (o : Owner) (k : Key) : Reservation Owner Key :=
  ⟨R.granted ++ [k], Function.update R.window o none⟩

omit [DecidableEq Owner] in
theorem exclusive_empty : (⟨[], fun _ => none⟩ : Reservation Owner Key).Exclusive where
  nodup := List.nodup_nil
  apart _ _ h := by simp at h
  distinct _ _ _ h := by simp at h

theorem Exclusive.leave (h : R.Exclusive) (o : Owner) : (R.leave o).Exclusive where
  nodup := h.nodup
  apart o' k hw := by
    by_cases ho : o' = o
    · simp [Reservation.leave, ho] at hw
    · exact h.apart o' k (by simpa [Reservation.leave, ho] using hw)
  distinct o₁ o₂ k h₁ h₂ := by
    by_cases ho₁ : o₁ = o
    · simp [Reservation.leave, ho₁] at h₁
    · by_cases ho₂ : o₂ = o
      · simp [Reservation.leave, ho₂] at h₂
      · exact h.distinct o₁ o₂ k (by simpa [Reservation.leave, ho₁] using h₁)
          (by simpa [Reservation.leave, ho₂] using h₂)

theorem Exclusive.enter (h : R.Exclusive) (hfree : k ∉ R.granted) (halone : ∀ o', o' ≠ o → R.window o' ≠ some k) :
    (R.enter o k).Exclusive where
  nodup := h.nodup
  apart o' k' hw := by
    by_cases ho : o' = o
    · obtain rfl : k = k' := by simpa [Reservation.enter, ho] using hw
      exact hfree
    · exact h.apart o' k' (by simpa [Reservation.enter, ho] using hw)
  distinct o₁ o₂ k' h₁ h₂ := by
    by_cases ho₁ : o₁ = o <;> by_cases ho₂ : o₂ = o
    · rw [ho₁, ho₂]
    · obtain rfl : k = k' := by simpa [Reservation.enter, ho₁] using h₁
      exact absurd (by simpa [Reservation.enter, ho₂] using h₂) (halone o₂ ho₂)
    · obtain rfl : k = k' := by simpa [Reservation.enter, ho₂] using h₂
      exact absurd (by simpa [Reservation.enter, ho₁] using h₁) (halone o₁ ho₁)
    · exact h.distinct o₁ o₂ k' (by simpa [Reservation.enter, ho₁] using h₁)
        (by simpa [Reservation.enter, ho₂] using h₂)

theorem Exclusive.grant (h : R.Exclusive) (hw : R.window o = some k) : (R.grant o k).Exclusive where
  nodup := by
    rw [Reservation.grant, ← List.concat_eq_append]
    exact (List.nodup_concat _ _).mpr ⟨h.apart o k hw, h.nodup⟩
  apart o' k' hw' := by
    by_cases ho : o' = o
    · simp [Reservation.grant, ho] at hw'
    · have hold : R.window o' = some k' := by simpa [Reservation.grant, ho] using hw'
      have hne : k' ≠ k := by
        rintro rfl
        exact ho (h.distinct o' o k' hold hw)
      simpa [Reservation.grant, hne] using h.apart o' k' hold
  distinct := (h.leave o).distinct

omit [DecidableEq Owner] in
theorem Exclusive.drop (h : R.Exclusive) {granted : List Key} (hs : granted.Sublist R.granted) :
    (⟨granted, R.window⟩ : Reservation Owner Key).Exclusive where
  nodup := h.nodup.sublist hs
  apart o k hw hm := h.apart o k hw (hs.subset hm)
  distinct := h.distinct

end Reservation
