import Mathlib.Control.Basic

/-! What holds of the error and of the result of a computation that can fail, by the way it is put
together. -/

namespace Fallible

universe u

variable {ε : Type*} {α β : Type u} {E : ε → Prop} {P : α → Prop} {Q : β → Prop}

/-- Each error meets `E`, each result meets `P`. -/
def Meets (E : ε → Prop) (P : α → Prop) : Except ε α → Prop
  | .error e => E e
  | .ok a => P a

@[simp] theorem meets_error (e : ε) : Meets E P (.error e) ↔ E e := Iff.rfl

@[simp] theorem meets_ok (a : α) : Meets E P (.ok a : Except ε α) ↔ P a := Iff.rfl

theorem Meets.imp {E' : ε → Prop} {P' : α → Prop} {x : Except ε α} (h : Meets E P x) (hE : ∀ e, E e → E' e)
    (hP : ∀ a, P a → P' a) : Meets E' P' x := by
  cases x with
  | error e => exact hE e h
  | ok a => exact hP a h

theorem Meets.map {x : Except ε α} {f : α → β} (h : Meets E P x) (hf : ∀ a, P a → Q (f a)) : Meets E Q (x.map f) := by
  cases x with
  | error e => exact h
  | ok a => exact hf a h

theorem Meets.bind {x : Except ε α} {f : α → Except ε β} (h : Meets E P x)
    (hf : ∀ a, P a → Meets E Q (f a)) : Meets E Q (x >>= f) := by
  cases x with
  | error e => exact h
  | ok a => exact hf a h

/-- What every step of a loop keeps. -/
theorem Meets.foldlM {l : List β} {f : α → β → Except ε α} {a : α} (ha : P a)
    (hf : ∀ a b, b ∈ l → P a → Meets E P (f a b)) : Meets E P (l.foldlM f a) := by
  induction l generalizing a with
  | nil => exact ha
  | cons b l ih =>
    rw [List.foldlM_cons]
    exact (hf a b (by simp) ha).bind (fun a ha => ih ha (fun a b hb => hf a b (by simp [hb])))

end Fallible
