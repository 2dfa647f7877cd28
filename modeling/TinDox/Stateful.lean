import Mathlib.Order.Defs.Unbundled

/-! Computations that change a state and may fail, with the state as it is then. What they may do to the
state is a preorder, which also holds when they fail; what they promise holds of their results. -/

namespace Stateful

variable {ε σ α β : Type}

abbrev Computation (ε σ α : Type) := ExceptT ε (StateM σ) α

def exec (x : Computation ε σ α) (s : σ) : Except ε α × σ := x.run.run s

@[simp] theorem exec_pure (a : α) (s : σ) : exec (pure a : Computation ε σ α) s = (.ok a, s) := rfl

@[simp] theorem exec_throw (e : ε) (s : σ) : exec (throw e : Computation ε σ α) s = (.error e, s) := rfl

theorem exec_bind (x : Computation ε σ α) (f : α → Computation ε σ β) (s : σ) :
    exec (x >>= f) s = match exec x s with
      | (.ok a, t) => exec (f a) t
      | (.error e, t) => (.error e, t) := by
  show (bind x f).run.run s = match x.run.run s with | (.ok a, t) => _ | (.error e, t) => _
  rw [ExceptT.run_bind, StateT.run_bind]
  rcases x.run.run s with ⟨_ | _, t⟩ <;> rfl

variable {R : σ → σ → Prop} {P : σ → α → Prop} {Q : σ → β → Prop} {x : Computation ε σ α} {f : α → Computation ε σ β} {s : σ}

/-- The state changes by `R`, and a result meets `P` in the state that it leaves. -/
structure Meets (R : σ → σ → Prop) (P : σ → α → Prop) (x : Computation ε σ α) (s : σ) : Prop where
  changes : R s (exec x s).2
  result : ∀ a, (exec x s).1 = .ok a → P (exec x s).2 a

theorem Meets.imp {P' : σ → α → Prop} (h : Meets R P x s) (hP : ∀ t a, R s t → P t a → P' t a) : Meets R P' x s :=
  ⟨h.changes, fun a ha => hP _ a h.changes (h.result a ha)⟩

variable [IsPreorder σ R]

theorem Meets.pure {a : α} (h : P s a) : Meets R P (Pure.pure a : Computation ε σ α) s := by
  refine ⟨Std.Refl.refl s, ?_⟩
  intro b hb
  cases hb
  exact h

theorem Meets.throw (e : ε) (s : σ) : Meets R P (throwThe ε e : Computation ε σ α) s := by
  refine ⟨Std.Refl.refl s, ?_⟩
  intro a ha
  cases ha

theorem Meets.bind (h : Meets R P x s) (hf : ∀ t a, R s t → P t a → Meets R Q (f a) t) : Meets R Q (x >>= f) s := by
  have hR := h.changes
  have hP := h.result
  have hbind := exec_bind x f s
  rcases hx : exec x s with ⟨e | a, t⟩
  · rw [hx] at hR hbind
    refine ⟨?_, ?_⟩
    · rw [hbind]
      exact hR
    · intro b hb
      rw [hbind] at hb
      cases hb
  · rw [hx] at hR hP hbind
    have hrest := hf t a hR (hP a rfl)
    refine ⟨?_, ?_⟩
    · rw [hbind]
      exact IsTrans.trans _ _ _ hR hrest.changes
    · rw [hbind]
      exact hrest.result

omit [IsPreorder σ R] in
theorem Meets.bind_get {f : σ → Computation ε σ α} (h : Meets R P (f s) s) : Meets R P (get >>= f) s := ⟨h.changes, h.result⟩

omit [IsPreorder σ R] in
theorem Meets.set {P : σ → PUnit → Prop} {t : σ} (hR : R s t) (hP : P t ⟨⟩) : Meets R P (MonadStateOf.set t : Computation ε σ PUnit) s :=
  ⟨hR, fun _ _ => hP⟩

omit [IsPreorder σ R] in
theorem Meets.ite {c : Prop} [Decidable c] {x y : Computation ε σ α} (h : c → Meets R P x s) (h' : ¬ c → Meets R P y s) :
    Meets R P (if c then x else y) s := by
  by_cases hc : c
  · rw [if_pos hc]
    exact h hc
  · rw [if_neg hc]
    exact h' hc

/-- Attempts are made until what they give is accepted. They are numbered, and each gets what the one
before it gave. -/
def attempts (attempt : Nat → α → Computation ε σ α) (accepts : α → Bool) (e : ε) : Nat → Nat → α → Computation ε σ α
  | _, 0, _ => throw e
  | i, n + 1, a => do
    let a ← attempt i a
    if accepts a then pure a else attempts attempt accepts e (i + 1) n a

/-- What every attempt keeps holds of what is accepted. -/
theorem Meets.attempts {attempt : Nat → α → Computation ε σ α} {accepts : α → Bool} {e : ε} {I : σ → α → Prop}
    (h : ∀ i t a, I t a → Meets R I (attempt i a) t) (n : Nat) : ∀ i s a, I s a →
      Meets R (fun t a => I t a ∧ accepts a = true) (attempts attempt accepts e i n a) s := by
  induction n with
  | zero =>
    intro i s a _
    exact Meets.throw e s
  | succ n ih =>
    intro i s a ha
    apply (h i s a ha).bind
    intro t b _ hb
    apply Meets.ite
    · exact fun hok => Meets.pure ⟨hb, hok⟩
    · exact fun _ => ih (i + 1) t b hb

end Stateful
