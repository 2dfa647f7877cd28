import TinDox.Runs

/-! One system followed by another. Each input of the first is matched by a list of inputs of the
second, which depends on the state it is taken in; a relation that every step keeps holds at the
end of every run. -/

namespace Runs

variable {σ τ α β : Type*} {step : σ → α → σ} {step' : τ → β → τ} {R : σ → τ → Prop}

/-- What the second system is given while the first one runs. -/
def matching (step : σ → α → σ) (matched : σ → α → List β) : σ → List α → List β
  | _, [] => []
  | s, a :: as => matched s a ++ matching step matched (step s a) as

/-- A step is followed when the matching inputs lead from a related state to a related one. -/
def Follows (step : σ → α → σ) (step' : τ → β → τ) (matched : σ → α → List β) (R : σ → τ → Prop) : Prop :=
  ∀ s t a, R s t → R (step s a) (run step' t (matched s a))

variable {matched : σ → α → List β}

theorem Follows.run (h : Follows step step' matched R) {s : σ} {t : τ} (hR : R s t) (as : List α) :
    R (run step s as) (run step' t (matching step matched s as)) := by
  induction as generalizing s t with
  | nil => exact hR
  | cons a as ih =>
    rw [run_cons, matching, run_append]
    exact ih (h s t a hR)

theorem reaches_run (step : σ → α → σ) (s : σ) (as : List α) : Reaches step (fun _ _ => True) s (Runs.run step s as) := by
  induction as generalizing s with
  | nil => exact .refl
  | cons a as ih => exact .head ⟨a, trivial, rfl⟩ (ih (step s a))

end Runs
