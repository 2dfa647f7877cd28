import Mathlib.Logic.Relation

/-! Runs of a deterministic system under inputs, restricted to steps that meet a condition on
the state and the input, and the invariant rule for them. -/

namespace Runs

variable {σ α : Type*} {step : σ → α → σ} {ok : σ → α → Prop}

/-- One step whose input meets the condition in the state it is taken in. -/
def Step (step : σ → α → σ) (ok : σ → α → Prop) (s t : σ) : Prop := ∃ a, ok s a ∧ t = step s a

abbrev Reaches (step : σ → α → σ) (ok : σ → α → Prop) := Relation.ReflTransGen (Step step ok)

/-- What holds at the start and is kept by every step holds in every state reached. -/
theorem Reaches.invariant {I : σ → Prop} {s t : σ} (h : Reaches step ok s t) (hs : I s)
    (hstep : ∀ s a, I s → ok s a → I (step s a)) : I t := by
  induction h with
  | refl => exact hs
  | tail _ hst ih =>
    obtain ⟨a, ha, rfl⟩ := hst
    exact hstep _ a ih ha

def run (step : σ → α → σ) (s : σ) (as : List α) : σ := as.foldl step s

@[simp] theorem run_nil (s : σ) : run step s [] = s := rfl

@[simp] theorem run_cons (s : σ) (a : α) (as : List α) : run step s (a :: as) = run step (step s a) as := rfl

/-- Every input meets the condition in the state it is given in. -/
def AllMeet (step : σ → α → σ) (ok : σ → α → Prop) : σ → List α → Prop
  | _, [] => True
  | s, a :: as => ok s a ∧ AllMeet step ok (step s a) as

instance AllMeet.decidable [∀ s a, Decidable (ok s a)] : ∀ (s : σ) (as : List α), Decidable (AllMeet step ok s as)
  | _, [] => .isTrue trivial
  | s, a :: as =>
    have : Decidable (AllMeet step ok (step s a) as) := AllMeet.decidable (step s a) as
    inferInstanceAs (Decidable (_ ∧ _))

theorem AllMeet.reaches {s : σ} {as : List α} (h : AllMeet step ok s as) :
    Reaches step ok s (run step s as) := by
  induction as generalizing s with
  | nil => exact .refl
  | cons a as ih =>
    obtain ⟨ha, has⟩ := h
    exact .head ⟨a, ha, rfl⟩ (ih has)

theorem AllMeet.congr {ok' : σ → α → Prop} {I : σ → Prop} (hstep : ∀ s a, I s → I (step s a))
    (hiff : ∀ s a, I s → (ok s a ↔ ok' s a)) {s : σ} (hs : I s) (as : List α) :
    AllMeet step ok s as ↔ AllMeet step ok' s as := by
  induction as generalizing s with
  | nil => exact Iff.rfl
  | cons a as ih => exact and_congr (hiff s a hs) (ih (hstep s a hs))

section Purging

variable {ω : Type*} {R : σ → σ → Prop}

/-- What the inputs that are kept put out along a run. -/
def outputs (step : σ → α → σ) (out : σ → α → Option ω) (low : α → Bool) : σ → List α → List ω
  | _, [] => []
  | s, a :: as => (if low a then (out s a).toList else []) ++ outputs step out low (step s a) as

/-- When the inputs that are not kept cannot be seen, a run looks like the one without them. -/
theorem AllMeet.purge (out : σ → α → Option ω) (low : α → Bool)
    (hhigh : ∀ s t a, R s t → low a = false → ok s a → R (step s a) t)
    (hlow : ∀ s t a, R s t → low a = true → R (step s a) (step t a) ∧ out s a = out t a) {s t : σ} {as : List α}
    (h : AllMeet step ok s as) (hR : R s t) :
    R (run step s as) (run step t (as.filter low)) ∧
      outputs step out low s as = outputs step out low t (as.filter low) := by
  induction as generalizing s t with
  | nil => exact ⟨hR, rfl⟩
  | cons a as ih =>
    obtain ⟨ha, has⟩ := h
    cases hl : low a with
    | false =>
      obtain ⟨hrun, hout⟩ := ih has (hhigh s t a hR hl ha)
      rw [List.filter_cons_of_neg (by simp [hl])]
      exact ⟨hrun, by simpa [outputs, hl] using hout⟩
    | true =>
      obtain ⟨hstep, hsame⟩ := hlow s t a hR hl
      obtain ⟨hrun, hout⟩ := ih has hstep
      rw [List.filter_cons_of_pos hl]
      exact ⟨hrun, by simp [outputs, hl, hsame, hout]⟩

end Purging

theorem run_append (s : σ) (as bs : List α) : run step s (as ++ bs) = run step (run step s as) bs :=
  List.foldl_append

theorem AllMeet.of_append {s : σ} {as bs : List α} (h : AllMeet step ok s (as ++ bs)) :
    AllMeet step ok s as ∧ AllMeet step ok (run step s as) bs := by
  induction as generalizing s with
  | nil => exact ⟨trivial, h⟩
  | cons a as ih =>
    obtain ⟨ha, has⟩ := h
    obtain ⟨h₁, h₂⟩ := ih has
    exact ⟨⟨ha, h₁⟩, h₂⟩

/-- When a step keeps the invariant exactly if its input meets a condition, the invariant holds all along
a run exactly if all its inputs meet the condition. -/
theorem AllMeet.invariant_iff {I : σ → Prop} {good : σ → α → Prop}
    (hiff : ∀ s a, I s → ok s a → (I (step s a) ↔ good s a)) {s : σ} {as : List α} (hs : I s)
    (h : AllMeet step ok s as) : (∀ bs, bs <+: as → I (run step s bs)) ↔ AllMeet step good s as := by
  induction as generalizing s with
  | nil =>
    refine iff_of_true ?_ trivial
    intro bs hbs
    rw [List.prefix_nil.mp hbs]
    exact hs
  | cons a as ih =>
    obtain ⟨ha, has⟩ := h
    constructor
    · intro hall
      have hnext : I (step s a) := hall [a] ⟨as, rfl⟩
      refine ⟨(hiff s a hs ha).mp hnext, (ih hnext has).mp ?_⟩
      intro bs hbs
      exact hall (a :: bs) (List.cons_prefix_cons.mpr ⟨rfl, hbs⟩)
    · rintro ⟨hgood, hrest⟩ bs hbs
      have hnext := (hiff s a hs ha).mpr hgood
      cases bs with
      | nil => exact hs
      | cons b bs =>
        obtain ⟨rfl, hrest'⟩ := List.cons_prefix_cons.mp hbs
        exact (ih hnext has).mpr hrest bs hrest'

section Endless

/-- The states of a run that takes one input after the other and does not end. -/
def along (step : σ → α → σ) (s : σ) (inputs : Nat → α) : Nat → σ
  | 0 => s
  | n + 1 => step (along step s inputs n) (inputs n)

variable {s : σ} {inputs : Nat → α}

theorem along_reaches (h : ∀ n, ok (along step s inputs n) (inputs n)) (n : Nat) :
    Reaches step ok s (along step s inputs n) := by
  induction n with
  | zero => exact .refl
  | succ n ih => exact ih.tail ⟨inputs n, h n, rfl⟩

/-- What goes down in a well-founded order again and again as long as it is not final gets there. -/
theorem eventually_of_descends {β : Type*} {r : β → β → Prop} (hwf : WellFounded r) {rank : Nat → β} {final : Nat → Prop}
    {start : Nat} (hdown : ∀ n, start ≤ n → ¬ final n → ∃ m, n < m ∧ (r (rank m) (rank n) ∨ final m)) :
    ∃ n, start ≤ n ∧ final n := by
  suffices h : ∀ b n, start ≤ n → rank n = b → ∃ n, start ≤ n ∧ final n from h _ start (Nat.le_refl _) rfl
  intro b
  induction b using hwf.induction with
  | _ b ih =>
    rintro n hn rfl
    by_cases hfinal : final n
    · exact ⟨n, hn, hfinal⟩
    · obtain ⟨m, hm, hlt | hnext⟩ := hdown n hn hfinal
      · exact ih _ hlt m (by omega) rfl
      · exact ⟨m, by omega, hnext⟩

/-- A run that goes down in a well-founded order as long as it is not where it should be gets there. -/
theorem along_descends {β : Type*} {r : β → β → Prop} (hwf : WellFounded r) (rank : σ → β) {final : σ → Prop}
    (hdown : ∀ n, ¬ final (along step s inputs n) →
      r (rank (along step s inputs (n + 1))) (rank (along step s inputs n)) ∨ final (along step s inputs (n + 1))) :
    ∃ n, final (along step s inputs n) := by
  obtain ⟨n, -, hfinal⟩ := @eventually_of_descends _ r hwf (fun n => rank (along step s inputs n))
    (fun n => final (along step s inputs n)) 0 fun n _ hn => ⟨n + 1, Nat.lt_succ_self n, hdown n hn⟩
  exact ⟨n, hfinal⟩

end Endless

end Runs
