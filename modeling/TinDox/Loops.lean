import Mathlib.Data.Nat.Find
import Mathlib.Data.Sum.Basic
import Mathlib.Logic.Relation

/-! Loops given by their body, which goes on with a state or leaves with a result. A loop whose body
decreases a measure terminates, and then it leaves with exactly one result; so does a loop with loops
inside it, if all of those that it comes to terminate. -/

namespace Loops

variable {σ τ ρ υ : Type*} {body : σ → σ ⊕ ρ} {s t : σ}

def Next (body : σ → σ ⊕ ρ) (s t : σ) : Prop := body s = .inl t

abbrev Reaches (body : σ → σ ⊕ ρ) := Relation.ReflTransGen (Next body)

/-- There is no infinite run from the state. -/
def Terminates (body : σ → σ ⊕ ρ) (s : σ) : Prop := Acc (fun t s => Next body s t) s

def Leaves (body : σ → σ ⊕ ρ) (s : σ) (r : ρ) : Prop := ∃ t, Reaches body s t ∧ body t = .inr r

theorem Terminates.leaves (h : Terminates body s) : ∃ r, Leaves body s r := by
  induction h with
  | intro s _ ih =>
    cases hb : body s with
    | inl t =>
      obtain ⟨r, u, hu, hr⟩ := ih t hb
      exact ⟨r, u, .head hb hu, hr⟩
    | inr r => exact ⟨r, s, .refl, hb⟩

theorem Terminates.of_leaves {r : ρ} (h : Leaves body s r) : Terminates body s := by
  obtain ⟨t, ht, hr⟩ := h
  induction ht using Relation.ReflTransGen.head_induction_on with
  | refl =>
    refine ⟨t, fun u hu => ?_⟩
    rw [Next, hr] at hu
    cases hu
  | @head s u hsu _ ih =>
    refine ⟨s, fun v hv => ?_⟩
    obtain rfl := Sum.inl.inj (hsu.symm.trans hv)
    exact ih

theorem terminates_iff_leaves : Terminates body s ↔ ∃ r, Leaves body s r :=
  ⟨Terminates.leaves, fun ⟨_, h⟩ => .of_leaves h⟩

theorem Terminates.of_reaches (h : Terminates body s) (ht : Reaches body s t) : Terminates body t := by
  induction ht with
  | refl => exact h
  | tail _ hnext ih => exact ih.inv hnext

/-- A loop terminates when another one does that makes a step for each of its steps. -/
theorem Terminates.of_steps {body' : τ → τ ⊕ υ} {f : σ → τ} (hf : ∀ s t, Next body s t → Next body' (f s) (f t))
    (h : Terminates body' (f s)) : Terminates body s := by
  generalize hu : f s = u at h
  induction h generalizing s with
  | intro u _ ih =>
    subst hu
    exact ⟨s, fun t ht => ih (f t) (hf s t ht) rfl⟩

/-- The loop leaves after at most so many steps, and all states on its way pass a test. -/
def checks (body : σ → σ ⊕ ρ) (p : σ → Bool) : Nat → σ → Bool
  | 0, _ => false
  | n + 1, s => p s && match body s with
    | .inl t => checks body p n t
    | .inr _ => true

theorem forall_of_checks {p : σ → Bool} {n : Nat} (h : checks body p n s = true) (ht : Reaches body s t) : p t = true := by
  induction n generalizing s with
  | zero => cases h
  | succ n ih =>
    rw [checks, Bool.and_eq_true] at h
    obtain ⟨hs, hrest⟩ := h
    rcases ht.cases_head with rfl | ⟨u, hsu, hut⟩
    · exact hs
    · have hu : body s = .inl u := hsu
      rw [hu] at hrest
      exact ih hrest hut

theorem Leaves.unique {r r' : ρ} (h : Leaves body s r) (h' : Leaves body s r') : r = r' := by
  obtain ⟨t, ht, hr⟩ := h
  induction ht using Relation.ReflTransGen.head_induction_on with
  | refl =>
    obtain ⟨u, hu, hr'⟩ := h'
    rcases hu.cases_head with rfl | ⟨v, hv, -⟩
    · exact Sum.inr.inj (hr.symm.trans hr')
    · rw [Next, hr] at hv
      cases hv
  | head hst _ ih =>
    apply ih
    obtain ⟨u, hu, hr'⟩ := h'
    rcases hu.cases_head with rfl | ⟨v, hv, hvu⟩
    · rw [Next, hr'] at hst
      cases hst
    · obtain rfl := Sum.inl.inj (hst.symm.trans hv)
      exact ⟨u, hvu, hr'⟩

/-- What the body keeps may be used to show that it decreases the measure. -/
theorem terminates_of_measure {I : σ → Prop} (m : σ → Nat) (hstep : ∀ s t, I s → Next body s t → I t ∧ m t < m s)
    (hs : I s) : Terminates body s := by
  induction hn : m s using Nat.strongRecOn generalizing s with
  | _ n ih =>
    subst n
    refine ⟨s, fun t ht => ?_⟩
    obtain ⟨hI, hlt⟩ := hstep s t hs ht
    exact ih (m t) hlt hI rfl

/-- The result of a loop whose body decreases the measure. -/
def run (body : σ → σ ⊕ ρ) (m : σ → Nat) (hdec : ∀ s t, Next body s t → m t < m s) (s : σ) : ρ :=
  match _h : body s with
  | .inl t => run body m hdec t
  | .inr r => r
termination_by m s
decreasing_by exact hdec s t (by assumption)

variable {m : σ → Nat} {hdec : ∀ s t, Next body s t → m t < m s}

theorem run_inl (h : body s = .inl t) : run body m hdec s = run body m hdec t := by
  rw [run]
  split
  · rename_i t' ht'
    obtain rfl := Sum.inl.inj (h.symm.trans ht')
    rfl
  · rename_i r hr
    cases h.symm.trans hr

theorem run_inr {r : ρ} (h : body s = .inr r) : run body m hdec s = r := by
  rw [run]
  split
  · rename_i t ht
    cases h.symm.trans ht
  · rename_i r' hr'
    exact (Sum.inr.inj (h.symm.trans hr')).symm

theorem terminates_of_decreasing (hdec : ∀ s t, Next body s t → m t < m s) (s : σ) : Terminates body s :=
  terminates_of_measure (I := fun _ => True) m (fun s t _ h => ⟨trivial, hdec s t h⟩) trivial

/-- The loop takes the states of a sequence one after the other and leaves at the first that stops it. -/
structure RunsThrough (body : σ → σ ⊕ ρ) (states : Nat → σ) (stop : Nat → Prop) (out : Nat → ρ) : Prop where
  go : ∀ k, ¬ stop k → body (states k) = .inl (states (k + 1))
  leave : ∀ k, stop k → body (states k) = .inr (out k)

namespace RunsThrough

variable {states : Nat → σ} {stop : Nat → Prop} {out : Nat → ρ}

theorem reaches_iff (h : RunsThrough body states stop out) :
    Reaches body (states 0) t ↔ ∃ k, t = states k ∧ ∀ j < k, ¬ stop j := by
  constructor
  · intro ht
    induction ht with
    | refl => exact ⟨0, rfl, fun j hj => absurd hj (Nat.not_lt_zero j)⟩
    | tail _ hst ih =>
      obtain ⟨k, rfl, hk⟩ := ih
      by_cases hs : stop k
      · rw [Next, h.leave k hs] at hst
        cases hst
      · rw [Next, h.go k hs] at hst
        refine ⟨k + 1, (Sum.inl.inj hst).symm, ?_⟩
        intro j hj
        rcases Nat.lt_succ_iff_lt_or_eq.mp hj with hj | rfl
        · exact hk j hj
        · exact hs
  · rintro ⟨k, rfl, hk⟩
    induction k with
    | zero => exact .refl
    | succ k ih => exact (ih (fun j hj => hk j (Nat.lt_succ_of_lt hj))).tail (h.go k (hk k (Nat.lt_succ_self k)))

theorem leaves_iff {r : ρ} (h : RunsThrough body states stop out) :
    Leaves body (states 0) r ↔ ∃ k, r = out k ∧ stop k ∧ ∀ j < k, ¬ stop j := by
  constructor
  · rintro ⟨t, ht, hr⟩
    obtain ⟨k, rfl, hk⟩ := h.reaches_iff.mp ht
    by_cases hs : stop k
    · rw [h.leave k hs] at hr
      exact ⟨k, (Sum.inr.inj hr).symm, hs, hk⟩
    · rw [h.go k hs] at hr
      cases hr
  · rintro ⟨k, rfl, hs, hk⟩
    exact ⟨states k, h.reaches_iff.mpr ⟨k, rfl, hk⟩, h.leave k hs⟩

theorem terminates_iff (h : RunsThrough body states stop out) : Terminates body (states 0) ↔ ∃ k, stop k := by
  rw [terminates_iff_leaves]
  constructor
  · rintro ⟨r, hr⟩
    obtain ⟨k, -, hk, -⟩ := h.leaves_iff.mp hr
    exact ⟨k, hk⟩
  · intro hstop
    classical
    exact ⟨out (Nat.find hstop), h.leaves_iff.mpr ⟨_, rfl, Nat.find_spec hstop, fun j hj => Nat.find_min hstop hj⟩⟩

end RunsThrough

/-- Before an iteration is made, a loop inside it may have to be left, which is given by its body and the state
that it is entered with. -/
def nested (body : σ → σ ⊕ ρ) (inside : σ → Option ((τ → τ ⊕ υ) × τ)) :
    σ ⊕ σ × (τ → τ ⊕ υ) × τ → (σ ⊕ σ × (τ → τ ⊕ υ) × τ) ⊕ ρ
  | .inl s =>
    match inside s with
    | some loop => .inl (.inr (s, loop))
    | none => (body s).map .inl id
  | .inr (s, loop, t) =>
    match loop t with
    | .inl t => .inl (.inr (s, loop, t))
    | .inr _ => (body s).map .inl id

section Nested

variable {inside : σ → Option ((τ → τ ⊕ υ) × τ)}

/-- The loop inside an iteration ends, if there is one. -/
def Passes (inside : σ → Option ((τ → τ ⊕ υ) × τ)) (s : σ) : Prop := ∀ loop ∈ inside s, Terminates loop.1 loop.2

theorem nested_inside_reaches {loop : τ → τ ⊕ υ} {a b : τ} (h : Reaches loop a b) :
    Reaches (nested body inside) (.inr (s, loop, a)) (.inr (s, loop, b)) := by
  apply h.lift fun t => Sum.inr (s, loop, t)
  intro a b hab
  simp only [Next, nested]
  rw [show loop a = .inl b from hab]

/-- An iteration is made when the loop inside it has been left. -/
theorem Passes.made (h : Passes inside s) (body : σ → σ ⊕ ρ) :
    ∃ c, Reaches (nested body inside) (.inl s) c ∧ nested body inside c = (body s).map .inl id := by
  cases hs : inside s with
  | none => exact ⟨_, .refl, by simp only [nested, hs]⟩
  | some loop =>
    obtain ⟨loop, a⟩ := loop
    obtain ⟨r, b, hb, hr⟩ := (h (loop, a) hs).leaves
    have henter : Next (nested body inside) (.inl s) (.inr (s, loop, a)) := by simp only [Next, nested, hs]
    refine ⟨_, .head henter (nested_inside_reaches hb), ?_⟩
    simp only [nested]
    rw [show loop b = .inr r from hr]

theorem Passes.of_terminates (h : Terminates (nested body inside) (.inl s)) : Passes inside s := by
  rintro ⟨loop, a⟩ hs
  have henter : Next (nested body inside) (.inl s) (.inr (s, loop, a)) := by
    simp only [Next, nested, show inside s = some (loop, a) from hs]
  have hinside : Terminates (nested body inside) (.inr (s, loop, a)) := h.inv henter
  refine Terminates.of_steps (f := fun t => Sum.inr (s, loop, t)) ?_ hinside
  intro a b hab
  simp only [Next, nested]
  rw [show loop a = .inl b from hab]

theorem Passes.reaches_next (h : Passes inside s) (hnext : Next body s t) :
    Reaches (nested body inside) (.inl s) (.inl t) := by
  obtain ⟨c, hc, hmade⟩ := h.made body
  rw [show body s = .inl t from hnext] at hmade
  exact hc.tail hmade

theorem nested_leaves {r : ρ} (h : Leaves body s r) (hpass : ∀ t, Reaches body s t → Passes inside t) :
    Leaves (nested body inside) (.inl s) r := by
  obtain ⟨t, ht, hr⟩ := h
  induction ht using Relation.ReflTransGen.head_induction_on with
  | refl =>
    obtain ⟨c, hc, hmade⟩ := (hpass t .refl).made body
    rw [hr] at hmade
    exact ⟨c, hc, hmade⟩
  | @head s u hsu _ ih =>
    obtain ⟨c, hc, hout⟩ := ih fun v hv => hpass v (.head hsu hv)
    exact ⟨c, ((hpass s .refl).reaches_next hsu).trans hc, hout⟩

/-- A loop that terminates without the loops inside it terminates with them exactly when those that it comes to do. -/
theorem nested_terminates_iff (h : Terminates body s) :
    Terminates (nested body inside) (.inl s) ↔ ∀ t, Reaches body s t → Passes inside t := by
  constructor
  · intro hn t ht
    induction ht using Relation.ReflTransGen.head_induction_on with
    | refl => exact .of_terminates hn
    | head hsu _ ih =>
      have hreach := (Passes.of_terminates hn).reaches_next hsu
      exact ih (h.inv hsu) (hn.of_reaches hreach)
  · intro hpass
    obtain ⟨r, hr⟩ := h.leaves
    exact .of_leaves (nested_leaves hr hpass)

end Nested

end Loops
