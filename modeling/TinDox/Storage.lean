import Mathlib.Data.List.Infix

/-! Stores, which say what stands at each location, and the changes that are made to them one after the
other. What stands below a location goes away with it and moves with it. -/

namespace Storage

abbrev Store (α β : Type*) := List α → Option β

inductive Change (α β : Type*) where
  | keep
  | put (k : List α) (x : β)
  | drop (k : List α)
  | clear (k : List α)
  | move (o n : List α)
  deriving DecidableEq

variable {α β : Type*}

namespace Change

variable [DecidableEq α]

/-- What stands at a location after the change; `clear` leaves what stands at the location itself. -/
def apply (d : Change α β) (s : Store α β) (k : List α) : Option β :=
  match d with
  | keep => s k
  | put j x => if k = j then some x else s k
  | drop j => if j <+: k then none else s k
  | clear j => if j <+: k ∧ k ≠ j then none else s k
  | move o n => if n <+: k then s (o ++ k.drop n.length) else if o <+: k then none else s k

/-- What a change moves is neither below the location nor contains it. -/
def Apart (c : List α) : Change α β → Prop
  | move o _ => ¬ c <+: o ∧ ¬ o <+: c
  | _ => True

end Change

/-- The stores agree on everything that is not below the location. -/
def SameOutside (c : List α) (s t : Store α β) : Prop := ∀ k, ¬ c <+: k → s k = t k

variable {c : List α} {r s t : Store α β} {d : Change α β}

theorem SameOutside.refl (c : List α) (s : Store α β) : SameOutside c s s := fun _ _ => rfl

theorem SameOutside.trans (h : SameOutside c r s) (h' : SameOutside c s t) : SameOutside c r t :=
  fun k hk => (h k hk).trans (h' k hk)

theorem SameOutside.apply [DecidableEq α] (h : SameOutside c s t) (hd : d.Apart c) : SameOutside c (d.apply s) (d.apply t) := by
  intro k hk
  cases d with
  | keep => exact h k hk
  | put j x =>
    show ite _ _ _ = ite _ _ _
    rw [h k hk]
  | drop j =>
    show ite _ _ _ = ite _ _ _
    rw [h k hk]
  | clear j =>
    show ite _ _ _ = ite _ _ _
    rw [h k hk]
  | move o n =>
    obtain ⟨hco, hoc⟩ := hd
    have hfrom : ¬ c <+: o ++ k.drop n.length := by
      intro hc
      rcases List.prefix_or_prefix_of_prefix hc (List.prefix_append o _) with h' | h'
      · exact hco h'
      · exact hoc h'
    show ite _ _ (ite _ _ _) = ite _ _ (ite _ _ _)
    rw [h k hk, h _ hfrom]

end Storage
