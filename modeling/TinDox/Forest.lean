import Mathlib.Tactic.TypeStar

/-! Ordered forests of leaves and inner nodes, and their outlines: the nodes one after the other, each
with its depth and the mark of an inner node with nothing below. The outline is read from its end. -/

/-- The first tree of the forest, with what is below it, and the rest. -/
inductive Forest (α : Type*) where
  | nil
  | leaf (a : α) (rest : Forest α)
  | node (a : α) (below rest : Forest α)

namespace Forest

variable {α : Type*}

def isNil : Forest α → Bool
  | nil => true
  | _ => false

def labels : Forest α → List α
  | nil => []
  | leaf a rest => a :: rest.labels
  | node a below rest => a :: (below.labels ++ rest.labels)

def height : Forest α → Nat
  | nil => 0
  | leaf _ rest => max 1 rest.height
  | node _ below rest => max (below.height + 1) rest.height

structure Item (α : Type*) where
  depth : Nat
  label : α
  empty : Bool

def outline : Nat → Forest α → List (Item α)
  | _, nil => []
  | d, leaf a rest => ⟨d, a, false⟩ :: outline d rest
  | d, node a below rest => ⟨d, a, below.isNil⟩ :: (outline (d + 1) below ++ outline d rest)

/-- The tree with that label, by what is known to stand below it. -/
def tree (a : α) (empty : Bool) (rest : Forest α) : Forest α → Forest α
  | nil => if empty then node a nil rest else leaf a rest
  | below => node a below rest

/-- `later d` is the forest at depth `d` that the items behind this one begin with. -/
def place (i : Item α) (later : Nat → Forest α) (d : Nat) : Forest α :=
  if d < i.depth then later d
  else if d = i.depth then tree i.label i.empty (later d) (later (d + 1))
  else nil

def readItems (items : List (Item α)) : Nat → Forest α := items.foldr place (fun _ => nil)

theorem tree_below (a : α) (below rest : Forest α) : tree a below.isNil rest below = node a below rest := by
  cases below with
  | nil => rfl
  | leaf => rfl
  | node => rfl

/-- Items of an outline put their forest in front of what is shallower, and cover what is deeper. -/
theorem foldr_place_outline (t : Forest α) (d : Nat) {later : Nat → Forest α} (hlater : ∀ k, d ≤ k → later k = nil)
    (k : Nat) :
    (outline d t).foldr place later k = if k < d then later k else if k = d then t else nil := by
  induction t generalizing d later k with
  | nil =>
    rw [outline, List.foldr_nil]
    by_cases hk : k < d
    · rw [if_pos hk]
    · rw [if_neg hk, hlater k (Nat.le_of_not_lt hk), ite_self]
  | leaf a rest ih =>
    have hrest := fun k => ih d hlater k
    have hbelow : (outline d rest).foldr place later (d + 1) = nil := by
      rw [hrest, if_neg (by omega), if_neg (by omega)]
    rw [outline, List.foldr_cons, place]
    by_cases hk : k < d
    · rw [if_pos hk, if_pos hk, hrest, if_pos hk]
    · rw [if_neg hk, if_neg hk]
      by_cases hd : k = d
      · subst hd
        rw [if_pos rfl, if_pos rfl, hbelow, hrest, if_neg hk, if_pos rfl]
        rfl
      · rw [if_neg hd, if_neg hd]
  | node a below rest ihb ihr =>
    have hrest := fun k => ihr d hlater k
    have hdeeper : ∀ k, d + 1 ≤ k → (outline d rest).foldr place later k = nil := by
      intro k hk
      rw [hrest, if_neg (by omega), if_neg (by omega)]
    have hboth := fun k => ihb (d + 1) hdeeper k
    rw [outline, List.foldr_cons, List.foldr_append, place]
    by_cases hk : k < d
    · rw [if_pos hk, if_pos hk, hboth, if_pos (by omega), hrest, if_pos hk]
    · rw [if_neg hk, if_neg hk]
      by_cases hd : k = d
      · subst hd
        rw [if_pos rfl, if_pos rfl, hboth, hboth, if_pos (by omega), if_neg (by omega), if_pos rfl, hrest,
          if_neg hk, if_pos rfl]
        exact tree_below a below rest
      · rw [if_neg hd, if_neg hd]

theorem readItems_outline (t : Forest α) : readItems (outline 0 t) 0 = t := by
  rw [readItems, foldr_place_outline t 0 (fun _ _ => rfl), if_neg (Nat.lt_irrefl 0), if_pos rfl]

theorem label_mem_of_outline {t : Forest α} {d : Nat} {i : Item α} (h : i ∈ outline d t) : i.label ∈ t.labels := by
  induction t generalizing d with
  | nil => simp [outline] at h
  | leaf a rest ih =>
    rcases List.mem_cons.mp h with rfl | h
    · exact List.mem_cons_self
    · exact List.mem_cons_of_mem a (ih h)
  | node a below rest ihb ihr =>
    rcases List.mem_cons.mp h with rfl | h
    · exact List.mem_cons_self
    · apply List.mem_cons_of_mem
      rcases List.mem_append.mp h with h | h
      · exact List.mem_append_left _ (ihb h)
      · exact List.mem_append_right _ (ihr h)

end Forest
