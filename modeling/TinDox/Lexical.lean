import Mathlib.Data.List.Basic
import Mathlib.Data.List.Infix

/-! Lexical resolution of component lists. A component stays in place, climbs to the parent
or descends into a named child, and no file system is consulted. -/

namespace Lexical

inductive Component (α : Type*) where
  | here
  | up
  | child (a : α)
  deriving DecidableEq

variable {α : Type*}

/-- The location reached from `k` by following the components. The parent of the topmost
location is that location itself. -/
def follow : List α → List (Component α) → List α
  | k, [] => k
  | k, .here :: cs => follow k cs
  | k, .up :: cs => follow k.dropLast cs
  | k, .child a :: cs => follow (k ++ [a]) cs

theorem follow_append (k : List α) (cs ds : List (Component α)) :
    follow k (cs ++ ds) = follow (follow k cs) ds := by
  induction cs generalizing k with
  | nil => rfl
  | cons c cs ih => cases c <;> exact ih _

theorem follow_children (k names : List α) :
    follow k (names.map .child) = k ++ names := by
  induction names generalizing k with
  | nil => simp [follow]
  | cons a names ih => simp [follow, ih]

theorem mem_follow {k : List α} {cs : List (Component α)} {a : α} (h : a ∈ follow k cs) :
    a ∈ k ∨ .child a ∈ cs := by
  induction cs generalizing k with
  | nil => exact .inl h
  | cons c cs ih =>
    cases c with
    | here => simpa using ih (k := k) h
    | up =>
      rcases ih (k := k.dropLast) h with hk | hc
      · exact .inl (List.dropLast_subset k hk)
      · exact .inr (by simp [hc])
    | child b =>
      rcases ih (k := k ++ [b]) h with hk | hc
      · rcases List.mem_append.mp hk with hk | hb
        · exact .inl hk
        · exact .inr (by simp [List.mem_singleton.mp hb])
      · exact .inr (by simp [hc])

/-- What is left of a component list once every climb is cancelled against the child named
before it: the number of levels it still climbs, and the children it then descends into. -/
structure Net (α : Type*) where
  ups : Nat
  names : List α

def netFrom : Net α → List (Component α) → Net α
  | n, [] => n
  | n, .here :: cs => netFrom n cs
  | n, .up :: cs =>
    if n.names.isEmpty then netFrom ⟨n.ups + 1, []⟩ cs else netFrom ⟨n.ups, n.names.dropLast⟩ cs
  | n, .child a :: cs => netFrom ⟨n.ups, n.names ++ [a]⟩ cs

def net (cs : List (Component α)) : Net α := netFrom ⟨0, []⟩ cs

theorem take_sub_dropLast (k : List α) (m : Nat) :
    (k.take (k.length - m)).dropLast = k.take (k.length - (m + 1)) := by
  rw [List.dropLast_eq_take, List.take_take, List.length_take]
  congr 1
  omega

theorem follow_netFrom (k : List α) (n : Net α) (cs : List (Component α)) :
    follow (k.take (k.length - n.ups) ++ n.names) cs =
      k.take (k.length - (netFrom n cs).ups) ++ (netFrom n cs).names := by
  induction cs generalizing n with
  | nil => rfl
  | cons c cs ih =>
    cases c with
    | here => exact ih n
    | child a =>
      simp only [follow, netFrom, List.append_assoc]
      exact ih ⟨n.ups, n.names ++ [a]⟩
    | up =>
      simp only [follow, netFrom]
      by_cases hn : n.names = []
      · have hh := ih ⟨n.ups + 1, []⟩
        simpa [hn, take_sub_dropLast] using hh
      · have hh := ih ⟨n.ups, n.names.dropLast⟩
        simpa [hn, List.dropLast_append_of_ne_nil hn] using hh

theorem follow_eq_net (k : List α) (cs : List (Component α)) :
    follow k cs = k.take (k.length - (net cs).ups) ++ (net cs).names := by
  simpa [net] using follow_netFrom k ⟨0, []⟩ cs

theorem prefix_follow_iff (k : List α) (cs : List (Component α)) :
    k <+: follow k cs ↔ k.drop (k.length - (net cs).ups) <+: (net cs).names := by
  let m := k.length - (net cs).ups
  have hh : k.take m ++ k.drop m <+: k.take m ++ (net cs).names ↔ k.drop m <+: (net cs).names :=
    List.prefix_append_right_inj _
  rwa [List.take_append_drop, ← follow_eq_net] at hh

end Lexical
