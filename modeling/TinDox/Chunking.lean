import Mathlib.Data.List.Infix

/-! A sequence of blocks that is received in chunks which need not respect them. -/

namespace Chunking

variable {α : Type*}

/-- Every block ends where a chunk ends: the chunks fall into groups, one for each block. -/
def Aligned (blocks chunks : List (List α)) : Prop :=
  ∃ groups : List (List (List α)), groups.flatten = chunks ∧ groups.map List.flatten = blocks

variable {a b c x : List α} {blocks chunks : List (List α)}

theorem Aligned.nil : Aligned ([] : List (List α)) [] := ⟨[], rfl, rfl⟩

/-- A chunk in front of the rest of its block. -/
theorem Aligned.chunk (h : Aligned (b :: blocks) chunks) (a : List α) : Aligned ((a ++ b) :: blocks) (a :: chunks) := by
  obtain ⟨groups, rfl, hblocks⟩ := h
  cases groups with
  | nil => cases hblocks
  | cons g groups =>
    obtain ⟨rfl, rfl⟩ := List.cons.inj hblocks
    exact ⟨(a :: g) :: groups, rfl, by simp⟩

/-- Where a chunk ends: behind some of the blocks, or in the middle of the next one. -/
theorem cut (hblocks : ∀ b ∈ blocks, b ≠ []) (h : c ++ x = blocks.flatten) :
    ∃ taken rest, blocks = taken ++ rest ∧
      (c = taken.flatten ∧ x = rest.flatten ∨
        ∃ a b later, rest = (a ++ b) :: later ∧ a ≠ [] ∧ b ≠ [] ∧ c = taken.flatten ++ a ∧ x = b ++ later.flatten) := by
  induction blocks generalizing c with
  | nil =>
    obtain ⟨rfl, rfl⟩ := List.append_eq_nil_iff.mp h
    exact ⟨[], [], rfl, .inl ⟨rfl, rfl⟩⟩
  | cons b blocks ih =>
    rw [List.flatten_cons] at h
    rcases List.append_eq_append_iff.mp h with ⟨d, rfl, hx⟩ | ⟨d, rfl, hx⟩
    · -- the chunk does not go beyond the first block
      by_cases hc : c = []
      · exact ⟨[], (c ++ d) :: blocks, rfl, .inl ⟨hc, by simpa [hc] using hx⟩⟩
      · by_cases hd : d = []
        · subst hd
          exact ⟨[c ++ []], blocks, rfl, .inl ⟨by simp, by simpa using hx⟩⟩
        · exact ⟨[], (c ++ d) :: blocks, rfl, .inr ⟨c, d, blocks, rfl, hc, hd, rfl, hx⟩⟩
    · obtain ⟨taken, rest, rfl, hcut⟩ := ih (fun b hb => hblocks b (by simp [hb])) hx.symm
      refine ⟨b :: taken, rest, rfl, ?_⟩
      rcases hcut with ⟨rfl, rfl⟩ | ⟨a, b', later, rfl, ha, hb', rfl, rfl⟩
      · exact .inl ⟨rfl, rfl⟩
      · exact .inr ⟨a, b', later, rfl, ha, hb', by simp, rfl⟩

end Chunking
