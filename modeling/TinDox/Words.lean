import Mathlib.Data.List.Chain

/-! The words of a text: what a reader finds that skips separators and stops before the next one.
Words that are joined again by one separator give back a text exactly when the text is spaced. -/

namespace Words

variable {α : Type*} {p : α → Bool} {x sep : α} {l xs ys w : List α}

/-- Separators are the elements with `p`. -/
def words (p : α → Bool) (l : List α) : List (List α) := (l.splitOnP p).filter (fun w => !w.isEmpty)

/-- A piece of a text without separators. -/
def Free (p : α → Bool) (l : List α) : Prop := ∀ x ∈ l, p x = false

instance (p : α → Bool) (l : List α) : Decidable (Free p l) := inferInstanceAs (Decidable (∀ x ∈ l, p x = false))

theorem Free.append (hx : Free p xs) (hy : Free p ys) : Free p (xs ++ ys) := by
  intro c hc
  rcases List.mem_append.mp hc with hc | hc
  · exact hx c hc
  · exact hy c hc

theorem free_singleton (hx : p x = false) : Free p [x] := by
  intro c hc
  rwa [List.mem_singleton.mp hc]

@[simp] theorem words_nil : words p ([] : List α) = [] := rfl

theorem words_append_cons (xs ys : List α) (hsep : p sep = true) :
    words p (xs ++ sep :: ys) = words p xs ++ words p ys := by
  rw [words, List.splitOnP_append_cons xs ys hsep, List.filter_append]
  rfl

theorem words_cons (ys : List α) (hsep : p sep = true) : words p (sep :: ys) = words p ys := words_append_cons [] ys hsep

theorem words_free (hl : Free p l) (hne : l ≠ []) : words p l = [l] := by
  have hempty : l.isEmpty = false := by simpa using hne
  rw [words, List.splitOnP_eq_singleton hl, List.filter_singleton, hempty]
  rfl

theorem free_or_break (p : α → Bool) (l : List α) :
    Free p l ∨ ∃ w sep rest, l = w ++ sep :: rest ∧ Free p w ∧ p sep = true := by
  induction l with
  | nil => exact .inl (by simp [Free])
  | cons c l ih =>
    cases hc : p c with
    | true => exact .inr ⟨[], c, l, rfl, by simp [Free], hc⟩
    | false =>
      rcases ih with hl | ⟨w, sep, rest, rfl, hw, hsep⟩
      · exact .inl ((free_singleton hc).append hl)
      · exact .inr ⟨c :: w, sep, rest, rfl, (free_singleton hc).append hw, hsep⟩

/-- What holds of the texts without separators, and of a text whenever it holds of what is behind its
first separator, holds of every text. -/
theorem break_induction {motive : List α → Prop} (free : ∀ l, Free p l → motive l)
    (break_at : ∀ w sep rest, Free p w → p sep = true → motive rest → motive (w ++ sep :: rest)) (l : List α) :
    motive l := by
  induction hn : l.length using Nat.strong_induction_on generalizing l with
  | _ n ih =>
    rcases free_or_break p l with hl | ⟨w, sep, rest, rfl, hw, hsep⟩
    · exact free l hl
    · refine break_at w sep rest hw hsep (ih rest.length ?_ rest rfl)
      rw [← hn, List.length_append, List.length_cons]
      omega

theorem words_of_free (hl : Free p l) : words p l = if l = [] then [] else [l] := by
  split
  · rename_i h
    rw [h, words_nil]
  · rename_i h
    exact words_free hl h

theorem mem_words (h : w ∈ words p l) : w ≠ [] ∧ Free p w := by
  induction l using break_induction (p := p) with
  | free l hl =>
    rw [words_of_free hl] at h
    split at h
    · simp at h
    · rename_i hne
      rw [List.mem_singleton.mp h]
      exact ⟨hne, hl⟩
  | break_at v sep rest hv hsep ih =>
    rw [words_append_cons v rest hsep] at h
    rcases List.mem_append.mp h with h | h
    · rw [words_of_free hv] at h
      split at h
      · simp at h
      · rename_i hne
        rw [List.mem_singleton.mp h]
        exact ⟨hne, hv⟩
    · exact ih h

/-- What stands right before a separator has `Q`. -/
def Apart (Q : α → Prop) (sep : α) (l : List α) : Prop := l.IsChain (fun a b => b = sep → Q a)

theorem Free.ne (hl : Free p l) (hsep : p sep = true) {c : α} (hc : c ∈ l) : c ≠ sep := by
  rintro rfl
  rw [hl c hc] at hsep
  cases hsep

theorem Free.head?_ne (hl : Free p l) (hsep : p sep = true) : l.head? ≠ some sep :=
  fun h => hl.ne hsep (List.mem_of_mem_head? (Option.mem_def.mpr h)) rfl

theorem Free.getLast?_ne (hl : Free p l) (hsep : p sep = true) : l.getLast? ≠ some sep :=
  fun h => hl.ne hsep (List.mem_of_mem_getLast? (Option.mem_def.mpr h)) rfl

theorem Free.apart (hl : Free p l) (hsep : p sep = true) (Q : α → Prop) : Apart Q sep l := by
  induction l with
  | nil => exact .nil
  | cons a l ih =>
    have htail : Free p l := fun c hc => hl c (by simp [hc])
    refine List.isChain_cons.mpr ⟨fun b hb he => ?_, ih htail⟩
    exact absurd he (htail.ne hsep (List.mem_of_mem_head? hb))

theorem apart_append_iff {Q : α → Prop} (hw : Free p w) (hsep : p sep = true) :
    Apart Q sep (w ++ sep :: l) ↔ (∀ a ∈ w.getLast?, Q a) ∧ (l.head? = some sep → Q sep) ∧ Apart Q sep l := by
  rw [Apart, List.isChain_append, List.isChain_cons]
  constructor
  · rintro ⟨-, ⟨hhead, hl⟩, hlast⟩
    exact ⟨fun a ha => hlast a ha sep rfl rfl, fun h => hhead sep h rfl, hl⟩
  · rintro ⟨hlast, hhead, hl⟩
    refine ⟨hw.apart hsep Q, ⟨?_, hl⟩, ?_⟩
    · rintro b hb rfl
      exact hhead hb
    · intro a ha b _ _
      exact hlast a ha

/-- Every separator is the given one, and it stands between two words. -/
structure Spaced (p : α → Bool) (sep : α) (l : List α) : Prop where
  only : ∀ c ∈ l, p c = true → c = sep
  apart : Apart (· ≠ sep) sep l
  first : l.head? ≠ some sep
  last : l.getLast? ≠ some sep
  ne_nil : l ≠ []

theorem Free.spaced (hl : Free p l) (hne : l ≠ []) (hsep : p sep = true) : Spaced p sep l where
  only c hc hp := by
    rw [hl c hc] at hp
    cases hp
  apart := hl.apart hsep _
  first := hl.head?_ne hsep
  last := hl.getLast?_ne hsep
  ne_nil := hne

theorem spaced_append_iff (hw : Free p w) (hne : w ≠ []) (hsep : p sep = true) :
    Spaced p sep (w ++ sep :: l) ↔ Spaced p sep l := by
  have hlast : ∀ a ∈ w.getLast?, a ≠ sep := fun a ha => hw.ne hsep (List.mem_of_mem_getLast? ha)
  have hfirst : (w ++ sep :: l).head? ≠ some sep := by
    obtain ⟨c, v, rfl⟩ := List.exists_cons_of_ne_nil hne
    simpa using hw.ne hsep (by simp : c ∈ c :: v)
  constructor
  · intro h
    obtain ⟨-, hhead, hapart⟩ := (apart_append_iff hw hsep).mp h.apart
    have hl : l ≠ [] := by
      rintro rfl
      exact h.last List.getLast?_concat
    refine ⟨fun c hc => h.only c (by simp [hc]), hapart, fun hh => hhead hh rfl, fun hh => h.last ?_, hl⟩
    rw [List.getLast?_append, List.getLast?_cons, hh]
    rfl
  · intro h
    have hapart := (apart_append_iff hw hsep).mpr ⟨hlast, fun hh => absurd hh h.first, h.apart⟩
    refine ⟨fun c hc hp => ?_, hapart, hfirst, fun hh => h.last ?_, by simp⟩
    · rcases List.mem_append.mp hc with hc | hc
      · rw [hw c hc] at hp
        cases hp
      · rcases List.mem_cons.mp hc with rfl | hc
        · rfl
        · exact h.only c hc hp
    · obtain ⟨d, v, rfl⟩ := List.exists_cons_of_ne_nil h.ne_nil
      simpa [List.getLast?_append, List.getLast?_cons_cons] using hh

theorem join_spaced {ws : List (List α)} (hsep : p sep = true) (hws : ∀ w ∈ ws, w ≠ [] ∧ Free p w) (hne : ws ≠ []) :
    ∃ l, ws.flatMap (· ++ [sep]) = l ++ [sep] ∧ Spaced p sep l := by
  induction ws with
  | nil => exact absurd rfl hne
  | cons w ws ih =>
    obtain ⟨hw, hfree⟩ := hws w (by simp)
    by_cases hmore : ws = []
    · exact ⟨w, by simp [hmore], hfree.spaced hw hsep⟩
    · obtain ⟨l, hl, hspaced⟩ := ih (fun v hv => hws v (by simp [hv])) hmore
      refine ⟨w ++ sep :: l, by simp [hl], (spaced_append_iff hfree hw hsep).mpr hspaced⟩

/-- The words of a text, joined by one separator, are the text exactly when it is spaced. -/
theorem join_words_iff (hsep : p sep = true) : (words p l).flatMap (· ++ [sep]) = l ++ [sep] ↔ Spaced p sep l := by
  constructor
  · intro h
    have hne : words p l ≠ [] := by
      intro hnil
      simp [hnil] at h
    obtain ⟨j, hj, hspaced⟩ := join_spaced hsep (fun w hw => mem_words hw) hne
    rwa [← List.append_cancel_right (hj.symm.trans h)]
  · intro h
    induction l using break_induction (p := p) with
    | free l hl => simp [words_free hl h.ne_nil]
    | break_at w sep' rest hw hsep' ih =>
      obtain rfl := h.only sep' (by simp) hsep'
      have hne : w ≠ [] := by
        rintro rfl
        exact h.first rfl
      rw [words_append_cons w rest hsep', words_free hw hne, List.flatMap_append,
        ih ((spaced_append_iff hw hne hsep).mp h)]
      simp

end Words
