import Mathlib.Data.List.Infix

/-! Texts made of blocks, each closed by a separator, with one more separator at the end, and a
reader that collects such a text until it ends in two separators. -/

namespace Delimited

variable {α ι : Type*}

def encode (x : α) (blocks : List (List α)) : List α := blocks.flatMap (· ++ [x]) ++ [x]

/-- Two separators in a row stand nowhere but at the end. -/
def OnlyAtEnd (x : α) (data : List α) : Prop := ∀ p s, data = p ++ x :: x :: s → s = []

variable {x : α}

theorem encode_cons (b : List α) (blocks : List (List α)) : encode x (b :: blocks) = b ++ x :: encode x blocks := by
  simp [encode]

theorem suffix_encode (b : List α) (blocks : List (List α)) : [x, x] <:+ encode x (b :: blocks) := by
  induction blocks generalizing b with
  | nil => exact ⟨b, by simp [encode]⟩
  | cons c blocks ih =>
    obtain ⟨t, ht⟩ := ih c
    exact ⟨b ++ x :: t, by rw [encode_cons, ← ht]; simp⟩

/-- Behind a block without separators, the separator is the one that closes it or a later one. -/
theorem split_block {b rest p q : List α} (hb : x ∉ b) (h : b ++ x :: rest = p ++ x :: q) :
    p = b ∧ rest = q ∨ ∃ p', p = b ++ x :: p' ∧ rest = p' ++ x :: q := by
  rcases List.append_eq_append_iff.mp h with ⟨a, rfl, ha⟩ | ⟨a, rfl, ha⟩
  · cases a with
    | nil => exact .inl ⟨by simp, by simpa using ha⟩
    | cons c a =>
      obtain ⟨rfl, rfl⟩ := List.cons.inj ha
      exact .inr ⟨a, rfl, rfl⟩
  · cases a with
    | nil => exact .inl ⟨by simp, by simpa using ha.symm⟩
    | cons c a =>
      obtain ⟨rfl, -⟩ := List.cons.inj ha
      exact absurd (by simp) hb

theorem encode_inj {blocks blocks' : List (List α)} (h : ∀ b ∈ blocks, x ∉ b) (h' : ∀ b ∈ blocks', x ∉ b)
    (he : encode x blocks = encode x blocks') : blocks = blocks' := by
  have hlong : ∀ (b : List α) (blocks : List (List α)), [x] ≠ encode x (b :: blocks) := by
    intro b blocks hb
    have hlen := congrArg List.length hb
    simp [encode] at hlen
    omega
  induction blocks generalizing blocks' with
  | nil =>
    cases blocks' with
    | nil => rfl
    | cons b' blocks' => exact absurd he (hlong b' blocks')
  | cons b blocks ih =>
    cases blocks' with
    | nil => exact absurd he.symm (hlong b blocks)
    | cons b' blocks' =>
      rw [encode_cons, encode_cons] at he
      rcases split_block (h b (by simp)) he with ⟨rfl, hrest⟩ | ⟨p, rfl, -⟩
      · rw [ih (fun c hc => h c (by simp [hc])) (fun c hc => h' c (by simp [hc])) hrest]
      · exact absurd (by simp) (h' _ List.mem_cons_self)

theorem onlyAtEnd_encode {blocks : List (List α)} (h : ∀ b ∈ blocks, b ≠ [] ∧ x ∉ b) :
    OnlyAtEnd x (encode x blocks) := by
  induction blocks with
  | nil =>
    intro p s hp
    have hlen := congrArg List.length hp
    simp only [encode, List.flatMap_nil, List.nil_append, List.length_append, List.length_cons, List.length_nil] at hlen
    omega
  | cons b blocks ih =>
    intro p s hp
    rw [encode_cons] at hp
    have ih := ih (fun b hb => h b (by simp [hb]))
    rcases split_block (h b (by simp)).2 hp with ⟨-, hrest⟩ | ⟨p', -, hrest⟩
    · -- the second separator starts the rest, so no block is left
      cases blocks with
      | nil => exact (List.cons.inj hrest).2.symm
      | cons c blocks =>
        obtain ⟨hne, hc⟩ := h c (by simp)
        obtain ⟨y, c', rfl⟩ := List.exists_cons_of_ne_nil hne
        rw [encode_cons] at hrest
        exact absurd (by simp [(List.cons.inj hrest).1]) hc
    · exact ih p' s hrest

theorem not_onlyAtEnd_encode {b : List α} {blocks : List (List α)} (h : [] ∈ blocks) :
    ¬ OnlyAtEnd x (encode x (b :: blocks)) := by
  intro honly
  induction blocks generalizing b with
  | nil => simp at h
  | cons c blocks ih =>
    by_cases hc : c = []
    · subst c
      have hnil := honly b (encode x blocks) (by simp [encode_cons])
      simp [encode] at hnil
    · refine @ih c (List.mem_of_ne_of_mem (Ne.symm hc) h) (fun p s hp => honly (b ++ x :: p) s ?_)
      rw [encode_cons, hp]
      simp

theorem onlyAtEnd_encode_iff {b : List α} {blocks : List (List α)} (hb : b ≠ []) (h : ∀ c ∈ b :: blocks, x ∉ c) :
    OnlyAtEnd x (encode x (b :: blocks)) ↔ ∀ c ∈ blocks, c ≠ [] := by
  constructor
  · intro honly c hc hnil
    exact not_onlyAtEnd_encode (hnil ▸ hc) honly
  · intro hne
    refine onlyAtEnd_encode (fun c hc => ⟨?_, h c hc⟩)
    rcases List.mem_cons.mp hc with rfl | hc
    · exact hb
    · exact hne c hc

section Collecting

variable [DecidableEq α] (x : α) (kept : ι → List α)

/-- What a reader has collected when it ends in two separators, and the inputs it has not taken. -/
def collect : List α → List ι → Option (List α × List ι)
  | _, [] => none
  | message, i :: later =>
    if [x, x] <:+ message ++ kept i then some (message ++ kept i, later) else collect (message ++ kept i) later

variable {x kept}

theorem collect_eq {data message : List α} {inputs : List ι} (hend : [x, x] <:+ data) (honly : OnlyAtEnd x data)
    (hne : ∀ i ∈ inputs, kept i ≠ []) (h : message ++ inputs.flatMap kept = data) (hinputs : inputs ≠ []) :
    collect x kept message inputs = some (data, []) := by
  induction inputs generalizing message with
  | nil => exact absurd rfl hinputs
  | cons i later ih =>
    rw [List.flatMap_cons, ← List.append_assoc] at h
    rw [collect]
    split
    · rename_i hstop
      obtain ⟨t, ht⟩ := hstop
      have hnone : later.flatMap kept = [] := by
        apply honly t
        rw [← h, ← ht]
        simp
      have hlater : later = [] := by
        cases later with
        | nil => rfl
        | cons j later =>
          rw [List.flatMap_cons, List.append_eq_nil_iff] at hnone
          exact absurd hnone.1 (hne j (by simp))
      subst later
      rw [hnone, List.append_nil] at h
      rw [h]
    · rename_i hgo
      refine ih (fun j hj => hne j (by simp [hj])) h ?_
      rintro rfl
      rw [List.flatMap_nil, List.append_nil] at h
      exact hgo (h ▸ hend)

theorem collect_some {message collected : List α} {inputs later : List ι}
    (h : collect x kept message inputs = some (collected, later)) :
    ∃ taken, inputs = taken ++ later ∧ collected = message ++ taken.flatMap kept ∧ [x, x] <:+ collected := by
  induction inputs generalizing message with
  | nil => simp [collect] at h
  | cons i inputs ih =>
    rw [collect] at h
    split at h
    · rename_i hstop
      obtain ⟨rfl, rfl⟩ := Prod.mk.inj (Option.some.inj h)
      exact ⟨[i], rfl, by simp, hstop⟩
    · obtain ⟨taken, rfl, rfl, hend⟩ := ih h
      exact ⟨i :: taken, rfl, by simp, hend⟩

end Collecting

end Delimited
