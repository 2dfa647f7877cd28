import TinDox.Lexical

/-! Directory trees as finite tables from locations to nodes. A location is the list of names
leading to it from the topmost directory, which is always present. -/

namespace DirTree

open Lexical

inductive Node (β : Type*) where
  | dir
  | file (b : β)
  deriving DecidableEq

abbrev Table (α β : Type*) := List (List α × Node β)

variable {α β : Type*} [DecidableEq α] {t : Table α β} {k n o : List α}

def get (t : Table α β) (k : List α) : Option (Node β) :=
  if k = [] then some .dir else (t.find? (fun e => e.1 = k)).map (·.2)

def insert (t : Table α β) (k : List α) (x : Node β) : Table α β := t ++ [(k, x)]

def restrict (t : Table α β) (p : List α → Bool) : Table α β := t.filter (fun e => p e.1)

/-- Everything except `k` and what lies below it. -/
def prune (t : Table α β) (k : List α) : Table α β := restrict t (fun j => ¬ k <+: j)

/-- Everything except what lies strictly below `k`. -/
def clear (t : Table α β) (k : List α) : Table α β :=
  restrict t (fun j => ¬ (k <+: j ∧ j ≠ k))

/-- Where the location `k` ends up when the subtree at `o` moves to `n`. -/
def relocate (o n k : List α) : List α := if o <+: k then n ++ k.drop o.length else k

/-- The tree with the subtree at `o` moved to `n`. -/
def graft (t : Table α β) (o n : List α) : Table α β := t.map (fun e => (relocate o n e.1, e.2))

def children (t : Table α β) (k : List α) : List α :=
  t.filterMap (fun e => if e.1.dropLast = k then e.1.getLast? else none)

/-- Resolution of a component list from `k` on the tree itself: every component is looked up
in a directory, and every child has to be there. -/
def walk (t : Table α β) : List α → List (Component α) → Option (List α)
  | k, [] => some k
  | k, c :: cs =>
    match get t k, c with
    | some .dir, .here => walk t k cs
    | some .dir, .up => walk t k.dropLast cs
    | some .dir, .child a => if (get t (k ++ [a])).isSome then walk t (k ++ [a]) cs else none
    | _, _ => none

/-- Whether the resolution comes to a child that `p` picks out, be it there or not. -/
def comesTo (t : Table α β) (p : α → Bool) : List α → List (Component α) → Bool
  | _, [] => false
  | k, c :: cs =>
    match get t k, c with
    | some .dir, .here => comesTo t p k cs
    | some .dir, .up => comesTo t p k.dropLast cs
    | some .dir, .child a => p a || ((get t (k ++ [a])).isSome && comesTo t p (k ++ [a]) cs)
    | _, _ => false

/-- Every node stands in a directory. -/
def Closed (t : Table α β) : Prop :=
  ∀ k, k ≠ [] → (get t k).isSome → get t k.dropLast = some .dir

@[simp] theorem get_nil (t : Table α β) : get t [] = some .dir := rfl

theorem get_isSome_iff (hk : k ≠ []) : (get t k).isSome ↔ ∃ e ∈ t, e.1 = k := by
  simp [get, hk, List.find?_isSome]

theorem get_insert (hk : k ≠ []) (hf : get t k = none) (x : Node β) (j : List α) :
    get (insert t k x) j = if j = k then some x else get t j := by
  by_cases hj : j = []
  · subst j
    simp [Ne.symm hk]
  · have hfind : t.find? (fun e => decide (e.1 = k)) = none := by simpa [get, hk] using hf
    by_cases he : j = k
    · subst j
      simp [get, insert, hk, List.find?_append, hfind]
    · simp [get, insert, hj, List.find?_append, Ne.symm he, he]

theorem get_restrict (t : Table α β) (p : List α → Bool) (hk : k ≠ []) :
    get (restrict t p) k = if p k then get t k else none := by
  have hfind : (t.filter (fun e => p e.1)).find? (fun e => decide (e.1 = k)) =
      if p k then t.find? (fun e => decide (e.1 = k)) else none := by
    induction t with
    | nil => simp
    | cons e t ih =>
      by_cases he : e.1 = k
      · subst k
        by_cases hp : p e.1 = true
        · simp [hp]
        · simpa [hp] using ih
      · by_cases hp : p e.1 = true <;> simp [hp, he, ih]
  by_cases hp : p k = true <;> simp [get, restrict, hk, hfind, hp]

theorem get_prune (t : Table α β) (hk : k ≠ []) (j : List α) :
    get (prune t k) j = if k <+: j then none else get t j := by
  by_cases hj : j = []
  · subst j
    simp [hk]
  · rw [prune, get_restrict t _ hj]
    by_cases hp : k <+: j <;> simp [hp]

theorem get_clear (t : Table α β) (k j : List α) :
    get (clear t k) j = if k <+: j ∧ j ≠ k then none else get t j := by
  by_cases hj : j = []
  · subst j
    simp
  · rw [clear, get_restrict t _ hj]
    by_cases hp : k <+: j ∧ j ≠ k
    · simp [hp]
    · rw [if_neg hp, if_pos (decide_eq_true hp)]

theorem Closed.ancestor (hc : Closed t) {k s : List α} (hs : s ≠ [])
    (h : (get t (k ++ s)).isSome) : get t k = some .dir := by
  induction s using List.reverseRecOn with
  | nil => exact absurd rfl hs
  | append_singleton s a ih =>
    have hd : get t (k ++ s) = some .dir := by
      have hh := hc (k ++ (s ++ [a])) (by simp) h
      rwa [← List.append_assoc, List.dropLast_concat] at hh
    by_cases he : s = []
    · simpa [he] using hd
    · exact ih he (by simp [hd])

theorem Closed.fresh_below (hc : Closed t) (hf : get t n = none) (s : List α) :
    get t (n ++ s) = none := by
  by_cases hs : s = []
  · simpa [hs] using hf
  · by_contra hne
    have hh := hc.ancestor hs (Option.isSome_iff_ne_none.mpr hne)
    simp [hf] at hh

theorem Closed.none_of_above (hc : Closed t) (hf : get t n = none) (h : n <+: k) :
    get t k = none := by
  obtain ⟨s, rfl⟩ := h
  exact hc.fresh_below hf s

theorem find?_congr_mem {γ : Type*} {l : List γ} {p q : γ → Bool}
    (h : ∀ e ∈ l, p e = q e) : l.find? p = l.find? q := by
  induction l with
  | nil => rfl
  | cons e l ih =>
    have he := h e (by simp)
    have hl := ih (fun x hx => h x (by simp [hx]))
    simp only [List.find?_cons, he, hl]

theorem not_mem_of_get_none (hk : k ≠ []) (hf : get t k = none) {e : List α × Node β}
    (he : e ∈ t) : e.1 ≠ k := by
  intro hh
  have hs := (get_isSome_iff hk).mpr ⟨e, he, hh⟩
  simp [hf] at hs

theorem get_graft (hc : Closed t) (ho : o ≠ []) (hn : n ≠ []) (hf : get t n = none)
    (j : List α) :
    get (graft t o n) j =
      if n <+: j then get t (o ++ j.drop n.length) else if o <+: j then none else get t j := by
  by_cases hj : j = []
  · subst j
    simp [ho, hn]
  · have hmap : get (graft t o n) j =
        (t.find? (fun e => decide (relocate o n e.1 = j))).map (·.2) := by
      simp only [get, hj, if_false, graft, List.find?_map, Option.map_map, Function.comp_def]
    rw [hmap]
    by_cases hnj : n <+: j
    · obtain ⟨s, rfl⟩ := hnj
      have hos : o ++ s ≠ [] := by simp [ho]
      rw [if_pos (List.prefix_append n s), List.drop_left, get, if_neg hos]
      congr 1
      apply find?_congr_mem
      intro e he
      by_cases hp : o <+: e.1
      · obtain ⟨s', hs'⟩ := hp
        simp [relocate, ← hs']
      · have hne := not_mem_of_get_none (by simp [hn]) (hc.fresh_below hf s) he
        have hne' : e.1 ≠ o ++ s := fun hh => hp (hh ▸ List.prefix_append o s)
        simp [relocate, hp, hne, hne']
    · have hrel : ∀ k, o <+: k → relocate o n k ≠ j := by
        intro k hp hh
        rw [relocate, if_pos hp] at hh
        exact hnj (hh ▸ List.prefix_append n _)
      rw [if_neg hnj]
      by_cases hoj : o <+: j
      · have hnone : t.find? (fun e => decide (relocate o n e.1 = j)) = none := by
          rw [List.find?_eq_none]
          intro e _
          by_cases hp : o <+: e.1
          · simpa using hrel e.1 hp
          · have hne : e.1 ≠ j := fun hh => hp (hh ▸ hoj)
            simpa [relocate, hp] using hne
        rw [if_pos hoj, hnone, Option.map_none]
      · rw [if_neg hoj, get, if_neg hj]
        congr 1
        apply find?_congr_mem
        intro e _
        by_cases hp : o <+: e.1
        · have hne : e.1 ≠ j := fun hh => hoj (hh ▸ hp)
          simp [hrel e.1 hp, hne]
        · simp [relocate, hp]

theorem Closed.insert (hc : Closed t) (hk : k ≠ []) (hf : get t k = none)
    (hd : get t k.dropLast = some .dir) (x : Node β) : Closed (insert t k x) := by
  intro j hj hs
  rw [get_insert hk hf] at hs ⊢
  have hdrop : j.dropLast ≠ k → get t j.dropLast = some .dir →
      (if j.dropLast = k then some x else get t j.dropLast) = some .dir :=
    fun hne h => by rw [if_neg hne, h]
  by_cases he : j = k
  · subst j
    refine hdrop (fun hh => ?_) hd
    have hlen := congrArg List.length hh
    have hpos := List.length_pos_of_ne_nil hk
    simp only [List.length_dropLast] at hlen
    omega
  · rw [if_neg he] at hs
    have hp := hc j hj hs
    exact hdrop (fun hh => by simp [hh, hf] at hp) hp

theorem Closed.restrict (hc : Closed t) {p : List α → Bool}
    (hp : ∀ j, j ≠ [] → p j = true → j.dropLast ≠ [] → p j.dropLast = true) :
    Closed (restrict t p) := by
  intro j hj hs
  rw [get_restrict t p hj] at hs
  by_cases hpj : p j = true
  · rw [if_pos hpj] at hs
    by_cases hd : j.dropLast = []
    · rw [hd, get_nil]
    · rw [get_restrict t p hd, if_pos (hp j hj hpj hd)]
      exact hc j hj hs
  · simp [hpj] at hs

theorem Closed.prune (hc : Closed t) (k : List α) : Closed (prune t k) := by
  apply hc.restrict
  intro j _ hp _
  simp only [decide_eq_true_eq] at hp ⊢
  exact fun hh => hp (hh.trans (List.dropLast_prefix j))

theorem Closed.clear (hc : Closed t) (k : List α) : Closed (clear t k) := by
  apply hc.restrict
  intro j hj hp _
  simp only [decide_eq_true_eq] at hp ⊢
  rintro ⟨hk, hne⟩
  refine hp ⟨hk.trans (List.dropLast_prefix j), fun he => ?_⟩
  have hlen := hk.length_le
  have hpos := List.length_pos_of_ne_nil hj
  simp only [he, List.length_dropLast] at hlen
  rw [← he] at hlen
  omega

theorem Closed.graft (hc : Closed t) (ho : o ≠ []) (hn : n ≠ []) (hf : get t n = none)
    (hd : get t n.dropLast = some .dir) (hon : ¬ o <+: n) : Closed (graft t o n) := by
  intro j hj hs
  rw [get_graft hc ho hn hf] at hs ⊢
  have hfresh : ¬ n <+: n.dropLast := fun hh => by
    have hlen := hh.length_le
    have hpos := List.length_pos_of_ne_nil hn
    simp only [List.length_dropLast] at hlen
    omega
  by_cases hnj : n <+: j
  · obtain ⟨s, rfl⟩ := hnj
    rw [if_pos (List.prefix_append n s), List.drop_left] at hs
    by_cases hs' : s = []
    · subst s
      have hod : ¬ o <+: n.dropLast := fun hh => hon (hh.trans (List.dropLast_prefix n))
      simp [hfresh, hod, hd]
    · rw [List.dropLast_append_of_ne_nil hs', if_pos (List.prefix_append n _), List.drop_left]
      have hh := hc (o ++ s) (by simp [ho]) hs
      rwa [List.dropLast_append_of_ne_nil hs'] at hh
  · have hoj : ¬ o <+: j := fun hh => by simp [hnj, hh] at hs
    rw [if_neg hnj, if_neg hoj] at hs
    have hnd : ¬ n <+: j.dropLast := fun hh => hnj (hh.trans (List.dropLast_prefix j))
    have hod : ¬ o <+: j.dropLast := fun hh => hoj (hh.trans (List.dropLast_prefix j))
    rw [if_neg hnd, if_neg hod]
    exact hc j hj hs

theorem walk_append (t : Table α β) (k : List α) (cs ds : List (Component α)) :
    walk t k (cs ++ ds) = (walk t k cs).bind (fun j => walk t j ds) := by
  induction cs generalizing k with
  | nil => rfl
  | cons c cs ih =>
    cases hg : get t k with
    | none => cases c <;> simp [walk, hg]
    | some x =>
      cases x with
      | file b => cases c <;> simp [walk, hg]
      | dir =>
        cases c with
        | here => simp [walk, hg, ih]
        | up => simp [walk, hg, ih]
        | child a => by_cases ha : (get t (k ++ [a])).isSome = true <;> simp [walk, hg, ha, ih]

theorem walk_replicate_here (h : get t k = some .dir) (m : Nat) :
    walk t k (List.replicate m .here) = some k := by
  induction m with
  | zero => rfl
  | succ m ih => simpa [List.replicate_succ, walk, h] using ih

/-- Without links, a walk that succeeds ends where the components lead lexically. -/
theorem walk_eq_follow {k j : List α} {cs : List (Component α)} (h : walk t k cs = some j) :
    j = follow k cs := by
  induction cs generalizing k with
  | nil => simpa [walk, follow] using h.symm
  | cons c cs ih =>
    cases hg : get t k with
    | none => cases c <;> simp [walk, hg] at h
    | some x =>
      cases x with
      | file b => cases c <;> simp [walk, hg] at h
      | dir =>
        cases c with
        | here => exact ih (by simpa [walk, hg] using h)
        | up => exact ih (by simpa [walk, hg] using h)
        | child a =>
          by_cases ha : (get t (k ++ [a])).isSome = true
          · exact ih (by simpa [walk, hg, ha] using h)
          · simp [walk, hg, ha] at h

/-- On the way to a location there are only children that are there. -/
theorem comesTo_of_walk {p : α → Bool} (hp : ∀ k a, (get t (k ++ [a])).isSome → p a = false) {k j : List α}
    {cs : List (Component α)} (h : walk t k cs = some j) : comesTo t p k cs = false := by
  induction cs generalizing k with
  | nil => rfl
  | cons c cs ih =>
    cases hg : get t k with
    | none => cases c <;> simp [walk, hg] at h
    | some x =>
      cases x with
      | file b => cases c <;> simp [walk, hg] at h
      | dir =>
        cases c with
        | here => simpa [comesTo, hg] using ih (by simpa [walk, hg] using h)
        | up => simpa [comesTo, hg] using ih (by simpa [walk, hg] using h)
        | child a =>
          by_cases ha : (get t (k ++ [a])).isSome = true
          · simpa [comesTo, hg, hp k a ha] using fun _ => ih (by simpa [walk, hg, ha] using h)
          · simp [walk, hg, ha] at h

theorem comesTo_append (t : Table α β) (p : α → Bool) (k : List α) (cs ds : List (Component α)) :
    comesTo t p k (cs ++ ds) = (comesTo t p k cs || (walk t k cs).any (fun j => comesTo t p j ds)) := by
  induction cs generalizing k with
  | nil => simp [comesTo, walk]
  | cons c cs ih =>
    cases hg : get t k with
    | none => cases c <;> simp [comesTo, walk, hg]
    | some x =>
      cases x with
      | file b => cases c <;> simp [comesTo, walk, hg]
      | dir =>
        cases c with
        | here => simp [comesTo, walk, hg, ih]
        | up => simp [comesTo, walk, hg, ih]
        | child a =>
          cases hs : (get t (k ++ [a])).isSome <;> simp [comesTo, walk, hg, hs, ih, Bool.or_assoc]

/-- Where a walk gets through, it meets the same names when the tree has grown. -/
theorem comesTo_mono {t u : Table α β} (hdir : ∀ k, get t k = some .dir → get u k = some .dir)
    (hsome : ∀ k, (get t k).isSome → (get u k).isSome) (p : α → Bool) {k j : List α} {cs : List (Component α)}
    (h : walk t k cs = some j) : comesTo u p k cs = comesTo t p k cs := by
  induction cs generalizing k with
  | nil => rfl
  | cons c cs ih =>
    cases hg : get t k with
    | none => cases c <;> simp [walk, hg] at h
    | some x =>
      cases x with
      | file b => cases c <;> simp [walk, hg] at h
      | dir =>
        have hg' := hdir k hg
        cases c with
        | here => simpa [comesTo, hg, hg'] using ih (by simpa [walk, hg] using h)
        | up => simpa [comesTo, hg, hg'] using ih (by simpa [walk, hg] using h)
        | child a =>
          by_cases ha : (get t (k ++ [a])).isSome = true
          · simp [comesTo, hg, hg', ha, hsome _ ha, ih (by simpa [walk, hg, ha] using h)]
          · simp [walk, hg, ha] at h

theorem comesTo_replicate_here (t : Table α β) (p : α → Bool) (k : List α) (n : Nat) :
    comesTo t p k (List.replicate n .here) = false := by
  induction n with
  | zero => rfl
  | succ n ih =>
    cases hg : get t k with
    | none => simp [List.replicate_succ, comesTo, hg]
    | some x =>
      cases x with
      | file b => simp [List.replicate_succ, comesTo, hg]
      | dir => simpa [List.replicate_succ, comesTo, hg] using ih

theorem walk_mono {t u : Table α β} (hdir : ∀ k, get t k = some .dir → get u k = some .dir)
    (hsome : ∀ k, (get t k).isSome → (get u k).isSome) {k j : List α} {cs : List (Component α)}
    (h : walk t k cs = some j) : walk u k cs = some j := by
  induction cs generalizing k with
  | nil => exact h
  | cons c cs ih =>
    cases hg : get t k with
    | none => cases c <;> simp [walk, hg] at h
    | some x =>
      cases x with
      | file b => cases c <;> simp [walk, hg] at h
      | dir =>
        have hd := hdir k hg
        cases c with
        | here => simpa [walk, hd] using ih (by simpa [walk, hg] using h)
        | up => simpa [walk, hd] using ih (by simpa [walk, hg] using h)
        | child a =>
          by_cases ha : (get t (k ++ [a])).isSome = true
          · simpa [walk, hd, hsome _ ha] using ih (by simpa [walk, hg, ha] using h)
          · simp [walk, hg, ha] at h

theorem Closed.get_dropLast (hc : Closed t) (h : (get t k).isSome) : get t k.dropLast = some .dir := by
  by_cases hk : k = []
  · simp [hk]
  · exact hc k hk h

theorem Closed.walk_isSome (hc : Closed t) {k j : List α} {cs : List (Component α)}
    (hk : (get t k).isSome) (h : walk t k cs = some j) : (get t j).isSome := by
  induction cs generalizing k with
  | nil =>
    simp only [walk, Option.some.injEq] at h
    exact h ▸ hk
  | cons c cs ih =>
    cases hg : get t k with
    | none => cases c <;> simp [walk, hg] at h
    | some x =>
      cases x with
      | file b => cases c <;> simp [walk, hg] at h
      | dir =>
        cases c with
        | here => exact ih hk (by simpa [walk, hg] using h)
        | up => exact ih (k := k.dropLast) (by simp [hc.get_dropLast hk]) (by simpa [walk, hg] using h)
        | child a =>
          by_cases ha : (get t (k ++ [a])).isSome = true
          · exact ih ha (by simpa [walk, hg, ha] using h)
          · simp [walk, hg, ha] at h

/-- In a closed tree a list of plain names resolves exactly when it is a location. -/
theorem Closed.walk_children (hc : Closed t) (k names : List α)
    (h : (get t (k ++ names)).isSome) : walk t k (names.map .child) = some (k ++ names) := by
  induction names generalizing k with
  | nil => simp [walk]
  | cons a names ih =>
    have hd := hc.ancestor (by simp) h
    have hk : k ++ a :: names = k ++ [a] ++ names := by simp
    rw [hk] at h ⊢
    have ha : (get t (k ++ [a])).isSome = true := by
      by_cases hn : names = []
      · simpa [hn] using h
      · simp [hc.ancestor hn h]
    simp [walk, hd, ha, ih (k ++ [a]) h]

theorem mem_children {a : α} (h : a ∈ children t k) :
    (get t (k ++ [a])).isSome := by
  obtain ⟨e, he, hea⟩ := List.mem_filterMap.mp h
  split at hea
  · rename_i hk
    refine (get_isSome_iff (by simp)).mpr ⟨e, he, ?_⟩
    rw [← hk]
    exact (List.dropLast_append_getLast? a hea).symm
  · simp at hea

theorem mem_children_of_get {a : α} (h : (get t (k ++ [a])).isSome) : a ∈ children t k := by
  obtain ⟨e, he, hek⟩ := (get_isSome_iff (by simp)).mp h
  exact List.mem_filterMap.mpr ⟨e, he, by simp [hek]⟩

theorem Closed.children_nil (hc : Closed t) (h : children t k = []) {s : List α} (hs : s ≠ []) :
    get t (k ++ s) = none := by
  by_contra hne
  obtain ⟨a, s, rfl⟩ := List.exists_cons_of_ne_nil hs
  have ha : (get t (k ++ [a])).isSome := by
    have hsome := Option.isSome_iff_ne_none.mpr hne
    by_cases hn : s = []
    · simpa [hn] using hsome
    · rw [List.append_cons] at hsome
      simp [hc.ancestor hn hsome]
  have hmem : a ∈ children t k := mem_children_of_get ha
  simp [h] at hmem

end DirTree
