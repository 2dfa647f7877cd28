import TinDox.Path

/-! Comparing spellings with locations. The server tests whether one native string begins with
another; what this says about the denoted locations depends on how both are spelled. -/

namespace TinDox

namespace Path

theorem spell_append (a b : List Bytes) : spell (a ++ b) = spell a ++ spell b := by
  simp [spell]

theorem ofKey_prefix_ofKey {a b : List Bytes} (h : a <+: b) : (ofKey a).native <+: (ofKey b).native := by
  obtain ⟨s, rfl⟩ := h
  by_cases ha : a = []
  · obtain ⟨c, hc⟩ := ofKey_native_cons (a ++ s)
    exact ⟨c, by rw [hc, ha]; rfl⟩
  · simp [ofKey, ha, spell_append]

/-- `k` lies in or below a directory beside the last one of `r` whose name properly extends
that one's name. -/
def Beside (r k : List Bytes) : Prop :=
  ∃ par x ext rest, ext ≠ [] ∧ r = par ++ [x] ∧ k = par ++ (x ++ ext) :: rest

theorem Beside.cons {r k : List Bytes} (h : Beside r k) (n : Bytes) :
    Beside (n :: r) (n :: k) := by
  obtain ⟨par, x, ext, rest, he, rfl, rfl⟩ := h
  exact ⟨n :: par, x, ext, rest, he, rfl, rfl⟩

theorem Beside.not_inside {r k : List Bytes} (h : Beside r k) : ¬ r <+: k := by
  obtain ⟨par, x, ext, rest, he, rfl, rfl⟩ := h
  simpa using he

theorem prefix_of_prefix_slash {r u x w : Bytes} (hr : slash ∉ r) (hu : slash ∉ u)
    (hw : ∀ c ∈ w.head?, c = slash) (h : r ++ slash :: x <+: u ++ w) :
    r = u ∧ slash :: x <+: w := by
  induction r generalizing u with
  | nil =>
    cases u with
    | nil => exact ⟨rfl, h⟩
    | cons d u =>
      have hd := (List.cons_prefix_cons.mp h).1
      simp [← hd] at hu
  | cons c r ih =>
    cases u with
    | nil =>
      cases w with
      | nil => simp at h
      | cons d w =>
        have hd := (List.cons_prefix_cons.mp h).1
        have hs : d = slash := hw d rfl
        simp [hd, hs] at hr
    | cons d u =>
      obtain ⟨rfl, ht⟩ := List.cons_prefix_cons.mp h
      simp only [List.mem_cons, not_or] at hr hu
      obtain ⟨rfl, hh⟩ := ih hr.2 hu.2 ht
      exact ⟨rfl, hh⟩

theorem prefix_of_prefix_no_slash {r u w : Bytes} (hr : slash ∉ r)
    (hw : ∀ c ∈ w.head?, c = slash) (h : r <+: u ++ w) : r <+: u := by
  rcases List.prefix_or_prefix_of_prefix h (List.prefix_append u w) with hh | ⟨y, rfl⟩
  · exact hh
  · have hy : y <+: w := (List.prefix_append_right_inj u).mp h
    cases y with
    | nil => simp
    | cons c y =>
      cases w with
      | nil => simp at hy
      | cons d w =>
        have hd := (List.cons_prefix_cons.mp hy).1
        have hs : d = slash := hw d rfl
        simp [hd, hs] at hr

theorem head_spell_append {names : List Bytes} {tl : Bytes} (htl : tl = [] ∨ tl = [slash]) :
    ∀ c ∈ (spell names ++ tl).head?, c = slash := by
  cases names with
  | nil => rcases htl with rfl | rfl <;> simp [spell]
  | cons n names => simp [spell, eq_comm]

theorem prefix_or_beside {r k : List Bytes} {tl : Bytes} (hr : ∀ n ∈ r, IsName n)
    (hk : ∀ n ∈ k, IsName n) (htl : tl = [] ∨ tl = [slash])
    (h : spell r <+: spell k ++ tl) : r <+: k ∨ Beside r k := by
  induction r generalizing k with
  | nil => exact .inl (List.nil_prefix)
  | cons n r ih =>
    have hn := hr n (by simp)
    cases k with
    | nil =>
      rcases htl with rfl | rfl <;> simp [spell, hn.1] at h
    | cons m k =>
      have hm := hk m (by simp)
      have hcut : n ++ spell r <+: m ++ (spell k ++ tl) := by
        simpa [spell] using h
      cases r with
      | nil =>
        have hp := prefix_of_prefix_no_slash hn.2.2.2 (head_spell_append htl)
          (by simpa [spell] using hcut : n <+: m ++ (spell k ++ tl))
        obtain ⟨ext, rfl⟩ := hp
        by_cases he : ext = []
        · exact .inl (by simp [he])
        · exact .inr ⟨[], n, ext, k, he, rfl, rfl⟩
      | cons n' r =>
        obtain ⟨rfl, hh⟩ := prefix_of_prefix_slash (x := n' ++ spell r) hn.2.2.2 hm.2.2.2
          (head_spell_append htl) (by simpa [spell] using hcut)
        have hrest := ih (k := k) (fun x hx => hr x (List.mem_cons_of_mem _ hx))
          (fun x hx => hk x (List.mem_cons_of_mem _ hx)) (by simpa [spell] using hh)
        rcases hrest with hrest | hrest
        · exact .inl (List.cons_prefix_cons.mpr ⟨rfl, hrest⟩)
        · exact .inr (hrest.cons n)

theorem ofKey_native_of_ne {names : List Bytes} (h : names ≠ []) : (ofKey names).native = spell names := by
  simp [ofKey, h]

theorem Beside.startsWith {r : List Bytes} {p : Path} (hp : p.isAbsolute = true) (h : Beside r p.key) :
    p.lexicallyNormal.startsWith (ofKey r) = true := by
  obtain ⟨tl, -, hn⟩ := lexicallyNormal_native hp
  obtain ⟨par, x, ext, rest, -, rfl, hk⟩ := h
  rw [Path.startsWith, List.isPrefixOf_iff_prefix, hn, hk, ofKey_native_of_ne (by simp)]
  refine ⟨ext ++ spell rest ++ tl, ?_⟩
  simp [spell]

end Path

end TinDox
