import TinDox.Plain
import TinDox.Session
import Mathlib.Algebra.Order.BigOperators.Group.List

/-! The path to the root that `pwd` and `cd` answer with, byte by byte: apart from separators and
dots it has the bytes of the names that the path denotes below what it shares with the root. -/

namespace TinDox

open Lexical

namespace Path

variable {p q base : Path} {fs : FileSystem} {c : Byte}

/-- A spelling without ways to stay or climb: the names of the location, perhaps with a separator
behind them. -/
def Canonical (names : List Bytes) (q : Path) : Prop :=
  (∀ n ∈ names, IsName n) ∧ (q = ofKey names ∨ names ≠ [] ∧ q = ⟨spell names ++ [slash]⟩)

theorem canonical_ofKey {names : List Bytes} (h : ∀ n ∈ names, IsName n) : (ofKey names).Canonical names := ⟨h, .inl rfl⟩

theorem canonical_lexicallyNormal (hp : p.isAbsolute = true) : p.lexicallyNormal.Canonical p.key := by
  obtain ⟨b, hb⟩ := isAbsolute_iff.mp hp
  refine ⟨p.key_isName, ?_⟩
  simp only [lexicallyNormal, hb, List.cons_ne_nil, if_false, hp, if_true]
  split
  · rename_i ht
    exact .inr ⟨ht.1, by simp [ofKey, ht.1]⟩
  · exact .inl (by simp)

/-- Whether a path begins like a location: it lies there or below, or beside it under a longer name. -/
theorem Canonical.startsWith_iff {r names : List Bytes} (hr : ∀ n ∈ r, IsName n) (h : q.Canonical names) :
    q.startsWith (ofKey r) = true ↔ r <+: names ∨ Beside r names := by
  rw [startsWith, List.isPrefixOf_iff_prefix]
  constructor
  · intro hpre
    by_cases hnil : r = []
    · exact .inl (hnil ▸ List.nil_prefix)
    · rw [ofKey_native_of_ne hnil] at hpre
      rcases h.2 with rfl | ⟨-, rfl⟩
      · by_cases hnames : names = []
        · have hslash : spell r <+: spell names ++ [slash] := by simpa [hnames, ofKey, spell] using hpre
          exact prefix_or_beside hr h.1 (.inr rfl) hslash
        · rw [ofKey_native_of_ne hnames] at hpre
          exact prefix_or_beside hr h.1 (.inl rfl) (by simpa using hpre)
      · exact prefix_or_beside hr h.1 (.inr rfl) hpre
  · intro hlies
    have hstart : (ofKey r).native <+: (ofKey names).native := by
      rcases hlies with hin | ⟨par, x, ext, rest, -, rfl, rfl⟩
      · exact ofKey_prefix_ofKey hin
      · rw [ofKey_native_of_ne (by simp), ofKey_native_of_ne (by simp)]
        exact ⟨ext ++ spell rest, by simp [spell]⟩
    rcases h.2 with rfl | ⟨hne, rfl⟩
    · exact hstart
    · rw [ofKey_native_of_ne hne] at hstart
      exact hstart.trans (List.prefix_append _ _)

theorem Plain.canonical {p : Path} (h : p.Plain) : p.Canonical p.key := by
  refine ⟨p.key_isName, ?_⟩
  rcases h.2 with hp | hp
  · exact .inl hp
  · by_cases hk : p.key = []
    · refine .inl ?_
      rw [← mk.injEq] at hp
      rw [hk] at hp ⊢
      exact hp
    · exact .inr ⟨hk, by rw [← mk.injEq] at hp; exact hp⟩

theorem key_elements (hp : p.isAbsolute = true) (k : List Bytes) :
    follow k ((p.elements.drop 1).map classify) = follow k p.components := by
  have hfilter : ∀ (ps : List Bytes) (k : List Bytes),
      follow k ((ps.filter (· ≠ [])).map classify) = follow k (ps.map classify) := by
    intro ps
    induction ps with
    | nil => simp
    | cons n ps ih =>
      intro k
      by_cases hn : n = []
      · subst n
        exact ih k
      · have hkeep : (n :: ps).filter (· ≠ []) = n :: ps.filter (· ≠ []) := List.filter_cons_of_pos (by simpa using hn)
        rw [hkeep, List.map_cons, List.map_cons]
        cases classify n <;> exact ih _
  have hdrop : p.elements.drop 1 =
      p.parts.filter (· ≠ []) ++ (if p.parts.filter (· ≠ []) ≠ [] ∧ p.parts.getLastD [] = [] then [[]] else []) := by
    simp only [elements, hp, if_true, List.cons_append, List.nil_append, List.drop_succ_cons,
      List.drop_zero]
  rw [hdrop, List.map_append, follow_append, hfilter]
  split <;> rfl

theorem key_append_element {e : Bytes} (he : slash ∉ e) : (p / ⟨e⟩).key = follow p.key [classify e] := by
  rw [key_append (isAbsolute_false_of_no_slash he), components, parts_of_no_slash he]
  rfl

theorem elements_no_slash (hp : p.isAbsolute = true) : ∀ e ∈ p.elements.drop 1, slash ∉ e := by
  intro e he
  have hmem : e ∈ p.parts.filter (· ≠ []) ∨ e = [] := by
    simp only [elements, hp, if_true, List.cons_append, List.nil_append, List.drop_succ_cons,
      List.drop_zero, List.mem_append] at he
    rcases he with he | he
    · exact .inl he
    · split at he
      · exact .inr (by simpa using he)
      · simp at he
  rcases hmem with he | rfl
  · exact p.parts_no_slash e (List.mem_filter.mp he).1
  · simp

theorem foldl_append_key {es : List Bytes} (hes : ∀ e ∈ es, slash ∉ e) (q : Path) (hq : q.isAbsolute = true) :
    (es.foldl (fun p e => p / ⟨e⟩) q).key = follow q.key (es.map classify) ∧
      (es.foldl (fun p e => p / ⟨e⟩) q).isAbsolute = true := by
  induction es generalizing q with
  | nil => exact ⟨rfl, hq⟩
  | cons e es ih =>
    obtain ⟨hkey, habs⟩ := ih (fun e he => hes e (by simp [he])) (q / ⟨e⟩) (isAbsolute_append _ hq)
    refine ⟨?_, habs⟩
    rw [List.foldl_cons, hkey, key_append_element (hes e (by simp)), ← follow_append]
    rfl

theorem weaklyCanonicalFrom_canonical {es : List Bytes} (hes : ∀ e ∈ es, slash ∉ e) (hq : q.isAbsolute = true) :
    (weaklyCanonicalFrom fs q es).Canonical (follow q.key (es.map classify)) := by
  induction es generalizing q with
  | nil => exact canonical_ofKey q.key_isName
  | cons e es ih =>
    rw [weaklyCanonicalFrom]
    split
    · have hkey : follow (q / ⟨e⟩).key (es.map classify) = follow q.key ((e :: es).map classify) := by
        rw [key_append_element (hes e (by simp)), ← follow_append]
        rfl
      rw [← hkey]
      exact ih (fun e he => hes e (by simp [he])) (isAbsolute_append ⟨e⟩ hq)
    · obtain ⟨hkey, habs⟩ := foldl_append_key hes (ofKey q.key) (isAbsolute_ofKey _)
      rw [key_ofKey q.key_isName] at hkey
      rw [← hkey]
      exact canonical_lexicallyNormal habs

/-- The names of the canonical path: what is there is resolved as a system call sees it. -/
def canonicalKey (fs : FileSystem) (p : Path) : Key := if fs.pathExists p then p.cString.key else p.key

theorem weaklyCanonical_canonical (hp : p.isAbsolute = true) :
    (p.weaklyCanonical fs).Canonical (p.canonicalKey fs) := by
  unfold weaklyCanonical canonicalKey
  split
  · exact canonical_ofKey (key_isName _)
  · have hfrom : (weaklyCanonicalFrom fs ⟨[slash]⟩ (p.elements.drop 1)).Canonical _ :=
      weaklyCanonicalFrom_canonical (elements_no_slash hp) rfl
    have hroot : key ⟨[slash]⟩ = [] := by decide
    rwa [hroot, key_elements hp] at hfrom

theorem filter_names {names : List Bytes} (h : ∀ n ∈ names, IsName n) : names.filter (· ≠ []) = names :=
  List.filter_eq_self.mpr fun n hn => by simpa using (h n hn).1

theorem elements_ofKey {names : List Bytes} (hnames : ∀ n ∈ names, IsName n) : (ofKey names).elements = [slash] :: names := by
  by_cases hn : names = []
  · subst names
    decide
  · have hparts : (ofKey names).parts = [] :: names := by
      simpa [parts, ofKey, hn] using splitOn_append_spell (x := []) (by simp) hnames
    have hfilter : ([] :: names).filter (· ≠ []) = names := filter_names hnames
    have hlast : ([] :: names).getLastD [] ≠ [] := by
      obtain ⟨l, z, rfl⟩ := (List.eq_nil_or_concat names).resolve_left hn
      rw [List.concat_eq_append, ← List.cons_append, List.getLastD_concat]
      exact (hnames z (by simp)).1
    rw [elements, hparts, hfilter, isAbsolute_ofKey, if_pos rfl, if_neg (fun hh => hlast hh.2)]
    simp

theorem Canonical.elements_eq {names : List Bytes} (h : q.Canonical names) :
    q.elements = [slash] :: names ∨ q.elements = [slash] :: (names ++ [[]]) := by
  obtain ⟨hnames, rfl | ⟨hne, rfl⟩⟩ := h
  · exact .inl (elements_ofKey hnames)
  · have hparts : parts ⟨spell names ++ [slash]⟩ = ([] :: names) ++ [[]] := by
      have hspell : (spell names).splitOn slash = [] :: names := by
        simpa using splitOn_append_spell (x := []) (by simp) hnames
      have hconcat := parts_concat_slash (spell names) []
      simp only [parts, hspell] at hconcat
      simpa [parts, List.splitOn_eq_splitOnP] using hconcat
    have hfilter : ([] :: names ++ [[]]).filter (· ≠ []) = names := by
      rw [List.filter_append, List.filter_cons_of_neg (by simp), filter_names hnames]
      simp
    have habs : isAbsolute ⟨spell names ++ [slash]⟩ = true := by
      obtain ⟨n, names, rfl⟩ := List.exists_cons_of_ne_nil hne
      rfl
    have hlast : ([] :: names ++ [[]]).getLastD [] = ([] : Bytes) := List.getLastD_concat
    right
    rw [elements, hparts, hfilter, habs, if_pos rfl, if_pos ⟨hne, hlast⟩]
    simp

section Relative

/-- An element that the base does not have is not cut off. -/
theorem mem_mismatch_of_notMem {as bs : List Bytes} {a : Bytes} (h : a ∈ as) (hb : a ∉ bs) : a ∈ (mismatch as bs).1 := by
  induction as generalizing bs with
  | nil => simp at h
  | cons x as ih =>
    cases bs with
    | nil => simpa [mismatch] using h
    | cons y bs =>
      rw [mismatch]
      split
      · rename_i hxy
        subst y
        simp only [List.mem_cons, not_or] at h hb
        exact ih (h.resolve_left hb.1) hb.2
      · exact h

theorem mismatch_suffix (as bs : List Bytes) : (mismatch as bs).1 <:+ as ∧ (mismatch as bs).2 <:+ bs := by
  induction as generalizing bs with
  | nil => cases bs <;> simp [mismatch]
  | cons x as ih =>
    cases bs with
    | nil => simp [mismatch]
    | cons y bs =>
      rw [mismatch]
      split
      · exact ⟨(ih bs).1.trans (List.suffix_cons x as), (ih bs).2.trans (List.suffix_cons y bs)⟩
      · exact ⟨List.suffix_refl _, List.suffix_refl _⟩

theorem mem_append_native (p : Path) (h : c ∈ q.native) : c ∈ (p / q).native := by
  change c ∈ (append p q).native
  unfold append
  split
  · exact h
  · split
    · exact List.mem_append_right p.native h
    · exact List.mem_append_right p.native (List.mem_cons_of_mem slash h)

theorem mem_append_left (p : Path) (hq : q.isAbsolute = false) (h : c ∈ p.native) : c ∈ (p / q).native := by
  change c ∈ (append p q).native
  unfold append
  rw [if_neg (by simp [hq])]
  split
  · exact List.mem_append_left _ h
  · exact List.mem_append_left _ h

theorem mem_foldl_append {es : List Bytes} (hes : ∀ e ∈ es, slash ∉ e) (hc : c ≠ slash) (q : Path) :
    c ∈ (es.foldl (fun p e => p / ⟨e⟩) q).native ↔ c ∈ q.native ∨ ∃ e ∈ es, c ∈ e := by
  induction es generalizing q with
  | nil => simp
  | cons e es ih =>
    have hstep : c ∈ (q / ⟨e⟩).native ↔ c ∈ q.native ∨ c ∈ e := by
      constructor
      · intro h
        rcases mem_native_append h with h | h | h
        · exact .inl h
        · exact absurd h hc
        · exact .inr h
      · rintro (h | h)
        · exact mem_append_left q (isAbsolute_false_of_no_slash (hes e (by simp))) h
        · exact mem_append_native q h
    rw [List.foldl_cons, ih (fun e he => hes e (by simp [he])), hstep]
    simp [or_assoc]

theorem mem_parts_of_mem_native {p : Path} (h : c ∈ p.native) (hc : c ≠ slash) : ∃ n ∈ p.parts, c ∈ n := by
  obtain ⟨b⟩ := p
  simp only [parts] at h ⊢
  induction b with
  | nil => simp at h
  | cons d b ih =>
    rw [List.splitOn_cons_eq_if_modifyHead]
    by_cases hd : d = slash
    · subst d
      obtain ⟨n, hn, hm⟩ := ih ((List.mem_cons.mp h).resolve_left hc)
      exact ⟨n, by simp [hn], hm⟩
    · obtain ⟨m, l, hm⟩ := List.exists_cons_of_ne_nil (List.splitOn_ne_nil slash b)
      simp only [hm, beq_iff_eq, hd, if_false, List.modifyHead_cons] at ih ⊢
      rcases List.mem_cons.mp h with rfl | h
      · exact ⟨c :: m, by simp, by simp⟩
      · obtain ⟨n, hn, hcn⟩ := ih h
        rcases List.mem_cons.mp hn with rfl | hn
        · exact ⟨d :: n, by simp, by simp [hcn]⟩
        · exact ⟨n, by simp [hn], hcn⟩

theorem mem_elements_of_mem_native {p : Path} (h : c ∈ p.native) (hc : c ≠ slash) : ∃ e ∈ p.elements, c ∈ e := by
  obtain ⟨n, hn, hm⟩ := mem_parts_of_mem_native h hc
  have hne : n ≠ [] := by
    rintro rfl
    simp at hm
  refine ⟨n, ?_, hm⟩
  simp only [elements, List.mem_append, List.mem_filter, hn, true_and]
  exact .inl (.inr (by simpa using hne))

theorem Canonical.tail {names : List Bytes} (h : q.Canonical names) :
    ∃ es, q.elements = [slash] :: es ∧ (∀ n ∈ names, n ∈ es) ∧ (∀ e ∈ es, e ∈ names ∨ e = []) ∧
      ∀ l, [] :: l <:+ es → l = [] := by
  have hnil : [] ∉ names := fun hm => (h.1 [] hm).1 rfl
  rcases h.elements_eq with he | he
  · refine ⟨names, he, fun n hn => hn, fun e hm => .inl hm, ?_⟩
    intro l hl
    exact absurd (hl.mem List.mem_cons_self) hnil
  · refine ⟨names ++ [[]], he, fun n hn => List.mem_append_left _ hn, fun e hm => by simpa using hm, ?_⟩
    rintro l ⟨t, ht⟩
    rcases List.eq_nil_or_concat l with rfl | ⟨l, z, rfl⟩
    · rfl
    · have hnames : t ++ [] :: l = names := by
        rw [List.concat_eq_append, ← List.cons_append, ← List.append_assoc] at ht
        exact (List.append_inj' ht rfl).1
      exact absurd (by simp [← hnames]) hnil

/-- No element of a canonical path leads up: the way back from what is left of the base counts up. -/
theorem Canonical.climbs_nonneg {bs names : List Bytes} (h : base.Canonical names)
    (hbs : ∀ b ∈ bs, b ∈ names ∨ b = []) :
    0 ≤ (bs.map (fun b : Bytes => (if b = ascii ".." then -1
      else if b = [] ∨ b = ascii "." then 0 else 1 : Int))).sum := by
  apply List.sum_nonneg
  intro z hz
  obtain ⟨b, hb, rfl⟩ := List.mem_map.mp hz
  have hne : b ≠ ascii ".." := by
    rcases hbs b hb with hb | rfl
    · exact (h.1 b hb).2.2.1
    · decide
  rw [if_neg hne]
  split <;> decide

/-- The bytes of the relative path are those of the names of the path, when the base has none of
them. -/
theorem mem_lexicallyRelative {names baseNames : List Bytes} (hq : q.Canonical names)
    (hbase : base.Canonical baseNames) (hc : c ≠ slash) (hdot : c ≠ 46) (hnot : ∀ n ∈ baseNames, c ∉ n) :
    c ∈ (q.lexicallyRelative base).native ↔ ∃ n ∈ names, c ∈ n := by
  obtain ⟨x, hx, hnames, hxs, hlast⟩ := hq.tail
  obtain ⟨y, hy, -, hys, -⟩ := hbase.tail
  have hslash : ∀ e ∈ x, slash ∉ e := by
    intro e he
    rcases hxs e he with he | rfl
    · exact (hq.1 e he).2.2.2
    · simp
  have hlack : ∀ e ∈ y, c ∉ e := by
    intro e he
    rcases hys e he with he | rfl
    · exact hnot e he
    · simp
  obtain ⟨hsuffix, hbsuffix⟩ := mismatch_suffix x y
  have hkey : (∃ a ∈ (mismatch x y).1, c ∈ a) ↔ ∃ n ∈ names, c ∈ n := by
    constructor
    · rintro ⟨a, ha, hca⟩
      rcases hxs a (hsuffix.mem ha) with hn | rfl
      · exact ⟨a, hn, hca⟩
      · simp at hca
    · rintro ⟨n, hn, hcn⟩
      exact ⟨n, mem_mismatch_of_notMem (hnames n hn) (fun hm => hlack n hm hcn), hcn⟩
  have hhere : c ∉ ascii "." := by simpa [ascii] using hdot
  have hup : c ∉ ascii ".." := by simpa [ascii] using hdot
  rw [← hkey, lexicallyRelative, hx, hy, mismatch, if_pos rfl]
  generalize mismatch x y = cut at hsuffix hbsuffix
  obtain ⟨as, bs⟩ := cut
  dsimp only at hsuffix hbsuffix ⊢
  rw [if_pos (hbase.climbs_nonneg fun b hb => hys b (hbsuffix.mem hb))]
  split
  · rename_i hnone
    simp [hnone.1, hhere]
  · split
    · rename_i hnone
      refine iff_of_false hhere ?_
      rintro ⟨a, ha, hca⟩
      rcases hnone.2 with rfl | hhead
      · simp at ha
      · obtain ⟨l, rfl⟩ : ∃ l, as = [] :: l := by
          cases as with
          | nil => simp at hhead
          | cons a l => exact ⟨l, by simpa using hhead⟩
        obtain rfl := hlast l hsuffix
        rw [List.mem_singleton.mp ha] at hca
        simp at hca
    · rw [mem_foldl_append ?_ hc]
      · simp [List.mem_replicate, or_and_right, exists_or, hup]
      · intro e he
        rcases List.mem_append.mp he with he | he
        · rw [List.eq_of_mem_replicate he]
          decide
        · exact hslash e (hsuffix.mem he)

end Relative

end Path

namespace ServerContext

variable {srv : ServerContext} {fs : FileSystem} {p : Path} {c : Byte}

theorem getRelativePathTo_ne_nil (srv : ServerContext) (fs : FileSystem) (p : Path) :
    (srv.getRelativePathTo fs p).native ≠ [] := by
  have hne : ∀ q : Path, ((⟨[slash]⟩ : Path) / q).native ≠ [] := by
    intro q
    change (Path.append ⟨[slash]⟩ q).native ≠ []
    unfold Path.append
    split
    · rename_i hq
      obtain ⟨b, hb⟩ := Path.isAbsolute_iff.mp hq
      simp [hb]
    · split <;> simp
  unfold getRelativePathTo
  exact hne _

theorem mem_getRelativePathTo (hp : p.isAbsolute = true) (hc : c ≠ slash) (hdot : c ≠ 46)
    (hroot : ∀ n ∈ srv.root.names, c ∉ n) :
    c ∈ (srv.getRelativePathTo fs p).native ↔ ∃ n ∈ p.canonicalKey fs, c ∈ n := by
  have habs : srv.root.path.isAbsolute = true := Path.isAbsolute_ofKey _
  have hkey : srv.root.path.key = srv.root.names := Path.key_ofKey srv.root.isName
  have hbase : (srv.root.path.weaklyCanonical fs).Canonical srv.root.names := by
    have hcanonical : (srv.root.path.weaklyCanonical fs).Canonical _ := Path.weaklyCanonical_canonical habs
    rwa [Path.canonicalKey, srv.root.plain_path.cString_eq, hkey, ite_self] at hcanonical
  rw [← Path.mem_lexicallyRelative (Path.weaklyCanonical_canonical hp) hbase hc hdot hroot]
  unfold getRelativePathTo
  dsimp only
  split
  · rename_i hequal
    have hnot : c ∉ ((⟨[slash]⟩ : Path) / ⟨[]⟩).native := by
      have hnative : ((⟨[slash]⟩ : Path) / ⟨[]⟩).native = [slash] := by decide
      simp [hnative, hc]
    refine iff_of_false hnot (fun hm => ?_)
    obtain ⟨e, he, hce⟩ := Path.mem_elements_of_mem_native hm hc
    have hdots : Path.elements ⟨ascii "."⟩ = [ascii "."] := by decide
    simp only [Path.equal, beq_iff_eq, hdots] at hequal
    rw [hequal] at he
    rw [List.mem_singleton.mp he] at hce
    simp [ascii] at hce
    exact hdot hce
  · constructor
    · intro hm
      rcases Path.mem_native_append hm with hm | hm | hm
      · simp [hc] at hm
      · exact absurd hm hc
      · exact hm
    · exact Path.mem_append_native _

theorem notMem_getRelativePathTo (hp : p.isAbsolute = true) (hc : c ≠ slash) (hdot : c ≠ 46)
    (hroot : ∀ n ∈ srv.root.names, c ∉ n) (hnot : c ∉ p.native) : c ∉ (srv.getRelativePathTo fs p).native := by
  rw [mem_getRelativePathTo hp hc hdot hroot]
  rintro ⟨n, hn, hcn⟩
  unfold Path.canonicalKey at hn
  split at hn
  · obtain ⟨m, hm, he⟩ := List.mem_map.mp (Path.child_mem_of_mem_key hn)
    obtain ⟨rfl, -⟩ := Path.isName_of_classify (Path.parts_no_slash _ m hm) he
    exact hnot (List.takeWhile_subset _ (Path.mem_native_of_mem_parts hm hcn))
  · obtain ⟨m, hm, he⟩ := List.mem_map.mp (Path.child_mem_of_mem_key hn)
    obtain ⟨rfl, -⟩ := Path.isName_of_classify (Path.parts_no_slash _ m hm) he
    exact hnot (Path.mem_native_of_mem_parts hm hcn)

theorem noNul_getRelativePathTo (hp : p.isAbsolute = true) (he : fs.pathExists p = true) :
    (0 : Byte) ∉ (srv.getRelativePathTo fs p).native := by
  rw [mem_getRelativePathTo hp (by decide) (by decide) srv.root.noNul]
  rintro ⟨n, hn, hzero⟩
  rw [Path.canonicalKey, if_pos he] at hn
  exact p.noNul_key_cString n hn hzero

end ServerContext

end TinDox
