import TinDox.Lexical
import Mathlib.Algebra.Ring.Int.Defs
import Mathlib.Algebra.Ring.Nat
import Mathlib.Data.List.DropRight

/-! The operations of `std::filesystem::path` on POSIX that the server uses. A path is its
native string; the lexical operations work on the parts between separators. -/

namespace TinDox

open Lexical

abbrev Byte := UInt8

abbrev Bytes := List Byte

instance : LawfulBEq Bytes := inferInstance

/-- The bytes of an ASCII text of the source. -/
def ascii (s : String) : Bytes := s.toList.map (fun c => c.toNat.toUInt8)

def slash : Byte := 47

structure Path where
  native : Bytes
  deriving DecidableEq

/-- An entry name of a directory: what a path part is when it is not a way to stay or climb. -/
def IsName (n : Bytes) : Prop := n ≠ [] ∧ n ≠ ascii "." ∧ n ≠ ascii ".." ∧ slash ∉ n

instance (n : Bytes) : Decidable (IsName n) := inferInstanceAs (Decidable (_ ∧ _))

def spell (names : List Bytes) : Bytes := names.flatMap (slash :: ·)

namespace Path

def isAbsolute (p : Path) : Bool := p.native.head? == some slash

def parts (p : Path) : List Bytes := p.native.splitOn slash

def classify (part : Bytes) : Component Bytes :=
  if part = [] ∨ part = ascii "." then .here
  else if part = ascii ".." then .up
  else .child part

def components (p : Path) : List (Component Bytes) := p.parts.map classify

/-- The location an absolute path denotes lexically, as names from the topmost directory. -/
def key (p : Path) : List Bytes := follow [] p.components

def ofKey (names : List Bytes) : Path := ⟨if names = [] then [slash] else spell names⟩

def filename (p : Path) : Path := ⟨p.native.rtakeWhile (· ≠ slash)⟩

/-- The elements an iteration over the path visits: the root directory, the filenames, and
an empty element for a trailing separator. -/
def elements (p : Path) : List Bytes :=
  let names := p.parts.filter (· ≠ [])
  (if p.isAbsolute then [[slash]] else []) ++ names ++
    (if names ≠ [] ∧ p.parts.getLastD [] = [] then [[]] else [])

/-- `operator==`, which compares element by element. -/
def equal (p q : Path) : Bool := p.elements == q.elements

def append (p q : Path) : Path :=
  if q.isAbsolute then q
  else if p.filename.native = [] then ⟨p.native ++ q.native⟩
  else ⟨p.native ++ slash :: q.native⟩

instance : Div Path := ⟨append⟩

/-- `operator+=`. -/
def concat (p q : Path) : Path := ⟨p.native ++ q.native⟩

def parentPath (p : Path) : Path :=
  if p.parts.all (· = []) then p
  else
    let stem := (p.native.rdropWhile (· ≠ slash)).rdropWhile (· = slash)
    if stem = [] ∧ p.isAbsolute then ⟨[slash]⟩ else ⟨stem⟩

/-- The normal form ends in a separator when the path ends in a way to stay or climb. -/
def trailing (p : Path) : Bool := classify (p.parts.getLastD []) ∈ [.here, .up]

def lexicallyNormal (p : Path) : Path :=
  if p.native = [] then p
  else if p.isAbsolute then
    ⟨(ofKey p.key).native ++ (if p.key ≠ [] ∧ p.trailing then [slash] else [])⟩
  else
    let n := net p.components
    let names := List.replicate n.ups (ascii "..") ++ n.names
    if names = [] then ⟨ascii "."⟩
    else ⟨[slash].intercalate names ++ (if n.names ≠ [] ∧ p.trailing then [slash] else [])⟩

def startsWith (p q : Path) : Bool := q.native.isPrefixOf p.native

theorem classify_name {n : Bytes} (h : IsName n) : classify n = .child n := by
  simp [classify, h.1, h.2.1, h.2.2.1]

theorem classify_of_not_name {n : Bytes} (hn : slash ∉ n) (h : ¬ IsName n) : classify n = .here ∨ classify n = .up := by
  unfold classify
  by_cases h₁ : n = [] ∨ n = ascii "."
  · exact .inl (if_pos h₁)
  · rw [if_neg h₁]
    by_cases h₂ : n = ascii ".."
    · exact .inr (if_pos h₂)
    · exact absurd ⟨fun h => h₁ (.inl h), fun h => h₁ (.inr h), h₂, hn⟩ h

theorem map_classify_names {names : List Bytes} (h : ∀ n ∈ names, IsName n) :
    names.map classify = names.map .child :=
  List.map_congr_left (fun n hn => classify_name (h n hn))

theorem isName_of_classify {n m : Bytes} (hs : slash ∉ n) (h : classify n = .child m) :
    n = m ∧ IsName m := by
  unfold classify at h
  split at h
  · simp at h
  · split at h
    · simp at h
    · simp only [Component.child.injEq] at h
      subst m
      simp_all [IsName]

theorem parts_no_slash (p : Path) : ∀ n ∈ p.parts, slash ∉ n := by
  obtain ⟨b⟩ := p
  simp only [parts]
  induction b with
  | nil => simp [List.splitOn_eq_splitOnP]
  | cons c b ih =>
    intro n hn
    rw [List.splitOn_cons_eq_if_modifyHead] at hn
    by_cases hc : c = slash
    · simp only [hc, BEq.rfl, if_true, List.mem_cons] at hn
      rcases hn with rfl | hn
      · simp
      · exact ih n hn
    · obtain ⟨m, l, hm⟩ := List.exists_cons_of_ne_nil (List.splitOn_ne_nil slash b)
      rw [hm] at ih
      simp only [hm, beq_iff_eq, hc, if_false, List.modifyHead_cons, List.mem_cons] at hn
      rcases hn with rfl | hn
      · simpa [Ne.symm hc] using ih m (by simp)
      · exact ih n (by simp [hn])

theorem mem_native_of_mem_parts {p : Path} {n : Bytes} {c : Byte} (hn : n ∈ p.parts) (hc : c ∈ n) :
    c ∈ p.native := by
  obtain ⟨b⟩ := p
  simp only [parts] at hn
  induction b generalizing n with
  | nil =>
    simp only [List.splitOn_eq_splitOnP, List.splitOnP_nil, List.mem_singleton] at hn
    simp [hn] at hc
  | cons d b ih =>
    rw [List.splitOn_cons_eq_if_modifyHead] at hn
    by_cases hd : d = slash
    · simp only [hd, BEq.rfl, if_true, List.mem_cons] at hn
      rcases hn with rfl | hn
      · simp at hc
      · exact List.mem_cons_of_mem d (ih hc hn)
    · obtain ⟨m, l, hm⟩ := List.exists_cons_of_ne_nil (List.splitOn_ne_nil slash b)
      rw [hm] at ih
      simp only [hm, beq_iff_eq, hd, if_false, List.modifyHead_cons, List.mem_cons] at hn
      rcases hn with rfl | hn
      · rcases List.mem_cons.mp hc with rfl | hc
        · simp
        · exact List.mem_cons_of_mem d (ih hc (by simp))
      · exact List.mem_cons_of_mem d (ih hc (by simp [hn]))

theorem child_mem_components {p : Path} {n : Bytes} (h : .child n ∈ p.components) : IsName n := by
  obtain ⟨m, hm, he⟩ := List.mem_map.mp h
  exact (isName_of_classify (p.parts_no_slash m hm) he).2

theorem child_mem_of_mem_key {p : Path} {n : Bytes} (h : n ∈ p.key) : .child n ∈ p.components :=
  (mem_follow h).resolve_left List.not_mem_nil

theorem key_isName (p : Path) : ∀ n ∈ p.key, IsName n :=
  fun _ hn => child_mem_components (child_mem_of_mem_key hn)

theorem splitOn_append_spell {x : Bytes} {names : List Bytes} (hx : slash ∉ x)
    (h : ∀ n ∈ names, IsName n) : (x ++ spell names).splitOn slash = x :: names := by
  induction names generalizing x with
  | nil => simpa [spell] using List.splitOn_eq_singleton hx
  | cons n names ih =>
    have hn := h n (by simp)
    have hh := ih hn.2.2.2 (fun m hm => h m (by simp [hm]))
    simp only [spell, List.flatMap_cons, List.cons_append] at hh ⊢
    rw [List.splitOn_append_cons_self_of_not_mem hx, hh]

theorem key_ofKey {names : List Bytes} (h : ∀ n ∈ names, IsName n) : (ofKey names).key = names := by
  by_cases hn : names = []
  · subst names
    decide
  · have hp : (ofKey names).parts = [] :: names := by
      simpa [parts, ofKey, hn] using splitOn_append_spell (x := []) (by simp) h
    rw [key, components, hp, List.map_cons, map_classify_names h]
    simpa [classify, follow] using follow_children [] names

theorem isAbsolute_iff {p : Path} : p.isAbsolute = true ↔ ∃ b, p.native = slash :: b := by
  obtain ⟨b⟩ := p
  cases b <;> simp [isAbsolute]

theorem ofKey_native_cons (names : List Bytes) : ∃ b, (ofKey names).native = slash :: b := by
  cases names with
  | nil => exact ⟨[], rfl⟩
  | cons n names => exact ⟨n ++ spell names, by simp [ofKey, spell]⟩

theorem isAbsolute_ofKey (names : List Bytes) : (ofKey names).isAbsolute = true :=
  isAbsolute_iff.mpr (ofKey_native_cons names)

theorem parts_concat_slash (b c : Bytes) :
    parts ⟨b ++ slash :: c⟩ = parts ⟨b⟩ ++ parts ⟨c⟩ :=
  List.splitOn_append_cons_self b c

theorem key_concat_slash (b : Bytes) : key ⟨b ++ [slash]⟩ = key ⟨b⟩ := by
  have hh := parts_concat_slash b []
  simp only [key, components, hh, List.map_append, follow_append]
  simp [parts, List.splitOn_eq_splitOnP, classify, follow]

theorem key_native_append {b c : Bytes} (h : (Path.mk b).filename.native = []) :
    key ⟨b ++ c⟩ = follow (key ⟨b⟩) (components ⟨c⟩) := by
  rcases List.eq_nil_or_concat b with rfl | ⟨d, x, rfl⟩
  · simp [key, components, parts, List.splitOn_eq_splitOnP, classify, follow]
  · have hx : x = slash := by
      by_contra hne
      simp [filename, List.rtakeWhile_concat_pos, hne] at h
    subst x
    have h1 : parts ⟨d.concat slash ++ c⟩ = parts ⟨d⟩ ++ parts ⟨c⟩ := by
      simpa using parts_concat_slash d c
    rw [List.concat_eq_append, key_concat_slash]
    simp only [key, components, ← List.concat_eq_append, h1, List.map_append, follow_append]

theorem key_append {p q : Path} (hq : q.isAbsolute = false) :
    (p / q).key = follow p.key q.components := by
  change (append p q).key = _
  by_cases hf : p.filename.native = []
  · simpa [append, hq, hf] using key_native_append (c := q.native) hf
  · have hh := parts_concat_slash p.native q.native
    simp [append, hq, hf, key, components, hh, follow_append]

theorem key_concat {p q : Path} (hq : q.isAbsolute = true) :
    (p.concat q).key = follow p.key q.components := by
  obtain ⟨c, hc⟩ := isAbsolute_iff.mp hq
  have h1 : (p.concat q).parts = p.parts ++ parts ⟨c⟩ := by
    simpa [concat, hc] using parts_concat_slash p.native c
  have h2 : q.parts = [] :: parts ⟨c⟩ := by
    simpa [parts, hc, List.splitOn_eq_splitOnP] using parts_concat_slash [] c
  simp only [key, components, h1, h2, List.map_append, follow_append]
  simp [classify, follow]

theorem key_lexicallyNormal {p : Path} (hp : p.isAbsolute = true) :
    p.lexicallyNormal.key = p.key := by
  obtain ⟨b, hb⟩ := isAbsolute_iff.mp hp
  have hk := key_ofKey p.key_isName
  by_cases ht : p.key ≠ [] ∧ p.trailing = true
  · simp only [lexicallyNormal, hb, List.cons_ne_nil, if_false, hp, if_true, if_pos ht]
    rw [key_concat_slash, hk]
  · simp only [lexicallyNormal, hb, List.cons_ne_nil, if_false, hp, if_true, if_neg ht]
    rw [List.append_nil, hk]

theorem mem_native_append {p q : Path} {c : Byte} (h : c ∈ (p / q).native) :
    c ∈ p.native ∨ c = slash ∨ c ∈ q.native := by
  change c ∈ (append p q).native at h
  unfold append at h
  split at h
  · exact .inr (.inr h)
  · split at h
    · rcases List.mem_append.mp h with h | h
      · exact .inl h
      · exact .inr (.inr h)
    · rcases List.mem_append.mp h with h | h
      · exact .inl h
      · exact .inr (List.mem_cons.mp h)

theorem isAbsolute_append {p : Path} (q : Path) (hp : p.isAbsolute = true) : (p / q).isAbsolute = true := by
  obtain ⟨b, hb⟩ := isAbsolute_iff.mp hp
  change (append p q).isAbsolute = true
  by_cases hq : q.isAbsolute = true
  · simp [append, hq]
  · by_cases hf : p.filename.native = []
    · exact isAbsolute_iff.mpr ⟨b ++ q.native, by simp [append, hq, hf, hb]⟩
    · exact isAbsolute_iff.mpr ⟨b ++ slash :: q.native, by simp [append, hq, hf, hb]⟩

theorem isAbsolute_concat {p : Path} (q : Path) (hp : p.isAbsolute = true) :
    (p.concat q).isAbsolute = true := by
  obtain ⟨b, hb⟩ := isAbsolute_iff.mp hp
  exact isAbsolute_iff.mpr ⟨b ++ q.native, by simp [concat, hb]⟩

theorem isAbsolute_lexicallyNormal {p : Path} (hp : p.isAbsolute = true) :
    p.lexicallyNormal.isAbsolute = true := by
  obtain ⟨b, hb⟩ := isAbsolute_iff.mp hp
  obtain ⟨c, hc⟩ := ofKey_native_cons p.key
  simp only [lexicallyNormal, hb, List.cons_ne_nil, if_false, hp, if_true]
  exact isAbsolute_iff.mpr ⟨_, by rw [hc, List.cons_append]⟩

theorem lexicallyNormal_native {p : Path} (hp : p.isAbsolute = true) :
    ∃ tl, (tl = [] ∨ tl = [slash]) ∧ p.lexicallyNormal.native = spell p.key ++ tl := by
  obtain ⟨b, hb⟩ := isAbsolute_iff.mp hp
  simp only [lexicallyNormal, hb, List.cons_ne_nil, if_false, hp, if_true, ofKey]
  by_cases hk : p.key = []
  · exact ⟨[slash], .inr rfl, by simp [hk, spell]⟩
  · by_cases ht : p.trailing = true
    · exact ⟨[slash], .inr rfl, by simp [hk, ht]⟩
    · exact ⟨[], .inl rfl, by simp [hk, ht]⟩

theorem isAbsolute_false_of_no_slash {p : Path} (h : slash ∉ p.native) : p.isAbsolute = false := by
  rw [Bool.eq_false_iff, ne_eq, isAbsolute_iff]
  rintro ⟨b, hb⟩
  simp [hb] at h

theorem parts_of_no_slash {p : Path} (h : slash ∉ p.native) : p.parts = [p.native] :=
  List.splitOn_eq_singleton h

theorem filename_no_slash (p : Path) : slash ∉ p.filename.native := by
  intro hm
  simpa using List.mem_rtakeWhile_imp hm

theorem elements_of_no_slash {p : Path} (h : slash ∉ p.native) :
    p.elements = if p.native = [] then [] else [p.native] := by
  by_cases hn : p.native = []
  · simp [elements, isAbsolute_false_of_no_slash h, parts_of_no_slash h, hn]
  · simp [elements, isAbsolute_false_of_no_slash h, parts_of_no_slash h, hn]

theorem two_le_elements_length {p : Path} {a z : Bytes} {l : List Bytes}
    (hp : p.parts = a :: l ++ [z]) (ha : a ≠ []) : 2 ≤ p.elements.length := by
  have hl : p.parts.getLastD [] = z := by rw [hp, List.getLastD_concat]
  simp only [elements, hl]
  by_cases hz : z = []
  · simp [hp, ha, hz]
    omega
  · simp [hp, ha, hz]
    omega

theorem equal_filename_iff (p : Path) : p.equal p.filename = true ↔ slash ∉ p.native := by
  simp only [equal, beq_iff_eq]
  constructor
  · intro he hm
    rw [elements_of_no_slash p.filename_no_slash] at he
    by_cases hp : p.isAbsolute = true
    · have hmem : [slash] ∈ p.elements := by simp [elements, hp]
      rw [he] at hmem
      split at hmem
      · simp at hmem
      · exact p.filename_no_slash (by simp [← List.mem_singleton.mp hmem])
    · obtain ⟨b⟩ := p
      obtain ⟨c, d, rfl⟩ := List.append_of_mem hm
      cases c with
      | nil => exact hp (isAbsolute_iff.mpr ⟨d, rfl⟩)
      | cons x c =>
        have hx : x ≠ slash := fun hx => hp (isAbsolute_iff.mpr ⟨c ++ slash :: d, by simp [hx]⟩)
        obtain ⟨a, as, ha⟩ := List.exists_cons_of_ne_nil (List.splitOn_ne_nil slash c)
        obtain ⟨l, z, hz⟩ := (List.eq_nil_or_concat (parts ⟨d⟩)).resolve_left
          (List.splitOn_ne_nil _ _)
        have hparts : parts ⟨x :: c ++ slash :: d⟩ = (x :: a) :: (as ++ l) ++ [z] := by
          rw [parts_concat_slash, hz]
          simp [parts, List.splitOn_cons_eq_if_modifyHead, hx, ha]
        have hlen := two_le_elements_length hparts (by simp)
        rw [he] at hlen
        split at hlen <;> simp at hlen
  · intro hs
    have hf : p.filename = p := by
      obtain ⟨b⟩ := p
      simp only [filename, mk.injEq, List.rtakeWhile_eq_self_iff]
      intro x hx
      simpa using fun he : x = slash => hs (he ▸ hx)
    rw [hf]

example : (Path.mk (ascii "/srv/root/a//./b/..")).lexicallyNormal = ⟨ascii "/srv/root/a/"⟩ := by
  decide

end Path

end TinDox
