import TinDox.Protocol

/-! The grammar of a field line. `field_from_string` finds its way by positions; it accepts the lines
that are a name, a colon and a value with blanks around each of them. -/

namespace TinDox

theorem not_isBlank_of_isLower {c : Byte} (h : isLower c = true) : isBlank c = false := by
  simp only [isLower, isBlank, decide_eq_true_eq, decide_eq_false_iff_not, UInt8.le_iff_toNat_le] at h ⊢
  rintro (rfl | rfl)
  · exact absurd h.1 (by decide)
  · exact absurd h.1 (by decide)

theorem not_isBlank_of_isDigit {c : Byte} (h : isDigit c = true) : isBlank c = false := by
  simp only [isDigit, isBlank, decide_eq_true_eq, decide_eq_false_iff_not, UInt8.le_iff_toNat_le] at h ⊢
  rintro (rfl | rfl)
  · exact absurd h.1 (by decide)
  · exact absurd h.1 (by decide)

theorem not_isSpace_of_isDigit {c : Byte} (h : isDigit c = true) : isSpace c = false := by
  simp only [isDigit, isSpace, decide_eq_true_eq, decide_eq_false_iff_not, UInt8.le_iff_toNat_le] at h ⊢
  rintro (rfl | ⟨-, hle⟩)
  · exact absurd h.1 (by decide)
  · have hlt : (13 : Byte).toNat < (48 : Byte).toNat := by decide
    omega

/-- The type a field value has by its text. -/
def fieldValueOf (value : Bytes) : Option FieldValue :=
  if value = ascii "true" then some (.boolean true)
  else if value = ascii "false" then some (.boolean false)
  else if value.all isDigit then
    if digitsValue value < 2 ^ 64 then some (.integer (digitsValue value)) else none
  else if value.head? = some apostrophe ∧ value.getLast? = some apostrophe then
    some (.string (value.dropLast.drop 1))
  else some (.string value)

namespace FieldGrammar

def Blank (w : Bytes) : Prop := ∀ c ∈ w, isBlank c = true

theorem blank_nil : Blank [] := List.forall_mem_nil _

structure IsValue (v : Bytes) : Prop where
  nonempty : v ≠ []
  front : ∀ c, v.head? = some c → isBlank c = false
  back : ∀ c, v.getLast? = some c → isBlank c = false

/-- A line with the name `n`, which may be empty, and the value `v`. -/
def Spells (s n v : Bytes) : Prop :=
  ∃ w₁ w₂ w₃ w₄, Blank w₁ ∧ Blank w₂ ∧ Blank w₃ ∧ Blank w₄ ∧ (∀ c ∈ n, isLower c = true) ∧ IsValue v ∧
    s = w₁ ++ (n ++ (w₂ ++ colon :: (w₃ ++ (v ++ w₄))))

theorem dropWhile_blank {w t : Bytes} (hw : Blank w) (ht : ∀ c, t.head? = some c → isBlank c = false) :
    (w ++ t).dropWhile isBlank = t := by
  rw [List.dropWhile_append_of_pos hw]
  cases t with
  | nil => rfl
  | cons c t => rw [List.dropWhile_cons_of_neg (by simp [ht c rfl])]

theorem rdropWhile_blank {v w : Bytes} (hw : Blank w) (hv : ∀ c, v.getLast? = some c → isBlank c = false) :
    (v ++ w).rdropWhile isBlank = v := by
  rw [List.rdropWhile, List.reverse_append, dropWhile_blank, List.reverse_reverse]
  · exact fun c hc => hw c (List.mem_reverse.mp hc)
  · intro c hc
    rw [List.head?_reverse] at hc
    exact hv c hc

theorem not_isLower_of_isBlank {c : Byte} (h : isBlank c = true) : isLower c = false := by
  by_contra hl
  rw [not_isBlank_of_isLower (by simpa using hl)] at h
  exact Bool.false_ne_true h

/-- Behind the name stand blanks or the colon, which are no letters. -/
theorem head_after_name {w t : Bytes} {c : Byte} (hw : Blank w) (h : (w ++ colon :: t).head? = some c) :
    isLower c = false := by
  cases w with
  | nil =>
    obtain rfl : colon = c := by simpa using h
    decide
  | cons d w =>
    obtain rfl : d = c := by simpa using h
    exact not_isLower_of_isBlank (hw d (by simp))

/-- The text from the first character of the name on. Without a name that is the colon. -/
theorem at_name {w₁ n w₂ t : Bytes} (h₁ : Blank w₁) (h₂ : Blank w₂) (hn : ∀ c ∈ n, isLower c = true) :
    ∃ w, Blank w ∧ (w₁ ++ (n ++ (w₂ ++ colon :: t))).dropWhile isBlank = n ++ (w ++ colon :: t) := by
  cases n with
  | nil =>
    refine ⟨[], blank_nil, ?_⟩
    have hblank : Blank (w₁ ++ w₂) := by
      intro c hc
      rcases List.mem_append.mp hc with hc | hc
      · exact h₁ c hc
      · exact h₂ c hc
    rw [List.nil_append, ← List.append_assoc, dropWhile_blank hblank]
    · rfl
    · rintro _ ⟨⟩
      decide
  | cons d n =>
    refine ⟨w₂, h₂, dropWhile_blank h₁ ?_⟩
    rintro _ ⟨⟩
    exact not_isBlank_of_isLower (hn d (by simp))

theorem takeWhile_name {n w t : Bytes} (hn : ∀ c ∈ n, isLower c = true) (hw : Blank w) :
    (n ++ (w ++ colon :: t)).takeWhile isLower = n ∧ (n ++ (w ++ colon :: t)).dropWhile isLower = w ++ colon :: t := by
  obtain ⟨c, l, hl⟩ := List.exists_cons_of_ne_nil (l := w ++ colon :: t) (by simp)
  have hc : isLower c = false := head_after_name hw (t := t) (by rw [hl, List.head?_cons])
  rw [List.takeWhile_append_of_pos hn, List.dropWhile_append_of_pos hn, hl]
  simp [hc]

end FieldGrammar

open FieldGrammar

theorem fieldFromString_spells {s n v : Bytes} (h : Spells s n v) :
    fieldFromString s =
      match fieldValueOf v with
      | some value => .ok ⟨n, value⟩
      | none => .error (protocolError .badField (ascii "invalid integer value in field '" ++ v ++ ascii "'")) := by
  obtain ⟨w₁, w₂, w₃, w₄, h₁, h₂, h₃, h₄, hn, hv, rfl⟩ := h
  obtain ⟨w, hw, hname⟩ := at_name (t := w₃ ++ (v ++ w₄)) h₁ h₂ hn
  obtain ⟨htake, hdrop⟩ := takeWhile_name (t := w₃ ++ (v ++ w₄)) hn hw
  have hcolon : (w ++ colon :: (w₃ ++ (v ++ w₄))).dropWhile isBlank = colon :: (w₃ ++ (v ++ w₄)) := by
    apply dropWhile_blank hw
    rintro _ ⟨⟩
    decide
  have hvalue : (w₃ ++ (v ++ w₄)).dropWhile isBlank = v ++ w₄ := by
    apply dropWhile_blank h₃
    intro c hc
    obtain ⟨d, l, rfl⟩ := List.exists_cons_of_ne_nil hv.nonempty
    exact hv.front c hc
  have hback : (v ++ w₄).rdropWhile isBlank = v := rdropWhile_blank h₄ hv.back
  have hsome : n ++ (w ++ colon :: (w₃ ++ (v ++ w₄))) ≠ [] := by simp
  have hleft : v ++ w₄ ≠ [] := by simp [hv.nonempty]
  simp only [fieldFromString, hname, htake, hdrop, hcolon, hvalue, hback, hsome, hleft, hv.nonempty, if_false,
    ne_eq, not_true_eq_false, fieldValueOf]
  grind

theorem blank_takeWhile (s : Bytes) : Blank (s.takeWhile isBlank) := fun _ hc => List.mem_takeWhile_imp hc

theorem head?_dropWhile_isBlank {s : Bytes} {c : Byte} (h : (s.dropWhile isBlank).head? = some c) :
    isBlank c = false := by
  have hnot := List.head?_dropWhile_not isBlank s
  rw [h] at hnot
  simpa using hnot

/-- What is read of a line that has a colon behind its name and something behind the colon. -/
theorem spells_of_scan {s t : Bytes}
    (ht : ((s.dropWhile isBlank).dropWhile isLower).dropWhile isBlank = colon :: t)
    (hv : t.dropWhile isBlank ≠ []) :
    Spells s ((s.dropWhile isBlank).takeWhile isLower) ((t.dropWhile isBlank).rdropWhile isBlank) := by
  refine ⟨s.takeWhile isBlank, ((s.dropWhile isBlank).dropWhile isLower).takeWhile isBlank, t.takeWhile isBlank,
    (t.dropWhile isBlank).rtakeWhile isBlank, blank_takeWhile _, blank_takeWhile _, blank_takeWhile _,
    fun c hc => List.mem_rtakeWhile_imp hc, fun c hc => List.mem_takeWhile_imp hc, ⟨?_, ?_, ?_⟩, ?_⟩
  · rw [ne_eq, List.rdropWhile_eq_nil_iff]
    intro hall
    obtain ⟨c, l, hl⟩ := List.exists_cons_of_ne_nil hv
    have hc := head?_dropWhile_isBlank (s := t) (c := c) (by rw [hl, List.head?_cons])
    simp [hall c (by simp [hl])] at hc
  · intro c hc
    apply head?_dropWhile_isBlank (s := t)
    rw [← List.rdropWhile_append_rtakeWhile (p := isBlank) (l := t.dropWhile isBlank), List.head?_append, hc]
    rfl
  · intro c hc
    rw [List.rdropWhile, List.getLast?_reverse] at hc
    exact head?_dropWhile_isBlank hc
  · rw [List.rdropWhile_append_rtakeWhile, List.takeWhile_append_dropWhile, ← ht, List.takeWhile_append_dropWhile,
      List.takeWhile_append_dropWhile, List.takeWhile_append_dropWhile]

theorem fieldFromString_ok_iff {s : Bytes} {f : Field} :
    fieldFromString s = .ok f ↔ ∃ v, Spells s f.name v ∧ fieldValueOf v = some f.value := by
  constructor
  · intro h
    obtain ⟨t, ht, hv⟩ : ∃ t, ((s.dropWhile isBlank).dropWhile isLower).dropWhile isBlank = colon :: t ∧
        t.dropWhile isBlank ≠ [] := by
      unfold fieldFromString at h
      grind
    have hs := spells_of_scan ht hv
    rw [fieldFromString_spells hs] at h
    split at h
    · rename_i value hvalue
      obtain rfl := Except.ok.inj h
      exact ⟨_, hs, hvalue⟩
    · cases h
  · rintro ⟨v, hs, hv⟩
    rw [fieldFromString_spells hs, hv]

theorem fieldValueOf_isSome_iff (v : Bytes) :
    (∃ value, fieldValueOf v = some value) ↔ (v.all isDigit = true → digitsValue v < 2 ^ 64) := by
  have htrue : ¬ (ascii "true").all isDigit = true := by decide
  have hfalse : ¬ (ascii "false").all isDigit = true := by decide
  unfold fieldValueOf
  split
  · subst v
    exact iff_of_true ⟨_, rfl⟩ (fun hall => absurd hall htrue)
  · split
    · subst v
      exact iff_of_true ⟨_, rfl⟩ (fun hall => absurd hall hfalse)
    · by_cases hall : v.all isDigit = true
      · by_cases hlt : digitsValue v < 2 ^ 64
        · simp [hall]
        · simp [hall]
      · refine iff_of_true ?_ (fun h => absurd h hall)
        rw [if_neg hall]
        split
        · exact ⟨_, rfl⟩
        · exact ⟨_, rfl⟩

/-- A field as the documentation of the protocol describes its line: the name has a letter. -/
def Documented (s : Bytes) (f : Field) : Prop :=
  ∃ v, Spells s f.name v ∧ f.name ≠ [] ∧ fieldValueOf v = some f.value

/-- The line is accepted exactly when it is a documented one, as the field it describes, and refused
with `bad_field` otherwise. -/
structure ReadAsDocumented (s : Bytes) : Prop where
  accepted : ∀ f, fieldFromString s = .ok f ↔ Documented s f
  refused : (∀ f, ¬ Documented s f) → ∃ e, fieldFromString s = .error e ∧ e.code = .badField

/-- A value that would be accepted, behind a colon with nothing but blanks before it. -/
def Nameless (s : Bytes) : Prop := ∃ v, Spells s [] v ∧ (v.all isDigit = true → digitsValue v < 2 ^ 64)

theorem readAsDocumented_iff (s : Bytes) : ReadAsDocumented s ↔ ¬ Nameless s := by
  constructor
  · rintro h ⟨v, hs, hv⟩
    obtain ⟨value, hvalue⟩ := (fieldValueOf_isSome_iff v).mpr hv
    obtain ⟨-, -, hname, -⟩ := (h.accepted ⟨[], value⟩).mp (fieldFromString_ok_iff.mpr ⟨v, hs, hvalue⟩)
    exact hname rfl
  · intro hnot
    have haccepted : ∀ f, fieldFromString s = .ok f ↔ Documented s f := by
      intro f
      rw [fieldFromString_ok_iff]
      constructor
      · rintro ⟨v, hs, hv⟩
        refine ⟨v, hs, fun hname => hnot ⟨v, hname ▸ hs, ?_⟩, hv⟩
        exact (fieldValueOf_isSome_iff v).mp ⟨f.value, hv⟩
      · rintro ⟨v, hs, -, hv⟩
        exact ⟨v, hs, hv⟩
    refine ⟨haccepted, fun hnone => ?_⟩
    cases he : fieldFromString s with
    | error e => exact ⟨e, rfl, fieldFromString_code he⟩
    | ok f => exact absurd ((haccepted f).mp he) (hnone f)

/-- The name of the field is not there. -/
theorem nameless_line_accepted : ¬ ∀ s, newline ∉ s → ReadAsDocumented s := by
  intro h
  have haccepted : fieldFromString (ascii ": x") = .ok ⟨[], .string (ascii "x")⟩ := by decide
  obtain ⟨-, -, hname, -⟩ := ((h _ (by decide)).accepted _).mp haccepted
  exact hname rfl

end TinDox
