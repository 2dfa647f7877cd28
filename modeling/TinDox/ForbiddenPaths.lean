import TinDox.RelativePaths

/-! Forbidden paths. The configuration directory is recognised by the beginning of its spelling, which
other names share. -/

namespace TinDox

variable {srv : ServerContext} {p : Path} {k : Key}

/-- The first name of a location below the root. -/
def Root.firstBelow (root : Root) (k : Key) : Option Bytes := (k.drop root.names.length).head?

/-- A location in the configuration directory, or below a name in the root that extends its name. -/
def LooksForbidden (srv : ServerContext) (k : Key) : Prop := ∃ m ∈ srv.root.firstBelow k, ascii ".tds" <+: m

instance (srv : ServerContext) (k : Key) : Decidable (LooksForbidden srv k) :=
  inferInstanceAs (Decidable (∃ m ∈ srv.root.firstBelow k, ascii ".tds" <+: m))

theorem firstBelow_append (root : Root) (rest : Key) : root.firstBelow (root.names ++ rest) = rest.head? := by
  simp [Root.firstBelow]

theorem looksForbidden_iff (h : srv.root.names <+: k) :
    LooksForbidden srv k ↔ srv.configKey <+: k ∨ Path.Beside srv.configKey k := by
  obtain ⟨rest, rfl⟩ := h
  rw [LooksForbidden, firstBelow_append, ServerContext.configKey]
  constructor
  · rintro ⟨m, hm, ext, rfl⟩
    obtain ⟨tail, rfl⟩ := List.head?_eq_some_iff.mp hm
    by_cases he : ext = []
    · exact .inl ⟨tail, by simp [he]⟩
    · exact .inr ⟨srv.root.names, ascii ".tds", ext, tail, he, rfl, rfl⟩
  · rintro (⟨tail, htail⟩ | ⟨par, x, ext, tail, -, hconfig, hk⟩)
    · rw [List.append_assoc] at htail
      rw [← List.append_cancel_left htail]
      exact ⟨ascii ".tds", rfl, List.prefix_refl _⟩
    · obtain ⟨rfl, hx⟩ := List.append_inj' hconfig rfl
      obtain rfl := List.singleton_inj.mp hx
      rw [List.append_cancel_left hk]
      exact ⟨_, rfl, List.prefix_append _ _⟩

/-- On paths in normal form the test on strings asks for the first name below the root. -/
theorem startsWith_configDirectory_iff (hp : p.Canonical k) (hin : srv.root.names <+: k) :
    p.startsWith srv.configDirectory = true ↔ LooksForbidden srv k := by
  rw [looksForbidden_iff hin, srv.configDirectory_eq]
  exact hp.startsWith_iff srv.configKey_isName

end TinDox
