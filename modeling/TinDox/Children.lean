import TinDox.Parsing
import TinDox.Session
import TinDox.Spelling

/-! What the name fields of `rm`, `rename`, `mkdir`, `ul`, `dl`, `cp` and `mv` denote. The parsers
compare a name with its own filename, which only rules out separators. -/

namespace TinDox

open Lexical

/-- The values of the `name`, `oname` and `nname` fields of a parsed command. -/
def Command.names : Command → List Path
  | .rm n | .mkdir n | .ul n _ _ | .dl n _ | .cp _ n | .mv _ n => [n]
  | .rename o n => [o, n]
  | _ => []

theorem CommandExecutor.names_no_slash {srv : ServerContext} {fs : FileSystem} {c : ClientContext}
    {fields : List Field} {n : CommandName} {command : Command}
    (h : parseFields srv fs c fields n = .ok command) : ∀ v ∈ command.names, slash ∉ v.native := by
  intro v hv
  have hn := parseFields_commandName h
  subst n
  cases command with
  | rm name =>
    obtain ⟨name', hp, he⟩ := map_eq_ok.mp h
    cases he
    have hs := parseSingleName_ok hp
    exact List.mem_singleton.mp hv ▸ hs
  | mkdir name =>
    obtain ⟨name', hp, he⟩ := map_eq_ok.mp h
    cases he
    have hs := parseSingleName_ok hp
    exact List.mem_singleton.mp hv ▸ hs
  | ul name size retry =>
    have hs := Ul.parseFields_ok h
    exact List.mem_singleton.mp hv ▸ hs
  | dl name offset =>
    have hs := Dl.parseFields_ok h
    exact List.mem_singleton.mp hv ▸ hs
  | cp path name =>
    obtain ⟨⟨path', name'⟩, hp, he⟩ := map_eq_ok.mp h
    cases he
    obtain ⟨-, field, -, -, hs⟩ := TransportCommand.parseFields_ok hp
    exact List.mem_singleton.mp hv ▸ hs
  | mv path name =>
    obtain ⟨⟨path', name'⟩, hp, he⟩ := map_eq_ok.mp h
    cases he
    obtain ⟨-, field, -, -, hs⟩ := TransportCommand.parseFields_ok hp
    exact List.mem_singleton.mp hv ▸ hs
  | rename oname nname =>
    obtain ⟨ho, hn⟩ := Rename.parseFields_ok h
    simp only [Command.names, List.mem_cons, List.not_mem_nil, or_false] at hv
    rcases hv with rfl | rfl
    · exact ho
    · exact hn
  | _ => simp [Command.names] at hv

namespace Path

structure NormalDirectory (d : Path) : Prop where
  absolute : d.isAbsolute = true
  normal : d.lexicallyNormal = d
  noTrailing : d.native.getLast? ≠ some slash

/-- The path is the directory extended by one entry name. -/
structure DirectChild (d p : Path) : Prop where
  extended : ∃ n, IsName n ∧ p.native = d.native ++ slash :: n
  notItself : p.key ≠ d.key
  notAncestor : ¬ p.key <+: d.key
  inside : d.key <+: p.key

variable {d v : Path}

theorem NormalDirectory.native_eq (h : NormalDirectory d) : d.native = spell d.key := by
  obtain ⟨tl, htl, hn⟩ := lexicallyNormal_native h.absolute
  rw [h.normal] at hn
  rcases htl with rfl | rfl
  · simpa using hn
  · exact absurd (by simp [hn]) h.noTrailing

theorem NormalDirectory.filename_ne (h : NormalDirectory d) : d.filename.native ≠ [] := by
  obtain ⟨b, hb⟩ := isAbsolute_iff.mp h.absolute
  rcases List.eq_nil_or_concat d.native with hd | ⟨c, x, hd⟩
  · simp [hb] at hd
  · have hx : x ≠ slash := by
      intro hx
      exact h.noTrailing (by simp [hd, hx])
    simp [filename, hd, List.rtakeWhile_concat_pos, hx]

theorem NormalDirectory.append_native (h : NormalDirectory d) (hs : slash ∉ v.native) :
    (d / v).native = d.native ++ slash :: v.native := by
  change (append d v).native = _
  simp [append, isAbsolute_false_of_no_slash hs, h.filename_ne]

theorem NormalDirectory.key_append_name (hs : slash ∉ v.native) :
    (d / v).key = follow d.key [classify v.native] := by
  rw [key_append (isAbsolute_false_of_no_slash hs), components, parts_of_no_slash hs]
  rfl

theorem NormalDirectory.directChild (h : NormalDirectory d) (hv : IsName v.native) :
    DirectChild d (d / v).lexicallyNormal := by
  have hs := hv.2.2.2
  have habs : (d / v).isAbsolute = true := isAbsolute_append v h.absolute
  have hk : (d / v).key = d.key ++ [v.native] := by
    rw [NormalDirectory.key_append_name hs, classify_name hv]
    rfl
  have hkn : (d / v).lexicallyNormal.key = d.key ++ [v.native] := by
    rw [key_lexicallyNormal habs, hk]
  have hparts : (d / v).parts = d.parts ++ [v.native] := by
    have hv' : parts ⟨v.native⟩ = [v.native] := parts_of_no_slash hs
    have hh := parts_concat_slash d.native v.native
    rw [hv', ← h.append_native hs] at hh
    exact hh
  have htr : (d / v).trailing = false := by
    simp [trailing, hparts, classify_name hv]
  have hnative : (d / v).lexicallyNormal.native = d.native ++ slash :: v.native := by
    have hne : (d / v).native ≠ [] := by simp [h.append_native hs]
    simp [lexicallyNormal, hne, habs, htr, hk, ofKey, spell_append, ← h.native_eq]
    simp [spell]
  refine ⟨⟨v.native, hv, hnative⟩, ?_, ?_, ?_⟩
  · simp [hkn]
  · intro hp
    have hlen := hp.length_le
    rw [hkn, List.length_append, List.length_singleton] at hlen
    omega
  · exact ⟨[v.native], hkn.symm⟩

theorem NormalDirectory.not_directChild (h : NormalDirectory d) (hs : slash ∉ v.native)
    (hv : v.native = [] ∨ v.native = ascii "." ∨ v.native = ascii "..") :
    ¬ DirectChild d (d / v).lexicallyNormal := by
  intro hc
  have hk : (d / v).lexicallyNormal.key = follow d.key [classify v.native] := by
    rw [key_lexicallyNormal (isAbsolute_append v h.absolute), NormalDirectory.key_append_name hs]
  rcases hv with hv | hv | hv
  · exact hc.notItself (by simp [hk, hv, classify, follow])
  · exact hc.notItself (by simp [hk, hv, classify, follow])
  · have hup : classify v.native = .up := by rw [hv]; decide
    apply hc.notAncestor
    rw [hk, hup]
    exact List.dropLast_prefix d.key

theorem NormalDirectory.directChild_iff (h : NormalDirectory d) (hs : slash ∉ v.native) :
    DirectChild d (d / v).lexicallyNormal ↔
      v.native ≠ [] ∧ v.native ≠ ascii "." ∧ v.native ≠ ascii ".." := by
  constructor
  · intro hc
    refine ⟨?_, ?_, ?_⟩
    · intro hv
      exact h.not_directChild hs (.inl hv) hc
    · intro hv
      exact h.not_directChild hs (.inr (.inl hv)) hc
    · intro hv
      exact h.not_directChild hs (.inr (.inr hv)) hc
  · rintro ⟨h1, h2, h3⟩
    exact h.directChild ⟨h1, h2, h3, hs⟩

end Path

namespace CommandExecutor

/-- A name a parser accepts denotes an entry of the current directory exactly when it is not
empty and not one of the two names every directory has for itself and its parent. -/
theorem name_denotes_child_iff {srv : ServerContext} {fs : FileSystem} {c : ClientContext}
    {fields : List Field} {n : CommandName} {command : Command} {d v : Path}
    (h : parseFields srv fs c fields n = .ok command) (hv : v ∈ command.names)
    (hd : d.NormalDirectory) :
    Path.DirectChild d (d / v).lexicallyNormal ↔
      v.native ≠ [] ∧ v.native ≠ ascii "." ∧ v.native ≠ ascii ".." :=
  hd.directChild_iff (names_no_slash h v hv)

theorem mkdir_name_denotes_child :
    Path.DirectChild ⟨ascii "/r/d"⟩ ((⟨ascii "/r/d"⟩ : Path) / ⟨ascii ".x y"⟩).lexicallyNormal :=
  (name_denotes_child_iff
    (show parseFields Sample.server ⟨[], []⟩ .new [Sample.string "name" ".x y"] .mkdir =
      .ok (.mkdir ⟨ascii ".x y"⟩) by decide)
    (by decide) ⟨by decide, by decide, by decide⟩).mpr (by decide)

/-- `rm` accepts the three strings that do not name an entry; deleting is recursive. -/
theorem rm_name_denotes_directory :
    ¬ ∀ value ∈ [[], ascii ".", ascii ".."],
      parseFields Sample.server ⟨[], []⟩ .new [⟨ascii "name", .string value⟩] .rm = .ok (.rm ⟨value⟩) →
      Path.NormalDirectory ⟨ascii "/r/d"⟩ →
      Path.DirectChild ⟨ascii "/r/d"⟩ ((⟨ascii "/r/d"⟩ : Path) / ⟨value⟩).lexicallyNormal := by
  intro h
  have hn : Path.NormalDirectory ⟨ascii "/r/d"⟩ := ⟨by decide, by decide, by decide⟩
  have hc := h [] (by simp) (by decide) hn
  exact hc.notItself (by decide)

end CommandExecutor

end TinDox
