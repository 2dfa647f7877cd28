import TinDox.Parsing
import TinDox.Places

/-! Plain spellings. A path in normal form and without NUL is what the tests of the server on
native strings are made for: they say of it what they are meant to say about locations. -/

namespace TinDox

open Lexical DirTree FileSystem PathBasedCommand

namespace Path

/-- The path spells the location it denotes, perhaps with a final separator. -/
def Plain (p : Path) : Prop := (0 : Byte) ∉ p.native ∧ (p = ofKey p.key ∨ p.native = spell p.key ++ [slash])

instance (p : Path) : Decidable p.Plain := inferInstanceAs (Decidable (_ ∧ _))

variable {p : Path} {k : Key} {n : Bytes}

theorem plain_ofKey (hn : ∀ m ∈ k, IsName m) (hz : ∀ m ∈ k, (0 : Byte) ∉ m) : (ofKey k).Plain :=
  ⟨noNul_ofKey hz, .inl (by rw [key_ofKey hn])⟩

theorem Plain.cString_eq (h : p.Plain) : p.cString = p := cString_eq_self h.1

theorem Plain.key_noNul (h : p.Plain) : ∀ m ∈ p.key, (0 : Byte) ∉ m := Path.key_noNul h.1

theorem Plain.native_eq (h : p.Plain) : ∃ tl, (tl = [] ∨ tl = [slash]) ∧ p.native = spell p.key ++ tl := by
  rcases h.2 with hp | hp
  · by_cases hk : p.key = []
    · exact ⟨[slash], .inr rfl, by rw [hp, key_ofKey p.key_isName, hk]; rfl⟩
    · refine ⟨[], .inl rfl, ?_⟩
      rw [List.append_nil, ← ofKey_native_of_ne hk, ← hp]
  · exact ⟨[slash], .inr rfl, hp⟩

theorem Plain.ofKey_prefix_native (h : p.Plain) : (ofKey p.key).native <+: p.native := by
  rcases h.2 with hp | hp
  · rw [← hp]
  · by_cases hk : p.key = []
    · rw [hp, hk]
      exact List.prefix_refl _
    · rw [hp, ofKey_native_of_ne hk]
      exact List.prefix_append _ _

theorem Plain.isAbsolute (h : p.Plain) : p.isAbsolute = true := by
  obtain ⟨b, hb⟩ := ofKey_native_cons p.key
  obtain ⟨c, hc⟩ := h.ofKey_prefix_native
  exact isAbsolute_iff.mpr ⟨b ++ c, by rw [← hc, hb, List.cons_append]⟩

theorem filename_spell_slash (k : Key) : (Path.mk (spell k ++ [slash])).filename.native = [] := by
  simp [filename, List.rtakeWhile]

theorem filename_spell (h : k ≠ []) (hn : ∀ m ∈ k, IsName m) : (Path.mk (spell k)).filename.native ≠ [] := by
  obtain ⟨d, x, rfl⟩ := (List.eq_nil_or_concat k).resolve_left h
  rw [List.concat_eq_append] at hn ⊢
  have hx := hn x (by simp)
  rw [spell_concat, filename_append_slash hx.2.2.2]
  exact hx.1

theorem Plain.append_native (h : p.Plain) (hn : slash ∉ n) : (p / ⟨n⟩).native = spell p.key ++ slash :: n := by
  have hq : (Path.mk n).isAbsolute = false := isAbsolute_false_of_no_slash hn
  change (append p ⟨n⟩).native = _
  obtain ⟨tl, htl, hp⟩ := h.native_eq
  rcases htl with rfl | rfl
  · have hk : p.key ≠ [] := by
      intro hk
      obtain ⟨b, hb⟩ := isAbsolute_iff.mp h.isAbsolute
      simp [hk, spell, hb] at hp
    have hf : p.filename.native ≠ [] := by
      have hp' : p = ⟨spell p.key⟩ := by
        obtain ⟨b⟩ := p
        simpa using hp
      rw [hp']
      exact filename_spell hk p.key_isName
    simp [append, hq, hf, hp]
  · have hf : p.filename.native = [] := by
      have hp' : p = ⟨spell p.key ++ [slash]⟩ := by
        obtain ⟨b⟩ := p
        simpa using hp
      rw [hp']
      exact filename_spell_slash p.key
    simp [append, hq, hf, hp]

theorem Plain.append_name (h : p.Plain) (hn : slash ∉ n) : p / ⟨n⟩ = ofKey (p.key ++ [n]) := by
  have hh := h.append_native hn
  rw [← spell_concat, ← ofKey_native_of_ne (by simp)] at hh
  rw [← mk.injEq] at hh
  exact hh

theorem Plain.cString_append (h : p.Plain) (hn : slash ∉ n) :
    (p / ⟨n⟩).cString = ofKey (p.key ++ [n.takeWhile (· ≠ 0)]) := by
  have hz : ∀ c ∈ spell p.key ++ [slash], decide (c ≠ 0) = true := by
    obtain ⟨tl, htl, hp⟩ := h.native_eq
    intro c hc
    rcases List.mem_append.mp hc with hc | hc
    · have hmem : c ∈ p.native := hp ▸ List.mem_append_left tl hc
      simpa using fun he : c = 0 => h.1 (he ▸ hmem)
    · rw [List.mem_singleton.mp hc]
      decide
  have hnative : (p / ⟨n⟩).native = (spell p.key ++ [slash]) ++ n := by
    rw [h.append_native hn]
    simp
  rw [cString, hnative, List.takeWhile_append_of_pos hz]
  simp [ofKey, spell]

theorem Plain.key_cString_append (h : p.Plain) (hn : slash ∉ n) :
    (p / ⟨n⟩).cString.key = follow p.key [classify (n.takeWhile (· ≠ 0))] := by
  have hn' : slash ∉ n.takeWhile (· ≠ 0) := fun hm => hn ((List.takeWhile_prefix _).subset hm)
  rw [h.cString_append hn, ← h.append_name hn', key_append (isAbsolute_false_of_no_slash hn'), components,
    parts_of_no_slash hn']
  rfl

theorem Plain.append_nil (h : p.Plain) : (p / ⟨[]⟩).Plain ∧ (p / ⟨[]⟩ : Path).key = p.key := by
  have hnative := h.append_native (n := []) (by simp)
  have hkey : (p / ⟨[]⟩ : Path).key = p.key := by
    rw [key_append (by rfl), components, parts_of_no_slash (by simp)]
    rfl
  refine ⟨⟨fun hm => ?_, .inr (by rw [hkey, hnative])⟩, hkey⟩
  rcases mem_native_append hm with hm | hm | hm
  · exact h.1 hm
  · exact absurd hm (by decide)
  · simp at hm

theorem leaf_ofKey_concat (k : Key) {n : Bytes} (hne : n ≠ []) (hn : slash ∉ n) :
    ∃ dirs, (ofKey (k ++ [n])).leaf = some (dirs, n) := by
  have hparts : (ofKey (k ++ [n])).parts = parts ⟨spell k⟩ ++ [n] := by
    have hh := parts_concat_slash (spell k) n
    rw [parts_of_no_slash (p := ⟨n⟩) hn] at hh
    rw [parts, ofKey_native_of_ne (by simp), spell_concat]
    exact hh
  unfold leaf
  rw [hparts, List.rdropWhile_concat_neg _ _ _ (by simpa using hne)]
  dsimp only
  rw [List.getLast?_concat]
  exact ⟨_, rfl⟩

theorem parentPath_prefix_native (p : Path) : p.parentPath.native <+: p.native := by
  unfold parentPath
  split
  · exact List.prefix_refl _
  · dsimp only
    split
    · rename_i h
      obtain ⟨b, hb⟩ := isAbsolute_iff.mp h.2
      rw [hb]
      exact ⟨b, rfl⟩
    · exact (List.rdropWhile_prefix _ _).trans (List.rdropWhile_prefix _ _)

theorem Plain.parentPath_append (h : p.Plain) (hne : n ≠ []) (hn : slash ∉ n) : (p / ⟨n⟩).parentPath = ofKey p.key := by
  have hnative := h.append_native hn
  have hparts : (p / ⟨n⟩).parts = parts ⟨spell p.key⟩ ++ [n] := by
    rw [parts, hnative, ← parts_of_no_slash (p := ⟨n⟩) hn]
    exact parts_concat_slash _ _
  have hstem : ((p / ⟨n⟩).native.rdropWhile (· ≠ slash)).rdropWhile (· = slash) = spell p.key := by
    have hname : ∀ c ∈ n, decide (c ≠ slash) = true := fun c hc => by simpa using fun he : c = slash => hn (he ▸ hc)
    have hsplit : spell p.key ++ slash :: n = (spell p.key ++ [slash]) ++ n := by simp
    have hdrop : (spell p.key ++ [slash] ++ n).rdropWhile (· ≠ slash) = spell p.key ++ [slash] := by
      have hrev : ∀ c ∈ n.reverse, decide (c ≠ slash) = true := fun c hc => hname c (List.mem_reverse.mp hc)
      rw [List.rdropWhile, List.reverse_append, List.dropWhile_append_of_pos hrev]
      simp
    rw [hnative, hsplit, hdrop, List.rdropWhile_concat_pos _ _ _ (by simp)]
    rcases List.eq_nil_or_concat p.key with hk | ⟨d, x, hk⟩
    · simp [hk, spell]
    · have hlast := endsInSlash_ofKey (k := p.key) (by simp [hk]) p.key_isName
      rw [endsInSlash, ofKey_native_of_ne (by simp [hk])] at hlast
      rw [List.rdropWhile_eq_self_iff]
      intro hne'
      rw [List.getLast?_eq_some_getLast hne'] at hlast
      simpa using hlast
  have hall : ¬ (p / ⟨n⟩).parts.all (· = []) = true := by simp [hparts, hne]
  rw [parentPath, if_neg hall]
  simp only [hstem]
  by_cases hk : p.key = []
  · simp [hk, spell, ofKey, isAbsolute_append _ h.isAbsolute]
  · have hspell : spell p.key ≠ [] := by
      obtain ⟨b, hb⟩ := ofKey_native_cons p.key
      rw [ofKey_native_of_ne hk] at hb
      simp [hb]
    simp [hspell, ofKey, hk]

theorem plain_lexicallyNormal (ha : p.isAbsolute = true) (hz : (0 : Byte) ∉ p.native) : p.lexicallyNormal.Plain := by
  have hkey := key_lexicallyNormal ha
  obtain ⟨tl, htl, hp⟩ := lexicallyNormal_native ha
  refine ⟨?_, ?_⟩
  · rw [hp]
    intro hm
    rcases List.mem_append.mp hm with hm | hm
    · obtain ⟨m, hm, hc⟩ := List.mem_flatMap.mp hm
      rcases List.mem_cons.mp hc with hc | hc
      · exact absurd hc (by decide)
      · exact key_noNul hz m hm hc
    · rcases htl with rfl | rfl
      · simp at hm
      · exact absurd hm (by decide)
  · rw [hkey]
    rcases htl with rfl | rfl
    · left
      have hk : p.key ≠ [] := by
        intro hk
        obtain ⟨b, hb⟩ := isAbsolute_iff.mp (isAbsolute_lexicallyNormal ha)
        simp [hk, spell, hb] at hp
      rw [List.append_nil, ← ofKey_native_of_ne hk] at hp
      rw [← mk.injEq] at hp
      exact hp
    · exact .inr hp

end Path

theorem FileSystem.resolve_cString (fs : FileSystem) (p : Path) : fs.resolve p.cString = fs.resolve p := by
  have hc : p.cString.cString = p.cString := Path.cString_eq_self p.noNul_cString
  rw [resolve, resolve, Path.isAbsolute_cString, hc]

theorem FileSystem.WellFormed.resolve_plain {fs : FileSystem} {p : Path} (hw : fs.WellFormed) (hp : p.Plain)
    (hd : fs.get p.key = some .dir) : fs.resolve p = some p.key := by
  have hz := hp.key_noNul
  have hbase : fs.resolve (Path.ofKey p.key) = some p.key := hw.resolve_ofKey p.key_isName hz (by simp [hd])
  rcases hp.2 with hp' | hp'
  · rwa [← hp'] at hbase
  · by_cases hk : p.key = []
    · have hroot : p = Path.ofKey p.key := by
        rw [hk] at hp' ⊢
        rw [← Path.mk.injEq] at hp'
        exact hp'
      rwa [← hroot] at hbase
    · have hparts : p.components = (Path.ofKey p.key).components ++ [.here] := by
        have hh := Path.parts_concat_slash (spell p.key) []
        rw [← Path.ofKey_native_of_ne hk] at hh
        rw [Path.components, Path.parts, hp', ← Path.ofKey_native_of_ne hk]
        change List.map _ (Path.parts ⟨(Path.ofKey p.key).native ++ [slash]⟩) = _
        rw [hh, List.map_append]
        rfl
      rw [resolve, if_pos (Path.isAbsolute_ofKey _), Path.cString_ofKey hz] at hbase
      have hd' : DirTree.get fs.tree p.key = some .dir := hd
      rw [resolve, if_pos hp.isAbsolute, hp.cString_eq, hparts, walk_append, hbase]
      simp [walk, hd']

/-- A call that creates, moves or removes an entry by a name works on the entry of that name. -/
theorem FileSystem.locate_append {fs : FileSystem} {p : Path} {n : Bytes} {k : Key} (hp : p.Plain) (hn : slash ∉ n)
    (hne : n.takeWhile (· ≠ 0) ≠ []) (h : fs.locate (p / ⟨n⟩) = .ok k) :
    IsName (n.takeWhile (· ≠ 0)) ∧ k = p.key ++ [n.takeWhile (· ≠ 0)] := by
  have hn' : slash ∉ n.takeWhile (· ≠ 0) := fun hm => hn ((List.takeWhile_prefix _).subset hm)
  obtain ⟨dirs, hleaf⟩ := Path.leaf_ofKey_concat p.key hne hn'
  have hname : IsName (n.takeWhile (· ≠ 0)) := by
    by_contra hnot
    rw [locate, hp.cString_append hn, hleaf] at h
    dsimp only at h
    rw [if_pos hnot] at h
    simp at h
  refine ⟨hname, ?_⟩
  rw [(locate_ok h).1, hp.key_cString_append hn, Path.classify_name hname]
  rfl

theorem Root.path_key (root : Root) : root.path.key = root.names := Path.key_ofKey root.isName

theorem Root.plain_path (root : Root) : root.path.Plain := Path.plain_ofKey root.isName root.noNul

theorem Path.Plain.root_le {root : Root} {p : Path} (hp : p.Plain) (h : p.startsWith root.path = true) :
    root.names.length ≤ p.key.length := by
  by_cases hr : root.names = []
  · simp [hr]
  · obtain ⟨tl, htl, hn⟩ := hp.native_eq
    rw [Path.startsWith, List.isPrefixOf_iff_prefix, hn, Root.path, Path.ofKey_native_of_ne hr] at h
    rcases Path.prefix_or_beside root.isName p.key_isName htl h with hin | ⟨par, x, ext, rest, -, hroot, hkey⟩
    · exact hin.length_le
    · rw [hroot, hkey]
      simp

namespace ServerContext

variable {srv : ServerContext} {p : Path}

/-- A plain spelling of a location that is not in the configuration directory. -/
def Proper (srv : ServerContext) (p : Path) : Prop := p.Plain ∧ ¬ srv.configKey <+: p.key

theorem proper_root (srv : ServerContext) : srv.Proper srv.root.path := by
  refine ⟨srv.root.plain_path, ?_⟩
  rw [Root.path_key, configKey]
  intro h
  have hlen := h.length_le
  rw [List.length_append, List.length_singleton] at hlen
  omega

theorem proper_of_startsWith (hp : p.Plain) (h : p.startsWith srv.configDirectory = false) : srv.Proper p := by
  refine ⟨hp, fun hpre => ?_⟩
  have hstart : srv.configDirectory.native <+: p.native := by
    rw [configDirectory_eq]
    exact (Path.ofKey_prefix_ofKey hpre).trans hp.ofKey_prefix_native
  rw [← List.isPrefixOf_iff_prefix, ← Path.startsWith, h] at hstart
  exact Bool.false_ne_true hstart

end ServerContext

def pathCommands : List Bytes := [ascii "cd", ascii "ls", ascii "tree", ascii "cp", ascii "mv"]

/-- The path field of a request is spelled plainly: an absolute one gives a plain path behind the
root, a relative one is without NUL. -/
def PlainField (srv : ServerContext) (fields : List Field) : Prop :=
  ∀ field v, findField fields (ascii "path") = some field → field.getString = some v →
    if (Path.mk v).isAbsolute then (srv.root.path.concat ⟨v⟩).Plain else (0 : Byte) ∉ v

variable {srv : ServerContext} {fs : FileSystem} {c : ClientContext} {fields : List Field} {p : Path}

theorem PlainField.of_absolute {v : Bytes} (hfield : findField fields (ascii "path") = some ⟨ascii "path", .string v⟩)
    (ha : (Path.mk v).isAbsolute = true) (h : (srv.root.path.concat ⟨v⟩).Plain) : PlainField srv fields := by
  intro field w hf hw
  obtain rfl := Option.some.inj (hfield.symm.trans hf)
  obtain rfl : v = w := Option.some.inj hw
  rwa [if_pos ha]

theorem parseFields_proper (hplain : PlainField srv fields) (hcur : ∀ cur ∈ c.currentPathLock, cur.Plain)
    (h : parseFields srv fs c fields = .ok (some p)) :
    srv.Proper p ∧ fs.get p.key = some .dir ∧ srv.root.names.length ≤ p.key.length := by
  obtain ⟨field, v, hfield, hv, hfinal, hforbidden, -, hdir⟩ := parseFields_some h
  have hv' := hplain field v hfield hv
  have hp : p.Plain ∧ p.startsWith srv.root.path = true := by
    unfold finalPath at hfinal
    by_cases ha : (Path.mk v).isAbsolute = true
    · simp only [ha, if_true, Except.ok.injEq] at hfinal hv'
      refine ⟨hfinal ▸ hv', ?_⟩
      rw [← hfinal, Path.startsWith, List.isPrefixOf_iff_prefix]
      exact List.prefix_append _ _
    · simp only [ha, if_false, Bool.false_eq_true] at hfinal hv'
      obtain ⟨cur, hc, hfinal⟩ := bind_eq_ok.mp hfinal
      have hc' : c.currentPathLock = some cur := getCurrentPath_ok hc
      have hplaincur := hcur cur hc'
      have hz : (0 : Byte) ∉ (cur / ⟨v⟩ : Path).native := by
        intro hm
        rcases Path.mem_native_append hm with hm | hm | hm
        · exact hplaincur.1 hm
        · exact absurd hm (by decide)
        · exact hv' hm
      split at hfinal
      · obtain rfl := Except.ok.inj hfinal
        exact ⟨srv.root.plain_path, by simp [Path.startsWith]⟩
      · rename_i hstart
        obtain rfl := Except.ok.inj hfinal
        exact ⟨Path.plain_lexicallyNormal (Path.isAbsolute_append _ hplaincur.isAbsolute) hz, by simpa using hstart⟩
  refine ⟨ServerContext.proper_of_startsWith hp.1 hforbidden, ?_, hp.1.root_le hp.2⟩
  have hg := isDirectory_get hdir
  rwa [hp.1.cString_eq] at hg

end TinDox
