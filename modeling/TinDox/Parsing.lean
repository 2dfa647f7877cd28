import TinDox.Commands

/-! What parsing guarantees: the command is the one that was named, an accepted name has no
separator, and an accepted path is a directory that is not forbidden. -/

namespace TinDox

theorem bind_eq_ok {ε α β : Type} {x : Except ε α} {f : α → Except ε β} {b : β} :
    (x >>= f) = .ok b ↔ ∃ a, x = .ok a ∧ f a = .ok b := by
  cases x <;> simp [bind, Except.bind]

theorem map_eq_ok {ε α β : Type} {x : Except ε α} {f : α → β} {b : β} :
    x.map f = .ok b ↔ ∃ a, x = .ok a ∧ f a = b := by
  cases x <;> simp [Except.map]

theorem getCurrentPath_ok {c : ClientContext} {cur : Path} (h : getCurrentPath c = .ok cur) :
    c.currentPathLock = some cur := by
  unfold getCurrentPath at h
  split at h
  · rename_i p hp
    rw [hp, Except.ok.inj h]
  · simp at h

def Command.commandName : Command → CommandName
  | .auth .. => .auth
  | .bye => .bye
  | .cd .. => .cd
  | .cp .. => .cp
  | .dl .. => .dl
  | .dls => .dls
  | .exit => .exit
  | .logout => .logout
  | .ls .. => .ls
  | .mkdir .. => .mkdir
  | .mv .. => .mv
  | .name => .name
  | .perms => .perms
  | .pwd => .pwd
  | .rename .. => .rename
  | .rm .. => .rm
  | .tree .. => .tree
  | .ul .. => .ul

theorem CommandName.ofBytes_eq {b : Bytes} {c : CommandName} (h : ofBytes b = some c) : b = c.toBytes := by
  have hh := List.find?_some h
  simpa [eq_comm] using hh

namespace CommandExecutor

variable {srv : ServerContext} {fs : FileSystem} {c : ClientContext} {fields : List Field}

theorem setCommand_ok {name : Bytes} {command : CommandName} (h : setCommand c name = .ok command) :
    name = command.toBytes ∧ (command.requiresAuthorization = true → c.authToken.isSome) := by
  unfold setCommand at h
  split at h
  · simp at h
  · rename_i command' hc
    by_cases ha : command'.requiresAuthorization = true ∧ ¬ c.isAuthorized = true
    · simp [ha] at h
    · rw [if_neg ha] at h
      have he : command' = command := by
        split at h
        · simpa using h
        · split at h
          · simp at h
          · simpa using h
      subst command'
      refine ⟨CommandName.ofBytes_eq hc, fun hr => ?_⟩
      by_contra hne
      exact ha ⟨hr, hne⟩

theorem parseFields_commandName {n : CommandName} {command : Command}
    (h : parseFields srv fs c fields n = .ok command) : command.commandName = n := by
  cases n
  case auth =>
    simp only [parseFields, Auth.parseFields, bind_eq_ok] at h
    obtain ⟨_, _, _, _, _, _, h⟩ := h
    cases h
    rfl
  case cd =>
    simp only [parseFields, Cd.parseFields, bind_eq_ok] at h
    obtain ⟨_, _, _, _, h⟩ := h
    cases h
    rfl
  case dl =>
    simp only [parseFields, Dl.parseFields, bind_eq_ok] at h
    obtain ⟨_, _, _, _, h⟩ := h
    cases h
    rfl
  case ls =>
    simp only [parseFields, Ls.parseFields, bind_eq_ok] at h
    obtain ⟨_, _, _, _, h⟩ := h
    cases h
    rfl
  case rename =>
    simp only [parseFields, Rename.parseFields, bind_eq_ok] at h
    obtain ⟨_, _, _, _, _, _, h⟩ := h
    cases h
    rfl
  case ul =>
    simp only [parseFields, Ul.parseFields, bind_eq_ok] at h
    obtain ⟨_, _, _, _, _, _, h⟩ := h
    cases h
    rfl
  all_goals
    simp only [parseFields, map_eq_ok, Except.ok.injEq] at h
    first
      | (subst h; rfl)
      | (obtain ⟨_, -, rfl⟩ := h; rfl)

end CommandExecutor

namespace PathBasedCommand

variable {srv : ServerContext} {fs : FileSystem} {c : ClientContext} {fields : List Field} {p : Path}

theorem isThere_error {e : Exception} (hp : p.isAbsolute = true) (h : isThere srv fs p = .error e) : e = .fatal := by
  have hforbidden : srv.isPathForbidden p = .ok (p.startsWith srv.configDirectory) := by
    simp [ServerContext.isPathForbidden, hp]
  simp only [isThere, hforbidden, bind, Except.bind] at h
  split at h
  · cases h
  · exact (FileSystem.fsExists_eq_error.mp h).2

theorem isThere_eq_ok {b : Bool} (h : isThere srv fs p = .ok b) :
    p.isAbsolute = true ∧ b = (! p.startsWith srv.configDirectory && fs.pathExists p) ∧
      (p.startsWith srv.configDirectory = false → fs.tooLong p = false) := by
  obtain ⟨forbidden, hforbidden, h⟩ := bind_eq_ok.mp h
  unfold ServerContext.isPathForbidden at hforbidden
  split at hforbidden
  · simp at hforbidden
  · rename_i habs
    obtain rfl := Except.ok.inj hforbidden
    refine ⟨by simpa using habs, ?_⟩
    cases hstart : p.startsWith srv.configDirectory with
    | true =>
      simp only [hstart, if_true] at h
      exact ⟨(Except.ok.inj h).symm, by simp⟩
    | false =>
      simp only [hstart, Bool.false_eq_true, if_false] at h
      obtain ⟨hlong, hexists⟩ := FileSystem.fsExists_eq_ok.mp h
      exact ⟨by simp [hexists], fun _ => hlong⟩

theorem parseFields_some (h : parseFields srv fs c fields = .ok (some p)) :
    ∃ field v, findField fields (ascii "path") = some field ∧ field.getString = some v ∧
      finalPath srv c ⟨v⟩ = .ok p ∧ p.startsWith srv.configDirectory = false ∧ fs.pathExists p = true ∧
      fs.isDirectory p = true := by
  unfold parseFields at h
  split at h
  · simp at h
  · rename_i field hfield
    obtain ⟨p', hp, he⟩ := map_eq_ok.mp h
    simp only [Option.some.injEq] at he
    subst p'
    unfold parsePath at hp
    split at hp
    · simp at hp
    · rename_i v hv
      simp only [bind_eq_ok] at hp
      obtain ⟨q, hq, found, hthere, hp⟩ := hp
      split at hp
      · simp at hp
      · rename_i hfound
        split at hp
        · simp at hp
        · rename_i hdir
          obtain rfl := Except.ok.inj hp
          obtain ⟨-, rfl, -⟩ := isThere_eq_ok hthere
          simp only [not_not, Bool.and_eq_true, Bool.not_eq_true'] at hfound
          exact ⟨field, v, hfield, hv, hq, hfound.1, hfound.2, by simpa using hdir⟩

end PathBasedCommand

theorem foldlM_invariant {ε α β : Type} {f : β → α → Except ε β} {l : List α} {b b' : β} {P : β → Prop}
    (h : l.foldlM f b = .ok b') (hb : P b) (hf : ∀ b a b', P b → f b a = .ok b' → P b') : P b' := by
  induction l generalizing b with
  | nil =>
    simp only [List.foldlM_nil, pure, Except.pure, Except.ok.injEq] at h
    exact h ▸ hb
  | cons a l ih =>
    rw [List.foldlM_cons, bind_eq_ok] at h
    obtain ⟨b₁, h₁, h⟩ := h
    exact ih h (hf b a b₁ hb h₁)

theorem require_ok {α : Type} {value : Option α} {message : Bytes} {x : α} (h : require value message = .ok x) :
    value = some x := by
  cases value with
  | none => simp [require] at h
  | some y => rw [Except.ok.inj h]

theorem parseNameField_ok {fieldName hint noun : Bytes} {current : Option Path} {field : Field} {name : Path}
    (h : parseNameField fieldName hint noun current field = .ok name) :
    field.getString = some name.native ∧ slash ∉ name.native := by
  unfold parseNameField at h
  split at h
  · simp at h
  · split at h
    · simp at h
    · rename_i v hv
      dsimp only at h
      split at h
      · simp at h
      · rename_i heq
        obtain rfl := Except.ok.inj h
        exact ⟨hv, (Path.equal_filename_iff _).mp (by simpa using heq)⟩

theorem parseExistingName_ok {fs : FileSystem} {c : ClientContext} {current : Option Path} {field : Field}
    {name : Path} (h : parseExistingName fs c current field = .ok name) :
    field.getString = some name.native ∧ slash ∉ name.native := by
  simp only [parseExistingName, bind_eq_ok] at h
  obtain ⟨name', hname, cur, -, found, -, h⟩ := h
  split at h
  · simp at h
  · obtain rfl := Except.ok.inj h
    exact parseNameField_ok hname

theorem parseSingleName_ok {fields : List Field} {name : Path} (h : parseSingleName fields = .ok name) :
    slash ∉ name.native := by
  simp only [parseSingleName, bind_eq_ok] at h
  obtain ⟨found, hfold, h⟩ := h
  refine foldlM_invariant (P := fun found => ∀ p ∈ found, slash ∉ p.native) hfold (by simp) ?_ name (require_ok h)
  intro found field found' hfound hstep
  split at hstep
  · obtain ⟨p, hp, rfl⟩ := map_eq_ok.mp hstep
    rintro _ ⟨⟩
    exact (parseNameField_ok hp).2
  · exact Except.ok.inj hstep ▸ hfound

theorem Rename.parseFields_ok {fields : List Field} {oname nname : Path}
    (h : Rename.parseFields fields = .ok (.rename oname nname)) : slash ∉ oname.native ∧ slash ∉ nname.native := by
  simp only [Rename.parseFields, bind_eq_ok] at h
  obtain ⟨⟨o, n⟩, hfold, o', ho, n', hn, h⟩ := h
  cases h
  have hall := foldlM_invariant
    (P := fun found : Option Path × Option Path => (∀ p ∈ found.1, slash ∉ p.native) ∧ ∀ p ∈ found.2, slash ∉ p.native)
    hfold (by simp) ?_
  · exact ⟨hall.1 _ (require_ok ho), hall.2 _ (require_ok hn)⟩
  · rintro ⟨o, n⟩ field found' hfound hstep
    dsimp only at hstep
    split at hstep
    · obtain ⟨p, hp, he⟩ := bind_eq_ok.mp hstep
      obtain rfl := Except.ok.inj he
      refine ⟨?_, hfound.2⟩
      rintro _ ⟨⟩
      exact (parseNameField_ok hp).2
    · split at hstep
      · obtain ⟨p, hp, he⟩ := bind_eq_ok.mp hstep
        obtain rfl := Except.ok.inj he
        refine ⟨hfound.1, ?_⟩
        rintro _ ⟨⟩
        exact (parseNameField_ok hp).2
      · exact Except.ok.inj hstep ▸ hfound

theorem Dl.parseFields_ok {fs : FileSystem} {c : ClientContext} {fields : List Field} {name : Path} {offset : Nat}
    (h : Dl.parseFields fs c fields = .ok (.dl name offset)) : slash ∉ name.native := by
  simp only [Dl.parseFields, bind_eq_ok] at h
  obtain ⟨⟨found, offset'⟩, hfold, name', hname, h⟩ := h
  cases h
  refine foldlM_invariant (P := fun found : Option Path × Nat => ∀ p ∈ found.1, slash ∉ p.native) hfold (by simp) ?_
    name (require_ok hname)
  rintro ⟨found, offset⟩ field found' hfound hstep
  dsimp only at hstep
  split at hstep
  · obtain ⟨p, hp, he⟩ := bind_eq_ok.mp hstep
    obtain rfl := Except.ok.inj he
    rintro _ ⟨⟩
    exact (parseExistingName_ok hp).2
  · split at hstep
    · obtain ⟨n, -, he⟩ := bind_eq_ok.mp hstep
      exact Except.ok.inj he ▸ hfound
    · exact Except.ok.inj hstep ▸ hfound

theorem Ul.parseFields_ok {fields : List Field} {name : Path} {size : Nat} {retry : Bool}
    (h : Ul.parseFields fields = .ok (.ul name size retry)) : slash ∉ name.native := by
  simp only [Ul.parseFields, bind_eq_ok] at h
  obtain ⟨parsed, hfold, name', hname, size', -, h⟩ := h
  cases h
  refine foldlM_invariant (P := fun parsed : Ul.Fields => ∀ p ∈ parsed.name, slash ∉ p.native) hfold (by simp) ?_
    name (require_ok hname)
  intro parsed field parsed' hparsed hstep
  unfold Ul.parseField at hstep
  split at hstep
  · obtain ⟨p, hp, he⟩ := bind_eq_ok.mp hstep
    obtain rfl := Except.ok.inj he
    rintro _ ⟨⟩
    exact (parseNameField_ok hp).2
  · split at hstep
    · obtain ⟨n, -, he⟩ := bind_eq_ok.mp hstep
      exact Except.ok.inj he ▸ hparsed
    · split at hstep
      · obtain ⟨b, -, he⟩ := bind_eq_ok.mp hstep
        exact Except.ok.inj he ▸ hparsed
      · exact Except.ok.inj hstep ▸ hparsed

theorem TransportCommand.parseFields_ok {srv : ServerContext} {fs : FileSystem} {c : ClientContext}
    {fields : List Field} {path name : Path} (h : TransportCommand.parseFields srv fs c fields = .ok (path, name)) :
    PathBasedCommand.parseFields srv fs c fields = .ok (some path) ∧
    ∃ field, findField fields (ascii "name") = some field ∧ field.getString = some name.native ∧
      slash ∉ name.native := by
  obtain ⟨path', hpath, h⟩ := bind_eq_ok.mp h
  cases hf : findField fields (ascii "name") with
  | none => simp [hf, bind_eq_ok, require] at h
  | some field =>
    simp only [hf, bind_eq_ok, map_eq_ok] at h
    obtain ⟨-, ⟨p, hp, rfl⟩, name', hreq, path'', hreq', he⟩ := h
    obtain rfl := Option.some.inj (require_ok hreq)
    obtain rfl := require_ok hreq'
    cases he
    exact ⟨hpath, field, rfl, parseExistingName_ok hp⟩

/-- The target is a directory, and the name stays in it. -/
theorem TransportCommand.parseFields_target {srv : ServerContext} {fs : FileSystem} {c : ClientContext}
    {fields : List Field} {path name : Path} (h : TransportCommand.parseFields srv fs c fields = .ok (path, name)) :
    fs.isDirectory path = true ∧ slash ∉ name.native := by
  obtain ⟨hpath, -, -, -, hs⟩ := parseFields_ok h
  obtain ⟨-, -, -, -, -, -, -, hdir⟩ := PathBasedCommand.parseFields_some hpath
  exact ⟨hdir, hs⟩

end TinDox
