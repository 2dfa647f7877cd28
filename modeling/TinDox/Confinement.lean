import TinDox.Plain
import TinDox.Server

/-! Root confinement: when the path fields of the requests stay inside of the root, every
directory a client reaches does. An absolute path leaves the root by climbing above it, and a
relative one by entering a directory beside the root whose name only begins like the root's. -/

namespace TinDox

open Lexical PathBasedCommand

/-- The normal form of the path is the root or lies below it. -/
def Inside (root : Root) (p : Path) : Prop := p.isAbsolute = true ∧ root.names <+: p.lexicallyNormal.key

instance (root : Root) (p : Path) : Decidable (Inside root p) := inferInstanceAs (Decidable (_ ∧ _))

theorem Root.isAbsolute_path (root : Root) : root.path.isAbsolute = true := Path.isAbsolute_ofKey root.names

theorem inside_iff {root : Root} {p : Path} (hp : p.isAbsolute = true) :
    Inside root p ↔ root.names <+: p.key := by
  simp [Inside, hp, Path.key_lexicallyNormal hp]

theorem inside_root (root : Root) : Inside root root.path := by
  rw [inside_iff root.isAbsolute_path, root.path_key]

/-- The path field of a request does not leave the root. After its climbs are cancelled, an
absolute path has to name again what it climbs out of; a relative one must not end beside the
root. -/
def PathStays (srv : ServerContext) (c : ClientContext) (fields : List Field) : Prop :=
  ∀ field v, findField fields (ascii "path") = some field → field.getString = some v →
    let root := srv.root.names
    let cs := (Path.mk v).components
    if (Path.mk v).isAbsolute then root.drop (root.length - (net cs).ups) <+: (net cs).names
    else ∀ cur, c.currentPathLock = some cur → ¬ Path.Beside root (follow cur.key cs)

variable {srv : ServerContext} {fs : FileSystem} {c : ClientContext} {fields : List Field} {p : Path}

theorem parseFields_inside_iff (hcur : ∀ cur, c.currentPathLock = some cur → Inside srv.root cur)
    (h : parseFields srv fs c fields = .ok (some p)) : Inside srv.root p ↔ PathStays srv c fields := by
  obtain ⟨field, v, hfield, hv, hfinal, -⟩ := parseFields_some h
  have hstays : PathStays srv c fields ↔
      if (Path.mk v).isAbsolute then
        srv.root.names.drop (srv.root.names.length - (net (Path.mk v).components).ups) <+:
          (net (Path.mk v).components).names
      else ∀ cur, c.currentPathLock = some cur →
        ¬ Path.Beside srv.root.names (follow cur.key (Path.mk v).components) := by
    constructor
    · exact fun hh => hh field v hfield hv
    · intro hh field' v' hfield' hv'
      obtain rfl : field = field' := by simpa [hfield] using hfield'
      obtain rfl : v = v' := by simpa [hv] using hv'
      exact hh
  rw [hstays]
  unfold finalPath at hfinal
  by_cases hv' : (Path.mk v).isAbsolute = true
  · simp only [hv', if_true, Except.ok.injEq] at hfinal ⊢
    subst p
    rw [inside_iff (Path.isAbsolute_concat _ srv.root.isAbsolute_path), Path.key_concat hv', srv.root.path_key]
    exact prefix_follow_iff srv.root.names _
  · simp only [hv', if_false, Bool.false_eq_true] at hfinal ⊢
    obtain ⟨cur, hc, hfinal⟩ := bind_eq_ok.mp hfinal
    have hc' : c.currentPathLock = some cur := getCurrentPath_ok hc
    have habs := Path.isAbsolute_append ⟨v⟩ (hcur cur hc').1
    have hkey : (cur / ⟨v⟩ : Path).key = follow cur.key (Path.mk v).components :=
      Path.key_append (by simpa using hv')
    have hgoal : (∀ cur', c.currentPathLock = some cur' →
        ¬ Path.Beside srv.root.names (follow cur'.key (Path.mk v).components)) ↔
        ¬ Path.Beside srv.root.names (cur / ⟨v⟩ : Path).key := by
      simp [hc', hkey]
    rw [hgoal]
    by_cases hs : (cur / ⟨v⟩ : Path).lexicallyNormal.startsWith srv.root.path = true
    · simp only [hs, not_true_eq_false, if_false, Except.ok.injEq] at hfinal
      subst p
      have habs' := Path.isAbsolute_lexicallyNormal habs
      rw [inside_iff habs', Path.key_lexicallyNormal habs]
      constructor
      · exact fun hin hb => hb.not_inside hin
      · intro hb
        by_cases hr : srv.root.names = []
        · simp [hr]
        · obtain ⟨tl, htl, hn⟩ := Path.lexicallyNormal_native habs
          rw [Path.startsWith, List.isPrefixOf_iff_prefix, hn, Root.path, Path.ofKey_native_of_ne hr] at hs
          exact (Path.prefix_or_beside srv.root.isName (Path.key_isName _) htl hs).resolve_right hb
    · simp only [hs, not_false_eq_true, if_true, Except.ok.injEq, Bool.false_eq_true] at hfinal
      subst p
      exact ⟨fun _ hb => hs (hb.startsWith habs), fun _ => inside_root srv.root⟩

/-- The path fields of the requests for such commands stay inside of the root. -/
def Stays (srv : ServerContext) (S : Server) : Action → Prop
  | .request fd r _ _ => r.name ∈ pathCommands → ∀ s, S.lookup fd = some s → PathStays srv s.context r.fields
  | _ => True

/-- The current directory of every client is inside of the root. -/
def Confined (srv : ServerContext) (S : Server) : Prop :=
  ∀ e ∈ S.sessions, ∀ cur ∈ e.2.context.currentPathLock, Inside srv.root cur

instance (srv : ServerContext) (S : Server) : Decidable (Confined srv S) :=
  inferInstanceAs (Decidable (∀ e ∈ S.sessions, ∀ cur ∈ e.2.context.currentPathLock, Inside srv.root cur))

theorem Effect.currentPathLock {around : Surroundings} {s s' : Session} {r : Request} {fs' : FileSystem}
    (h : Effect srv around fs s r fs' s') :
    s'.context.currentPathLock = s.context.currentPathLock ∨
    s'.context.currentPathLock = some srv.root.path ∨
    r.name = ascii "cd" ∧ ∃ path, parseFields srv fs s.context r.fields = .ok (some path) ∧
      s'.context.currentPathLock = some path := by
  cases h with
  | none | flags | logout | cp | mkdir | mv | rename | rm | dl | dls | unbacked | ul => exact .inl rfl
  | login _ _ hlock =>
    rcases hlock with rfl | ⟨rfl, -⟩
    · exact .inl rfl
    · exact .inr (.inl rfl)
  | cd hname hp => exact .inr (.inr ⟨hname, _, hp, rfl⟩)

/-- What holds of the root and of every directory that `cd` accepts holds of the current directories. -/
theorem Server.Transition.forall_current {P : Path → Prop} {S S' : Server} {a : Action}
    (hstep : Server.Transition srv S a S') (hS : ∀ e ∈ S.sessions, ∀ cur ∈ e.2.context.currentPathLock, P cur)
    (hroot : P srv.root.path)
    (hcd : ∀ fd r available lastWriteTime s p, a = .request fd r available lastWriteTime → S.lookup fd = some s →
      r.name = ascii "cd" → parseFields srv S.fs s.context r.fields = .ok (some p) → P p) :
    ∀ e ∈ S'.sessions, ∀ cur ∈ e.2.context.currentPathLock, P cur := by
  refine hstep.forall_sessions (I := fun _ s => ∀ cur ∈ s.context.currentPathLock, P cur) hS
    (by simp [Session.new, ClientContext.new]) (fun _ s h => s.currentPathLock_kill ▸ h) ?_ (fun _ _ _ _ => hS)
  intro fd s fs' s' found hacts
  refine ⟨?_, hS⟩
  have hs : ∀ cur ∈ s.context.currentPathLock, P cur := hS _ (Server.mem_of_lookup found)
  cases hacts with
  | request mode effect =>
    intro cur hcur
    rcases effect.currentPathLock with h | h | ⟨hname, path, hp, h⟩
    · exact hs cur (h ▸ hcur)
    · have hcurrent : srv.root.path = cur := Option.some.inj (h.symm.trans hcur)
      exact hcurrent ▸ hroot
    · have hpath : path = cur := Option.some.inj (h.symm.trans hcur)
      exact hpath ▸ hcd _ _ _ _ s path rfl found hname hp
  | chunk mode handled =>
    obtain ⟨-, mode', rfl⟩ := Session.handleUpload_cases handled
    exact hs
  | send mode handled =>
    obtain ⟨mode', rfl⟩ := Session.handleDownloadManagerOutput_cases handled
    exact hs

/-- One action keeps the clients inside of the root. -/
theorem Confined.transition {S S' : Server} {a : Action} (hin : Confined srv S) (ha : Stays srv S a)
    (hstep : Server.Transition srv S a S') : Confined srv S' := by
  refine hstep.forall_current hin (inside_root srv.root) ?_
  rintro fd r available lastWriteTime s p rfl found hname hp
  have hs : ∀ cur ∈ s.context.currentPathLock, Inside srv.root cur := hin _ (Server.mem_of_lookup found)
  exact (parseFields_inside_iff hs hp).mpr (ha (by simp [hname, pathCommands]) _ found)

/-- Along a run whose path fields stay inside of the root, so do all current directories, and
the next accepted path is inside exactly when its field stays there. -/
theorem confined_of_stays {S : Server} (h : Runs.Reaches (Server.step srv) (Stays srv) (Server.start fs) S) :
    Confined srv S ∧ ∀ e ∈ S.sessions, ∀ fields p,
      parseFields srv S.fs e.2.context fields = .ok (some p) →
        (Inside srv.root p ↔ PathStays srv e.2.context fields) := by
  have hin : Confined srv S := h.invariant (by simp [Confined, Server.start])
    (fun S a hS ha => hS.transition ha (Server.step_transition srv S a))
  exact ⟨hin, fun e he fields p hp => parseFields_inside_iff (hin e he) hp⟩

namespace Sample

def files : FileSystem := ⟨tree [([ascii "r", ascii "a"], .dir), ([ascii "r2"], .dir)], []⟩

end Sample

theorem confined_of_stays_a :
    let S := Runs.run (Server.step Sample.server) (.start Sample.files)
      (Sample.loggedIn 0 "u" [Sample.request 0 "cd" [Sample.string "path" "/a"]])
    Confined Sample.server S ∧ ∀ e ∈ S.sessions, ∀ fields p,
      parseFields Sample.server S.fs e.2.context fields = .ok (some p) →
        (Inside Sample.server.root p ↔ PathStays Sample.server e.2.context fields) := by
  refine confined_of_stays (Runs.AllMeet.reaches
    ⟨trivial, fun h => absurd h (by decide), fun _ s _ field v hf hv => ?_, trivial⟩)
  have hfield : findField [Sample.string "path" "/a"] (ascii "path") = some (Sample.string "path" "/a") := by
    decide
  obtain rfl : Sample.string "path" "/a" = field := Option.some.inj (hfield.symm.trans hf)
  obtain rfl : ascii "/a" = v := Option.some.inj hv
  rw [if_pos (by decide)]
  decide

/-- `/..` is appended to the root as it is, and `../r2` begins like the root `/r`. -/
theorem cd_leaves_root :
    ¬ Confined Sample.server (Runs.run (Server.step Sample.server) (.start Sample.files)
      (Sample.loggedIn 0 "u" [Sample.request 0 "cd" [Sample.string "path" "/.."]])) ∧
    ¬ Confined Sample.server (Runs.run (Server.step Sample.server) (.start Sample.files)
      (Sample.loggedIn 0 "u" [Sample.request 0 "cd" [Sample.string "path" "../r2"]])) := by
  decide

end TinDox
