import TinDox.AnswerCodes
import TinDox.Changes
import TinDox.PartialFiles

/-! The visible file system over whole runs. The changes that requests make when they are carried out and
uploads make when they are completed, one after the other, give what clients see at the end. -/

namespace TinDox

open DirTree FileSystem Storage

variable {srv : ServerContext} {around : Surroundings} {fs fs' : FileSystem} {s s' : Session} {r : Request}

/-- The last chunk of an upload puts the file at its target. -/
def UploadManager.change (fs : FileSystem) (m : UploadManager) (bytes : Bytes) : FileChange :=
  match m.token, m.file, (m.commitBytes fs bytes).2.2 with
  | some token, some i, .ok _ =>
    if (advance token bytes).offset = token.size then
      .put token.path.cString.key (.file (fs.contents i ++ bytes.take (taken token bytes)))
    else .keep
  | _, _, _ => .keep

theorem UploadManager.change_error {m : UploadManager} {bytes : Bytes} {e : Exception} (h : (m.commitBytes fs bytes).2.2 = .error e) :
    m.change fs bytes = .keep := by
  rw [UploadManager.change, h]
  cases m.token with
  | none => rfl
  | some token => cases m.file <;> rfl

theorem UploadManager.change_ok {m : UploadManager} {bytes rest : Bytes} {token : UploadToken} {i : Nat} (ht : m.token = some token)
    (hf : m.file = some i) (h : (m.commitBytes fs bytes).2.2 = .ok rest) :
    m.change fs bytes = if (advance token bytes).offset = token.size then
      .put token.path.cString.key (.file (fs.contents i ++ bytes.take (taken token bytes))) else .keep := by
  rw [UploadManager.change, ht, hf, h]

/-- The partial file leaves the configuration directory for the target. -/
theorem UploadManager.finished_seen {b : Bytes} {i : Nat} {target : Path} {stem : Bytes} (hw : fs.WellFormed)
    (hpart : fs.get (srv.partialKey stem) = some (.file i)) (hu : srv.HasUser stem)
    (htarget : ¬ srv.configKey <+: target.cString.key) (hr : (fs.write i b).rename (srv.getPartialFilePath stem) target = .ok fs')
    (hwritten : SameOutside srv.configKey (fs.write i b).view fs.view) :
    SameOutside srv.configKey fs'.view (Change.apply (.put target.cString.key (.file (fs.contents i ++ b))) fs.view) := by
  intro k hk
  show fs'.view k = if k = target.cString.key then some (.file (fs.contents i ++ b)) else fs.view k
  have hunder : srv.configKey <+: srv.partialKey stem := List.prefix_append _ _
  obtain ⟨-, ⟨-, hsame⟩ | hmoves⟩ := (hw.write i b).rename hr
  · rw [srv.getPartialFilePath_key hu.isUsernameOk] at hsame
    exact absurd (hsame ▸ hunder) htarget
  · rw [srv.getPartialFilePath_key hu.isUsernameOk] at hmoves
    have hsource : ¬ srv.partialKey stem <+: k := fun h => hk (hunder.trans h)
    rw [hmoves.view_eq]
    by_cases hat : k = target.cString.key
    · subst hat
      rw [if_pos (List.prefix_refl _), if_pos rfl, List.drop_length, List.append_nil, hw.view_write hpart, if_pos rfl]
    · rw [if_neg hat]
      by_cases hbelow : target.cString.key <+: k
      · -- nothing stands below the target, neither before nor after
        obtain ⟨rest, rfl⟩ := hbelow
        have hrest : rest ≠ [] := by
          rintro rfl
          exact hat (List.append_nil _)
        have htaken : fs.get (target.cString.key ++ rest) = none := hmoves.empty rest hrest
        have hmoved : (fs.write i b).get (srv.partialKey stem ++ rest) = none := by
          rw [get_write]
          by_contra hsome
          have hdir := hw.closed.ancestor hrest (Option.isSome_iff_ne_none.mpr hsome)
          cases hpart.symm.trans hdir
        rw [if_pos (List.prefix_append _ _), List.drop_left, view_eq_none.mpr hmoved, view_eq_none.mpr htaken]
      · rw [if_neg hbelow, if_neg hsource]
        exact hwritten k hk

/-- What is seen after a chunk. -/
theorem Session.WritesPartial.change_seen {bytes : Bytes} {result : Except Exception Bytes} (hp : s.WritesPartial srv fs)
    (h : s.handleUpload fs bytes = (fs', s', result)) (hw : fs.WellFormed) (hown : s.OwnUpload srv)
    (huser : ∀ u, s.username = some u → srv.HasUser u)
    (htarget : ∀ token ∈ s.uploadManager.token, ¬ srv.configKey <+: token.path.cString.key) :
    SameOutside srv.configKey fs'.view ((s.uploadManager.change fs bytes).apply fs.view) := by
  obtain ⟨rfl, mode, rfl⟩ := Session.handleUpload_cases h
  have hwritten : ∀ token i, s.uploadManager.token = some token → s.uploadManager.file = some i →
      SameOutside srv.configKey (fs.write i (bytes.take (UploadManager.taken token bytes))).view fs.view := by
    intro token i ht hf k hk
    apply view_write_of_ne
    intro hget
    obtain ⟨token', -, hpart⟩ := hp.file i hf
    rw [hw.unique _ _ _ hget hpart] at hk
    exact hk (List.prefix_append _ _)
  rcases UploadManager.commitBytes_cases fs s.uploadManager bytes with
    ⟨-, hc⟩ | ⟨token, i, ht, hf, ⟨hmore, hc⟩ | ⟨hdone, ⟨fs₁, hr, hc⟩ | ⟨e, -, hc⟩⟩⟩
  · rw [UploadManager.change_error (by rw [hc]), hc]
    exact .refl _ _
  · rw [UploadManager.change_ok ht hf (by rw [hc]), if_neg hmore, hc]
    exact hwritten token i ht hf
  · rw [UploadManager.change_ok ht hf (by rw [hc]), if_pos hdone, hc]
    obtain ⟨token', ht', hpart⟩ := hp.file i hf
    obtain rfl : token = token' := Option.some.inj (ht.symm.trans ht')
    rw [(hown token ht).2.2] at hr
    exact UploadManager.finished_seen hw hpart (huser _ (hown token ht).2.1) (htarget token ht) hr (hwritten token i ht hf)
  · rw [UploadManager.change_error (by rw [hc]), hc]
    exact hwritten token i ht hf

namespace Server

variable {S : Server} {a : Action}

/-- What an action does to what clients see. -/
def change (srv : ServerContext) (S : Server) : Action → FileChange
  | .request fd r available lastWriteTime =>
    match S.lookup fd with
    | none => .keep
    | some s => if s.context.mode = .command then s.change srv (S.surroundings available lastWriteTime) S.fs r else .keep
  | .chunk fd bytes =>
    match S.lookup fd with
    | none => .keep
    | some s => if s.context.mode = .upload then s.uploadManager.change S.fs bytes else .keep
  | _ => .keep

/-- Connections that come and go, and what is sent to them, leave alone what clients see. -/
theorem Transition.quiet {S' : Server} (h : Transition srv S a S') (hS : Sane srv S)
    (hrequest : ∀ fd r available lastWriteTime, a ≠ .request fd r available lastWriteTime)
    (hchunk : ∀ fd bytes, a ≠ .chunk fd bytes) : SameOutside srv.configKey S'.fs.view S.fs.view := by
  cases h with
  | idle | connect _ => exact .refl _ _
  | acts _ acts fatal =>
    cases acts with
    | request mode effect => exact absurd rfl (hrequest _ _ _ _)
    | chunk mode handled => exact absurd rfl (hchunk _ _)
    | send mode handled => exact .refl _ _
  | disconnect action found => exact ((hS.lookup found).manager.destroy hS.wellFormed).sameOutside

theorem change_seen (hS : ConfigClear srv S) (hown : ∀ e ∈ S.sessions, e.2.OwnUpload srv)
    (hp : ∀ e ∈ S.sessions, e.2.WritesPartial srv S.fs) (a : Action) :
    SameOutside srv.configKey (step srv S a).fs.view ((change srv S a).apply S.fs.view) := by
  cases a with
  | request fd r available lastWriteTime =>
    cases found : S.lookup fd with
    | none => simpa only [step, change, found] using .refl _ _
    | some s =>
      by_cases hm : s.context.mode = .command
      · simp only [step, change, found, if_pos hm]
        have hcur := (hS.sessions _ (mem_of_lookup found)).current
        exact Session.change_seen hm hS.sane.wellFormed (hS.sane.lookup found) fun cur h => (hcur cur h).1
      · simpa only [step, change, found, if_neg hm] using .refl _ _
  | chunk fd bytes =>
    cases found : S.lookup fd with
    | none => simpa only [step, change, found] using .refl _ _
    | some s =>
      by_cases hm : s.context.mode = .upload
      · simp only [step, change, found, if_pos hm]
        have hmem := mem_of_lookup found
        rcases handled : s.handleUpload S.fs bytes with ⟨fs', s', result⟩
        have hseen := (hp _ hmem).change_seen handled hS.sane.wellFormed (hown _ hmem) (fun u hu => hS.sane.hasUser hmem hu)
          fun token ht => ((hS.sessions _ hmem).upload token ht).2
        cases result <;> exact hseen
      · simpa only [step, change, found, if_neg hm] using .refl _ _
  | connect fd => exact (step_transition srv S _).quiet hS.sane (by simp) (by simp)
  | send fd room => exact (step_transition srv S _).quiet hS.sane (by simp) (by simp)
  | disconnect fd => exact (step_transition srv S _).quiet hS.sane (by simp) (by simp)

end Server

/-- A move that a request makes is asked for by the request. -/
theorem Session.change_move {o n : Key} (h : s.change srv around fs r = .move o n) :
    ∃ old new, Relocates srv fs s.context r old new ∧ o = old.cString.key := by
  unfold Session.change at h
  cases hset : CommandExecutor.setCommand s.context r.name with
  | error e =>
    rw [hset] at h
    cases h
  | ok commandName =>
    obtain ⟨hname, -⟩ := CommandExecutor.setCommand_ok hset
    rw [hset] at h
    simp only at h
    split at h
    · rename_i command cur hparse hcur
      obtain rfl := CommandExecutor.parseFields_commandName hparse
      split at h
      · cases command with
        | mv path filename =>
          obtain ⟨⟨p, f⟩, hfields, he⟩ := map_eq_ok.mp hparse
          cases he
          cases h
          exact ⟨_, _, .mv hcur hname hfields, rfl⟩
        | rename oname nname =>
          simp only [Command.change] at h
          split at h
          · cases h
          · cases h
            exact ⟨_, _, .rename hcur hname hparse, rfl⟩
        | cp path filename =>
          simp only [Command.change] at h
          split at h <;> cases h
        | rm filename =>
          simp only [Command.change, FileSystem.removal] at h
          split at h
          · split at h <;> cases h
          · cases h
        | auth | bye | cd | dl | dls | exit | logout | ls | mkdir | name | perms | pwd | tree | ul => cases h
      · cases h
    · cases h

theorem Relocates.old_clear {c : ClientContext} {old new : Path} (hm : Relocates srv fs c r old new) (hc : ConfigRequest srv fs c r)
    (hcur : ∀ cur ∈ c.currentPathLock, srv.Proper cur) : Clear srv old := by
  have hold := ne_config_of_not_above (hc.moves _ _ hm)
  cases hm with
  | rename current _ parsed => exact clear_append (hcur _ current) (Rename.parseFields_ok parsed).1 hold
  | mv current _ parsed =>
    obtain ⟨-, -, -, -, hs⟩ := TransportCommand.parseFields_ok parsed
    exact clear_append (hcur _ current) hs hold

theorem Session.change_apart (hc : ConfigRequest srv fs s.context r) (hcur : ∀ cur ∈ s.context.currentPathLock, srv.Proper cur) :
    (s.change srv around fs r).Apart srv.configKey := by
  cases h : s.change srv around fs r with
  | move o n =>
    obtain ⟨old, new, hm, rfl⟩ := Session.change_move h
    exact ⟨(hm.old_clear hc hcur).2, hc.moves _ _ hm⟩
  | keep | put | drop | clear => trivial

theorem UploadManager.change_apart (fs : FileSystem) (m : UploadManager) (bytes : Bytes) (c : Key) :
    (m.change fs bytes).Apart c := by
  unfold UploadManager.change
  split
  · split <;> trivial
  · trivial

namespace Server

variable {S : Server} {a : Action}

theorem change_apart (hS : ConfigClear srv S) (ha : ConfigAction srv S a) : (change srv S a).Apart srv.configKey := by
  cases a with
  | request fd r available lastWriteTime =>
    cases found : S.lookup fd with
    | none => simp only [change, found, Change.Apart]
    | some s =>
      by_cases hm : s.context.mode = .command
      · simp only [change, found, if_pos hm]
        exact Session.change_apart (ha s found) (hS.sessions _ (mem_of_lookup found)).current
      · simp only [change, found, if_neg hm, Change.Apart]
  | chunk fd bytes =>
    cases found : S.lookup fd with
    | none => simp only [change, found, Change.Apart]
    | some s =>
      by_cases hm : s.context.mode = .upload
      · simp only [change, found, if_pos hm]
        exact UploadManager.change_apart _ _ _ _
      · simp only [change, found, if_neg hm, Change.Apart]
  | connect | send | disconnect => trivial

/-- The changes of a run, in the order in which they are made. -/
def changes (srv : ServerContext) : Server → List Action → List FileChange := Runs.matching (step srv) fun S a => [change srv S a]

/-- A state that is reached without going into the configuration directory, and what is seen in it. -/
structure Replays (srv : ServerContext) (fs : FileSystem) (S : Server) (v : Store Bytes (Node Bytes)) : Prop where
  clear : ConfigClear srv S
  reached : ∃ as, S = Runs.run (step srv) (start fs) as
  partials : ∀ e ∈ S.sessions, e.2.WritesPartial srv S.fs
  seen : SameOutside srv.configKey S.fs.view v

theorem Replays.step {v : Store Bytes (Node Bytes)} (hw : fs.WellFormed) (h : Replays srv fs S v) (ha : ConfigAction srv S a) :
    Replays srv fs (step srv S a) ((change srv S a).apply v) := by
  obtain ⟨as, hreached⟩ := h.reached
  have hisolated : Isolated srv S := hreached ▸ isolated_run srv hw as
  have htransition := step_transition srv S a
  refine ⟨h.clear.transition ha htransition, ⟨as ++ [a], ?_⟩, ?_, ?_⟩
  · rw [Runs.run_append, ← hreached]
    rfl
  · exact writesPartial_transition h.clear hisolated.separate hisolated.uploads h.partials ha htransition
  · have hseen := change_seen h.clear hisolated.uploads h.partials a
    exact hseen.trans (h.seen.apply (change_apart h.clear ha))

end Server

namespace Sample

end Sample

end TinDox
