import TinDox.Edits

/-! Only `rm` destroys: whatever stands outside of the configuration directory survives every
other action, in its place or moved by `rename` and `mv`. The exception is an upload, which is
checked when it is accepted and moved to its target much later. -/

namespace TinDox

open DirTree FileSystem

variable {srv : ServerContext} {fs fs' : FileSystem} {k : Key} {x : Node Bytes}

/-- No entry outside of the configuration directory stands for the file with this inode. -/
def Hidden (srv : ServerContext) (fs : FileSystem) (i : Nat) : Prop :=
  ∀ e ∈ fs.tree, fs.get e.1 = some (.file i) → srv.configKey <+: e.1

instance (srv : ServerContext) (fs : FileSystem) (i : Nat) : Decidable (Hidden srv fs i) :=
  inferInstanceAs (Decidable (∀ e ∈ fs.tree, _ → _))

theorem Hidden.get_ne {i : Nat} (h : Hidden srv fs i) (hk : ¬ srv.configKey <+: k) : fs.get k ≠ some (.file i) := by
  intro hg
  by_cases hnil : k = []
  · simp [hnil] at hg
  · obtain ⟨e, he, rfl⟩ := (get_isSome_iff hnil).mp (show (fs.get k).isSome by simp [hg])
    exact hk (h e he hg)

/-- No file outside of the configuration directory stands at the location. -/
def Vacant (srv : ServerContext) (fs : FileSystem) (k : Key) : Prop :=
  ∀ i ∈ fs.inode k, srv.configKey <+: k

instance (srv : ServerContext) (fs : FileSystem) (k : Key) : Decidable (Vacant srv fs k) :=
  inferInstanceAs (Decidable (∀ i ∈ fs.inode k, _))

/-- The condition on a chunk: its bytes go to a file that nobody else sees, and if it completes
the upload, no file has appeared at the target. -/
def SafeChunk (srv : ServerContext) (S : Server) : Action → Prop
  | .chunk fd bytes => ∀ s ∈ S.lookup fd, ∀ token ∈ s.uploadManager.token, ∀ i ∈ s.uploadManager.file,
      Hidden srv S.fs i ∧
        ((UploadManager.advance token bytes).offset = token.size → Vacant srv S.fs token.path.cString.key)
  | _ => True

instance (srv : ServerContext) (S : Server) (a : Action) : Decidable (SafeChunk srv S a) :=
  match a with
  | .chunk _ _ => inferInstanceAs (Decidable (∀ s ∈ _, ∀ token ∈ _, ∀ i ∈ _, _ ∧ (_ → _)))
  | .connect _ | .request _ _ _ _ | .send _ _ | .disconnect _ => .isTrue trivial

def Action.IsRm : Action → Prop
  | .request _ r _ _ => r.name = ascii "rm"
  | _ => False

/-- What is seen at a location is still there, or where the request has moved it. -/
def Survives (srv : ServerContext) (S : Server) (a : Action) (fs' : FileSystem) (k : Key) (x : Node Bytes) : Prop :=
  fs'.view k = some x ∨
  ∃ fd s r available lastWriteTime old new rest, a = .request fd r available lastWriteTime ∧
    S.lookup fd = some s ∧ Relocates srv S.fs s.context r old new ∧ k = old.cString.key ++ rest ∧
    fs'.view (new.cString.key ++ rest) = some x

theorem view_moved (hw : fs.WellFormed) {o n : Key} (hm : Moves fs fs' o n) (hf : fs.get n = none)
    (h : fs.view k = some x) : fs'.view k = some x ∨ ∃ rest, k = o ++ rest ∧ fs'.view (n ++ rest) = some x := by
  have hnk : ¬ n <+: k := fun hh => view_isSome h (hw.closed.none_of_above hf hh)
  by_cases hok : o <+: k
  · obtain ⟨rest, rfl⟩ := hok
    exact .inr ⟨rest, rfl, by simpa [hm.view_eq] using h⟩
  · exact .inl (by rw [hm.view_eq, if_neg hnk, if_neg hok, h])

theorem Edit.survives {around : Surroundings} {c : ClientContext} {r : Request} (hw : fs.WellFormed)
    (h : Edit srv around fs c r fs') (hrm : r.name ≠ ascii "rm") (hk : ¬ srv.configKey <+: k)
    (hx : fs.view k = some x) :
    fs'.view k = some x ∨ ∃ old new rest, Relocates srv fs c r old new ∧ k = old.cString.key ++ rest ∧
      fs'.view (new.cString.key ++ rest) = some x := by
  cases h with
  | own kept => exact .inl ((kept.view_eq k (ServerContext.not_ownPlace_of_outside hk)).trans hx)
  | made _ located free entry => exact .inl (hw.view_made (locate_ok located).2.1 free entry hx)
  | @moved old new _ moves _ free renamed =>
    obtain ⟨-, ⟨rfl, -⟩ | hm⟩ := hw.rename renamed
    · exact .inl hx
    · rcases view_moved hw hm (rename_free renamed free) hx with h | ⟨rest, hrest, h⟩
      · exact .inl h
      · exact .inr ⟨old, new, rest, moves, hrest, h⟩
  | removed removes =>
    cases removes with
    | rm _ command _ => exact absurd command hrm

theorem view_finished (hw : fs.WellFormed) {old new : Path} (hown : srv.OwnPath old)
    (h : fs.rename old new = .ok fs') (hv : Vacant srv fs new.cString.key) (hk : ¬ srv.configKey <+: k)
    (hx : fs.view k = some x) : fs'.view k = some x := by
  obtain ⟨-, ⟨rfl, -⟩ | hm⟩ := hw.rename h
  · exact hx
  · obtain ⟨ho, -⟩ := rename_ok h
    have hok : ¬ old.cString.key <+: k := by
      intro hh
      obtain ⟨n, hn⟩ := (hown.locate ho).config
      exact hk ((List.prefix_append _ [n]).trans (hn ▸ hh))
    by_cases hnk : new.cString.key <+: k
    · obtain ⟨rest, rfl⟩ := hnk
      have hrest : rest = [] := by
        by_contra hne
        exact view_isSome hx (hm.empty rest hne)
      subst hrest
      rw [List.append_nil] at hk hx ⊢
      rcases hm.replaced with hf | ⟨i, -, hi, -⟩ | ⟨hd, hd'⟩
      · exact absurd hf (view_isSome hx)
      · exact absurd (hv i (inode_eq_some.mpr hi)) hk
      · have hview : fs'.view new.cString.key = fs.view old.cString.key := by simp [hm.view_eq]
        rw [hview, view_eq_dir.mpr hd', ← hx, view_eq_dir.mpr hd]
    · rw [hm.view_eq, if_neg hnk, if_neg hok, hx]

theorem Server.Edit.survives {S : Server} {a : Action} (hS : Server.Sane srv S) (h : Server.Edit srv S a fs')
    (hrm : ¬ a.IsRm) (hsafe : SafeChunk srv S a) (hk : ¬ srv.configKey <+: k) (hx : S.fs.view k = some x) :
    Survives srv S a fs' k x := by
  cases h with
  | own kept => exact .inl ((kept.view_eq k (ServerContext.not_ownPlace_of_outside hk)).trans hx)
  | @request fd s r available lastWriteTime _ action found edit =>
    subst action
    rcases edit.survives hS.wellFormed hrm hk hx with hh | ⟨old, new, rest, moves, hrest, hh⟩
    · exact .inl hh
    · exact .inr ⟨fd, s, r, available, lastWriteTime, old, new, rest, rfl, found, moves, hrest, hh⟩
  | written action found active file =>
    subst action
    left
    rw [view_write_of_ne _ ((hsafe _ found _ active _ file).1.get_ne hk), hx]
  | finished action found active file complete renamed =>
    subst action
    obtain ⟨hhidden, hvacant⟩ := hsafe _ found _ active _ file
    exact .inl (view_finished (hS.wellFormed.write _ _) (hS.lookup found).manager.1 renamed (hvacant complete) hk
      ((view_write_of_ne _ (hhidden.get_ne hk)).trans hx))

/-- In every state of every run, an action that is not an `rm` and, if it is a chunk, meets the
condition, keeps everything outside of the configuration directory. -/
theorem only_rm_destroys {S : Server} {a : Action} (hw : fs.WellFormed)
    (h : Runs.Reaches (Server.step srv) (fun _ _ => True) (Server.start fs) S) (hrm : ¬ a.IsRm)
    (hsafe : SafeChunk srv S a) :
    ∀ k x, ¬ srv.configKey <+: k → S.fs.view k = some x → Survives srv S a (Server.step srv S a).fs k x := by
  intro k x hk hx
  have hS := Server.sane_of_reaches hw h
  exact ((Server.step_transition srv S a).edit hS).survives hS hrm hsafe hk hx

namespace Sample

def twoDirectories : FileSystem :=
  ⟨tree [([ascii "r", ascii "a"], .dir), ([ascii "r", ascii "a", ascii "x"], .file 0)], [ascii "old"]⟩

/-- A client that is about to upload `x` into the root, and another one that may then go on. -/
def uploadOfX (as : List Action) : List Action :=
  loggedIn 0 "u" [request 0 "ul" [string "name" "x", ⟨ascii "size", .integer 2⟩]] ++ as

def target : Key := [ascii "r", ascii "x"]

end Sample

theorem only_rm_destroys_upload :
    let S := Runs.run (Server.step Sample.server) (Server.start Sample.twoDirectories) (Sample.uploadOfX [])
    let a := Action.chunk 0 (ascii "ab")
    SafeChunk Sample.server S a ∧ (Server.step Sample.server S a).fs.view Sample.target = some (.file (ascii "ab")) ∧
      ∀ k x, ¬ Sample.server.configKey <+: k → S.fs.view k = some x →
        Survives Sample.server S a (Server.step Sample.server S a).fs k x := by
  intro S a
  have hw : Sample.twoDirectories.WellFormed := by decide +kernel
  have hreach : Runs.Reaches (Server.step Sample.server) (fun _ _ => True) (Server.start Sample.twoDirectories) S :=
    Runs.AllMeet.reaches ⟨trivial, trivial, trivial, trivial⟩
  have hsafe : SafeChunk Sample.server S a := by decide +kernel
  exact ⟨hsafe, by decide +kernel, only_rm_destroys hw hreach (fun h => h) hsafe⟩

/-- Another client copies a file to the target of an upload that is under way; the last chunk of the
upload replaces the copy. -/
theorem upload_replaces_copy :
    let S := Runs.run (Server.step Sample.server) (Server.start Sample.twoDirectories)
      (Sample.uploadOfX (Sample.loggedIn 1 "v" [Sample.request 1 "cd" [Sample.string "path" "/a"],
        Sample.request 1 "cp" [Sample.string "path" "/", Sample.string "name" "x"]]))
    let a := Action.chunk 0 (ascii "ab")
    Sample.twoDirectories.WellFormed ∧
    Runs.Reaches (Server.step Sample.server) (fun _ _ => True) (Server.start Sample.twoDirectories) S ∧ ¬ a.IsRm ∧
    ¬ Sample.server.configKey <+: Sample.target ∧ S.fs.view Sample.target = some (.file (ascii "old")) ∧
    (Server.step Sample.server S a).fs.view Sample.target = some (.file (ascii "ab")) ∧
    ¬ Survives Sample.server S a (Server.step Sample.server S a).fs Sample.target (.file (ascii "old")) := by
  intro S a
  have hafter : (Server.step Sample.server S a).fs.view Sample.target = some (.file (ascii "ab")) := by decide +kernel
  refine ⟨by decide +kernel, ?_, fun h => h, by decide, by decide +kernel, hafter, ?_⟩
  · exact Runs.AllMeet.reaches ⟨trivial, trivial, trivial, trivial, trivial, trivial, trivial, trivial⟩
  · rintro (h | ⟨fd, s, r, available, lastWriteTime, old, new, rest, h, -⟩)
    · rw [hafter] at h
      exact absurd h (by decide)
    · exact Action.noConfusion h

end TinDox
