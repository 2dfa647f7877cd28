import TinDox.Edits
import TinDox.Refinement

/-! What holds between the connections in every run over the sockets. Nobody shares an account, and
an upload belongs to the user who is logged in, so no two uploads write under the same name. -/

namespace TinDox

open Server (killIf)

/-- An upload in progress keeps its client in upload mode, and goes to the partial file of its user. -/
def Session.OwnUpload (srv : ServerContext) (s : Session) : Prop :=
  ∀ upload ∈ s.uploadManager.token, s.context.mode = .upload ∧ s.username = some upload.temporaryFilenameStem ∧
    s.uploadManager.partialFileName = srv.getPartialFilePath upload.temporaryFilenameStem

variable {srv : ServerContext} {around : Surroundings} {fs fs' : FileSystem} {s s' : Session} {r : Request}

theorem Session.ownUpload_new (srv : ServerContext) : Session.OwnUpload srv .new := by
  intro upload hu
  cases hu

theorem Session.OwnUpload.token_eq_none (h : s.OwnUpload srv) (hm : s.context.mode ≠ .upload) :
    s.uploadManager.token = none := by
  cases ht : s.uploadManager.token with
  | none => rfl
  | some upload => exact absurd (h upload ht).1 hm

theorem Session.ownUpload_of_none (h : s.uploadManager.token = Option.none) : s.OwnUpload srv := by
  intro upload hu
  rw [h] at hu
  cases hu

theorem AcceptsUpload.username {upload : UploadToken} (h : AcceptsUpload srv around fs s.context r fs' upload) :
    s.username = some upload.temporaryFilenameStem := by
  cases h with
  | fresh _ _ user _ | resumed _ user _ _ _ => simp [Session.username, user]

theorem UploadManager.startUpload_own (fs : FileSystem) (m : UploadManager) (upload : UploadToken) :
    (m.startUpload srv fs upload).2.1.token = some upload ∧
      (m.startUpload srv fs upload).2.1.partialFileName = srv.getPartialFilePath upload.temporaryFilenameStem := by
  rcases startUpload_cases srv fs m upload with h | ⟨fs₁, i, fs₂, out, -, -, -, h⟩
  · rw [h]
    exact ⟨rfl, rfl⟩
  · rw [h]
    exact ⟨rfl, rfl⟩

theorem UploadManager.commitBytes_own {m : UploadManager} {bytes : Bytes} {upload : UploadToken}
    (h : upload ∈ (m.commitBytes fs bytes).2.1.token) :
    (m.commitBytes fs bytes).2.1.partialFileName = m.partialFileName ∧
      ∃ token ∈ m.token, upload.temporaryFilenameStem = token.temporaryFilenameStem := by
  rcases commitBytes_cases fs m bytes with
    ⟨-, hc⟩ | ⟨token, i, ht, -, ⟨-, hc⟩ | ⟨-, ⟨fs₁, -, hc⟩ | ⟨e, -, hc⟩⟩⟩
  · rw [hc] at h ⊢
    exact ⟨rfl, upload, h, rfl⟩
  · rw [hc] at h ⊢
    obtain rfl := Option.some.inj h
    exact ⟨rfl, token, ht, rfl⟩
  · rw [hc] at h
    cases h
  · rw [hc] at h ⊢
    obtain rfl := Option.some.inj h
    exact ⟨rfl, token, ht, rfl⟩

theorem Effect.ownUpload (h : Effect srv around fs s r fs' s') (hm : s.context.mode = .command) (hs : s.OwnUpload srv) :
    s'.OwnUpload srv := by
  have hnone : s.uploadManager.token = Option.none := hs.token_eq_none (by simp [hm])
  cases h with
  | none | flags | login | logout | cd | cp | mkdir | mv | rename | rm | dl | dls | unbacked =>
    exact Session.ownUpload_of_none hnone
  | @ul fs₁ upload _ accepted =>
    obtain ⟨htoken, hpart⟩ := @UploadManager.startUpload_own srv fs₁ s.uploadManager upload
    intro upload' hu
    obtain rfl : upload = upload' := Option.some.inj (htoken.symm.trans hu)
    exact ⟨rfl, accepted.username, hpart⟩

theorem Path.equal_comm (p q : Path) : p.equal q = q.equal p := by
  simp only [Path.equal]
  exact BEq.comm

theorem AcceptsUpload.target {upload : UploadToken} (h : AcceptsUpload srv around fs s.context r fs' upload) {lock : Path}
    (hl : lock ∈ around.locks) : lock.equal upload.path = false := by
  cases h with
  | fresh _ _ _ accepted | resumed _ _ _ _ accepted =>
    obtain ⟨-, -, -, -, -, hlocks⟩ := ServerContext.uploadFile_ok accepted
    exact hlocks lock hl

namespace Server

variable {S S' : Server} {a : Action}

theorem OwnUpload.handleUpload {bytes : Bytes} {result : Except Exception Bytes} (hs : s.OwnUpload srv)
    (hm : s.context.mode = .upload) (h : s.handleUpload S.fs bytes = (fs', s', result)) : s'.OwnUpload srv := by
  intro upload hu
  have hmode : s'.context.mode = .upload ∧ s'.username = s.username := by
    unfold Session.handleUpload at h
    rcases hc : s.uploadManager.commitBytes S.fs bytes with ⟨fs₁, m, e | rest⟩
    · simp only [hc] at h
      cases h
      exact ⟨hm, rfl⟩
    · simp only [hc] at h
      cases h
      have hlive : m.hasFinished = false := by
        rw [UploadManager.hasFinished, Option.mem_def.mp hu]
        rfl
      simp only [hlive, Bool.false_eq_true, if_false]
      exact ⟨hm, rfl⟩
  obtain ⟨-, mode, rfl⟩ := Session.handleUpload_cases h
  obtain ⟨hpart, token, ht, hstem⟩ := UploadManager.commitBytes_own hu
  obtain ⟨-, huser, hfile⟩ := hs token ht
  exact ⟨hmode.1, by rw [hmode.2, huser, hstem], by rw [hpart, hfile, hstem]⟩

theorem ownUpload_transition (hS : ∀ e ∈ S.sessions, e.2.OwnUpload srv) (h : Transition srv S a S') :
    ∀ e ∈ S'.sessions, e.2.OwnUpload srv := by
  refine h.forall_sessions (I := fun _ s => s.OwnUpload srv) hS (Session.ownUpload_new srv)
    (fun _ _ hs => by simpa [Session.OwnUpload] using hs) ?_ (fun _ _ _ _ => hS)
  intro fd s fs' s' found hacts
  have hs : s.OwnUpload srv := hS _ (mem_of_lookup found)
  refine ⟨?_, hS⟩
  cases hacts with
  | request mode effect => exact effect.ownUpload mode hs
  | chunk mode handled => exact OwnUpload.handleUpload hs mode handled
  | send mode handled =>
    obtain ⟨mode', rfl⟩ := Session.handleDownloadManagerOutput_cases handled
    exact Session.ownUpload_of_none (hs.token_eq_none (by simp [mode]))

/-- The server with its table of sessions does what the server does. -/
theorem follows_accounts (srv : ServerContext) :
    Runs.Follows (step srv) (AccountServer.step srv) (fun _ a => [a]) (fun S M => M.server = S ∧ M.Inv) := by
  rintro S M a ⟨rfl, hinv⟩
  exact ⟨hinv.step_server a, hinv.step a⟩

structure Separate (S : Server) : Prop where
  nodup : S.fds.Nodup
  users : ∀ e ∈ S.sessions, ∀ e' ∈ S.sessions, ∀ u, e.2.username = some u → e'.2.username = some u → e = e'

theorem separate_of_inv {M : AccountServer} (h : M.Inv) : Separate M.server := by
  have huser : ∀ e ∈ M.server.sessions, M.server.user e.1 = e.2.username := by
    intro e he
    simp [Server.user, Server.lookup_of_mem h.nodup he]
  refine ⟨h.nodup, ?_⟩
  intro e he e' he' u hu hu'
  have hfd := h.tracks.distinct e.1 e'.1 u ((huser e he).trans hu) ((huser e' he').trans hu')
  have hlook := lookup_of_mem h.nodup he
  rw [hfd, lookup_of_mem h.nodup he'] at hlook
  exact Prod.ext hfd (Option.some.inj hlook).symm

theorem separate_run (srv : ServerContext) (fs : FileSystem) (as : List Action) :
    Separate (Runs.run (step srv) (start fs) as) := by
  obtain ⟨hserver, hinv⟩ := (follows_accounts srv).run ⟨rfl, AccountServer.inv_start fs⟩ as
  exact hserver ▸ separate_of_inv hinv

/-- No two uploads in progress have the same target. -/
def TargetsApart (S : Server) : Prop :=
  ∀ e ∈ S.sessions, ∀ e' ∈ S.sessions, e.1 ≠ e'.1 → ∀ upload ∈ e.2.uploadManager.token,
    ∀ upload' ∈ e'.2.uploadManager.token, upload.path.equal upload'.path = false

/-- The upload a connection has after an action: the one it had, or one whose target is not locked. -/
theorem Acts.target {fd : Nat} (h : Acts srv S fd s a fs' s') {upload : UploadToken}
    (hu : upload ∈ s'.uploadManager.token) :
    (∃ token ∈ s.uploadManager.token, upload.path = token.path) ∨ ∀ lock ∈ S.locks, lock.equal upload.path = false := by
  cases h with
  | request mode effect =>
    cases effect with
    | none | flags | login | logout | cd | cp | mkdir | mv | rename | rm | dl | dls | unbacked =>
      exact .inl ⟨upload, hu, rfl⟩
    | @ul fs₁ upload' _ accepted =>
      obtain ⟨htoken, -⟩ := @UploadManager.startUpload_own srv fs₁ s.uploadManager upload'
      obtain rfl : upload' = upload := Option.some.inj (htoken.symm.trans hu)
      exact .inr fun lock hl => accepted.target hl
  | chunk mode handled =>
    obtain ⟨-, mode, rfl⟩ := Session.handleUpload_cases handled
    exact .inl (UploadManager.commitBytes_path hu)
  | send mode handled =>
    obtain ⟨mode', rfl⟩ := Session.handleDownloadManagerOutput_cases handled
    exact .inl ⟨upload, hu, rfl⟩

theorem target_mem_locks {e : Nat × Session} (he : e ∈ S.sessions) {upload : UploadToken}
    (hu : upload ∈ e.2.uploadManager.token) : upload.path ∈ S.locks := by
  refine List.mem_flatMap.mpr ⟨e, he, ?_⟩
  simp [Session.locks, Option.mem_def.mp hu]

theorem TargetsApart.transition (hT : TargetsApart S)
    (h : Transition srv S a S') : TargetsApart S' := by
  cases h with
  | idle => exact hT
  | connect free =>
    intro e he e' he' hne upload hu upload' hu'
    rcases List.mem_append.mp he with he | he
    · rcases List.mem_append.mp he' with he' | he'
      · exact hT e he e' he' hne upload hu upload' hu'
      · rw [List.mem_singleton.mp he'] at hu'
        cases hu'
    · rw [List.mem_singleton.mp he] at hu
      cases hu
  | @acts fd s s' fs' found acts fatal =>
    have hkill := killIf_uploadManager fatal s'
    have hnew : ∀ e ∈ S.sessions, e.1 ≠ fd → ∀ upload ∈ s'.uploadManager.token, ∀ upload' ∈ e.2.uploadManager.token,
        upload'.path.equal upload.path = false := by
      intro e he hne upload hu upload' hu'
      rcases acts.target hu with ⟨token, ht, hpath⟩ | hfree
      · rw [hpath]
        exact hT e he _ (mem_of_lookup found) hne upload' hu' token ht
      · exact hfree _ (target_mem_locks he hu')
    intro e he e' he' hne upload hu upload' hu'
    rcases mem_put he with rfl | ⟨he, hfd⟩
    · rcases mem_put he' with rfl | ⟨he', hfd'⟩
      · exact absurd rfl hne
      · rw [Path.equal_comm]
        exact hnew e' he' hfd' upload (hkill ▸ hu) upload' hu'
    · rcases mem_put he' with rfl | ⟨he', -⟩
      · exact hnew e he hfd upload' (hkill ▸ hu') upload hu
      · exact hT e he e' he' hne upload hu upload' hu'
  | disconnect action found =>
    intro e he e' he' hne
    exact hT e (List.mem_filter.mp he).1 e' (List.mem_filter.mp he').1 hne

theorem Sane.hasUser (h : Sane srv S) {e : Nat × Session} (he : e ∈ S.sessions) {u : Bytes}
    (hu : e.2.username = some u) : srv.HasUser u := by
  obtain ⟨token, ht, rfl⟩ := Option.map_eq_some_iff.mp hu
  exact (h.accounted e he).user token ht

/-- What every run keeps. -/
structure Isolated (srv : ServerContext) (S : Server) : Prop where
  sane : Sane srv S
  separate : Separate S
  uploads : ∀ e ∈ S.sessions, e.2.OwnUpload srv
  targets : TargetsApart S

theorem isolated_run (srv : ServerContext) (hw : fs.WellFormed) (as : List Action) :
    Isolated srv (Runs.run (step srv) (start fs) as) := by
  have hreaches := Runs.reaches_run (step srv) (start fs) as
  have hboth : (∀ e ∈ (Runs.run (step srv) (start fs) as).sessions, e.2.OwnUpload srv) ∧
      TargetsApart (Runs.run (step srv) (start fs) as) := by
    refine hreaches.invariant (I := fun S => (∀ e ∈ S.sessions, e.2.OwnUpload srv) ∧ TargetsApart S) ?_ ?_
    · simp [start, TargetsApart]
    · rintro S a ⟨hS, hT⟩ -
      have htrans := step_transition srv S a
      exact ⟨ownUpload_transition hS htrans, hT.transition htrans⟩
  exact ⟨sane_of_reaches hw hreaches, separate_run srv fs as, hboth.1, hboth.2⟩

end Server

namespace Network

open Runs (run)

end Network

namespace Sample

end Sample

namespace Network

open Runs (run)

end Network

end TinDox
