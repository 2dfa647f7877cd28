import TinDox.Bookkeeping
import TinDox.Server

/-! The changes an action makes to the file system: bookkeeping, a new entry, a move or a removal
by a request, and the bytes and the final move of an upload. Every run keeps the file system well
formed and the upload managers on the files of their users. -/

namespace TinDox

open DirTree FileSystem

/-- Where a request makes a new entry. -/
inductive Makes (srv : ServerContext) (fs : FileSystem) (c : ClientContext) (r : Request) : Path → Prop
  | mkdir {name cur : Path} (current : c.currentPathLock = some cur) (command : r.name = ascii "mkdir")
      (parsed : parseSingleName r.fields = .ok name) : Makes srv fs c r (cur / name)
  | cp {path name cur new : Path} (current : c.currentPathLock = some cur) (command : r.name = ascii "cp")
      (parsed : TransportCommand.parseFields srv fs c r.fields = .ok (path, name))
      (chosen : Cp.newPath fs path name = some (.ok new)) : Makes srv fs c r new

/-- From where to where a request moves a subtree. -/
inductive Relocates (srv : ServerContext) (fs : FileSystem) (c : ClientContext) (r : Request) : Path → Path → Prop
  | rename {oname nname cur : Path} (current : c.currentPathLock = some cur) (command : r.name = ascii "rename")
      (parsed : Rename.parseFields r.fields = .ok (.rename oname nname)) :
      Relocates srv fs c r (cur / oname) (cur / nname)
  | mv {path name cur : Path} (current : c.currentPathLock = some cur) (command : r.name = ascii "mv")
      (parsed : TransportCommand.parseFields srv fs c r.fields = .ok (path, name)) :
      Relocates srv fs c r (cur / name) (path / name)

/-- What a request removes with everything below it. -/
inductive Removes (c : ClientContext) (r : Request) : Path → Prop
  | rm {name cur : Path} (current : c.currentPathLock = some cur) (command : r.name = ascii "rm")
      (parsed : parseSingleName r.fields = .ok name) : Removes c r (cur / name)

inductive Edit (srv : ServerContext) (around : Surroundings) (fs : FileSystem) (c : ClientContext) (r : Request) :
    FileSystem → Prop
  | own {fs' : FileSystem} (kept : Bookkeeping srv fs fs') : Edit srv around fs c r fs'
  | made {p : Path} {fs' : FileSystem} (makes : Makes srv fs c r p) (located : fs.locate p = .ok p.cString.key)
      (free : fs.get p.cString.key = none)
      (entry : fs' = fs.insert p.cString.key .dir ∨ ∃ b, fs' = fs.create p.cString.key b) :
      Edit srv around fs c r fs'
  | moved {old new : Path} {fs' : FileSystem} (moves : Relocates srv fs c r old new)
      (notLocked : around.NotLocked old) (free : fs.pathExists new = false)
      (renamed : fs.rename old new = .ok fs') : Edit srv around fs c r fs'
  | removed {p : Path} (removes : Removes c r p) (notLocked : around.NotLocked p) :
      Edit srv around fs c r (fs.removeAll p).1

/-- The session belongs to a user, if to anybody, and its uploads go to the files of a user. -/
structure Session.Accounted (srv : ServerContext) (s : Session) : Prop where
  user : ∀ token ∈ s.context.authToken, srv.HasUser token.username
  manager : s.uploadManager.Accounted srv

theorem Session.accounted_new (srv : ServerContext) : Session.Accounted srv .new :=
  ⟨by simp [Session.new, ClientContext.new], UploadManager.accounted_new srv⟩

variable {srv : ServerContext} {around : Surroundings} {fs fs' : FileSystem} {s s' : Session} {r : Request}

theorem AcceptsUpload.bookkeeping {upload : UploadToken} (h : AcceptsUpload srv around fs s.context r fs' upload)
    (hw : fs.WellFormed) (hs : s.Accounted srv) :
    Bookkeeping srv fs fs' ∧ srv.HasUser upload.temporaryFilenameStem := by
  cases h with
  | fresh _ _ user _ => exact ⟨.refl hw, hs.user _ user⟩
  | resumed _ user _ taken _ =>
    have hu := hs.user _ user
    exact ⟨.remove hw (.inr ⟨_, hu, .inr rfl⟩) taken, hu⟩

theorem Effect.edit (h : Effect srv around fs s r fs' s') (hw : fs.WellFormed) (hs : s.Accounted srv) :
    Edit srv around fs s.context r fs' := by
  cases h with
  | none | flags | login | logout | cd | dl | dls => exact .own (.refl hw)
  | cp current command parsed chosen copied =>
    obtain ⟨i, -, hl, hf, rfl⟩ := copyFile_ok copied
    exact .made (.cp current command parsed chosen) hl hf (.inr ⟨_, rfl⟩)
  | mkdir current command parsed _ made =>
    rcases createDirectory_ok made with rfl | ⟨hl, hf, rfl⟩
    · exact .own (.refl hw)
    · exact .made (.mkdir current command parsed) hl hf (.inl rfl)
  | mv current command parsed notLocked free renamed =>
    exact .moved (.mv current command parsed) notLocked free renamed
  | rename current command parsed notLocked free renamed =>
    exact .moved (.rename current command parsed) notLocked free renamed
  | rm current command parsed notLocked => exact .removed (.rm current command parsed) notLocked
  | unbacked _ user taken => exact .own (.remove hw (.inr ⟨_, hs.user _ user, .inr rfl⟩) taken)
  | ul _ accepted =>
    obtain ⟨hkept, hu⟩ := accepted.bookkeeping hw hs
    exact .own (hkept.trans (hs.manager.startUpload hkept.wellFormed hu).2)

theorem Effect.accounted (h : Effect srv around fs s r fs' s') (hw : fs.WellFormed) (hs : s.Accounted srv) :
    s'.Accounted srv := by
  cases h with
  | none | flags | cd | cp | mkdir | mv | rename | rm | dl | dls | unbacked => exact ⟨hs.user, hs.manager⟩
  | login _ authorized _ =>
    obtain ⟨username, password, h⟩ := authorized
    refine ⟨fun token ht => ?_, hs.manager⟩
    obtain rfl := Option.some.inj ht
    exact ServerContext.authorizeUser_ok h
  | logout => exact ⟨fun token ht => by simp [Session.withContext, ClientContext.logout] at ht, hs.manager⟩
  | ul _ accepted =>
    obtain ⟨hkept, hu⟩ := accepted.bookkeeping hw hs
    exact ⟨hs.user, (hs.manager.startUpload hkept.wellFormed hu).1⟩

theorem Edit.wellFormed {c : ClientContext} (h : Edit srv around fs c r fs') (hw : fs.WellFormed) :
    fs'.WellFormed := by
  cases h with
  | own kept => exact kept.wellFormed
  | made _ located free entry =>
    obtain ⟨-, hk, hd, -⟩ := locate_ok located
    have hn := hw.locate_names located
    rcases entry with rfl | ⟨b, rfl⟩
    · exact hw.insertDir hk free hd hn
    · exact hw.create hk free hd hn b
  | moved _ _ _ renamed => exact (hw.rename renamed).1
  | removed => exact (hw.removeAll _).1

namespace Server

/-- What a whole action does to the file system. -/
inductive Edit (srv : ServerContext) (S : Server) (a : Action) : FileSystem → Prop
  | own {fs' : FileSystem} (kept : Bookkeeping srv S.fs fs') : Edit srv S a fs'
  | request {fd : Nat} {s : Session} {r : Request} {available : Nat} {lastWriteTime : Path → Bytes}
      {fs' : FileSystem} (action : a = .request fd r available lastWriteTime) (found : S.lookup fd = some s)
      (edit : TinDox.Edit srv (S.surroundings available lastWriteTime) S.fs s.context r fs') : Edit srv S a fs'
  | written {fd : Nat} {s : Session} {bytes : Bytes} {token : UploadToken} {i : Nat}
      (action : a = .chunk fd bytes) (found : S.lookup fd = some s)
      (active : s.uploadManager.token = some token) (file : s.uploadManager.file = some i) :
      Edit srv S a (S.fs.write i (bytes.take (UploadManager.taken token bytes)))
  | finished {fd : Nat} {s : Session} {bytes : Bytes} {token : UploadToken} {i : Nat} {fs' : FileSystem}
      (action : a = .chunk fd bytes) (found : S.lookup fd = some s)
      (active : s.uploadManager.token = some token) (file : s.uploadManager.file = some i)
      (complete : (UploadManager.advance token bytes).offset = token.size)
      (renamed : (S.fs.write i (bytes.take (UploadManager.taken token bytes))).rename
        s.uploadManager.partialFileName token.path = .ok fs') : Edit srv S a fs'

structure Sane (srv : ServerContext) (S : Server) : Prop where
  wellFormed : S.fs.WellFormed
  accounted : ∀ e ∈ S.sessions, e.2.Accounted srv

variable {S S' : Server} {a : Action}

theorem Sane.lookup {fd : Nat} (h : Sane srv S) (found : S.lookup fd = some s) : s.Accounted srv :=
  h.accounted _ (mem_of_lookup found)

theorem Acts.edit {fd : Nat} (h : Acts srv S fd s a fs' s') (hS : Sane srv S) (found : S.lookup fd = some s) :
    Edit srv S a fs' := by
  cases h with
  | request mode effect => exact .request rfl found (effect.edit hS.wellFormed (hS.lookup found))
  | @chunk bytes _ _ _ mode handled =>
    obtain ⟨rfl, -⟩ := Session.handleUpload_cases handled
    rcases UploadManager.commitBytes_cases S.fs s.uploadManager bytes with
      ⟨-, hc⟩ | ⟨token, i, ht, hf, ⟨-, hc⟩ | ⟨hdone, ⟨fs₁, hr, hc⟩ | ⟨e, -, hc⟩⟩⟩
    · rw [hc]
      exact .own (.refl hS.wellFormed)
    · rw [hc]
      exact .written rfl found ht hf
    · rw [hc]
      exact .finished rfl found ht hf hdone hr
    · rw [hc]
      exact .written rfl found ht hf
  | send => exact .own (.refl hS.wellFormed)

theorem Transition.edit (h : Transition srv S a S') (hS : Sane srv S) : Edit srv S a S'.fs := by
  cases h with
  | idle | connect => exact .own (.refl hS.wellFormed)
  | acts found acts fatal => exact acts.edit hS found
  | disconnect action found => exact .own ((hS.lookup found).manager.destroy hS.wellFormed)

theorem Edit.wellFormed (h : Edit srv S a fs') (hw : S.fs.WellFormed) : fs'.WellFormed := by
  cases h with
  | own kept => exact kept.wellFormed
  | request _ _ edit => exact edit.wellFormed hw
  | written => exact hw.write _ _
  | finished _ _ _ _ _ renamed => exact ((hw.write _ _).rename renamed).1

theorem Sane.transition (hS : Sane srv S) (h : Transition srv S a S') : Sane srv S' := by
  refine ⟨(h.edit hS).wellFormed hS.wellFormed, ?_⟩
  refine h.forall_sessions (I := fun _ s => s.Accounted srv) hS.accounted (Session.accounted_new srv)
    (fun _ s hs => ⟨by simpa using hs.user, by simpa using hs.manager⟩) ?_ (fun _ _ _ _ => hS.accounted)
  intro fd s fs' s' found hacts
  have hs := hS.lookup found
  refine ⟨?_, hS.accounted⟩
  cases hacts with
  | request mode effect => exact effect.accounted hS.wellFormed hs
  | chunk mode handled =>
    obtain ⟨-, mode', rfl⟩ := Session.handleUpload_cases handled
    exact ⟨hs.user, hs.manager.commitBytes S.fs _⟩
  | send mode handled =>
    obtain ⟨mode', rfl⟩ := Session.handleDownloadManagerOutput_cases handled
    exact ⟨hs.user, hs.manager⟩

theorem sane_start (srv : ServerContext) (hw : fs.WellFormed) : Sane srv (start fs) := ⟨hw, by simp [start]⟩

theorem sane_of_reaches {ok : Server → Action → Prop} (hw : fs.WellFormed)
    (h : Runs.Reaches (step srv) ok (start fs) S) : Sane srv S :=
  h.invariant (sane_start srv hw) (fun S a hS _ => hS.transition (step_transition srv S a))

end Server

end TinDox
