import TinDox.Accounts
import TinDox.Client

/-! What a command reads of its surroundings. The order of the locks and of the sessions does not
matter, so a client that looks at the others and at itself finds what the whole server shows. -/

namespace TinDox

/-- The same locks are held and the same users are logged in. -/
structure Surroundings.Same (around around' : Surroundings) : Prop where
  locks : ∀ p, p ∈ around.locks ↔ p ∈ around'.locks
  usernames : ∀ u, u ∈ around.usernames ↔ u ∈ around'.usernames
  available : around.available = around'.available
  lastWriteTime : around.lastWriteTime = around'.lastWriteTime

namespace Surroundings.Same

variable {srv : ServerContext} {around around' : Surroundings}

theorem any_locks (h : around.Same around') (p : Path → Bool) : around.locks.any p = around'.locks.any p := by
  apply Bool.eq_iff_iff.mpr
  simp only [List.any_eq_true, h.locks]

theorem locks_eq_nil (h : around.Same around') : around.locks = [] ↔ around'.locks = [] := by
  simp only [List.eq_nil_iff_forall_not_mem, h.locks]

theorem isPathLocked (h : around.Same around') (path : Path) : around.isPathLocked path = around'.isPathLocked path := by
  simp only [Surroundings.isPathLocked, h.any_locks, ne_eq, h.locks_eq_nil]

theorem uploadFile (h : around.Same around') (fs : FileSystem) (path : Path) (size : Nat) :
    srv.uploadFile around fs path size = srv.uploadFile around' fs path size := by
  simp only [ServerContext.uploadFile, h.any_locks, h.available]

theorem retryUpload (h : around.Same around') (w : World) (token : AuthToken) :
    Ul.retryUpload srv around w token = Ul.retryUpload srv around' w token := by
  have hresume : ∀ fs table, Ul.resumeUpload srv around fs table = Ul.resumeUpload srv around' fs table := by
    intro fs table
    simp only [Ul.resumeUpload, h.uploadFile]
  simp only [Ul.retryUpload, hresume]

theorem execute (h : around.Same around') (w : World) (command : Command) :
    CommandExecutor.execute srv around w command = CommandExecutor.execute srv around' w command := by
  cases command with
  | auth u p => simp only [CommandExecutor.execute, Auth.execute, ServerContext.authorizeUser_congr h.usernames]
  | ls path returnSize returnMod =>
    have hline : Ls.line around = Ls.line around' := by
      funext fs directory size mod name
      simp only [Ls.line, h.lastWriteTime]
    simp only [CommandExecutor.execute, Ls.execute, hline]
  | mv path name => simp only [CommandExecutor.execute, Mv.execute, h.isPathLocked]
  | rename oname nname => simp only [CommandExecutor.execute, Rename.execute, h.isPathLocked]
  | rm name => simp only [CommandExecutor.execute, Rm.execute, h.isPathLocked]
  | ul name size retry =>
    simp only [CommandExecutor.execute, Ul.execute, h.retryUpload, Ul.startNewUpload, h.uploadFile]
  | _ => rfl

/-- A request does the same in surroundings that show the same. -/
theorem executeCommand (h : around.Same around') (fs : FileSystem) (s : Session) (r : Request) :
    s.executeCommand srv around fs r = s.executeCommand srv around' fs r := by
  simp only [Session.executeCommand, h.execute]

end Surroundings.Same

namespace Server

variable {S : Server} {fd : Nat} {s : Session}

/-- What the connections other than one of them hold. -/
def others (S : Server) (fd available : Nat) (lastWriteTime : Path → Bytes) : Surroundings :=
  let rest := S.sessions.filter (fun e => e.1 ≠ fd)
  ⟨rest.flatMap (fun e => e.2.locks), rest.filterMap (fun e => e.2.username), available, lastWriteTime⟩

theorem sessions_filter_put (S : Server) (fs : FileSystem) (fd : Nat) (s : Session) :
    (S.put fs fd s).sessions.filter (fun e => e.1 ≠ fd) = S.sessions.filter (fun e => e.1 ≠ fd) := by
  simp only [put]
  induction S.sessions with
  | nil => rfl
  | cons e l ih => by_cases he : e.1 = fd <;> simpa [he] using ih

@[simp] theorem others_put (S : Server) (fs : FileSystem) (fd : Nat) (s : Session) :
    (S.put fs fd s).others fd = S.others fd := by
  funext available lastWriteTime
  simp only [others, sessions_filter_put]

theorem mem_sessions (hn : S.fds.Nodup) (found : S.lookup fd = some s) (e : Nat × Session) :
    e ∈ S.sessions ↔ e = (fd, s) ∨ e ∈ S.sessions.filter (fun e => e.1 ≠ fd) := by
  simp only [List.mem_filter, decide_eq_true_eq]
  constructor
  · intro he
    by_cases hfd : e.1 = fd
    · have hsame : S.lookup fd = some e.2 := lookup_of_mem hn (hfd ▸ he)
      obtain rfl : s = e.2 := Option.some.inj (found.symm.trans hsame)
      exact .inl (by rw [← hfd])
    · exact .inr ⟨he, hfd⟩
  · rintro (rfl | ⟨he, -⟩)
    · exact mem_of_lookup found
    · exact he

theorem surroundings_same (hn : S.fds.Nodup) (found : S.lookup fd = some s) (available : Nat)
    (lastWriteTime : Path → Bytes) :
    (Client.surroundings (S.others fd available lastWriteTime) s).Same (S.surroundings available lastWriteTime) := by
  refine ⟨fun p => ?_, fun u => ?_, rfl, rfl⟩
  · simp only [Client.surroundings, others, surroundings, Server.locks, List.mem_append, List.mem_flatMap,
      mem_sessions hn found]
    constructor
    · rintro (⟨e, he, hp⟩ | hp)
      · exact ⟨e, .inr he, hp⟩
      · exact ⟨_, .inl rfl, hp⟩
    · rintro ⟨e, rfl | he, hp⟩
      · exact .inr hp
      · exact .inl ⟨e, he, hp⟩
  · simp only [Client.surroundings, others, surroundings, Server.usernames, List.mem_append, List.mem_filterMap,
      Option.mem_toList, mem_sessions hn found]
    constructor
    · rintro (⟨e, he, hu⟩ | hu)
      · exact ⟨e, .inr he, hu⟩
      · exact ⟨_, .inl rfl, hu⟩
    · rintro ⟨e, rfl | he, hu⟩
      · exact .inr hu
      · exact .inl ⟨e, he, hu⟩

end Server

end TinDox
