import TinDox.Wakeups

/-! Who holds the wake-up of a descriptor: the epoll device as long as it is armed, then the worker that
has taken its event. A wake-up may get lost, but there is never a second one. -/

namespace TinDox

namespace Wakeups

inductive Holder where
  | epoll
  | worker (n : Nat)
  deriving DecidableEq

namespace Service

/-- The wake-ups are where `holder` says, and the clients that are being handled are in the pool. -/
structure HeldBy (S : Service) (holder : Nat → Option Holder) : Prop where
  armed : ∀ fd, S.armed fd = true ↔ holder fd = some .epoll
  events : ∀ n fd, fd ∈ (S.workers n).events ↔ holder fd = some (.worker n)
  nodup : ∀ n, (S.workers n).events.Nodup
  known : ∀ fd, holder fd ≠ none → fd ∈ S.pool ∨ S.accepting = some fd
  stage : ∀ n, ∀ fd ∈ (S.workers n).stage.fd, fd ∈ S.pool
  fresh : ∀ fd, S.accepting = some fd → fd ∉ S.pool

def Sound (S : Service) : Prop := ∃ holder, S.HeldBy holder

theorem sound_start : start.Sound := by
  refine ⟨fun _ => none, ?_, ?_, ?_, ?_, ?_, ?_⟩
  · simp [start]
  · simp [start, Worker.events, Stage.fd]
  · simp [start, Worker.events, Stage.fd]
  · simp
  · simp [start, Stage.fd]
  · simp [start]

variable {S S' : Service} {holder : Nat → Option Holder}

@[simp] theorem workers_setWorker_self (S : Service) (n : Nat) (w : Worker) : (S.setWorker n w).workers n = w := by
  simp [setWorker]

theorem workers_setWorker_ne (S : Service) {m n : Nat} (h : m ≠ n) (w : Worker) :
    (S.setWorker n w).workers m = S.workers m := by
  simp [setWorker, h]

theorem HeldBy.registered (h : S.HeldBy holder) {fd : Nat} (free : S.accepting = none) (unused : fd ∉ S.pool) :
    HeldBy { S with armed := Function.update S.armed fd true, accepting := some fd }
      (Function.update holder fd (some .epoll)) := by
  have hnone : holder fd = none := by
    by_contra hne
    rcases h.known fd hne with hp | ha
    · exact unused hp
    · rw [free] at ha
      cases ha
  refine ⟨?_, ?_, h.nodup, ?_, h.stage, ?_⟩
  · intro fd'
    by_cases hfd : fd' = fd
    · simp [hfd]
    · simpa [hfd] using h.armed fd'
  · intro n fd'
    by_cases hfd : fd' = fd
    · subst fd'
      simp [h.events, hnone]
    · simpa [hfd] using h.events n fd'
  · intro fd' hne
    by_cases hfd : fd' = fd
    · exact .inr (by rw [hfd])
    · rw [Function.update_of_ne hfd] at hne
      rcases h.known fd' hne with hp | ha
      · exact .inl hp
      · rw [free] at ha
        cases ha
  · rintro fd' ⟨⟩
    exact unused

theorem HeldBy.spawned (h : S.HeldBy holder) {fd : Nat} (pending : S.accepting = some fd) :
    HeldBy { S with pool := S.pool ++ [fd], accepting := none } holder := by
  refine ⟨h.armed, h.events, h.nodup, ?_, ?_, ?_⟩
  · intro fd' hne
    left
    rcases h.known fd' hne with hp | ha
    · exact List.mem_append_left _ hp
    · obtain rfl : fd = fd' := Option.some.inj (pending.symm.trans ha)
      exact List.mem_append_right _ (List.mem_singleton.mpr rfl)
  · intro n fd' hs
    exact List.mem_append_left _ (h.stage n fd' hs)
  · rintro fd' ⟨⟩

theorem HeldBy.took (h : S.HeldBy holder) {n : Nat} {fds : List Nat} (idle : S.workers n = ⟨.between, []⟩)
    (hnd : fds.Nodup) (ready : ∀ fd ∈ fds, S.armed fd = true) :
    HeldBy { S.setWorker n ⟨.between, fds⟩ with armed := fun fd => if fd ∈ fds then false else S.armed fd }
      (fun fd => if fd ∈ fds then some (.worker n) else holder fd) := by
  have hready : ∀ fd ∈ fds, holder fd = some .epoll := fun fd hf => (h.armed fd).mp (ready fd hf)
  have hidle : ∀ fd, holder fd ≠ some (.worker n) := by
    intro fd hh
    have hmem := (h.events n fd).mpr hh
    rw [idle] at hmem
    cases hmem
  refine ⟨?_, ?_, ?_, ?_, ?_, h.fresh⟩
  · intro fd
    by_cases hf : fd ∈ fds
    · simp [hf]
    · simpa [hf] using h.armed fd
  · intro m fd
    by_cases hm : m = n
    · subst m
      show fd ∈ ((S.setWorker n ⟨.between, fds⟩).workers n).events ↔ _
      rw [workers_setWorker_self]
      by_cases hf : fd ∈ fds
      · simp [Worker.events, Stage.fd, hf]
      · simp [Worker.events, Stage.fd, hf, hidle fd]
    · show fd ∈ ((S.setWorker n ⟨.between, fds⟩).workers m).events ↔ _
      rw [workers_setWorker_ne S hm, h.events m fd]
      by_cases hf : fd ∈ fds
      · simp [hf, hready fd hf, Ne.symm hm]
      · simp [hf]
  · intro m
    by_cases hm : m = n
    · subst m
      show ((S.setWorker n ⟨.between, fds⟩).workers n).events.Nodup
      rw [workers_setWorker_self]
      exact hnd
    · show ((S.setWorker n ⟨.between, fds⟩).workers m).events.Nodup
      rw [workers_setWorker_ne S hm]
      exact h.nodup m
  · intro fd hne
    apply h.known
    by_cases hf : fd ∈ fds
    · rw [hready fd hf]
      simp
    · simpa [hf] using hne
  · intro m fd hs
    by_cases hm : m = n
    · subst m
      simp [Stage.fd] at hs
    · exact h.stage m fd (by simpa [workers_setWorker_ne S hm] using hs)

/-- A worker goes on with the same events. -/
theorem HeldBy.advanced (h : S.HeldBy holder) {n fd : Nat} {w : Worker} (hev : w.events = (S.workers n).events)
    (hstage : w.stage.fd = [fd]) (hp : fd ∈ S.pool) : (S.setWorker n w).HeldBy holder := by
  have hsame : ∀ m, ((S.setWorker n w).workers m).events = (S.workers m).events := by
    intro m
    by_cases hm : m = n
    · subst m
      rw [workers_setWorker_self, hev]
    · rw [workers_setWorker_ne S hm]
  refine ⟨h.armed, ?_, ?_, h.known, ?_, h.fresh⟩
  · intro m fd'
    rw [hsame]
    exact h.events m fd'
  · intro m
    rw [hsame]
    exact h.nodup m
  · intro m fd' hs
    by_cases hm : m = n
    · subst m
      rw [workers_setWorker_self, hstage] at hs
      exact List.mem_singleton.mp hs ▸ hp
    · rw [workers_setWorker_ne S hm] at hs
      exact h.stage m fd' hs

/-- A worker is done with its first event, and the wake-up goes back to the device or is gone. -/
theorem HeldBy.released (h : S.HeldBy holder) {n fd : Nat} {buffer : List Nat} (hw : (S.workers n).events = fd :: buffer)
    {pool : List Nat} {rearmed : Bool} (hpool : ∀ fd', fd' ≠ fd → (fd' ∈ pool ↔ fd' ∈ S.pool))
    (hfd : rearmed = true → fd ∈ pool) (hfresh : S.accepting = some fd → fd ∉ pool) :
    HeldBy { S.setWorker n ⟨.between, buffer⟩ with pool := pool, armed := Function.update S.armed fd rearmed }
      (Function.update holder fd (if rearmed = true then some .epoll else none)) := by
  have hholder : holder fd = some (.worker n) := (h.events n fd).mp (by rw [hw]; exact List.mem_cons_self)
  have hnd : fd ∉ buffer := by
    have hnodup := h.nodup n
    rw [hw] at hnodup
    exact (List.nodup_cons.mp hnodup).1
  refine ⟨?_, ?_, ?_, ?_, ?_, ?_⟩
  · intro fd'
    by_cases hne : fd' = fd
    · subst fd'
      cases rearmed <;> simp
    · simpa [hne] using h.armed fd'
  · intro m fd'
    have hold := h.events m fd'
    show fd' ∈ ((S.setWorker n ⟨.between, buffer⟩).workers m).events ↔ _
    by_cases hm : m = n
    · subst m
      rw [workers_setWorker_self]
      rw [hw] at hold
      by_cases hne : fd' = fd
      · subst fd'
        cases rearmed <;> simp [Worker.events, Stage.fd, hnd]
      · simpa [Worker.events, Stage.fd, hne] using hold
    · rw [workers_setWorker_ne S hm, hold]
      by_cases hne : fd' = fd
      · subst fd'
        cases rearmed <;> simp [hholder, Ne.symm hm]
      · simp [hne]
  · intro m
    show ((S.setWorker n ⟨.between, buffer⟩).workers m).events.Nodup
    by_cases hm : m = n
    · subst m
      have hnodup := h.nodup n
      rw [hw] at hnodup
      rw [workers_setWorker_self]
      exact (List.nodup_cons.mp hnodup).2
    · rw [workers_setWorker_ne S hm]
      exact h.nodup m
  · intro fd' hne
    by_cases hsame : fd' = fd
    · subst fd'
      cases rearmed with
      | true => exact .inl (hfd rfl)
      | false => simp at hne
    · rw [Function.update_of_ne hsame] at hne
      exact (h.known fd' hne).imp_left (hpool fd' hsame).mpr
  · intro m fd' hs
    by_cases hm : m = n
    · subst m
      simp [Stage.fd] at hs
    · have hs' : fd' ∈ (S.workers m).stage.fd := by simpa [workers_setWorker_ne S hm] using hs
      have hne : fd' ≠ fd := by
        rintro rfl
        have hother := (h.events m fd').mp (List.mem_append_left _ hs')
        rw [hholder] at hother
        cases hother
        exact hm rfl
      exact (hpool fd' hne).mpr (h.stage m fd' hs')
  · intro fd' ha
    by_cases hne : fd' = fd
    · subst fd'
      exact hfresh ha
    · exact fun hp => h.fresh fd' ha ((hpool fd' hne).mp hp)

/-- Every step keeps the wake-ups single, the look-up of a client that is not there yet included. -/
theorem Sound.transition {a : Action} (h : S.Sound) (ht : S.Transition a S') : S'.Sound := by
  obtain ⟨holder, h⟩ := h
  cases ht with
  | stays => exact ⟨holder, h⟩
  | registered fd free unused => exact ⟨_, h.registered free unused⟩
  | spawned fd pending => exact ⟨holder, h.spawned pending⟩
  | took n fds idle nodup ready => exact ⟨_, h.took idle nodup ready⟩
  | found n fd buffer taken known => exact ⟨holder, h.advanced (by rw [taken]; rfl) rfl known⟩
  | dropped n fd buffer taken unknown =>
    have hev : (S.workers n).events = fd :: buffer := by rw [taken]; rfl
    have hheld : S.armed fd = false := by
      have hholder := (h.events n fd).mp (by rw [hev]; exact List.mem_cons_self)
      by_contra hne
      have harmed := (h.armed fd).mp (by simpa using hne)
      rw [hholder] at harmed
      cases harmed
    have hsame : { S.setWorker n ⟨.between, buffer⟩ with pool := S.pool, armed := Function.update S.armed fd false } =
        S.setWorker n ⟨.between, buffer⟩ := by
      rw [← hheld, Function.update_eq_self]
      rfl
    rw [← hsame]
    exact ⟨_, h.released hev (fun _ _ => Iff.rfl) (fun hh => by cases hh) (fun _ => unknown)⟩
  | handled n fd buffer alive looked =>
    have hp : fd ∈ S.pool := h.stage n fd (by rw [looked]; exact List.mem_singleton.mpr rfl)
    exact ⟨holder, h.advanced (by rw [looked]; rfl) rfl hp⟩
  | rearmed n fd buffer looked =>
    have hp : fd ∈ S.pool := h.stage n fd (by rw [looked]; exact List.mem_singleton.mpr rfl)
    exact ⟨_, h.released (by rw [looked]; rfl) (fun _ _ => Iff.rfl) (fun _ => hp) (fun ha => h.fresh fd ha)⟩
  | closed n fd buffer looked =>
    refine ⟨_, h.released (by rw [looked]; rfl) (fun fd' hne => ?_) (fun hh => by cases hh) (fun _ => ?_)⟩
    · simp [hne]
    · simp

theorem Sound.step (h : S.Sound) (a : Action) : (S.step a).Sound := h.transition (step_transition S a)

/-- No client is with two workers. -/
theorem Sound.unique (h : S.Sound) {m n fd : Nat} (hm : fd ∈ (S.workers m).events) (hn : fd ∈ (S.workers n).events) :
    m = n := by
  obtain ⟨holder, h⟩ := h
  have hsame := ((h.events m fd).mp hm).symm.trans ((h.events n fd).mp hn)
  cases hsame
  rfl

end Service

end Wakeups

end TinDox
