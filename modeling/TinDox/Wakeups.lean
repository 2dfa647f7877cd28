import TinDox.Runs
import Mathlib.Data.List.Nodup

/-! One-shot wake-ups. The accepting thread registers a descriptor and then inserts its client;
workers take events, which disarms the descriptors, look the clients up, handle them and rearm or
close them. An event whose descriptor has no client is dropped. -/

namespace TinDox

namespace Wakeups

/-- Where a worker is with the event at hand. -/
inductive Stage where
  | between
  | serving (fd : Nat)
  | served (fd : Nat) (alive : Bool)
  deriving DecidableEq

def Stage.fd : Stage → List Nat
  | between => []
  | serving fd | served fd _ => [fd]

/-- A thread of `ClientService::main_loop`: the events of its buffer that are still to be looked
up, and the client it has looked up. -/
structure Worker where
  stage : Stage
  buffer : List Nat
  deriving DecidableEq

def Worker.events (w : Worker) : List Nat := w.stage.fd ++ w.buffer

/-- `accepting` is a descriptor that `add_device` has registered and whose client
`spawn_client` has not inserted yet. -/
structure Service where
  pool : List Nat
  armed : Nat → Bool
  accepting : Option Nat
  workers : Nat → Worker

def start : Service := ⟨[], fun _ => false, none, fun _ => ⟨.between, []⟩⟩

inductive Action where
  | addDevice (fd : Nat)
  | spawnClient
  | waitForEvents (worker : Nat) (fds : List Nat)
  | lookUp (worker : Nat)
  | handle (worker : Nat) (alive : Bool)
  | rearmDevice (worker : Nat)
  deriving DecidableEq

namespace Service

def setWorker (S : Service) (n : Nat) (w : Worker) : Service :=
  { S with workers := Function.update S.workers n w }

/-- One atomic step; an action that is not the next one of its thread does nothing. A new
connection gets a descriptor that no client has, and a wait reports armed descriptors. -/
def step (S : Service) : Action → Service
  | .addDevice fd =>
    if S.accepting = none ∧ fd ∉ S.pool then
      { S with armed := Function.update S.armed fd true, accepting := some fd }
    else S
  | .spawnClient =>
    match S.accepting with
    | some fd => { S with pool := S.pool ++ [fd], accepting := none }
    | none => S
  | .waitForEvents n fds =>
    if S.workers n = ⟨.between, []⟩ ∧ fds.Nodup ∧ ∀ fd ∈ fds, S.armed fd = true then
      { S.setWorker n ⟨.between, fds⟩ with armed := fun fd => if fd ∈ fds then false else S.armed fd }
    else S
  | .lookUp n =>
    match S.workers n with
    | ⟨.between, fd :: buffer⟩ =>
      if fd ∈ S.pool then S.setWorker n ⟨.serving fd, buffer⟩ else S.setWorker n ⟨.between, buffer⟩
    | _ => S
  | .handle n alive =>
    match S.workers n with
    | ⟨.serving fd, buffer⟩ => S.setWorker n ⟨.served fd alive, buffer⟩
    | _ => S
  | .rearmDevice n =>
    match S.workers n with
    | ⟨.served fd true, buffer⟩ =>
      { S.setWorker n ⟨.between, buffer⟩ with armed := Function.update S.armed fd true }
    | ⟨.served fd false, buffer⟩ =>
      { S.setWorker n ⟨.between, buffer⟩ with
        pool := S.pool.filter (· ≠ fd)
        armed := Function.update S.armed fd false }
    | _ => S

/-- Everything a step can do. -/
inductive Transition (S : Service) : Action → Service → Prop
  | stays (a : Action) : Transition S a S
  | registered (fd : Nat) (free : S.accepting = none) (unused : fd ∉ S.pool) :
      Transition S (.addDevice fd) { S with armed := Function.update S.armed fd true, accepting := some fd }
  | spawned (fd : Nat) (pending : S.accepting = some fd) :
      Transition S .spawnClient { S with pool := S.pool ++ [fd], accepting := none }
  | took (n : Nat) (fds : List Nat) (idle : S.workers n = ⟨.between, []⟩) (nodup : fds.Nodup)
      (ready : ∀ fd ∈ fds, S.armed fd = true) :
      Transition S (.waitForEvents n fds)
        { S.setWorker n ⟨.between, fds⟩ with armed := fun fd => if fd ∈ fds then false else S.armed fd }
  | found (n fd : Nat) (buffer : List Nat) (taken : S.workers n = ⟨.between, fd :: buffer⟩) (known : fd ∈ S.pool) :
      Transition S (.lookUp n) (S.setWorker n ⟨.serving fd, buffer⟩)
  | dropped (n fd : Nat) (buffer : List Nat) (taken : S.workers n = ⟨.between, fd :: buffer⟩)
      (unknown : fd ∉ S.pool) : Transition S (.lookUp n) (S.setWorker n ⟨.between, buffer⟩)
  | handled (n fd : Nat) (buffer : List Nat) (alive : Bool) (looked : S.workers n = ⟨.serving fd, buffer⟩) :
      Transition S (.handle n alive) (S.setWorker n ⟨.served fd alive, buffer⟩)
  | rearmed (n fd : Nat) (buffer : List Nat) (looked : S.workers n = ⟨.served fd true, buffer⟩) :
      Transition S (.rearmDevice n)
        { S.setWorker n ⟨.between, buffer⟩ with armed := Function.update S.armed fd true }
  | closed (n fd : Nat) (buffer : List Nat) (looked : S.workers n = ⟨.served fd false, buffer⟩) :
      Transition S (.rearmDevice n)
        { S.setWorker n ⟨.between, buffer⟩ with
          pool := S.pool.filter (· ≠ fd)
          armed := Function.update S.armed fd false }

theorem step_transition (S : Service) (a : Action) : S.Transition a (S.step a) := by
  cases a with
  | addDevice fd =>
    rw [step]
    split
    · rename_i h
      exact .registered fd h.1 h.2
    · exact .stays _
  | spawnClient =>
    cases h : S.accepting with
    | none => simpa only [step, h] using .stays _
    | some fd => simpa only [step, h] using .spawned fd h
  | waitForEvents n fds =>
    rw [step]
    split
    · rename_i h
      exact .took n fds h.1 h.2.1 h.2.2
    · exact .stays _
  | lookUp n =>
    rw [step]
    split
    · rename_i fd buffer h
      split
      · exact .found n fd buffer h ‹_›
      · exact .dropped n fd buffer h ‹_›
    · exact .stays _
  | handle n alive =>
    rw [step]
    split
    · exact .handled n _ _ alive ‹_›
    · exact .stays _
  | rearmDevice n =>
    rw [step]
    split
    · exact .rearmed n _ _ ‹_›
    · exact .closed n _ _ ‹_›
    · exact .stays _

/-- Who can be where: an event is with one worker at most and its descriptor is then disarmed; a
client that has been looked up stays in the pool; and no descriptor that is in the pool or about to
get there is without its wake-up. -/
structure Inv (S : Service) : Prop where
  stage : ∀ n fd, fd ∈ (S.workers n).stage.fd → fd ∈ S.pool
  buffer : ∀ n fd, fd ∈ (S.workers n).buffer → fd ∈ S.pool ∨ S.accepting = some fd
  nodup : ∀ n, (S.workers n).events.Nodup
  unique : ∀ m n fd, fd ∈ (S.workers m).events → fd ∈ (S.workers n).events → m = n
  disarmed : ∀ n fd, fd ∈ (S.workers n).events → S.armed fd = false
  armed : ∀ fd, S.armed fd = true → fd ∈ S.pool ∨ S.accepting = some fd
  awake : ∀ fd, fd ∈ S.pool ∨ S.accepting = some fd → S.armed fd = true ∨ ∃ n, fd ∈ (S.workers n).events
  fresh : ∀ fd, S.accepting = some fd → fd ∉ S.pool

theorem inv_start : start.Inv where
  stage _ _ h := by simp [start, Stage.fd] at h
  buffer _ _ h := by simp [start] at h
  nodup _ := by simp [start, Worker.events, Stage.fd]
  unique _ _ _ h := by simp [start, Worker.events, Stage.fd] at h
  disarmed _ _ _ := rfl
  armed _ h := by simp [start] at h
  awake _ h := by simp [start] at h
  fresh _ h := by simp [start] at h

variable {S : Service}

theorem Inv.known (h : S.Inv) {n fd : Nat} (he : fd ∈ (S.workers n).events) :
    fd ∈ S.pool ∨ S.accepting = some fd := by
  rcases List.mem_append.mp he with hs | hb
  · exact .inl (h.stage n fd hs)
  · exact h.buffer n fd hb

theorem Inv.mem_events_release (h : S.Inv) {n fd : Nat} {buffer : List Nat} {stage : Stage}
    (hw : S.workers n = ⟨stage, buffer⟩) (hs : stage.fd = [fd]) (m fd' : Nat) :
    fd' ∈ ((S.setWorker n ⟨.between, buffer⟩).workers m).events ↔
      fd' ∈ (S.workers m).events ∧ fd' ≠ fd := by
  have hev : (S.workers n).events = fd :: buffer := by rw [hw, Worker.events, hs]; rfl
  have hnd := h.nodup n
  rw [hev, List.nodup_cons] at hnd
  by_cases hm : m = n
  · subst m
    simp only [setWorker, Function.update_self, hev]
    constructor
    · intro hb
      have hb' : fd' ∈ buffer := hb
      exact ⟨List.mem_cons_of_mem _ hb', fun he => hnd.1 (he ▸ hb')⟩
    · rintro ⟨hmem, hne⟩
      exact (List.mem_cons.mp hmem).resolve_left hne
  · simp only [setWorker, Function.update_of_ne hm]
    refine ⟨fun he => ⟨he, ?_⟩, fun he => he.1⟩
    rintro rfl
    exact hm (h.unique m n fd' he (by simp [hev]))

/-- A worker does not look an event up while its client is still to be inserted. -/
def LooksUpInserted (S : Service) : Action → Prop
  | .lookUp n => ∀ fd ∈ (S.workers n).buffer.head?, S.accepting ≠ some fd
  | _ => True

instance (S : Service) (a : Action) : Decidable (S.LooksUpInserted a) := by
  cases a <;> unfold LooksUpInserted <;> infer_instance

theorem Inv.registered (h : S.Inv) {fd : Nat} (free : S.accepting = none) (unused : fd ∉ S.pool) :
    Inv { S with armed := Function.update S.armed fd true, accepting := some fd } where
  stage := h.stage
  buffer n fd' hb := by
    rcases h.buffer n fd' hb with hp | ha
    · exact .inl hp
    · simp [free] at ha
  nodup := h.nodup
  unique := h.unique
  disarmed n fd' he := by
    have hne : fd' ≠ fd := by
      rintro rfl
      rcases h.known he with hp | ha
      · exact unused hp
      · simp [free] at ha
    simpa [hne] using h.disarmed n fd' he
  armed fd' ha := by
    by_cases hne : fd' = fd
    · exact .inr (by rw [hne])
    · rcases h.armed fd' (by simpa [hne] using ha) with hp | hacc
      · exact .inl hp
      · simp [free] at hacc
  awake fd' hk := by
    by_cases hne : fd' = fd
    · exact .inl (by simp [hne])
    · have hp : fd' ∈ S.pool := hk.resolve_right (fun ha => hne (Option.some.inj ha).symm)
      simpa [hne] using h.awake fd' (.inl hp)
  fresh fd' ha := Option.some.inj ha ▸ unused

theorem Inv.spawned (h : S.Inv) {fd : Nat} (pending : S.accepting = some fd) :
    Inv { S with pool := S.pool ++ [fd], accepting := none } where
  stage n fd' hs := List.mem_append_left _ (h.stage n fd' hs)
  buffer n fd' hb := by
    rcases h.buffer n fd' hb with hp | ha
    · exact .inl (List.mem_append_left _ hp)
    · obtain rfl : fd = fd' := Option.some.inj (pending.symm.trans ha)
      exact .inl (by simp)
  nodup := h.nodup
  unique := h.unique
  disarmed := h.disarmed
  armed fd' ha := by
    rcases h.armed fd' ha with hp | hacc
    · exact .inl (List.mem_append_left _ hp)
    · obtain rfl : fd = fd' := Option.some.inj (pending.symm.trans hacc)
      exact .inl (by simp)
  awake fd' hk := by
    have hp : fd' ∈ S.pool ++ [fd] := hk.resolve_right (by simp)
    rcases List.mem_append.mp hp with hp | hp
    · exact h.awake fd' (.inl hp)
    · obtain rfl := List.mem_singleton.mp hp
      exact h.awake fd' (.inr pending)
  fresh _ ha := by simp at ha

theorem Inv.took (h : S.Inv) {n : Nat} {fds : List Nat} (idle : S.workers n = ⟨.between, []⟩) (hnd : fds.Nodup)
    (ready : ∀ fd ∈ fds, S.armed fd = true) :
    Inv { S.setWorker n ⟨.between, fds⟩ with armed := fun fd => if fd ∈ fds then false else S.armed fd } := by
  have hev : ∀ m fd, fd ∈ ((S.setWorker n ⟨.between, fds⟩).workers m).events ↔
      m = n ∧ fd ∈ fds ∨ m ≠ n ∧ fd ∈ (S.workers m).events := by
    intro m fd
    by_cases hm : m = n
    · subst m
      simp [setWorker, Worker.events, Stage.fd]
    · simp [setWorker, hm]
  have hout : ∀ m fd, fd ∈ (S.workers m).events → fd ∉ fds := by
    intro m fd he hf
    exact absurd (ready fd hf) (by simp [h.disarmed m fd he])
  refine ⟨?_, ?_, ?_, ?_, ?_, ?_, ?_, h.fresh⟩
  · intro m fd hs
    by_cases hm : m = n
    · subst m
      simp [setWorker, Stage.fd] at hs
    · exact h.stage m fd (by simpa [setWorker, hm] using hs)
  · intro m fd hb
    by_cases hm : m = n
    · subst m
      exact h.armed fd (ready fd (by simpa [setWorker] using hb))
    · exact h.buffer m fd (by simpa [setWorker, hm] using hb)
  · intro m
    by_cases hm : m = n
    · subst m
      simpa [setWorker, Worker.events, Stage.fd] using hnd
    · simpa [setWorker, hm] using h.nodup m
  · intro m m' fd he he'
    rcases (hev m fd).mp he with ⟨hm, hf⟩ | ⟨hm, hold⟩
    · rcases (hev m' fd).mp he' with ⟨hm', -⟩ | ⟨-, hold'⟩
      · rw [hm, hm']
      · exact absurd hf (hout m' fd hold')
    · rcases (hev m' fd).mp he' with ⟨-, hf'⟩ | ⟨-, hold'⟩
      · exact absurd hf' (hout m fd hold)
      · exact h.unique m m' fd hold hold'
  · intro m fd he
    rcases (hev m fd).mp he with ⟨rfl, hf⟩ | ⟨hm, he⟩
    · simp [hf]
    · simpa [hout m fd he] using h.disarmed m fd he
  · intro fd ha
    by_cases hf : fd ∈ fds
    · simp [hf] at ha
    · exact h.armed fd (by simpa [hf] using ha)
  · intro fd hk
    by_cases hf : fd ∈ fds
    · exact .inr ⟨n, (hev n fd).mpr (.inl ⟨rfl, hf⟩)⟩
    · rcases h.awake fd hk with ha | ⟨m, he⟩
      · exact .inl (by simpa [hf] using ha)
      · have hm : m ≠ n := by
          rintro rfl
          simp [idle, Worker.events, Stage.fd] at he
        exact .inr ⟨m, (hev m fd).mpr (.inr ⟨hm, he⟩)⟩

theorem Inv.advanced (h : S.Inv) {n : Nat} (fd : Nat) {w : Worker} (hev : w.events = (S.workers n).events)
    (hstage : w.stage.fd = [fd]) (hp : fd ∈ S.pool) : (S.setWorker n w).Inv := by
  have hsame : ∀ m, ((S.setWorker n w).workers m).events = (S.workers m).events := by
    intro m
    by_cases hm : m = n
    · subst m
      simpa [setWorker] using hev
    · simp [setWorker, hm]
  refine ⟨?_, ?_, ?_, ?_, ?_, h.armed, ?_, h.fresh⟩
  · intro m fd' hs
    by_cases hm : m = n
    · subst m
      simp only [setWorker, Function.update_self, hstage] at hs
      exact List.mem_singleton.mp hs ▸ hp
    · exact h.stage m fd' (by simpa [setWorker, hm] using hs)
  · intro m fd' hb
    have he : fd' ∈ ((S.setWorker n w).workers m).events := List.mem_append_right _ hb
    rw [hsame] at he
    exact h.known he
  · intro m
    rw [hsame]
    exact h.nodup m
  · intro m m' fd' he he'
    rw [hsame] at he he'
    exact h.unique m m' fd' he he'
  · intro m fd' he
    rw [hsame] at he
    exact h.disarmed m fd' he
  · intro fd' hk
    rcases h.awake fd' hk with ha | ⟨m, he⟩
    · exact .inl ha
    · exact .inr ⟨m, by rw [hsame]; exact he⟩

theorem Inv.released (h : S.Inv) {n fd : Nat} {buffer : List Nat} {stage : Stage}
    (hw : S.workers n = ⟨stage, buffer⟩) (hs : stage.fd = [fd]) {pool : List Nat} {armed : Nat → Bool}
    (hpool : ∀ fd', fd' ≠ fd → (fd' ∈ pool ↔ fd' ∈ S.pool)) (harmed : ∀ fd', fd' ≠ fd → armed fd' = S.armed fd')
    (hfd : fd ∈ pool ↔ armed fd = true) :
    Inv { S.setWorker n ⟨.between, buffer⟩ with pool := pool, armed := armed } := by
  have hev := h.mem_events_release hw hs
  have hp : fd ∈ S.pool := h.stage n fd (by simp [hw, hs])
  refine ⟨?_, ?_, ?_, ?_, ?_, ?_, ?_, ?_⟩
  · intro m fd' hstage
    obtain ⟨-, hne⟩ := (hev m fd').mp (List.mem_append_left _ hstage)
    by_cases hm : m = n
    · subst m
      simp [setWorker, Stage.fd] at hstage
    · exact (hpool fd' hne).mpr (h.stage m fd' (by simpa [setWorker, hm] using hstage))
  · intro m fd' hb
    obtain ⟨he, hne⟩ := (hev m fd').mp (List.mem_append_right _ hb)
    rcases h.known he with hk | ha
    · exact .inl ((hpool fd' hne).mpr hk)
    · exact .inr ha
  · intro m
    by_cases hm : m = n
    · subst m
      have hnd := h.nodup n
      rw [hw, Worker.events, hs] at hnd
      simpa [setWorker, Worker.events, Stage.fd] using (List.nodup_cons.mp hnd).2
    · simpa [setWorker, hm] using h.nodup m
  · intro m m' fd' he he'
    exact h.unique m m' fd' ((hev m fd').mp he).1 ((hev m' fd').mp he').1
  · intro m fd' he
    obtain ⟨he, hne⟩ := (hev m fd').mp he
    exact (harmed fd' hne).trans (h.disarmed m fd' he)
  · intro fd' ha
    by_cases hne : fd' = fd
    · subst fd'
      exact .inl (hfd.mpr ha)
    · rcases h.armed fd' ((harmed fd' hne).symm.trans ha) with hk | hacc
      · exact .inl ((hpool fd' hne).mpr hk)
      · exact .inr hacc
  · intro fd' hk
    by_cases hne : fd' = fd
    · subst fd'
      rcases hk with hk | hacc
      · exact .inl (hfd.mp hk)
      · exact absurd hp (h.fresh fd hacc)
    · rcases h.awake fd' (hk.imp_left (hpool fd' hne).mp) with ha | ⟨m, he⟩
      · exact .inl ((harmed fd' hne).trans ha)
      · exact .inr ⟨m, (hev m fd').mpr ⟨he, hne⟩⟩
  · intro fd' hacc hk
    by_cases hne : fd' = fd
    · subst fd'
      exact h.fresh fd hacc hp
    · exact h.fresh fd' hacc ((hpool fd' hne).mp hk)

theorem Inv.transition (h : S.Inv) {a : Action} {S' : Service} (hok : S.LooksUpInserted a)
    (ht : S.Transition a S') : S'.Inv := by
  cases ht with
  | stays => exact h
  | registered fd free unused => exact h.registered free unused
  | spawned fd pending => exact h.spawned pending
  | took n fds idle nodup ready => exact h.took idle nodup ready
  | found n fd buffer taken known =>
    exact h.advanced fd (by rw [taken]; rfl) rfl known
  | dropped n fd buffer taken unknown =>
    -- under the condition a taken event always has its client
    have hacc : S.accepting ≠ some fd := hok fd (by simp [taken])
    rcases h.buffer n fd (by simp [taken]) with hp | ha
    · exact absurd hp unknown
    · exact absurd ha hacc
  | handled n fd buffer alive looked =>
    have hp : fd ∈ S.pool := h.stage n fd (by simp [looked, Stage.fd])
    exact h.advanced fd (by rw [looked]; rfl) rfl hp
  | rearmed n fd buffer looked =>
    have hp : fd ∈ S.pool := h.stage n fd (by simp [looked, Stage.fd])
    exact h.released looked rfl (fun _ _ => Iff.rfl) (fun fd' hne => by simp [hne])
      (by simpa [setWorker] using hp)
  | closed n fd buffer looked =>
    exact h.released looked rfl (fun fd' hne => by simp [hne]) (fun fd' hne => by simp [hne]) (by simp)

/-- The worker has looked the client up, and however it handles it, it rearms or closes it. -/
def Serves (S : Service) (n fd : Nat) : Prop :=
  fd ∈ (S.workers n).stage.fd ∧ ∀ alive,
    let S' := Runs.run step S [.handle n alive, .rearmDevice n]
    S'.armed fd = true ∨ fd ∉ S'.pool

theorem serves_of_stage {n fd : Nat} (h : fd ∈ (S.workers n).stage.fd) : S.Serves n fd := by
  refine ⟨h, fun alive => ?_⟩
  rcases hw : S.workers n with ⟨stage, buffer⟩
  rw [hw] at h
  cases stage with
  | between => simp [Stage.fd] at h
  | serving fd' =>
    obtain rfl : fd = fd' := by simpa [Stage.fd] using h
    cases alive <;> simp [step, hw, setWorker]
  | served fd' alive' =>
    obtain rfl : fd = fd' := by simpa [Stage.fd] using h
    cases alive' <;> simp [step, hw, setWorker]

end Service

open Service

/-- While no event is looked up between the registration and the insertion of its client, every
client is armed, or its event is with a worker: looked up, and then it is rearmed or closed, or taken
and still to be looked up. Where no taken event awaits its look-up, only the first two are left. -/
theorem clients_awake {S : Service} (h : Runs.Reaches step LooksUpInserted start S) :
    (∀ fd ∈ S.pool, S.armed fd = true ∨ (∃ n, S.Serves n fd) ∨ ∃ n, fd ∈ (S.workers n).buffer) ∧
    ((∀ n, (S.workers n).buffer = []) → ∀ fd ∈ S.pool, S.armed fd = true ∨ ∃ n, S.Serves n fd) := by
  have hS : S.Inv := h.invariant inv_start (fun S a hS ha => hS.transition ha (step_transition S a))
  have hall : ∀ fd ∈ S.pool, S.armed fd = true ∨ (∃ n, S.Serves n fd) ∨ ∃ n, fd ∈ (S.workers n).buffer := by
    intro fd hp
    rcases hS.awake fd (.inl hp) with ha | ⟨n, he⟩
    · exact .inl ha
    · rcases List.mem_append.mp he with hs | hb
      · exact .inr (.inl ⟨n, serves_of_stage hs⟩)
      · exact .inr (.inr ⟨n, hb⟩)
  refine ⟨hall, fun hempty fd hp => ?_⟩
  rcases hall fd hp with ha | hs | ⟨n, hb⟩
  · exact .inl ha
  · exact .inr hs
  · simp [hempty n] at hb

theorem clients_awake_served :
    let S := Runs.run step start [.addDevice 5, .spawnClient, .waitForEvents 0 [5], .lookUp 0]
    5 ∈ S.pool ∧
    ∀ fd ∈ S.pool, S.armed fd = true ∨ (∃ n, S.Serves n fd) ∨ ∃ n, fd ∈ (S.workers n).buffer :=
  ⟨by decide, (clients_awake (Runs.AllMeet.reaches (by decide))).1⟩

/-- A client that is not armed and whose event nobody holds. -/
structure Lost (S : Service) (fd : Nat) : Prop where
  inserted : fd ∈ S.pool
  disarmed : S.armed fd = false
  unheld : ∀ n, fd ∉ (S.workers n).events

theorem Lost.transition {S S' : Service} {fd : Nat} {a : Action} (h : Lost S fd) (ht : S.Transition a S') :
    Lost S' fd := by
  have hset : ∀ (n : Nat) (w : Worker), fd ∉ w.events → ∀ m, fd ∉ ((S.setWorker n w).workers m).events := by
    intro n w hw m
    by_cases hm : m = n
    · subst m
      simpa [setWorker] using hw
    · simpa [setWorker, hm] using h.unheld m
  cases ht with
  | stays => exact h
  | registered fd' free unused =>
    have hne : fd ≠ fd' := fun he => unused (he ▸ h.inserted)
    exact ⟨h.inserted, by simpa [hne] using h.disarmed, h.unheld⟩
  | spawned fd' pending => exact ⟨List.mem_append_left _ h.inserted, h.disarmed, h.unheld⟩
  | took n fds idle nodup ready =>
    have hf : fd ∉ fds := fun hf => by simpa [h.disarmed] using ready fd hf
    exact ⟨h.inserted, by simpa [hf] using h.disarmed, hset n _ (by simpa [Worker.events, Stage.fd] using hf)⟩
  | found n fd' buffer taken known =>
    have hn := h.unheld n
    rw [taken] at hn
    exact ⟨h.inserted, h.disarmed, hset n _ hn⟩
  | dropped n fd' buffer taken unknown =>
    have hn := h.unheld n
    rw [taken] at hn
    exact ⟨h.inserted, h.disarmed, hset n _ (fun hm => hn (List.mem_cons_of_mem fd' hm))⟩
  | handled n fd' buffer alive looked =>
    have hn := h.unheld n
    rw [looked] at hn
    exact ⟨h.inserted, h.disarmed, hset n _ hn⟩
  | rearmed n fd' buffer looked =>
    have hn := h.unheld n
    rw [looked] at hn
    have hne : fd ≠ fd' := fun he => hn (by simp [Worker.events, Stage.fd, he])
    exact ⟨h.inserted, by simpa [hne] using h.disarmed, hset n _ (fun hm => hn (List.mem_cons_of_mem fd' hm))⟩
  | closed n fd' buffer looked =>
    have hn := h.unheld n
    rw [looked] at hn
    have hne : fd ≠ fd' := fun he => hn (by simp [Worker.events, Stage.fd, he])
    exact ⟨by simpa [hne] using h.inserted, by simpa [hne] using h.disarmed,
      hset n _ (fun hm => hn (List.mem_cons_of_mem fd' hm))⟩

/-- Nothing wakes such a client up again. -/
theorem Lost.run {S : Service} {fd : Nat} (h : Lost S fd) (as : List Action) : Lost (Runs.run step S as) fd := by
  induction as generalizing S with
  | nil => exact h
  | cons a as ih => exact ih (h.transition (step_transition S a))

/-- The event is taken and looked up before the client is inserted: it is dropped. -/
theorem lost_early_lookUp :
    Lost (Runs.run step start [.addDevice 5, .waitForEvents 0 [5], .lookUp 0, .spawnClient]) 5 := by
  refine ⟨by decide, by decide, fun n => ?_⟩
  simp [step, start, setWorker, Worker.events, Stage.fd]

theorem clients_not_awake :
    ¬ ∀ as : List Action, ∀ fd ∈ (Runs.run step start as).pool,
      (Runs.run step start as).armed fd = true ∨
        (∃ n, (Runs.run step start as).Serves n fd) ∨ ∃ n, fd ∈ ((Runs.run step start as).workers n).buffer := by
  intro hall
  have hlost := lost_early_lookUp
  rcases hall _ 5 hlost.inserted with ha | ⟨n, hs⟩ | ⟨n, hb⟩
  · rw [hlost.disarmed] at ha
    cases ha
  · exact hlost.unheld n (List.mem_append_left _ hs.1)
  · exact hlost.unheld n (List.mem_append_right _ hb)

end Wakeups

end TinDox
