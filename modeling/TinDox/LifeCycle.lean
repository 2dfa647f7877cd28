import TinDox.Holders
import Mathlib.Data.List.Induction

/-! The life of a server, from its first wait to the end of its main loop. The main thread accepts
connections as long as there is room for them, and it stops the workers on a signal or when the
listener throws: it writes to the pipe they all wait for, joins them and closes their clients. What is
left of its own batch of events is still handled after that. -/

namespace TinDox

open Wakeups (Service Worker Stage)

namespace LifeCycle

/-- The numbers of `ServerConfig` that the threads depend on. -/
structure Config where
  maxUserCount : Nat
  maxThreadCount : Nat

inductive MainEvent where
  | signal
  | listener
  deriving DecidableEq

/-- Where the main thread is with its batch of events: `handle_connection` has compared the number of
clients when it is `admitted`, and `add_device` has returned when it is `registered`. -/
inductive MainStage where
  | waiting
  | handling (rest : List MainEvent)
  | admitted (rest : List MainEvent)
  | registered (rest : List MainEvent)
  | joining (rest : List MainEvent)
  | ended
  deriving DecidableEq

namespace MainStage

def rest : MainStage → List MainEvent
  | waiting | ended => []
  | handling rest | admitted rest | registered rest | joining rest => rest

/-- It neither inserts a client nor joins the workers. -/
def isFree : MainStage → Bool
  | registered _ | joining _ => false
  | _ => true

/-- The connections that the main thread has at hand. -/
def atHand : MainStage → Nat
  | admitted _ | registered _ => 1
  | _ => 0

end MainStage

/-- `buffer` is the batch of events that the main thread has got last. `leaving` are the workers that have
read of the stop signal, `exited` those that have returned, and `stuck` those whose call of `Client::handle`
never returns. -/
structure Process where
  service : Service
  main : MainStage
  buffer : List MainEvent
  running : Bool
  stopSignal : Bool
  leaving : Nat → Bool
  exited : Nat → Bool
  stuck : Nat → Bool

def start : Process := ⟨Wakeups.start, .waiting, [], true, false, fun _ => false, fun _ => false, fun _ => false⟩

inductive Action where
  | wait (events : List MainEvent)
  | next
  | acceptThrows
  | addDevice (fd : Nat)
  | addThrows
  | spawnClient
  | join
  | waitForEvents (worker : Nat) (fds : List Nat) (pipe : Bool)
  | lookUp (worker : Nat)
  | handle (worker : Nat) (alive : Bool)
  | hang (worker : Nat)
  | rearmDevice (worker : Nat)
  | leave (worker : Nat)
  deriving DecidableEq

namespace Process

/-- `Server::stop` up to the joins. -/
def stop (P : Process) (rest : List MainEvent) : Process :=
  if P.running then { P with running := false, stopSignal := true, main := .joining rest }
  else { P with main := .handling rest }

/-- `ClientPool::close_all`; a descriptor that is closed leaves the epoll device. -/
def closeAll (S : Service) : Service := { S with pool := [], armed := fun _ => false }

/-- One atomic step of a thread; an action that is not the next one of its thread does nothing. The
stop signal is never read from the pipe. When the listener throws, the main loop is left and the
destructor stops the server. -/
def step (cfg : Config) (P : Process) : Action → Process
  | .wait events => if P.main = .waiting ∧ events.Nodup then { P with main := .handling events, buffer := events } else P
  | .next =>
    match P.main with
    | .handling [] => { P with main := if P.running then .waiting else .ended }
    | .handling (.signal :: rest) => P.stop rest
    | .handling (.listener :: rest) =>
      { P with main := if P.service.pool.length < cfg.maxUserCount then .admitted rest else .handling rest }
    | _ => P
  | .acceptThrows =>
    match P.main with
    | .handling (.listener :: _) => P.stop []
    | _ => P
  | .addDevice fd =>
    match P.main with
    | .admitted rest =>
      if fd ∈ P.service.pool then P else { P with service := P.service.step (.addDevice fd), main := .registered rest }
    | _ => P
  | .addThrows =>
    match P.main with
    | .admitted rest => { P with main := .handling rest }
    | _ => P
  | .spawnClient =>
    match P.main with
    | .registered rest => { P with service := P.service.step .spawnClient, main := .handling rest }
    | _ => P
  | .join =>
    match P.main with
    | .joining rest =>
      if ∀ n < cfg.maxThreadCount, P.exited n = true then
        { P with service := closeAll P.service, main := .handling rest }
      else P
    | _ => P
  | .waitForEvents n fds pipe =>
    if n < cfg.maxThreadCount ∧ P.service.workers n = ⟨.between, []⟩ ∧ P.leaving n = false ∧
        (pipe = true → P.stopSignal = true) then
      { P with service := P.service.step (.waitForEvents n fds), leaving := Function.update P.leaving n pipe }
    else P
  | .lookUp n => { P with service := P.service.step (.lookUp n) }
  | .handle n alive => if P.stuck n then P else { P with service := P.service.step (.handle n alive) }
  | .hang n =>
    match P.service.workers n with
    | ⟨.serving _, _⟩ => { P with stuck := Function.update P.stuck n true }
    | _ => P
  | .rearmDevice n => { P with service := P.service.step (.rearmDevice n) }
  | .leave n =>
    if P.leaving n = true ∧ P.service.workers n = ⟨.between, []⟩ then
      { P with exited := Function.update P.exited n true }
    else P

/-- Everything a step can do. -/
inductive Transition (cfg : Config) (P : Process) : Action → Process → Prop
  | stays (a : Action) : Transition cfg P a P
  | waited (events : List MainEvent) (idle : P.main = .waiting) (nodup : events.Nodup) :
      Transition cfg P (.wait events) { P with main := .handling events, buffer := events }
  | looped (done : P.main = .handling []) (running : P.running = true) :
      Transition cfg P .next { P with main := .waiting }
  | ended (done : P.main = .handling []) (stopped : P.running = false) : Transition cfg P .next { P with main := .ended }
  | stopped (a : Action) (event : MainEvent) (later rest : List MainEvent) (taken : P.main = .handling (event :: later))
      (running : P.running = true) (left : rest = later ∧ event = .signal ∨ rest = []) :
      Transition cfg P a { P with running := false, stopSignal := true, main := .joining rest }
  | ignored (a : Action) (event : MainEvent) (later rest : List MainEvent) (taken : P.main = .handling (event :: later))
      (left : rest = later ∨ rest = []) : Transition cfg P a { P with main := .handling rest }
  | admitted (rest : List MainEvent) (taken : P.main = .handling (.listener :: rest))
      (room : P.service.pool.length < cfg.maxUserCount) : Transition cfg P .next { P with main := .admitted rest }
  | registered (fd : Nat) (rest : List MainEvent) (admitted : P.main = .admitted rest) (unused : fd ∉ P.service.pool) :
      Transition cfg P (.addDevice fd) { P with service := P.service.step (.addDevice fd), main := .registered rest }
  | dropped (rest : List MainEvent) (admitted : P.main = .admitted rest) :
      Transition cfg P .addThrows { P with main := .handling rest }
  | spawned (rest : List MainEvent) (registered : P.main = .registered rest) :
      Transition cfg P .spawnClient { P with service := P.service.step .spawnClient, main := .handling rest }
  | joined (rest : List MainEvent) (joining : P.main = .joining rest) (all : ∀ n < cfg.maxThreadCount, P.exited n = true) :
      Transition cfg P .join { P with service := closeAll P.service, main := .handling rest }
  | took (n : Nat) (fds : List Nat) (pipe : Bool) (thread : n < cfg.maxThreadCount)
      (idle : P.service.workers n = ⟨.between, []⟩) (stays : P.leaving n = false)
      (written : pipe = true → P.stopSignal = true) :
      Transition cfg P (.waitForEvents n fds pipe)
        { P with service := P.service.step (.waitForEvents n fds), leaving := Function.update P.leaving n pipe }
  | worked (a : Action) (b : Wakeups.Action) (n : Nat) (alive : Bool)
      (same : a = .lookUp n ∧ b = .lookUp n ∨ a = .handle n alive ∧ b = .handle n alive ∧ P.stuck n = false ∨
        a = .rearmDevice n ∧ b = .rearmDevice n) :
      Transition cfg P a { P with service := P.service.step b }
  | hung (n fd : Nat) (buffer : List Nat) (serving : P.service.workers n = ⟨.serving fd, buffer⟩) :
      Transition cfg P (.hang n) { P with stuck := Function.update P.stuck n true }
  | left (n : Nat) (told : P.leaving n = true) (idle : P.service.workers n = ⟨.between, []⟩) :
      Transition cfg P (.leave n) { P with exited := Function.update P.exited n true }

theorem step_transition (cfg : Config) (P : Process) (a : Action) : P.Transition cfg a (P.step cfg a) := by
  have hstop : ∀ event later rest, P.main = .handling (event :: later) → (rest = later ∧ event = .signal ∨ rest = []) →
      P.Transition cfg a (P.stop rest) := by
    intro event later rest taken left
    unfold stop
    split
    · exact .stopped a event later rest taken ‹_› left
    · exact .ignored a event later rest taken (left.imp_left And.left)
  cases a with
  | wait events =>
    rw [step]
    split
    · rename_i h
      exact .waited events h.1 h.2
    · exact .stays _
  | next =>
    rw [step]
    split
    · rename_i h
      by_cases hr : P.running = true
      · rw [if_pos hr]
        exact .looped h hr
      · rw [if_neg hr]
        exact .ended h (by simpa using hr)
    · rename_i rest h
      exact hstop .signal rest rest h (.inl ⟨rfl, rfl⟩)
    · rename_i rest h
      by_cases hroom : P.service.pool.length < cfg.maxUserCount
      · rw [if_pos hroom]
        exact .admitted rest h hroom
      · rw [if_neg hroom]
        exact .ignored _ .listener rest rest h (.inl rfl)
    · exact .stays _
  | acceptThrows =>
    rw [step]
    split
    · rename_i rest h
      exact hstop .listener rest [] h (.inr rfl)
    · exact .stays _
  | addDevice fd =>
    rw [step]
    split
    · rename_i rest h
      split
      · exact .stays _
      · exact .registered fd rest h ‹_›
    · exact .stays _
  | addThrows =>
    rw [step]
    split
    · exact .dropped _ ‹_›
    · exact .stays _
  | spawnClient =>
    rw [step]
    split
    · exact .spawned _ ‹_›
    · exact .stays _
  | join =>
    rw [step]
    split
    · rename_i rest h
      split
      · exact .joined rest h ‹_›
      · exact .stays _
    · exact .stays _
  | waitForEvents n fds pipe =>
    rw [step]
    split
    · rename_i h
      exact .took n fds pipe h.1 h.2.1 h.2.2.1 h.2.2.2
    · exact .stays _
  | lookUp n => exact .worked _ _ n false (.inl ⟨rfl, rfl⟩)
  | handle n alive =>
    rw [step]
    split
    · exact .stays _
    · rename_i hreturns
      exact .worked _ _ n alive (.inr (.inl ⟨rfl, rfl, by simpa using hreturns⟩))
  | hang n =>
    rw [step]
    split
    · exact .hung n _ _ ‹_›
    · exact .stays _
  | rearmDevice n => exact .worked _ _ n false (.inr (.inr ⟨rfl, rfl⟩))
  | leave n =>
    rw [step]
    split
    · rename_i h
      exact .left n h.1 h.2
    · exact .stays _

end Process

section Workers

variable {S : Service} {a : Wakeups.Action}

/-- What a worker does with its events leaves everything else as it is, but for a client that it closes. -/
structure Works (S S' : Service) : Prop where
  accepting : S'.accepting = S.accepting
  pool : S'.pool.length ≤ S.pool.length
  idle : ∀ m, S.workers m = ⟨.between, []⟩ → S'.workers m = ⟨.between, []⟩

theorem Works.refl (S : Service) : Works S S := ⟨rfl, Nat.le_refl _, fun _ h => h⟩

theorem works_setWorker {n : Nat} {w : Worker} (h : S.workers n ≠ ⟨.between, []⟩) {pool : List Nat} (hpool : pool.length ≤ S.pool.length)
    (armed : Nat → Bool) : Works S { S.setWorker n w with pool := pool, armed := armed } := by
  refine ⟨rfl, hpool, ?_⟩
  intro m hm
  have hne : m ≠ n := by
    rintro rfl
    exact h hm
  show (S.setWorker n w).workers m = _
  rw [Service.workers_setWorker_ne S hne, hm]

theorem works_step {n : Nat} {alive : Bool} (h : a = .lookUp n ∨ a = .handle n alive ∨ a = .rearmDevice n) :
    Works S (S.step a) := by
  have ht := Service.step_transition S a
  generalize S.step a = S' at ht
  cases ht with
  | stays => exact .refl S
  | registered | spawned | took => simp at h
  | found n fd buffer taken known => exact works_setWorker (by simp [taken]) (Nat.le_refl _) S.armed
  | dropped n fd buffer taken unknown => exact works_setWorker (by simp [taken]) (Nat.le_refl _) S.armed
  | handled n fd buffer alive looked => exact works_setWorker (by simp [looked]) (Nat.le_refl _) S.armed
  | rearmed n fd buffer looked => exact works_setWorker (by simp [looked]) (Nat.le_refl _) _
  | closed n fd buffer looked => exact works_setWorker (by simp [looked]) (List.length_filter_le _ _) _

/-- A worker stays in its call of `handle` until the call returns. -/
theorem workers_step_serving {m fd : Nat} {buffer : List Nat} (h : S.workers m = ⟨.serving fd, buffer⟩)
    (hhandle : ∀ alive, a ≠ .handle m alive) : (S.step a).workers m = S.workers m := by
  have ht := Service.step_transition S a
  generalize S.step a = S' at ht
  have hother {n : Nat} {w : Worker} (hw : S.workers n ≠ ⟨.serving fd, buffer⟩) : (S.setWorker n w).workers m = S.workers m := by
    apply Service.workers_setWorker_ne
    rintro rfl
    exact hw h
  cases ht with
  | stays | registered | spawned => rfl
  | took n fds idle => exact hother (by simp [idle])
  | found n fd buffer taken | dropped n fd buffer taken => exact hother (by simp [taken])
  | handled n fd buffer alive looked =>
    apply Service.workers_setWorker_ne
    rintro rfl
    exact hhandle alive rfl
  | rearmed n fd buffer looked | closed n fd buffer looked => exact hother (by simp [looked])

/-- A descriptor whose client is in the pool or about to get there. -/
def Service.Known (S : Service) (fd : Nat) : Prop := fd ∈ S.pool ∨ S.accepting = some fd

theorem known_step {fd : Nat} (h : Service.Known (S.step a) fd) : Service.Known S fd ∨ a = .addDevice fd := by
  have ht := Service.step_transition S a
  generalize S.step a = S' at h ht
  cases ht with
  | registered fd' free unused =>
    rcases h with h | h
    · exact .inl (.inl h)
    · right
      rw [Option.some.inj h]
  | spawned fd' pending =>
    left
    rcases h with h | h
    · rcases List.mem_append.mp h with h | h
      · exact .inl h
      · exact .inr (List.mem_singleton.mp h ▸ pending)
    · cases h
  | stays | took | found | dropped | handled | rearmed => exact .inl h
  | closed n fd' buffer looked => exact .inl (h.imp_left List.mem_of_mem_filter)

end Workers

namespace Process

/-- What holds in every state. After the joins all workers are gone. -/
structure Inv (cfg : Config) (P : Process) : Prop where
  sound : P.service.Sound
  accepting : P.service.accepting ≠ none → ∃ rest, P.main = .registered rest
  room : P.service.pool.length + P.main.atHand ≤ cfg.maxUserCount
  nodup : P.buffer.Nodup
  rest : P.main.rest <:+ P.buffer
  signalled : ∀ rest, P.main = .joining rest → rest = [] ∨ .signal :: rest <:+ P.buffer
  threads : ∀ n, cfg.maxThreadCount ≤ n → P.service.workers n = ⟨.between, []⟩
  leaving : ∀ n, P.leaving n = true → P.stopSignal = true
  exited : ∀ n, P.exited n = true → P.leaving n = true ∧ P.service.workers n = ⟨.between, []⟩
  signal : P.stopSignal = true ↔ P.running = false
  waiting : P.main = .waiting → P.running = true
  joining : ∀ rest, P.main = .joining rest → P.running = false
  joined : P.running = false → (∀ rest, P.main ≠ .joining rest) → ∀ n < cfg.maxThreadCount, P.exited n = true
  stuck : ∀ n, P.stuck n = true → ∃ fd buffer, P.service.workers n = ⟨.serving fd, buffer⟩

theorem inv_start (cfg : Config) : start.Inv cfg where
  sound := Service.sound_start
  accepting h := absurd rfl h
  room := Nat.zero_le _
  nodup := List.nodup_nil
  rest := List.suffix_refl _
  signalled _ h := by cases h
  threads _ _ := rfl
  leaving _ h := by cases h
  exited _ h := by cases h
  signal := by simp [start]
  waiting _ := rfl
  joining _ h := by cases h
  joined h := by cases h
  stuck _ h := by cases h

variable {cfg : Config} {P : Process} {a : Action}

theorem Inv.idle (h : P.Inv cfg) (hr : P.running = false) (hm : ∀ rest, P.main ≠ .joining rest) (n : Nat) :
    P.service.workers n = ⟨.between, []⟩ := by
  by_cases hn : n < cfg.maxThreadCount
  · exact (h.exited n (h.joined hr hm n hn)).2
  · exact h.threads n (by omega)

/-- The workers go on while the main thread stays where it is. -/
theorem Inv.works (h : P.Inv cfg) {S : Service} (hS : S.Sound) (hw : Works P.service S)
    (hstuck : ∀ n, P.stuck n = true → S.workers n = P.service.workers n) : Inv cfg { P with service := S } where
  sound := hS
  accepting hne := h.accepting (by rwa [← hw.accepting])
  room := by
    have hroom := h.room
    have hpool := hw.pool
    show S.pool.length + P.main.atHand ≤ _
    omega
  nodup := h.nodup
  rest := h.rest
  signalled := h.signalled
  threads n hn := hw.idle n (h.threads n hn)
  leaving := h.leaving
  exited n hn := ⟨(h.exited n hn).1, hw.idle n (h.exited n hn).2⟩
  signal := h.signal
  waiting := h.waiting
  joining := h.joining
  joined := h.joined
  stuck n hn := by
    show ∃ fd buffer, S.workers n = _
    rw [hstuck n hn]
    exact h.stuck n hn

theorem Inv.accepting_none (h : P.Inv cfg) (hm : ∀ rest, P.main ≠ .registered rest) : P.service.accepting = none := by
  by_contra hne
  obtain ⟨rest, hrest⟩ := h.accepting hne
  exact hm rest hrest

theorem ne_registered (h : P.main.isFree = true) (rest : List MainEvent) : P.main ≠ .registered rest := by
  intro hm
  rw [hm] at h
  cases h

theorem ne_joining {main : MainStage} (h : main.isFree = true) (rest : List MainEvent) : main ≠ .joining rest := by
  rintro rfl
  cases h

/-- The main thread goes on from one stage to the next. -/
theorem Inv.moves (h : P.Inv cfg) (main : MainStage) (buffer : List MainEvent) (hold : P.main.isFree = true)
    (hnew : main.isFree = true) (hroom : P.service.pool.length + main.atHand ≤ cfg.maxUserCount) (hnodup : buffer.Nodup)
    (hrest : main.rest <:+ buffer) (hwaiting : main = .waiting → P.running = true) :
    Inv cfg { P with main := main, buffer := buffer } where
  sound := h.sound
  accepting hne := absurd (h.accepting_none (ne_registered hold)) hne
  room := hroom
  nodup := hnodup
  rest := hrest
  signalled rest hm := absurd hm (ne_joining hnew rest)
  threads := h.threads
  leaving := h.leaving
  exited := h.exited
  signal := h.signal
  waiting := hwaiting
  joining rest hm := absurd hm (ne_joining hnew rest)
  joined hr _ := h.joined hr (ne_joining hold)
  stuck := h.stuck

theorem Inv.stopped (h : P.Inv cfg) {event : MainEvent} {later rest : List MainEvent} (taken : P.main = .handling (event :: later))
    (left : rest = later ∧ event = .signal ∨ rest = []) :
    Inv cfg { P with running := false, stopSignal := true, main := .joining rest } where
  sound := h.sound
  accepting hne := absurd (h.accepting_none fun r hr => by rw [taken] at hr; cases hr) hne
  room := by
    have hroom := h.room
    rw [taken] at hroom
    exact hroom
  nodup := h.nodup
  rest := by
    have hsuffix := h.rest
    rw [taken] at hsuffix
    rcases left with ⟨rfl, -⟩ | rfl
    · exact (List.suffix_cons event rest).trans hsuffix
    · exact List.nil_suffix
  signalled r hm := by
    cases hm
    have hsuffix := h.rest
    rw [taken] at hsuffix
    rcases left with ⟨rfl, rfl⟩ | rfl
    · exact .inr hsuffix
    · exact .inl rfl
  threads := h.threads
  leaving _ _ := rfl
  exited := h.exited
  signal := ⟨fun _ => rfl, fun _ => rfl⟩
  waiting hm := by cases hm
  joining _ _ := rfl
  joined _ hm := absurd rfl (hm rest)
  stuck := h.stuck

theorem Inv.registered (h : P.Inv cfg) {fd : Nat} {rest : List MainEvent} (admitted : P.main = .admitted rest)
    (unused : fd ∉ P.service.pool) :
    Inv cfg { P with service := P.service.step (.addDevice fd), main := .registered rest } := by
  have hnone : P.service.accepting = none := h.accepting_none fun r hr => by rw [admitted] at hr; cases hr
  have hstep : P.service.step (.addDevice fd) =
      { P.service with armed := Function.update P.service.armed fd true, accepting := some fd } := by
    rw [Service.step, if_pos ⟨hnone, unused⟩]
  have hsound := h.sound.step (.addDevice fd)
  rw [hstep] at hsound ⊢
  have hroom := h.room
  have hrest := h.rest
  rw [admitted] at hroom hrest
  refine ⟨hsound, fun _ => ⟨rest, rfl⟩, hroom, h.nodup, hrest, ?_, h.threads, h.leaving, h.exited, h.signal, ?_, ?_, ?_, h.stuck⟩
  · intro r hm
    cases hm
  · intro hm
    cases hm
  · intro r hm
    cases hm
  · exact fun hr _ => h.joined hr fun r hm => by rw [admitted] at hm; cases hm

theorem Inv.spawned (h : P.Inv cfg) {rest : List MainEvent} (registered : P.main = .registered rest) :
    Inv cfg { P with service := P.service.step .spawnClient, main := .handling rest } := by
  have hsound := h.sound.step .spawnClient
  have hroom := h.room
  have hrest := h.rest
  rw [registered] at hroom hrest
  obtain ⟨haccepting, hworkers, hpool⟩ : (P.service.step .spawnClient).accepting = none ∧
      (P.service.step .spawnClient).workers = P.service.workers ∧
      (P.service.step .spawnClient).pool.length ≤ P.service.pool.length + 1 := by
    rw [Service.step]
    split
    · exact ⟨rfl, rfl, by simp⟩
    · exact ⟨‹_›, rfl, Nat.le_succ _⟩
  refine ⟨hsound, fun hne => absurd haccepting hne, ?_, h.nodup, hrest, ?_, ?_, h.leaving, ?_, h.signal, ?_, ?_, ?_, ?_⟩
  · show (P.service.step .spawnClient).pool.length + 0 ≤ _
    have hone : P.service.pool.length + 1 ≤ cfg.maxUserCount := hroom
    omega
  · intro r hm
    cases hm
  · intro n hn
    show (P.service.step .spawnClient).workers n = _
    rw [hworkers]
    exact h.threads n hn
  · intro n hn
    show _ ∧ (P.service.step .spawnClient).workers n = _
    rw [hworkers]
    exact h.exited n hn
  · intro hm
    cases hm
  · intro r hm
    cases hm
  · exact fun hr _ => h.joined hr fun r hm => by rw [registered] at hm; cases hm
  · intro n hn
    show ∃ fd buffer, (P.service.step .spawnClient).workers n = _
    rw [hworkers]
    exact h.stuck n hn

theorem Inv.joined_step (h : P.Inv cfg) {rest : List MainEvent} (joining : P.main = .joining rest)
    (all : ∀ n < cfg.maxThreadCount, P.exited n = true) :
    Inv cfg { P with service := closeAll P.service, main := .handling rest } := by
  have hnone : P.service.accepting = none := h.accepting_none fun r hr => by rw [joining] at hr; cases hr
  have hidle : ∀ n, P.service.workers n = ⟨.between, []⟩ := by
    intro n
    by_cases hn : n < cfg.maxThreadCount
    · exact (h.exited n (all n hn)).2
    · exact h.threads n (by omega)
  have hrest := h.rest
  rw [joining] at hrest
  refine ⟨⟨fun _ => none, ?_, ?_, ?_, ?_, ?_, ?_⟩, fun hne => absurd hnone hne, Nat.zero_le _, h.nodup, hrest, ?_, h.threads,
    h.leaving, h.exited, h.signal, ?_, ?_, fun _ _ => all, h.stuck⟩
  · simp [closeAll]
  · simp [closeAll, hidle, Worker.events, Stage.fd]
  · simp [closeAll, hidle, Worker.events, Stage.fd]
  · simp
  · simp [closeAll, hidle, Stage.fd]
  · simp [closeAll]
  · intro r hm
    cases hm
  · intro hm
    cases hm
  · intro r hm
    cases hm

theorem Inv.took (h : P.Inv cfg) {n : Nat} {fds : List Nat} {pipe : Bool} (thread : n < cfg.maxThreadCount)
    (idle : P.service.workers n = ⟨.between, []⟩) (stays : P.leaving n = false) (written : pipe = true → P.stopSignal = true) :
    Inv cfg { P with service := P.service.step (.waitForEvents n fds), leaving := Function.update P.leaving n pipe } := by
  have hsound := h.sound.step (.waitForEvents n fds)
  have hnot : P.exited n ≠ true := by
    intro hexited
    rw [(h.exited n hexited).1] at stays
    cases stays
  obtain ⟨haccepting, hpool, hworkers⟩ : (P.service.step (.waitForEvents n fds)).accepting = P.service.accepting ∧
      (P.service.step (.waitForEvents n fds)).pool = P.service.pool ∧
      ∀ m, m ≠ n → (P.service.step (.waitForEvents n fds)).workers m = P.service.workers m := by
    rw [Service.step]
    split
    · refine ⟨rfl, rfl, fun m hm => ?_⟩
      show (P.service.setWorker n _).workers m = _
      exact Service.workers_setWorker_ne _ hm _
    · exact ⟨rfl, rfl, fun _ _ => rfl⟩
  refine ⟨hsound, ?_, ?_, h.nodup, h.rest, h.signalled, ?_, ?_, ?_, h.signal, h.waiting, h.joining, ?_, ?_⟩
  · intro hne
    exact h.accepting (by rwa [← haccepting])
  · show (P.service.step (.waitForEvents n fds)).pool.length + P.main.atHand ≤ _
    rw [hpool]
    exact h.room
  · intro m hm
    show (P.service.step (.waitForEvents n fds)).workers m = _
    rw [hworkers m (by omega)]
    exact h.threads m hm
  · intro m hm
    by_cases hmn : m = n
    · subst m
      apply written
      simpa using hm
    · exact h.leaving m (by simpa [hmn] using hm)
  · intro m hm
    have hmn : m ≠ n := by
      rintro rfl
      exact hnot hm
    show Function.update P.leaving n pipe m = true ∧ (P.service.step (.waitForEvents n fds)).workers m = _
    rw [Function.update_of_ne hmn, hworkers m hmn]
    exact h.exited m hm
  · intro hr hm
    exact absurd (h.joined hr hm n thread) hnot
  · intro m hm
    obtain ⟨fd, buffer, hserving⟩ := h.stuck m hm
    have hmn : m ≠ n := by
      rintro rfl
      simp [hserving] at idle
    show ∃ fd buffer, (P.service.step (.waitForEvents n fds)).workers m = _
    rw [hworkers m hmn]
    exact ⟨fd, buffer, hserving⟩

theorem Inv.transition (h : P.Inv cfg) {P' : Process} (ht : P.Transition cfg a P') : P'.Inv cfg := by
  have hroom := h.room
  have hrest := h.rest
  cases ht with
  | stays => exact h
  | waited events idle nodup =>
    have hrunning := h.waiting idle
    rw [idle] at hroom
    exact h.moves (.handling events) events (by rw [idle]; rfl) rfl hroom nodup (List.suffix_refl _) fun _ => hrunning
  | looped done running =>
    rw [done] at hroom
    exact h.moves .waiting _ (by rw [done]; rfl) rfl hroom h.nodup List.nil_suffix fun _ => running
  | ended done stopped =>
    rw [done] at hroom
    exact h.moves .ended _ (by rw [done]; rfl) rfl hroom h.nodup List.nil_suffix fun hm => by cases hm
  | stopped a event later rest taken running left => exact h.stopped taken left
  | ignored a event later rest taken left =>
    rw [taken] at hroom hrest
    refine h.moves (.handling rest) _ (by rw [taken]; rfl) rfl hroom h.nodup ?_ fun hm => by cases hm
    rcases left with rfl | rfl
    · exact (List.suffix_cons event rest).trans hrest
    · exact List.nil_suffix
  | admitted rest taken room =>
    rw [taken] at hrest
    refine h.moves (.admitted rest) _ (by rw [taken]; rfl) rfl ?_ h.nodup ((List.suffix_cons _ rest).trans hrest) fun hm => by cases hm
    show P.service.pool.length + 1 ≤ _
    omega
  | registered fd rest admitted unused => exact h.registered admitted unused
  | dropped rest admitted =>
    rw [admitted] at hroom hrest
    refine h.moves (.handling rest) _ (by rw [admitted]; rfl) rfl ?_ h.nodup hrest fun hm => by cases hm
    show P.service.pool.length + 0 ≤ _
    omega
  | spawned rest registered => exact h.spawned registered
  | joined rest joining all => exact h.joined_step joining all
  | took n fds pipe thread idle stays written => exact h.took thread idle stays written
  | worked a b n alive same =>
    apply h.works (h.sound.step b)
    · apply @works_step P.service b n alive
      rcases same with ⟨-, hb⟩ | ⟨-, hb, -⟩ | ⟨-, hb⟩
      · exact .inl hb
      · exact .inr (.inl hb)
      · exact .inr (.inr hb)
    · intro m hm
      obtain ⟨fd, buffer, hserving⟩ := h.stuck m hm
      apply workers_step_serving hserving
      rintro alive' rfl
      rcases same with ⟨-, hb⟩ | ⟨-, hb, hreturns⟩ | ⟨-, hb⟩
      · cases hb
      · cases hb
        rw [hm] at hreturns
        cases hreturns
      · cases hb
  | hung n fd buffer serving =>
    refine ⟨h.sound, h.accepting, h.room, h.nodup, h.rest, h.signalled, h.threads, h.leaving, h.exited, h.signal, h.waiting,
      h.joining, h.joined, ?_⟩
    intro m hm
    by_cases hmn : m = n
    · subst m
      exact ⟨fd, buffer, serving⟩
    · exact h.stuck m (by simpa [hmn] using hm)
  | left n told idle =>
    refine ⟨h.sound, h.accepting, h.room, h.nodup, h.rest, h.signalled, h.threads, h.leaving, ?_, h.signal, h.waiting,
      h.joining, ?_, h.stuck⟩
    · intro m hm
      by_cases hmn : m = n
      · subst m
        exact ⟨told, idle⟩
      · exact h.exited m (by simpa [hmn] using hm)
    · intro hr hm m hn
      have hall := h.joined hr hm
      show Function.update P.exited n true m = true
      by_cases hmn : m = n
      · rw [hmn, Function.update_self]
      · rw [Function.update_of_ne hmn]
        exact hall m hn

theorem inv_run (cfg : Config) (as : List Action) : (Runs.run (step cfg) start as).Inv cfg := by
  suffices h : ∀ P : Process, P.Inv cfg → (Runs.run (step cfg) P as).Inv cfg from h start (inv_start cfg)
  induction as with
  | nil => exact fun P h => h
  | cons a as ih => exact fun P h => ih (P.step cfg a) (h.transition (step_transition cfg P a))

/-- The server has been stopped, and its joins are over. -/
def Over (P : Process) : Prop := P.running = false ∧ ∀ rest, P.main ≠ .joining rest

/-- The connections that are there or may still come. -/
def late (P : Process) : Nat := P.service.pool.length + P.main.atHand + P.main.rest.count .listener

theorem Over.transition (h : P.Over) (hP : P.Inv cfg) {P' : Process} (ht : P.Transition cfg a P') : P'.Over ∧ P'.late ≤ P.late := by
  obtain ⟨hr, hm⟩ := h
  have hstopped (hrunning : P.running = true) : P'.Over ∧ P'.late ≤ P.late := by
    rw [hrunning] at hr
    cases hr
  cases ht with
  | stays => exact ⟨⟨hr, hm⟩, Nat.le_refl _⟩
  | waited events idle nodup => exact hstopped (hP.waiting idle)
  | looped done running => exact hstopped running
  | ended done stopped =>
    refine ⟨⟨hr, fun _ => MainStage.noConfusion⟩, ?_⟩
    simp only [late, done]
    exact Nat.le_refl _
  | stopped a event later rest taken running left => exact hstopped running
  | ignored a event later rest taken left =>
    refine ⟨⟨hr, fun _ => MainStage.noConfusion⟩, ?_⟩
    have hle : rest.count .listener ≤ (event :: later).count .listener := by
      rcases left with rfl | rfl
      · exact (List.sublist_cons_self event rest).count_le _
      · exact Nat.zero_le _
    simp only [late, taken, MainStage.atHand, MainStage.rest]
    omega
  | admitted rest taken room =>
    refine ⟨⟨hr, fun _ => MainStage.noConfusion⟩, ?_⟩
    simp only [late, taken, MainStage.atHand, MainStage.rest, List.count_cons_self]
    omega
  | registered fd rest admitted unused =>
    refine ⟨⟨hr, fun _ => MainStage.noConfusion⟩, ?_⟩
    have hpool : (P.service.step (.addDevice fd)).pool = P.service.pool := by
      rw [Service.step]
      split <;> rfl
    simp only [late, admitted, hpool, MainStage.atHand, MainStage.rest]
    exact Nat.le_refl _
  | dropped rest admitted =>
    refine ⟨⟨hr, fun _ => MainStage.noConfusion⟩, ?_⟩
    simp only [late, admitted, MainStage.atHand, MainStage.rest]
    omega
  | spawned rest registered =>
    refine ⟨⟨hr, fun _ => MainStage.noConfusion⟩, ?_⟩
    have hpool : (P.service.step .spawnClient).pool.length ≤ P.service.pool.length + 1 := by
      rw [Service.step]
      split
      · simp
      · exact Nat.le_succ _
    simp only [late, registered, MainStage.atHand, MainStage.rest]
    omega
  | joined rest joining all => exact absurd joining (hm rest)
  | took n fds pipe thread idle stays written =>
    refine ⟨⟨hr, hm⟩, ?_⟩
    have hpool : (P.service.step (.waitForEvents n fds)).pool = P.service.pool := by
      rw [Service.step]
      split <;> rfl
    simp only [late, hpool]
    exact Nat.le_refl _
  | worked a b n alive same =>
    refine ⟨⟨hr, hm⟩, ?_⟩
    have hpool : (P.service.step b).pool.length ≤ P.service.pool.length := by
      apply Works.pool
      apply @works_step P.service b n alive
      rcases same with ⟨-, hb⟩ | ⟨-, hb, -⟩ | ⟨-, hb⟩
      · exact .inl hb
      · exact .inr (.inl hb)
      · exact .inr (.inr hb)
    simp only [late]
    omega
  | hung | left => exact ⟨⟨hr, hm⟩, Nat.le_refl _⟩

/-- A server that has been stopped is not started again. -/
theorem stopped_step {P' : Process} (ht : P.Transition cfg a P') (hr : P.running = false) : P'.running = false := by
  cases ht with
  | stopped => rfl
  | stays | waited | looped | ended | ignored | admitted | registered | dropped | spawned | joined | took | worked | hung
  | left => exact hr

theorem Over.late_run_le (h : P.Over) (hP : P.Inv cfg) (as : List Action) : (Runs.run (step cfg) P as).late ≤ P.late := by
  induction as generalizing P with
  | nil => exact Nat.le_refl _
  | cons a as ih =>
    obtain ⟨hover, hle⟩ := h.transition hP (step_transition cfg P a)
    exact Nat.le_trans (ih hover (hP.transition (step_transition cfg P a))) hle

/-- A server whose joins are over has been through them. -/
theorem exists_join (as : List Action) (h : (Runs.run (step cfg) start as).Over) :
    ∃ before after rest, as = before ++ .join :: after ∧ (Runs.run (step cfg) start before).main = .joining rest ∧
      ∀ n < cfg.maxThreadCount, (Runs.run (step cfg) start before).exited n = true := by
  induction as using List.reverseRecOn with
  | nil => cases h.1
  | append_singleton as a ih =>
    have hlonger (hbefore : (Runs.run (step cfg) start as).Over) : ∃ before after rest, as ++ [a] = before ++ .join :: after ∧
        (Runs.run (step cfg) start before).main = .joining rest ∧
        ∀ n < cfg.maxThreadCount, (Runs.run (step cfg) start before).exited n = true := by
      obtain ⟨before, after, rest, hsplit, hjoin⟩ := ih hbefore
      exact ⟨before, after ++ [a], rest, by rw [hsplit, List.append_assoc, List.cons_append], hjoin⟩
    have ht := step_transition cfg (Runs.run (step cfg) start as) a
    rw [Runs.run_append, Runs.run_cons, Runs.run_nil] at h
    generalize hnext : (Runs.run (step cfg) start as).step cfg a = P' at h ht
    have hinv := inv_run cfg as
    generalize hrun : Runs.run (step cfg) start as = P at ht hlonger hinv hnext
    have hrunning : P'.running = false := h.1
    cases ht with
    | joined rest joining all => exact ⟨as, [], rest, rfl, by rw [hrun, joining], by rw [hrun]; exact all⟩
    | stopped a event later rest taken running left => exact absurd rfl (h.2 rest)
    | waited events idle nodup =>
      rw [show P.running = true from hinv.waiting idle] at hrunning
      cases hrunning
    | looped done running =>
      rw [show _ = true from running] at hrunning
      cases hrunning
    | ended done | ignored a event later rest done | admitted rest done | registered fd rest done | dropped rest done
    | spawned rest done =>
      refine hlonger ⟨hrunning, fun r hr => ?_⟩
      rw [hr] at done
      cases done
    | stays | took | worked | hung | left => exact hlonger h

theorem known_run {fd : Nat} (as : List Action) (h : Service.Known (Runs.run (step cfg) P as).service fd) :
    Service.Known P.service fd ∨ .addDevice fd ∈ as := by
  induction as generalizing P with
  | nil => exact .inl h
  | cons a as ih =>
    rcases ih h with hknown | hmem
    · have ht := step_transition cfg P a
      generalize P.step cfg a = P' at hknown ht
      cases ht with
      | registered fd' rest admitted unused =>
        rcases known_step hknown with hknown | hadd
        · exact .inl hknown
        · cases hadd
          exact .inr List.mem_cons_self
      | spawned rest registered => exact .inl ((known_step hknown).resolve_right Wakeups.Action.noConfusion)
      | took n fds => exact .inl ((known_step hknown).resolve_right Wakeups.Action.noConfusion)
      | joined rest joining all =>
        rcases hknown with hknown | hknown
        · cases hknown
        · exact .inl (.inr hknown)
      | worked a b n alive same =>
        refine .inl ((known_step hknown).resolve_right ?_)
        rcases same with ⟨-, rfl⟩ | ⟨-, rfl, -⟩ | ⟨-, rfl⟩
        · exact Wakeups.Action.noConfusion
        · exact Wakeups.Action.noConfusion
        · exact Wakeups.Action.noConfusion
      | stays | waited | looped | ended | stopped | ignored | admitted | dropped | hung | left => exact .inl hknown
    · exact .inr (List.mem_cons_of_mem _ hmem)

end Process

open LifeCycle.Process

/-- In every run there are never more clients than the configuration allows, a client that a worker has
looked up is in the pool until that worker closes it, and it is with no other worker. -/
theorem serves_safely (cfg : Config) (as : List Action) :
    let P := Runs.run (step cfg) start as
    P.service.pool.length + P.main.atHand ≤ cfg.maxUserCount ∧
    (∀ n, ∀ fd ∈ (P.service.workers n).stage.fd, fd ∈ P.service.pool) ∧
    ∀ m n fd, fd ∈ (P.service.workers m).events → fd ∈ (P.service.workers n).events → m = n := by
  intro P
  have hP : P.Inv cfg := inv_run cfg as
  obtain ⟨holder, hheld⟩ := hP.sound
  exact ⟨hP.room, hheld.stage, fun _ _ _ hm hn => hP.sound.unique hm hn⟩

/-- When the joins are over, all workers have returned, none of them with a client in its hands. The pool was empty
right after the joins, and what is in it is a connection of the same batch of events as the signal, which was accepted
behind the signal and after the joins. -/
theorem stopped_cleanly (cfg : Config) (as : List Action) (hr : (Runs.run (step cfg) start as).running = false)
    (hm : ∀ rest, (Runs.run (step cfg) start as).main ≠ .joining rest) :
    let P := Runs.run (step cfg) start as
    (∀ n < cfg.maxThreadCount, P.exited n = true) ∧ (∀ n, P.service.workers n = ⟨.between, []⟩) ∧
    ∃ before after rest, as = before ++ .join :: after ∧
      (Runs.run (step cfg) start before).main = .joining rest ∧
      (rest = [] ∨ .signal :: rest <:+ (Runs.run (step cfg) start before).buffer) ∧
      (Runs.run (step cfg) start (before ++ [.join])).main = .handling rest ∧
      (Runs.run (step cfg) start (before ++ [.join])).service.pool = [] ∧
      P.service.pool.length ≤ rest.count .listener ∧ rest.count .listener ≤ 1 ∧
      ∀ fd ∈ P.service.pool, .addDevice fd ∈ after := by
  intro P
  have hP : P.Inv cfg := inv_run cfg as
  refine ⟨hP.joined hr hm, hP.idle hr hm, ?_⟩
  obtain ⟨before, after, rest, rfl, hjoining, hall⟩ := exists_join as ⟨hr, hm⟩
  have hbefore : (Runs.run (step cfg) start before).Inv cfg := inv_run cfg before
  have hafter : P = Runs.run (step cfg) (Runs.run (step cfg) start (before ++ [.join])) after := by
    show Runs.run (step cfg) start (before ++ .join :: after) = _
    rw [← Runs.run_append, List.append_assoc, List.singleton_append]
  have hjoin : Runs.run (step cfg) start (before ++ [.join]) =
      { Runs.run (step cfg) start before with
        service := closeAll (Runs.run (step cfg) start before).service, main := .handling rest } := by
    rw [Runs.run_append]
    simp only [Runs.run_cons, Runs.run_nil, Process.step, hjoining]
    rw [if_pos hall]
  have hover : (Runs.run (step cfg) start (before ++ [.join])).Over := by
    rw [hjoin]
    exact ⟨hbefore.joining rest hjoining, fun _ => MainStage.noConfusion⟩
  have hclosed : ∀ fd, ¬ Service.Known (Runs.run (step cfg) start (before ++ [.join])).service fd := by
    intro fd hfd
    have hnone := hbefore.accepting_none fun r hr => by rw [hjoining] at hr; cases hr
    rw [hjoin] at hfd
    rcases hfd with hfd | hfd
    · cases hfd
    · have hsome : (Runs.run (step cfg) start before).service.accepting = some fd := hfd
      rw [hnone] at hsome
      cases hsome
  refine ⟨before, after, rest, rfl, hjoining, hbefore.signalled rest hjoining, by rw [hjoin], by rw [hjoin]; rfl, ?_, ?_, ?_⟩
  · have hlate := hover.late_run_le (inv_run cfg _) after
    rw [← hafter] at hlate
    have hstart : (Runs.run (step cfg) start (before ++ [.join])).late = rest.count .listener := by
      rw [hjoin]
      simp [late, closeAll, MainStage.atHand, MainStage.rest]
    rw [hstart] at hlate
    have hle : P.service.pool.length + P.main.atHand + P.main.rest.count .listener ≤ rest.count .listener := hlate
    omega
  · have hrest := hbefore.rest
    rw [hjoining] at hrest
    exact List.nodup_iff_count_le_one.mp (hbefore.nodup.sublist hrest.sublist) .listener
  · intro fd hfd
    rw [hafter] at hfd
    exact (known_run after (.inl hfd)).resolve_left (hclosed fd)

/-- A client is being handled when the signal comes, and another one connects at the same time. -/
def lateConnection : List Action :=
  [.wait [.listener], .next, .addDevice 5, .spawnClient, .next, .waitForEvents 0 [5] false, .lookUp 0,
    .wait [.signal, .listener], .next, .handle 0 true, .rearmDevice 0, .waitForEvents 0 [5] true, .lookUp 0, .handle 0 true,
    .rearmDevice 0, .leave 0, .join, .next, .addDevice 6, .spawnClient, .next]

theorem stopped_cleanly_late :
    let P := Runs.run (step ⟨2, 1⟩) start lateConnection
    P.main = .ended ∧ P.service.pool = [6] ∧ (∀ n < 1, P.exited n = true) ∧
      (∀ n, P.service.workers n = ⟨.between, []⟩) ∧ ∃ before after rest, lateConnection = before ++ .join :: after ∧
        (Runs.run (step ⟨2, 1⟩) start before).main = .joining rest ∧
        (rest = [] ∨ .signal :: rest <:+ (Runs.run (step ⟨2, 1⟩) start before).buffer) ∧
        (Runs.run (step ⟨2, 1⟩) start (before ++ [.join])).main = .handling rest ∧
        (Runs.run (step ⟨2, 1⟩) start (before ++ [.join])).service.pool = [] ∧
        P.service.pool.length ≤ rest.count .listener ∧ rest.count .listener ≤ 1 ∧
        ∀ fd ∈ P.service.pool, .addDevice fd ∈ after := by
  have hended : (Runs.run (step ⟨2, 1⟩) start lateConnection).main = .ended := by decide +kernel
  refine ⟨hended, by decide +kernel, stopped_cleanly ⟨2, 1⟩ lateConnection (by decide +kernel) ?_⟩
  intro rest
  rw [hended]
  exact MainStage.noConfusion

end LifeCycle

end TinDox
