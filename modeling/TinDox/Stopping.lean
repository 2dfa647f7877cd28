import TinDox.LifeCycle
import Mathlib.Algebra.BigOperators.Group.Finset.Basic
import Mathlib.Algebra.Order.BigOperators.Group.Finset

/-! The end of a server. While the main thread joins the workers there is always a thread that can go
on, and the joins come to an end when the waits do not keep the stop signal from the workers, unless a
worker never gets out of a call of `Client::handle`. -/

namespace TinDox

open Wakeups (Service Worker Stage)

namespace LifeCycle

open LifeCycle.Process

/-- What a thread that can go on does next while the main thread joins the workers. -/
def Enabled (cfg : Config) (P : Process) : Action → Prop
  | .join => ∀ n < cfg.maxThreadCount, P.exited n = true
  | .waitForEvents n _ _ => n < cfg.maxThreadCount ∧ P.service.workers n = ⟨.between, []⟩ ∧ P.leaving n = false
  | .lookUp n => n < cfg.maxThreadCount ∧ ∃ fd buffer, P.service.workers n = ⟨.between, fd :: buffer⟩
  | .handle n _ | .hang n =>
    n < cfg.maxThreadCount ∧ P.stuck n = false ∧ ∃ fd buffer, P.service.workers n = ⟨.serving fd, buffer⟩
  | .rearmDevice n => n < cfg.maxThreadCount ∧ ∃ fd alive buffer, P.service.workers n = ⟨.served fd alive, buffer⟩
  | .leave n =>
    n < cfg.maxThreadCount ∧ P.service.workers n = ⟨.between, []⟩ ∧ P.leaving n = true ∧ P.exited n = false
  | _ => False

variable {cfg : Config} {P : Process} {a : Action} {rest : List MainEvent}

/-- The steps that are left to do for the events of a worker. -/
def load (w : Worker) : Nat :=
  3 * w.buffer.length + match w.stage with
    | .between => 0
    | .serving _ => 2
    | .served _ _ => 1

/-- The workers that do not know of the stop signal yet. -/
def unaware (cfg : Config) (P : Process) : Nat :=
  ∑ n ∈ Finset.range cfg.maxThreadCount, if P.leaving n = true then 0 else 1

/-- What the workers have to do before they return, if they do not wait again. -/
def work (cfg : Config) (P : Process) : Nat :=
  ∑ n ∈ Finset.range cfg.maxThreadCount, if P.exited n = true then 0 else 1 + load (P.service.workers n)

theorem sum_update_lt {f g : Nat → Nat} {n t : Nat} (hn : n < t) (hlt : f n < g n) (hsame : ∀ m, m ≠ n → f m = g m) :
    ∑ m ∈ Finset.range t, f m < ∑ m ∈ Finset.range t, g m := by
  apply Finset.sum_lt_sum
  · intro m _
    by_cases hm : m = n
    · rw [hm]
      exact hlt.le
    · rw [hsame m hm]
  · exact ⟨n, Finset.mem_range.mpr hn, hlt⟩

/-- A worker that has read of the signal does not forget it. -/
theorem leaving_step (cfg : Config) (P : Process) (a : Action) {n : Nat} (h : P.leaving n = true) :
    (P.step cfg a).leaving n = true := by
  have ht := step_transition cfg P a
  generalize P.step cfg a = P' at ht
  cases ht with
  | took m fds pipe thread idle stays written =>
    show Function.update P.leaving m pipe n = true
    have hne : n ≠ m := by
      rintro rfl
      rw [h] at stays
      cases stays
    rw [Function.update_of_ne hne, h]
  | stays | waited | looped | ended | stopped | ignored | admitted | registered | dropped | spawned | joined | worked | hung
  | left => exact h

/-- A worker that is stuck stays so. -/
theorem stuck_step (cfg : Config) (P : Process) (a : Action) {n : Nat} (h : P.stuck n = true) : (P.step cfg a).stuck n = true := by
  have ht := step_transition cfg P a
  generalize P.step cfg a = P' at ht
  cases ht with
  | hung m fd buffer serving =>
    show Function.update P.stuck m true n = true
    by_cases hmn : n = m
    · rw [hmn, Function.update_self]
    · rw [Function.update_of_ne hmn, h]
  | stays | waited | looped | ended | stopped | ignored | admitted | registered | dropped | spawned | joined | took | worked
  | left => exact h

theorem stuck_hang {n : Nat} (ha : Enabled cfg P (.hang n)) : (P.step cfg (.hang n)).stuck n = true := by
  obtain ⟨-, -, fd, buffer, hw⟩ := ha
  simp only [Process.step, hw, Function.update_self]

/-- Nobody gets stuck but in a call that does not return. -/
theorem stuck_step_eq (cfg : Config) (P : Process) (ha : ∀ n, a ≠ .hang n) : (P.step cfg a).stuck = P.stuck := by
  have ht := step_transition cfg P a
  generalize P.step cfg a = P' at ht
  cases ht with
  | hung n => exact absurd rfl (ha n)
  | stays | waited | looped | ended | stopped | ignored | admitted | registered | dropped | spawned | joined | took | worked
  | left => rfl

theorem unaware_step_le (cfg : Config) (P : Process) (a : Action) : unaware cfg (P.step cfg a) ≤ unaware cfg P := by
  apply Finset.sum_le_sum
  intro n _
  by_cases h : P.leaving n = true
  · rw [if_pos h, if_pos (leaving_step cfg P a h)]
  · rw [if_neg h]
    split
    · exact Nat.zero_le 1
    · exact Nat.le_refl 1

theorem unaware_told (h : P.Inv cfg) (hm : P.main = .joining rest) {n : Nat} {fds : List Nat}
    (ha : Enabled cfg P (.waitForEvents n fds true)) :
    unaware cfg (P.step cfg (.waitForEvents n fds true)) < unaware cfg P := by
  obtain ⟨hn, hidle, hstays⟩ := ha
  have hwritten : P.stopSignal = true := h.signal.mpr (h.joining rest hm)
  rw [Process.step, if_pos ⟨hn, hidle, hstays, fun _ => hwritten⟩]
  apply sum_update_lt hn
  · simp [hstays]
  · intro m hne
    simp [hne]

theorem work_setWorker (h : P.Inv cfg) {n : Nat} {w : Worker} (hn : n < cfg.maxThreadCount)
    (hbusy : P.service.workers n ≠ ⟨.between, []⟩) (hload : load w < load (P.service.workers n)) {S : Service}
    (hS : S.workers = (P.service.setWorker n w).workers) : work cfg { P with service := S } < work cfg P := by
  have hstays : P.exited n ≠ true := fun hexited => hbusy (h.exited n hexited).2
  apply sum_update_lt hn
  · simp only [hstays, hS, Service.workers_setWorker_self]
    exact Nat.add_lt_add_left hload 1
  · intro m hm
    simp only [hS, Service.workers_setWorker_ne P.service hm]

/-- A thread that goes on without a wait comes closer to its return, and the one that joins is done. -/
theorem work_step (h : P.Inv cfg) (hm : P.main = .joining rest) (ha : Enabled cfg P a)
    (hwait : ∀ n fds pipe, a ≠ .waitForEvents n fds pipe) (hreturns : ∀ n, a ≠ .hang n) :
    work cfg (P.step cfg a) < work cfg P ∨ ∀ rest, (P.step cfg a).main ≠ .joining rest := by
  cases a with
  | join =>
    right
    have hall : ∀ n < cfg.maxThreadCount, P.exited n = true := ha
    simp only [Process.step, hm]
    rw [if_pos hall]
    exact fun _ => MainStage.noConfusion
  | waitForEvents n fds pipe => exact absurd rfl (hwait n fds pipe)
  | lookUp n =>
    left
    obtain ⟨hn, fd, buffer, hw⟩ := ha
    have hbusy : P.service.workers n ≠ ⟨.between, []⟩ := by simp [hw]
    simp only [Process.step, Service.step, hw]
    split
    · have hload : load ⟨.serving fd, buffer⟩ < load (P.service.workers n) := by
        rw [hw]
        simp only [load, List.length_cons]
        omega
      exact work_setWorker h hn hbusy hload rfl
    · have hload : load ⟨.between, buffer⟩ < load (P.service.workers n) := by
        rw [hw]
        simp only [load, List.length_cons]
        omega
      exact work_setWorker h hn hbusy hload rfl
  | handle n alive =>
    left
    obtain ⟨hn, hstuck, fd, buffer, hw⟩ := ha
    have hbusy : P.service.workers n ≠ ⟨.between, []⟩ := by simp [hw]
    have hload : load ⟨.served fd alive, buffer⟩ < load (P.service.workers n) := by
      rw [hw]
      simp only [load]
      omega
    simp only [Process.step, hstuck, Bool.false_eq_true, if_false, Service.step, hw]
    exact work_setWorker h hn hbusy hload rfl
  | hang n => exact absurd rfl (hreturns n)
  | rearmDevice n =>
    left
    obtain ⟨hn, fd, alive, buffer, hw⟩ := ha
    have hbusy : P.service.workers n ≠ ⟨.between, []⟩ := by simp [hw]
    have hload : load ⟨.between, buffer⟩ < load (P.service.workers n) := by
      rw [hw]
      simp only [load]
      omega
    cases alive with
    | true =>
      simp only [Process.step, Service.step, hw]
      exact work_setWorker h hn hbusy hload rfl
    | false =>
      simp only [Process.step, Service.step, hw]
      exact work_setWorker h hn hbusy hload rfl
  | leave n =>
    left
    obtain ⟨hn, hidle, htold, hstays⟩ := ha
    rw [Process.step, if_pos ⟨htold, hidle⟩]
    apply sum_update_lt hn
    · simp [hstays]
    · intro m hne
      simp [hne]
  | wait | next | acceptThrows | addDevice | addThrows | spawnClient => exact False.elim ha

/-- Some thread can go on if none is stuck, and its step changes something. -/
theorem exists_enabled (h : P.Inv cfg) (hm : P.main = .joining rest) (hfree : ∀ n, P.stuck n = false) :
    ∃ a, Enabled cfg P a ∧ (∀ n, a ≠ .hang n) ∧ P.step cfg a ≠ P := by
  -- a step that is not a wait leaves less work, or ends the joins
  have hgo : ∀ a, Enabled cfg P a → (∀ n fds pipe, a ≠ .waitForEvents n fds pipe) → (∀ n, a ≠ .hang n) →
      ∃ a, Enabled cfg P a ∧ (∀ n, a ≠ .hang n) ∧ P.step cfg a ≠ P := by
    intro a ha hwait hreturns
    refine ⟨a, ha, hreturns, fun hsame => ?_⟩
    rcases work_step h hm ha hwait hreturns with hlt | hover
    · rw [hsame] at hlt
      omega
    · rw [hsame] at hover
      exact hover rest hm
  by_cases hall : ∀ n < cfg.maxThreadCount, P.exited n = true
  · exact hgo .join hall (fun _ _ _ => Action.noConfusion) fun _ => Action.noConfusion
  · simp only [not_forall, Bool.not_eq_true] at hall
    obtain ⟨n, hn, hexited⟩ := hall
    rcases hw : P.service.workers n with ⟨stage, buffer⟩
    cases stage with
    | between =>
      cases buffer with
      | nil =>
        cases hleaving : P.leaving n with
        | true =>
          have ha : Enabled cfg P (.leave n) := ⟨hn, hw, hleaving, hexited⟩
          exact hgo (.leave n) ha (fun _ _ _ => Action.noConfusion) fun _ => Action.noConfusion
        | false =>
          have ha : Enabled cfg P (.waitForEvents n [] true) := ⟨hn, hw, hleaving⟩
          refine ⟨.waitForEvents n [] true, ha, fun _ => Action.noConfusion, fun hsame => ?_⟩
          have hlt := unaware_told h hm ha
          rw [hsame] at hlt
          omega
      | cons fd buffer =>
        have ha : Enabled cfg P (.lookUp n) := ⟨hn, fd, buffer, hw⟩
        exact hgo (.lookUp n) ha (fun _ _ _ => Action.noConfusion) fun _ => Action.noConfusion
    | serving fd =>
      have ha : Enabled cfg P (.handle n true) := ⟨hn, hfree n, fd, buffer, hw⟩
      exact hgo (.handle n true) ha (fun _ _ _ => Action.noConfusion) fun _ => Action.noConfusion
    | served fd alive =>
      have ha : Enabled cfg P (.rearmDevice n) := ⟨hn, fd, alive, buffer, hw⟩
      exact hgo (.rearmDevice n) ha (fun _ _ _ => Action.noConfusion) fun _ => Action.noConfusion

/-- The server stops: while the main thread joins the workers and none of them is stuck there is always a thread that
can go on, and however the threads take turns, the joins are over after some steps exactly when no call of `handle`
stays without end. The pipe stays readable; all that is asked of the epoll device is that it does not report clients
only in all later waits. -/
theorem stops (cfg : Config) (before : List Action) {as : Nat → Action}
    (hjoining : (Runs.run (step cfg) start before).main = .joining rest)
    (hgo : ∀ n rest, (Runs.along (step cfg) (Runs.run (step cfg) start before) as n).main = .joining rest →
      Enabled cfg (Runs.along (step cfg) (Runs.run (step cfg) start before) as n) (as n))
    (htold : ∀ n, (∀ m, n ≤ m → ∃ k, m ≤ k ∧ ∃ worker fds pipe, as k = .waitForEvents worker fds pipe) →
      ∃ m, n ≤ m ∧ ∃ worker fds, as m = .waitForEvents worker fds true) :
    (∀ n rest, (Runs.along (step cfg) (Runs.run (step cfg) start before) as n).main = .joining rest →
      (∀ worker, (Runs.along (step cfg) (Runs.run (step cfg) start before) as n).stuck worker = false) →
      ∃ a, Enabled cfg (Runs.along (step cfg) (Runs.run (step cfg) start before) as n) a ∧ (∀ worker, a ≠ .hang worker) ∧
        (Runs.along (step cfg) (Runs.run (step cfg) start before) as n).step cfg a ≠
          Runs.along (step cfg) (Runs.run (step cfg) start before) as n) ∧
    ((∃ n, ∀ rest, (Runs.along (step cfg) (Runs.run (step cfg) start before) as n).main ≠ .joining rest) ↔
      ∀ n worker, (Runs.along (step cfg) (Runs.run (step cfg) start before) as n).stuck worker = false) := by
  generalize hrun : Runs.along (step cfg) (Runs.run (step cfg) start before) as = run at hgo ⊢
  have hsucc : ∀ n, run (n + 1) = (run n).step cfg (as n) := by
    intro n
    rw [← hrun]
    rfl
  have hinv : ∀ n, (run n).Inv cfg := by
    intro n
    induction n with
    | zero =>
      rw [← hrun]
      exact inv_run cfg before
    | succ n ih =>
      rw [hsucc]
      exact ih.transition (step_transition cfg _ _)
  refine ⟨fun n rest hm hfree => exists_enabled (hinv n) hm hfree, ⟨fun ⟨n, hover⟩ => ?_, fun hfree => ?_⟩⟩
  · have hstopped : ∀ m, (run m).running = false := by
      intro m
      induction m with
      | zero =>
        rw [← hrun]
        exact (inv_run cfg before).joining _ hjoining
      | succ m ih =>
        rw [hsucc]
        exact stopped_step (step_transition cfg _ _) ih
    have hend : ∀ m, (run (n + m)).Over := by
      intro m
      induction m with
      | zero => exact ⟨hstopped n, hover⟩
      | succ m ih =>
        rw [← Nat.add_assoc, hsucc]
        exact (ih.transition (hinv _) (step_transition cfg _ _)).1
    have hstays : ∀ m k worker, (run m).stuck worker = true → (run (m + k)).stuck worker = true := by
      intro m k worker hstuck
      induction k with
      | zero => exact hstuck
      | succ k ih =>
        rw [← Nat.add_assoc, hsucc]
        exact stuck_step cfg _ _ ih
    intro m worker
    by_contra hstuck
    have hlate := hstays m n worker (by simpa using hstuck)
    rw [Nat.add_comm] at hlate
    obtain ⟨fd, buffer, hserving⟩ := (hinv (n + m)).stuck worker hlate
    rw [(hinv (n + m)).idle (hend m).1 (hend m).2 worker] at hserving
    cases hserving
  have hreturns : ∀ n rest, (run n).main = .joining rest → ∀ worker, as n ≠ .hang worker := by
    intro n rest hm worker ha
    have henabled := hgo n rest hm
    rw [ha] at henabled
    have hstuck := stuck_hang henabled
    rw [← ha, ← hsucc, hfree] at hstuck
    cases hstuck
  by_contra hnever
  simp only [not_exists, not_forall, not_not] at hnever
  have hle : ∀ n m, n ≤ m → unaware cfg (run m) ≤ unaware cfg (run n) := by
    intro n m hnm
    induction hnm with
    | refl => exact Nat.le_refl _
    | step _ ih =>
      rw [Nat.succ_eq_add_one, hsucc]
      exact (unaware_step_le cfg _ _).trans ih
  -- without waits the work would come to an end
  have hwaits : ∀ m, ∃ k, m ≤ k ∧ ∃ worker fds pipe, as k = .waitForEvents worker fds pipe := by
    intro m
    refine @Runs.eventually_of_descends _ _ wellFounded_lt (fun n => work cfg (run n))
      (fun k => ∃ worker fds pipe, as k = .waitForEvents worker fds pipe) m fun n _ hn => ?_
    obtain ⟨rest, hm⟩ := hnever n
    refine ⟨n + 1, Nat.lt_succ_self n, ?_⟩
    rcases work_step (hinv n) hm (hgo n rest hm) (fun worker fds pipe hw => hn ⟨worker, fds, pipe, hw⟩) (hreturns n rest hm)
      with hlt | hover
    · left
      rw [hsucc]
      exact hlt
    · obtain ⟨rest', hm'⟩ := hnever (n + 1)
      rw [hsucc] at hm'
      exact absurd hm' (hover rest')
  -- with waits, one worker after another gets to know of the signal
  have htells : ∀ n, ∃ m, n < m ∧ unaware cfg (run m) < unaware cfg (run n) := by
    intro n
    obtain ⟨m, hnm, worker, fds, hw⟩ := htold n fun m _ => hwaits m
    obtain ⟨rest, hm⟩ := hnever m
    have ha := hgo m rest hm
    rw [hw] at ha
    have hlt := unaware_told (hinv m) hm ha
    rw [← hw, ← hsucc] at hlt
    exact ⟨m + 1, by omega, hlt.trans_le (hle n m hnm)⟩
  obtain ⟨n, -, hfinal⟩ := @Runs.eventually_of_descends _ _ wellFounded_lt (fun n => unaware cfg (run n)) (fun _ => False) 0
    fun n _ _ => (htells n).imp fun m hm => ⟨hm.1, .inl hm.2⟩
  exact hfinal

/-- The signal comes while the only worker handles a client. -/
def interrupted : List Action :=
  [.wait [.listener], .next, .addDevice 5, .spawnClient, .next, .waitForEvents 0 [5] false, .lookUp 0, .wait [.signal], .next]

def lastSteps (n : Nat) : Action :=
  [.handle 0 true, .rearmDevice 0, .waitForEvents 0 [] true, .leave 0].getD n .join

theorem stops_interrupted :
    (∀ n worker, (Runs.along (step ⟨1, 1⟩) (Runs.run (step ⟨1, 1⟩) start interrupted) lastSteps n).stuck worker = false) ∧
    ∃ n, ∀ rest, (Runs.along (step ⟨1, 1⟩) (Runs.run (step ⟨1, 1⟩) start interrupted) lastSteps n).main ≠ .joining rest := by
  have hreturns : ∀ n worker, lastSteps n ≠ .hang worker := by
    intro n worker
    rcases n with _ | _ | _ | _ | n
    all_goals exact Action.noConfusion
  have hfree : ∀ n worker,
      (Runs.along (step ⟨1, 1⟩) (Runs.run (step ⟨1, 1⟩) start interrupted) lastSteps n).stuck worker = false := by
    intro n
    induction n with
    | zero => exact fun _ => rfl
    | succ n ih =>
      intro worker
      rw [Runs.along, stuck_step_eq _ _ (hreturns n)]
      exact ih worker
  have hlast : ∀ n, (Runs.along (step ⟨1, 1⟩) (Runs.run (step ⟨1, 1⟩) start interrupted) lastSteps (n + 5)).main =
      .handling [] := by
    intro n
    induction n with
    | zero => decide +kernel
    | succ n ih =>
      show (Process.step _ _ .join).main = _
      simp only [Process.step, ih]
  refine ⟨hfree, (stops ⟨1, 1⟩ interrupted (show _ = MainStage.joining [] by decide +kernel) ?_ ?_).2.mpr hfree⟩
  · intro n rest hm
    rcases n with _ | _ | _ | _ | _ | n
    · exact ⟨by decide, by decide +kernel, 5, [], by decide +kernel⟩
    · exact ⟨by decide, 5, true, [], by decide +kernel⟩
    · exact ⟨by decide, by decide +kernel, by decide +kernel⟩
    · exact ⟨by decide, by decide +kernel, by decide +kernel, by decide +kernel⟩
    · exact show ∀ n < 1, _ by decide +kernel
    · rw [hlast n] at hm
      cases hm
  · intro n h
    obtain ⟨k, hk, worker, fds, pipe, hw⟩ := h (max n 4) (by omega)
    obtain ⟨k, rfl⟩ : ∃ j, k = j + 4 := ⟨k - 4, by omega⟩
    cases hw

end LifeCycle

end TinDox
