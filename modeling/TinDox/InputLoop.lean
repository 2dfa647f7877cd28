import TinDox.Connection

/-! The loop of `handle_input` by the states at its head. What one iteration keeps holds at every
head, and a call of `handle` ends with the iteration of the last of them. -/

namespace TinDox

/-- The state at the head of the loop, with the iterations made so far. -/
structure Loop where
  fs : FileSystem
  client : Client
  input : Bytes
  trace : List Iteration

namespace Loop

/-- The state after an iteration. -/
def after (l : Loop) (h : Handling) (rest : Bytes) : Loop := ⟨h.fs, h.client, rest, l.trace ++ h.trace⟩

/-- An iteration after which the loop goes on. -/
def Next (srv : ServerContext) (others : Surroundings) (l l' : Loop) : Prop :=
  ∃ h rest, l.client.handleOnce srv others l.fs l.input = (h, rest) ∧ h.fatal = false ∧ rest ≠ [] ∧
    l' = l.after h rest

abbrev Reaches (srv : ServerContext) (others : Surroundings) := Relation.ReflTransGen (Next srv others)

variable {srv : ServerContext} {others : Surroundings} {l l' : Loop}

theorem Reaches.invariant {I : Loop → Prop} (h : Reaches srv others l l') (hl : I l)
    (hstep : ∀ l h rest, I l → l.client.handleOnce srv others l.fs l.input = (h, rest) → h.fatal = false →
      I (l.after h rest)) : I l' := by
  induction h with
  | refl => exact hl
  | tail _ hnext ih =>
    obtain ⟨h, rest, honce, hf, -, rfl⟩ := hnext
    exact hstep _ h rest ih honce hf

theorem Reaches.ready (h : Reaches srv others l l') (hl : l.client.Ready) : l'.client.Ready :=
  h.invariant (I := fun l => l.client.Ready) hl (fun _ _ _ hl honce hf => (Client.handleOnce_advances hl honce hf).ready)

end Loop

namespace Client

variable {srv : ServerContext} {others : Surroundings} {fs : FileSystem} {c : Client}

/-- The loop ends with an iteration that throws or leaves no input. -/
theorem handleInputLoop_ends {fuel : Nat} {input : Bytes} (trace : List Iteration) (hc : Ready c)
    (hm : measure c input < fuel) :
    ∃ l h rest, Loop.Reaches srv others ⟨fs, c, input, trace⟩ l ∧
      l.client.handleOnce srv others l.fs l.input = (h, rest) ∧ (h.fatal = true ∨ rest = []) ∧
      trace ++ (handleInputLoop srv others fuel fs c input).trace = l.trace ++ h.trace ∧
      handleInputLoop srv others fuel fs c input =
        { h with trace := (handleInputLoop srv others fuel fs c input).trace } := by
  induction fuel generalizing fs c input trace with
  | zero => omega
  | succ fuel ih =>
    rw [handleInputLoop]
    rcases he : handleOnce srv others fs c input with ⟨h, rest⟩
    by_cases hstop : h.fatal = true ∨ rest = []
    · refine ⟨⟨fs, c, input, trace⟩, h, rest, .refl, he, hstop, ?_, ?_⟩
      · simp only [hstop, if_true]
      · simp only [hstop, if_true]
    · simp only [hstop, if_false]
      simp only [not_or, Bool.not_eq_true] at hstop
      obtain ⟨hf, hrest⟩ := hstop
      have hadv := handleOnce_advances hc he hf
      have hmode : c.session.context.mode ≠ .download := fun hh => hrest (hadv.parked hh).1
      have hinput : input ≠ [] := by
        intro hh
        apply hrest
        simpa [hh] using (hadv.suffix hmode).1
      have hlt := hadv.decreases hmode hinput
      have hfuel : measure h.client rest < fuel := by omega
      obtain ⟨l, h', rest', hreach, honce, hend, htrace, hres⟩ := ih (trace ++ h.trace) hadv.ready hfuel
      refine ⟨l, h', rest', .head ⟨h, rest, he, hf, hrest, rfl⟩ hreach, honce, hend, ?_, ?_⟩
      · rw [← htrace, List.append_assoc]
      · rw [hres]

/-- The input that the loop of a call works on. -/
def callInput (c : Client) (events : SocketEvents) : Option Bytes :=
  if c.pendingInput ≠ [] then some c.pendingInput else if events.input then events.received else none

theorem handleEvents_ends {events : SocketEvents} (trace : List Iteration) (hc : Ready c) :
    c.callInput events = none ∧ (handleEvents srv others fs c events).fs = fs ∧
      (handleEvents srv others fs c events).client = c ∧ (handleEvents srv others fs c events).trace = [] ∨
    ∃ input l h rest, c.callInput events = some input ∧ Loop.Reaches srv others ⟨fs, c, input, trace⟩ l ∧
      l.client.handleOnce srv others l.fs l.input = (h, rest) ∧ (h.fatal = true ∨ rest = []) ∧
      trace ++ (handleEvents srv others fs c events).trace = l.trace ++ h.trace ∧
      (handleEvents srv others fs c events).fs = h.fs ∧ (handleEvents srv others fs c events).fatal = h.fatal ∧
      ∃ pending, (handleEvents srv others fs c events).client = { h.client with pendingInput := pending } := by
  have hfuel (input : Bytes) : measure c input < 2 * input.length + 2 := by
    unfold measure
    split <;> omega
  unfold handleEvents callInput
  by_cases hp : c.pendingInput = []
  · simp only [hp, ne_eq, not_true_eq_false, if_false]
    by_cases hin : events.input = true
    · simp only [hin, if_true]
      cases hr : events.received with
      | none => exact .inl ⟨rfl, rfl, rfl, rfl⟩
      | some input =>
        obtain ⟨l, h, rest, hreach, honce, hend, htrace, hres⟩ :=
          @handleInputLoop_ends srv others fs c _ input trace hc (hfuel input)
        refine .inr ⟨input, l, h, rest, rfl, hreach, honce, hend, htrace, ?_, ?_, h.client.pendingInput, ?_⟩
        all_goals
          simp only [handleInput]
          rw [hres]
    · exact .inl (by simp [hin])
  · simp only [ne_eq, hp, not_false_eq_true, if_true]
    obtain ⟨l, h, rest, hreach, honce, hend, htrace, hres⟩ :=
      @handleInputLoop_ends srv others fs c _ c.pendingInput trace hc (hfuel c.pendingInput)
    have hinput : handleInput srv others fs c c.pendingInput =
        { h with trace := (handleInput srv others fs c c.pendingInput).trace } := hres
    refine .inr ⟨c.pendingInput, l, h, rest, rfl, hreach, honce, hend, ?_, ?_⟩
    · have hsame : (handlePendingInput srv others fs c).trace = (handleInput srv others fs c c.pendingInput).trace := by
        unfold handlePendingInput
        dsimp only
        split <;> rfl
      rw [hsame]
      exact htrace
    · unfold handlePendingInput
      dsimp only
      rw [hinput]
      cases hf : h.fatal with
      | true => exact ⟨rfl, rfl, h.client.pendingInput, rfl⟩
      | false => exact ⟨rfl, rfl, [], rfl⟩

theorem handle_ok {events : SocketEvents} (hf : (handle srv others fs c events).fatal = false) :
    (handleEvents srv others fs c events).fatal = false ∧
    (handle srv others fs c events).trace = (handleEvents srv others fs c events).trace ∧
    ((handle srv others fs c events).client = (handleEvents srv others fs c events).client ∨
      (handleOutput (handleEvents srv others fs c events).fs (handleEvents srv others fs c events).client events).2 =
        false ∧
      (handle srv others fs c events).client =
        (handleOutput (handleEvents srv others fs c events).fs (handleEvents srv others fs c events).client events).1) := by
  unfold handle at hf ⊢
  generalize handleEvents srv others fs c events = done at hf ⊢
  obtain ⟨fs', c', fatal, trace⟩ := done
  cases fatal with
  | true => simp at hf
  | false =>
    by_cases ho : events.output = true
    · rcases hout : c'.handleOutput fs' events with ⟨client, e⟩
      cases e with
      | true => simp [ho, hout] at hf
      | false => simp [ho, hout]
    · simp [ho]

theorem handle_alive {events : SocketEvents} (h : (handle srv others fs c events).client.isAlive = true) :
    (handle srv others fs c events).fatal = false := by
  unfold handle at h ⊢
  generalize handleEvents srv others fs c events = done at h ⊢
  obtain ⟨fs', c', fatal, trace⟩ := done
  cases fatal with
  | true => simp [isAlive] at h
  | false =>
    by_cases ho : events.output = true
    · rcases hout : c'.handleOutput fs' events with ⟨client, e⟩
      cases e with
      | true => simp [ho, hout, isAlive] at h
      | false => simp [ho, hout]
    · simp [ho]

end Client

end TinDox
