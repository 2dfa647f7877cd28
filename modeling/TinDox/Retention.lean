import TinDox.InterpreterUse
import TinDox.Modes
import TinDox.Termination

/-! What the interpreter of a client keeps between two calls of `commit_bytes`, in terms of the bytes
it has read since it was last restarted. -/

namespace TinDox

open Framing

namespace ProtocolInterpreter

/-- The representation invariant when `read` has been read since the last restart. The last line is an
unfinished one when the bytes read end with it. -/
structure Retains (i : ProtocolInterpreter) (read : Bytes) : Prop where
  idle : i.request = none
  lineCount : i.lines.length ≤ maxLineCount
  line : ∀ l ∈ i.lines, l ≠ [] ∧ newline ∉ l ∧ l.length ≤ maxLineLength
  unfinished : i.lastLineComplete = false ↔ ∃ l, i.lines.getLast? = some l ∧ l <:+ read
  empty : i.lines = [] → i.lastLineComplete = true

def retained (i : ProtocolInterpreter) : Nat := (i.lines.map List.length).sum

theorem sum_length_le {ls : List Bytes} {n : Nat} (h : ∀ l ∈ ls, l.length ≤ n) :
    (ls.map List.length).sum ≤ ls.length * n := by
  induction ls with
  | nil => simp
  | cons l ls ih =>
    have hl := h l (by simp)
    have hls := ih (fun l' hl' => h l' (by simp [hl']))
    simp only [List.map_cons, List.sum_cons, List.length_cons, Nat.succ_mul]
    omega

theorem Retains.retained_le {i : ProtocolInterpreter} {read : Bytes} (h : i.Retains read) :
    i.retained ≤ maxLineCount * maxLineLength :=
  (sum_length_le fun l hl => (h.line l hl).2.2).trans (Nat.mul_le_mul_right maxLineLength h.lineCount)

end ProtocolInterpreter

namespace Framing

open ProtocolInterpreter

/-- The lines of the automaton within the limits; `read` ends with the unfinished one. -/
structure Collected (done : List Bytes) (cur read : Bytes) : Prop where
  lineCount : (ofState done cur).lines.length ≤ maxLineCount
  complete : ∀ l ∈ done, l ≠ [] ∧ newline ∉ l ∧ l.length ≤ maxLineLength
  unfinished : newline ∉ cur ∧ cur.length ≤ maxLineLength
  text : ∃ before, read = before ++ cur ∧ (before = [] ∧ done = [] ∨ before.getLast? = some newline)

theorem collected_nil : Collected [] [] [] := by
  refine ⟨by decide, by simp, by simp, [], rfl, .inl ⟨rfl, rfl⟩⟩

theorem Collected.retains {done : List Bytes} {cur read : Bytes} (h : Collected done cur read) :
    (ofState done cur).Retains read := by
  obtain ⟨before, rfl, hbefore⟩ := h.text
  refine ⟨rfl, h.lineCount, ?_, ?_, ?_⟩
  · intro l hl
    by_cases hc : cur = []
    · exact h.complete l (by simpa [ofState, hc] using hl)
    · simp only [ofState, hc, if_false, List.mem_append, List.mem_singleton] at hl
      rcases hl with hl | rfl
      · exact h.complete l hl
      · exact ⟨hc, h.unfinished⟩
  · by_cases hc : cur = []
    · -- the bytes read end with a separator, which no line contains
      subst cur
      simp only [ofState, decide_true, Bool.true_eq_false, if_true, false_iff, List.append_nil]
      rintro ⟨l, hl, hsuffix⟩
      obtain ⟨hne, hnl, -⟩ := h.complete l (List.mem_of_getLast? hl)
      rcases hbefore with ⟨rfl, -⟩ | hbefore
      · exact hne (List.suffix_nil.mp hsuffix)
      · obtain ⟨front, rfl⟩ := hsuffix
        rw [List.getLast?_append_of_ne_nil front hne] at hbefore
        exact hnl (List.mem_of_getLast? hbefore)
    · simp [ofState, hc]
  · by_cases hc : cur = [] <;> simp [ofState, hc]

theorem Collected.goesOn {done done' : List Bytes} {cur cur' p read : Bytes} (h : Collected done cur read)
    (hp : IsPiece p) (ho : outcome done cur p = .goesOn done' cur') : Collected done' cur' (read ++ p) := by
  obtain ⟨before, rfl, hbefore⟩ := h.text
  unfold outcome at ho
  by_cases hx : Exceeds done.length (cur ++ p).length
  · rw [if_pos hx] at ho
    cases ho
  have hlen : (cur ++ p).length ≤ maxLineLength ∧ done.length + 1 ≤ maxLineCount := by
    simp only [Exceeds, not_or] at hx
    omega
  rw [if_neg hx] at ho
  rcases hp.cases with hn | ⟨q, hq, rfl⟩
  · rw [if_pos hn] at ho
    cases ho
    refine ⟨?_, h.complete, ⟨by simp [h.unfinished.1, hn], hlen.1⟩, before, by simp, hbefore⟩
    have hne : cur ++ p ≠ [] := by simp [hp.1]
    simpa [ofState, hne] using hlen.2
  have hends : (before ++ cur ++ (q ++ [newline])).getLast? = some newline := by
    rw [← List.append_assoc, List.getLast?_concat]
  rw [if_neg (by simp)] at ho
  by_cases hc : cur ++ (q ++ [newline]) = [newline]
  · rw [if_neg (not_not.mpr hc)] at ho
    by_cases hd : done = []
    · rw [if_neg (not_not.mpr hd)] at ho
      cases ho
      exact ⟨by decide, by simp, by simp, _, by simp, .inr hends⟩
    · simp [hd] at ho
  · rw [if_pos hc] at ho
    cases ho
    refine ⟨by simpa [ofState] using hlen.2, ?_, by simp, _, by simp, .inr hends⟩
    intro l hl
    rcases List.mem_append.mp hl with hl | hl
    · exact h.complete l hl
    obtain rfl := List.mem_singleton.mp hl
    rw [← List.append_assoc, List.dropLast_concat]
    refine ⟨?_, by simp [h.unfinished.1, hq], ?_⟩
    · rintro hnil
      rw [← List.append_assoc, hnil] at hc
      exact hc rfl
    · have hle := hlen.1
      simp only [List.length_append, List.length_singleton] at hle ⊢
      omega

/-- A call of `commit_bytes` collects the whole input, or a request is taken or an error thrown, and the
interpreter is restarted. -/
theorem Collected.takeRequest {done : List Bytes} {cur read : Bytes} (h : Collected done cur read) (input : Bytes) :
    (∃ done' cur', (ofState done cur).takeRequest input = (ofState done' cur', [], .nothing) ∧
      Collected done' cur' (read ++ input)) ∨
    ∃ rest d, (ofState done cur).takeRequest input = (fresh, rest, d) ∧ d ≠ .nothing := by
  induction hn : input.length using Nat.strong_induction_on generalizing done cur read input with
  | _ n ih =>
    subst n
    by_cases hb : input = []
    · subst input
      exact .inl ⟨done, cur, takeRequest_nil rfl, by simpa using h⟩
    have hp := isPiece_cutLine hb
    have htake := takeRequest_outcome done cur (s := (cutLine input).2) hp (by rw [cutLine_append])
    rw [cutLine_append] at htake
    cases ho : outcome done cur (cutLine input).1 with
    | goesOn done' cur' =>
      rw [htake, ho]
      have hrest := ih _ (cutLine_length hb) (h.goesOn hp ho) (cutLine input).2 rfl
      rwa [List.append_assoc, cutLine_append] at hrest
    | delivers d =>
      rw [htake, ho]
      exact .inr ⟨_, d, rfl, outcome_delivers ho⟩

end Framing

/-- What the interpreter has read since its last restart, after the iteration. -/
def Iteration.read (read : Bytes) (it : Iteration) : Bytes :=
  if it.session.context.mode = .command then if it.delivery = .nothing then read ++ it.consumed else [] else read

def readSinceRestart (trace : List Iteration) : Bytes := trace.foldl Iteration.read []

namespace Client

/-- The interpreter stands for a state of the automaton on what it has read. -/
def Collects (c : Client) (trace : List Iteration) : Prop :=
  ∃ done cur, c.interpreter = ofState done cur ∧ Collected done cur (readSinceRestart trace)

variable {srv : ServerContext} {others : Surroundings} {fs : FileSystem} {c : Client} {trace : List Iteration}

theorem handleOnce_collects (hc : c.Collects trace) (input : Bytes) :
    (handleOnce srv others fs c input).1.client.Collects (trace ++ (handleOnce srv others fs c input).1.trace) := by
  obtain ⟨done, cur, hi, hcollected⟩ := hc
  unfold handleOnce
  cases hm : c.session.context.mode with
  | command =>
    rcases hcollected.takeRequest input with ⟨done', cur', htake, hnext⟩ | ⟨rest, d, htake, hd⟩
    · simp only [handleRequest, hi, htake]
      refine ⟨done', cur', rfl, ?_⟩
      simpa [readSinceRestart, Iteration.read, hm, Iteration.consumed, Iteration.parked] using hnext
    · have hread (d : Delivery) (hd : d ≠ .nothing) :
          readSinceRestart (trace ++ [⟨fs, c.session, input, rest, d⟩]) = [] := by
        simp [readSinceRestart, Iteration.read, hm, hd]
      simp only [handleRequest, hi, htake]
      cases d with
      | nothing => exact absurd rfl hd
      | error e => cases e <;> exact ⟨[], [], rfl, by rw [hread _ hd]; exact collected_nil⟩
      | request r => exact ⟨[], [], rfl, by rw [hread _ hd]; exact collected_nil⟩
  | upload =>
    unfold handleUpload
    rcases c.session.handleUpload fs input with ⟨fs', s, e | rest⟩
    all_goals
      refine ⟨done, cur, hi, ?_⟩
      simpa [readSinceRestart, Iteration.read, hm] using hcollected
  | download =>
    refine ⟨done, cur, hi, ?_⟩
    simpa [readSinceRestart, Iteration.read, hm] using hcollected

theorem handleOutput_interpreter (fs : FileSystem) (c : Client) (events : SocketEvents) :
    (handleOutput fs c events).1.interpreter = c.interpreter := by
  rcases ho : handleOutput fs c events with ⟨c', e⟩
  cases handleOutput_outputs ho <;> rfl

end Client

namespace Connection

variable {srv : ServerContext} {fs : FileSystem} {x : Connection}

theorem Head.collects {call : Call} {l : Loop} (h : Head srv x call l) (hx : x.client.Collects x.trace) :
    l.client.Collects l.trace := by
  obtain ⟨-, input, -, hreach⟩ := h
  refine hreach.invariant (I := fun l => l.client.Collects l.trace) hx ?_
  intro l h rest hl honce _
  have hnext := @Client.handleOnce_collects srv call.others l.fs _ _ hl l.input
  rwa [honce] at hnext

theorem step_collects (hx : x.client.Collects x.trace) (hr : x.client.Ready) (call : Call) :
    (step srv x call).client.Collects (step srv x call).trace := by
  by_cases halive : x.client.isAlive = true
  · simp only [step, halive, if_true]
    obtain ⟨-, htrace, hclient⟩ := Client.handle_cases srv call.others call.fs x.client call.events
    have hevents : (x.client.handleEvents srv call.others call.fs call.events).client.Collects
        (x.trace ++ (x.client.handleEvents srv call.others call.fs call.events).trace) := by
      rcases Client.handleEvents_ends x.trace hr with
        ⟨-, -, hclient, hnone⟩ | ⟨input, l, h, rest, hinput, hreach, honce, -, hall, -, -, pending, hclient⟩
      · rw [hclient, hnone, List.append_nil]
        exact hx
      · have hl := Head.collects ⟨halive, input, hinput, hreach⟩ hx
        have hlast := @Client.handleOnce_collects srv call.others l.fs _ _ hl l.input
        rw [honce] at hlast
        rw [hall, hclient]
        exact hlast
    rw [htrace]
    rcases hclient with ⟨-, hclient⟩ | ⟨-, client, hout, hclient⟩
    · rw [hclient]
      exact hevents
    · have hsame : client.Collects (x.trace ++ (x.client.handleEvents srv call.others call.fs call.events).trace) := by
        rcases hout with rfl | rfl
        · exact hevents
        · obtain ⟨done, cur, hi, hcollected⟩ := hevents
          exact ⟨done, cur, by rw [Client.handleOutput_interpreter, hi], hcollected⟩
      rcases hclient with hclient | hclient
      · rw [hclient]
        exact hsame
      · rw [hclient]
        exact hsame
  · simp only [step, halive, Bool.false_eq_true, if_false]
    exact hx

/-- Whatever a client sends, after every call and at the head of every iteration of the input loop. -/
theorem interpreter_retains (h : Runs.Reaches (step srv) (fun _ _ => True) (start fs) x) :
    (x.client.interpreter.Retains (readSinceRestart x.trace) ∧ x.client.interpreter.retained ≤ 16 * 2048) ∧
    ∀ call l, Head srv x call l →
      l.client.interpreter.Retains (readSinceRestart l.trace) ∧ l.client.interpreter.retained ≤ 16 * 2048 := by
  have hx : x.client.Collects x.trace ∧ x.client.Ready := by
    refine h.invariant (I := fun x => x.client.Collects x.trace ∧ x.client.Ready)
      ⟨⟨[], [], rfl, collected_nil⟩, Client.ready_new⟩ ?_
    intro y call ⟨hy, hr⟩ _
    exact ⟨step_collects hy hr call, step_ready hr call⟩
  have hretains {c : Client} {trace : List Iteration} (hc : c.Collects trace) :
      c.interpreter.Retains (readSinceRestart trace) ∧ c.interpreter.retained ≤ 16 * 2048 := by
    obtain ⟨done, cur, hi, hcollected⟩ := hc
    rw [hi]
    exact ⟨hcollected.retains, hcollected.retains.retained_le⟩
  exact ⟨hretains hx.1, fun call l hl => hretains (hl.collects hx.1)⟩

theorem interpreter_retains_two :
    let x := Runs.run (step Sample.server) (start Sample.emptyFile) [Sample.call Sample.emptyFile (some "ls\nx") []]
    x.client.interpreter = ⟨[ascii "ls", ascii "x"], none, false⟩ ∧
    (x.client.interpreter.Retains (readSinceRestart x.trace) ∧ x.client.interpreter.retained ≤ 16 * 2048) ∧
    ∀ call l, Head Sample.server x call l →
      l.client.interpreter.Retains (readSinceRestart l.trace) ∧ l.client.interpreter.retained ≤ 16 * 2048 :=
  ⟨by decide +kernel, interpreter_retains (Runs.AllMeet.reaches ⟨trivial, trivial⟩)⟩

end Connection

end TinDox
