import TinDox.FreshNames
import TinDox.InputLoop
import TinDox.Ledger

/-! The two loops that handle input end, unless an iteration executes a `cp` whose renaming loop does not. An
iteration of the outer one may consume nothing, but then it finishes an upload. -/

namespace TinDox

namespace ProtocolInterpreter

/-- The body of the loop of `commit_bytes`. -/
def commitBytesBody : ProtocolInterpreter × Bytes →
    (ProtocolInterpreter × Bytes) ⊕ (ProtocolInterpreter × Bytes × Option Exception)
  | (i, bytes) =>
    if bytes = [] ∨ i.hasAvailableRequest then .inr (i, bytes, none)
    else
      match i.commitLine (cutLine bytes).1 with
      | (i, some e) => .inr (i, (cutLine bytes).2, some e)
      | (i, none) => .inl (i, (cutLine bytes).2)

theorem commitBytesBody_decreases {s t : ProtocolInterpreter × Bytes} (h : Loops.Next commitBytesBody s t) :
    t.2.length < s.2.length := by
  obtain ⟨i, bytes⟩ := s
  simp only [Loops.Next, commitBytesBody] at h
  split at h
  · cases h
  · rename_i hgo
    split at h
    · cases h
    · obtain rfl := Sum.inl.inj h
      exact cutLine_length (not_or.mp hgo).1

theorem commitBytes_terminates (s : ProtocolInterpreter × Bytes) : Loops.Terminates commitBytesBody s :=
  Loops.terminates_of_measure (I := fun _ => True) (fun s => s.2.length)
    (fun _ _ _ h => ⟨trivial, commitBytesBody_decreases h⟩) trivial

theorem commitBytesLoop_leaves (fuel : Nat) (i : ProtocolInterpreter) {bytes : Bytes} (h : bytes.length ≤ fuel) :
    Loops.Leaves commitBytesBody (i, bytes) (commitBytesLoop fuel i bytes) := by
  induction fuel generalizing i bytes with
  | zero =>
    obtain rfl := List.length_eq_zero_iff.mp (Nat.le_zero.mp h)
    exact ⟨_, .refl, rfl⟩
  | succ fuel ih =>
    rw [commitBytesLoop]
    split
    · rename_i hstop
      exact ⟨_, .refl, by rw [commitBytesBody, if_pos hstop]⟩
    · rename_i hgo
      have hcut := cutLine_length (not_or.mp hgo).1
      have hbody : commitBytesBody (i, bytes) = _ := if_neg hgo
      rcases hline : i.commitLine (cutLine bytes).1 with ⟨i', _ | e⟩
      · rw [hline] at hbody
        obtain ⟨t, ht, hr⟩ := @ih i' (cutLine bytes).2 (by omega)
        exact ⟨t, .head hbody ht, hr⟩
      · rw [hline] at hbody
        exact ⟨_, .refl, hbody⟩

theorem commitBytes_leaves (i : ProtocolInterpreter) (bytes : Bytes) :
    Loops.Leaves commitBytesBody (i, bytes) (i.commitBytes bytes) := commitBytesLoop_leaves _ i le_rfl

end ProtocolInterpreter

/-- The path and the name of a `cp` that gets to its renaming loop. -/
def Session.copying (srv : ServerContext) (fs : FileSystem) (s : Session) (r : Request) : Option (Path × Path) :=
  match CommandExecutor.setCommand s.context r.name with
  | .ok .cp =>
    match TransportCommand.parseFields srv fs s.context r.fields, s.context.currentPathLock with
    | .ok (path, name), some _ => some (path, name)
    | _, _ => none
  | _ => none

theorem Session.copying_parsed {srv : ServerContext} {fs : FileSystem} {s : Session} {r : Request} {path name : Path}
    (h : s.copying srv fs r = some (path, name)) : TransportCommand.parseFields srv fs s.context r.fields = .ok (path, name) := by
  unfold copying at h
  split at h
  · split at h
    · rename_i hparse _
      cases h
      exact hparse
    · cases h
  · cases h

namespace Loop

variable {srv : ServerContext} {others : Surroundings}

/-- The body of the loop of `handle_input`, which leaves when it throws or no input is left. -/
def body (srv : ServerContext) (others : Surroundings) (l : Loop) : Loop ⊕ (Handling × Bytes) :=
  match l.client.handleOnce srv others l.fs l.input with
  | (h, rest) =>
    if h.fatal ∨ rest = [] then .inr ({ h with trace := l.trace ++ h.trace }, rest) else .inl (l.after h rest)

theorem next_iff {l l' : Loop} : Loops.Next (body srv others) l l' ↔ Next srv others l l' := by
  unfold Loops.Next body Next
  rcases l.client.handleOnce srv others l.fs l.input with ⟨h, rest⟩
  by_cases hstop : h.fatal = true ∨ rest = []
  · refine iff_of_false (by simp [hstop]) ?_
    rintro ⟨h', rest', he, hf, hrest, -⟩
    cases he
    rcases hstop with hh | hh
    · simp [hf] at hh
    · exact hrest hh
  · simp only [hstop, if_false]
    rw [not_or, Bool.not_eq_true] at hstop
    constructor
    · rintro ⟨⟩
      exact ⟨h, rest, rfl, hstop.1, hstop.2, rfl⟩
    · rintro ⟨h', rest', he, -, -, rfl⟩
      cases he
      rfl

theorem reaches_iff {l l' : Loop} : Loops.Reaches (body srv others) l l' ↔ Reaches srv others l l' := by
  have hsame : Loops.Next (body srv others) = Next srv others := by
    funext l l'
    exact propext next_iff
  rw [Loops.Reaches, hsame]

/-- The path and the name of the `cp` that an iteration executes, if it gets to its renaming loop. -/
def copying (srv : ServerContext) (l : Loop) : Option (Path × Path) :=
  if l.client.session.context.mode = .command then
    match l.client.interpreter.takeRequest l.input with
    | (_, _, .request r) => l.client.session.copying srv l.fs r
    | _ => none
  else none

/-- The loop of `handle_input` with the renaming loops that its iterations enter. An iteration is made when
its renaming loop has ended. -/
def control (srv : ServerContext) (others : Surroundings) :=
  Loops.nested (body srv others) fun l =>
    (l.copying srv).map fun p => (Cp.renamingStep l.fs p.1 p.2, ((1, p.1 / p.2) : Nat × Path))

theorem copying_ok {l : Loop} {path name : Path} (h : l.copying srv = some (path, name)) :
    l.fs.isDirectory path = true ∧ slash ∉ name.native := by
  unfold copying at h
  split at h
  · split at h
    · exact TransportCommand.parseFields_target (Session.copying_parsed h)
    · cases h
  · cases h

/-- An iteration consumes input, or finishes an upload. -/
theorem terminates {l : Loop} (h : l.client.Ready) : Loops.Terminates (body srv others) l := by
  apply Loops.terminates_of_measure (I := fun l => l.client.Ready) (fun l => l.client.measure l.input) ?_ h
  intro l l' hl hnext
  obtain ⟨h, rest, honce, hf, hrest, rfl⟩ := next_iff.mp hnext
  have hadv := Client.handleOnce_advances hl honce hf
  have hmode : l.client.session.context.mode ≠ .download := fun hm => hrest (hadv.parked hm).1
  refine ⟨hadv.ready, hadv.decreases hmode ?_⟩
  intro hinput
  have hsuffix := (hadv.suffix hmode).1
  rw [hinput] at hsuffix
  exact hrest (List.suffix_nil.mp hsuffix)

/-- The loop ends when no renaming loop inside it runs for ever. -/
theorem control_terminates_iff {l : Loop} (h : l.client.Ready) :
    Loops.Terminates (control srv others) (.inl l) ↔
      ∀ l', Loops.Reaches (body srv others) l l' → ∀ path name, l'.copying srv = some (path, name) →
        ¬ (l'.fs.fsExists (path / name) = .ok true ∧ ((0 : Byte) ∈ path.native ∨ (0 : Byte) ∈ name.native)) := by
  rw [control, Loops.nested_terminates_iff (terminates h)]
  apply forall₂_congr
  intro l' _
  constructor
  · intro hpass path name hcopying
    obtain ⟨hdir, hs⟩ := copying_ok hcopying
    have hends : Cp.Renames l'.fs path name := hpass (Cp.renamingStep l'.fs path name, (1, path / name)) (by simp [hcopying])
    exact (Cp.renames_iff hdir hs).mp hends
  · intro hfree inside hinside
    obtain ⟨⟨path, name⟩, hcopying, rfl⟩ := Option.map_eq_some_iff.mp hinside
    obtain ⟨hdir, hs⟩ := copying_ok hcopying
    exact (Cp.renames_iff hdir hs).mpr (hfree path name hcopying)

end Loop

namespace Client

variable {srv : ServerContext} {others : Surroundings} {fs : FileSystem} {c : Client}

theorem handleInput_leaves (hc : c.Ready) (input : Bytes) :
    ∃ rest, Loops.Leaves (Loop.body srv others) ⟨fs, c, input, []⟩ (handleInput srv others fs c input, rest) ∧
      ((handleInput srv others fs c input).fatal = true ∨ rest = []) := by
  have hfuel : measure c input < 2 * input.length + 2 := by
    unfold measure
    split <;> omega
  obtain ⟨l, h, rest, hreach, honce, hend, htrace, hres⟩ := @handleInputLoop_ends srv others fs c
    _ _ [] hc hfuel
  rw [List.nil_append] at htrace
  have hresult : handleInput srv others fs c input = { h with trace := l.trace ++ h.trace } := by
    rw [handleInput, hres, htrace]
  refine ⟨rest, ⟨l, Loop.reaches_iff.mpr hreach, ?_⟩, ?_⟩
  · rw [Loop.body, honce, hresult]
    exact if_pos hend
  · rw [hresult]
    exact hend

theorem handleEvents_ready {events : SocketEvents} (hc : c.Ready) : (handleEvents srv others fs c events).client.Ready := by
  rcases @handleEvents_ends srv others fs c events [] hc with
    ⟨-, -, hclient, -⟩ | ⟨input, l, h, rest, -, hreach, honce, -, -, -, -, pending, hclient⟩
  · rw [hclient]
    exact hc
  · have hready := @handleOnce_ready srv others l.fs l.client l.input (hreach.ready hc)
    rw [honce] at hready
    rw [hclient]
    exact ⟨hready.idle, hready.bounded⟩

theorem handle_ready {events : SocketEvents} (hc : c.Ready) : (handle srv others fs c events).client.Ready := by
  have hready := @handleEvents_ready srv others fs c events hc
  obtain ⟨-, -, ⟨-, hclient⟩ | ⟨-, client, hclient, hout⟩⟩ := handle_cases srv others fs c events
  · rw [hclient]
    exact hready.killed
  · have hclient' : client.Ready := by
      rcases hclient with rfl | rfl
      · exact hready
      · exact (handleOutput_keeps _ _ events).2 hready
    rcases hout with hout | hout
    · rw [hout]
      exact hclient'
    · rw [hout]
      exact hclient'.killed

end Client

namespace Connection

variable {srv : ServerContext} {fs₀ : FileSystem} {x : Connection}

theorem step_ready (hx : x.client.Ready) (call : Call) : (step srv x call).client.Ready := by
  unfold step
  split
  · exact Client.handle_ready hx
  · exact hx

theorem ready_of_reaches (h : Runs.Reaches (step srv) (fun _ _ => True) (start fs₀) x) : x.client.Ready :=
  h.invariant (I := fun x => x.client.Ready) Client.ready_new (fun _ call hy _ => step_ready hy call)

/-- Whatever a client has done before, the loop over its input ends, because of an exception or because all of the
input is consumed, exactly when no `cp` that it comes to is about a path or a name with a NUL under which something
exists. The loop over the lines ends in every iteration, and the renaming loop, where it ends, gives what the
iteration goes on with. -/
theorem handleInput_terminates_iff (h : Runs.Reaches (step srv) (fun _ _ => True) (start fs₀) x) (others : Surroundings)
    (fs : FileSystem) (input : Bytes) :
    (Loops.Terminates (Loop.control srv others) (.inl ⟨fs, x.client, input, []⟩) ∧
        (∃ rest, Loops.Leaves (Loop.control srv others) (.inl ⟨fs, x.client, input, []⟩)
            (x.client.handleInput srv others fs input, rest) ∧
          ((x.client.handleInput srv others fs input).fatal = true ∨ rest = [])) ↔
      ∀ l, Loops.Reaches (Loop.body srv others) ⟨fs, x.client, input, []⟩ l → ∀ path name, l.copying srv = some (path, name) →
        ¬ (l.fs.fsExists (path / name) = .ok true ∧ ((0 : Byte) ∈ path.native ∨ (0 : Byte) ∈ name.native))) ∧
    ∀ l, Loops.Reaches (Loop.body srv others) ⟨fs, x.client, input, []⟩ l →
      Loops.Terminates ProtocolInterpreter.commitBytesBody (l.client.interpreter, l.input) ∧
      Loops.Leaves ProtocolInterpreter.commitBytesBody (l.client.interpreter, l.input)
        (l.client.interpreter.commitBytes l.input) ∧
      ∀ path name, l.copying srv = some (path, name) → ∀ r,
        (Loops.Leaves (Cp.renamingStep l.fs path name) (1, path / name) r ↔ Cp.newPath l.fs path name = some r) := by
  have hready := ready_of_reaches h
  obtain ⟨rest, hleaves, hend⟩ := @Client.handleInput_leaves srv others fs x.client hready input
  refine ⟨?_, fun l _ => ⟨ProtocolInterpreter.commitBytes_terminates _, ProtocolInterpreter.commitBytes_leaves _ _, ?_⟩⟩
  · rw [← Loop.control_terminates_iff hready]
    constructor
    · exact fun hcontrol => hcontrol.1
    · intro hterminates
      have hpass := (Loops.nested_terminates_iff (Loops.Terminates.of_leaves hleaves)).mp hterminates
      exact ⟨hterminates, rest, Loops.nested_leaves hleaves hpass, hend⟩
  · intro path name hcopying r
    obtain ⟨hdir, hs⟩ := Loop.copying_ok hcopying
    exact (Cp.newPath_eq_some_iff hdir hs).symm

/-- A malformed request, an upload of no bytes and a copy, with a request behind them. -/
theorem handleInput_terminates_iff_loggedIn :
    let x := step Sample.server (start Sample.emptyFile)
      (Sample.call Sample.emptyFile (some "auth\nlogin:u\npasswd:pw\n\n") [])
    let input := ascii "ls\nls\n\nul\nname:y\nsize:0\n\ncp\npath:/\nname:x\n\nname\n\n"
    Loops.Terminates (Loop.control Sample.server Sample.around) (.inl ⟨Sample.emptyFile, x.client, input, []⟩) ∧
      ∃ rest, Loops.Leaves (Loop.control Sample.server Sample.around) (.inl ⟨Sample.emptyFile, x.client, input, []⟩)
          (x.client.handleInput Sample.server Sample.around Sample.emptyFile input, rest) ∧
        ((x.client.handleInput Sample.server Sample.around Sample.emptyFile input).fatal = true ∨ rest = []) := by
  intro x input
  refine (handleInput_terminates_iff (.single ⟨_, trivial, rfl⟩) Sample.around Sample.emptyFile input).1.mpr ?_
  intro l hl path name hcopying
  let free (l : Loop) : Bool := (l.copying Sample.server).all fun p =>
    ¬ (l.fs.fsExists (p.1 / p.2) = .ok true ∧ ((0 : Byte) ∈ p.1.native ∨ (0 : Byte) ∈ p.2.native))
  have hfree : free l = true := Loops.forall_of_checks (n := 8) (by decide +kernel) hl
  simp only [free, hcopying, Option.all_some, decide_eq_true_eq] at hfree
  exact hfree

/-- A logged in client asks for a copy of a file under a name with a NUL. -/
theorem handleInput_never_ends :
    let x := step Sample.server (start Sample.emptyFile)
      (Sample.call Sample.emptyFile (some "auth\nlogin:u\npasswd:pw\n\n") [])
    let input := ascii "cp\npath:/\nname:x" ++ 0 :: ascii "y\n\n"
    Runs.Reaches (step Sample.server) (fun _ _ => True) (start Sample.emptyFile) x ∧
      ¬ Loops.Terminates (Loop.control Sample.server Sample.around) (.inl ⟨Sample.emptyFile, x.client, input, []⟩) ∧
      ∀ r, ¬ Loops.Leaves (Loop.control Sample.server Sample.around) (.inl ⟨Sample.emptyFile, x.client, input, []⟩) r := by
  intro x input
  have hreached : Runs.Reaches (step Sample.server) (fun _ _ => True) (start Sample.emptyFile) x := .single ⟨_, trivial, rfl⟩
  have hnever : ¬ Loops.Terminates (Loop.control Sample.server Sample.around) (.inl ⟨Sample.emptyFile, x.client, input, []⟩) := by
    rw [Loop.control_terminates_iff (ready_of_reaches hreached)]
    intro hall
    have hcopying : Loop.copying Sample.server ⟨Sample.emptyFile, x.client, input, []⟩ = some (⟨ascii "/r/"⟩, Sample.cut) := by
      decide +kernel
    exact hall _ .refl _ _ hcopying ⟨by decide, .inr (by decide)⟩
  exact ⟨hreached, hnever, fun r hr => hnever (.of_leaves hr)⟩

end Connection

end TinDox
