import TinDox.Overrun
import TinDox.Runs

/-! The interface of the interpreter under any use, also by a caller that never restarts it: what
`commit_bytes` leaves behind, and whether an error resets it. -/

namespace TinDox

open Framing

namespace ProtocolInterpreter

/-- A call of the interface. -/
inductive Use where
  | commitBytes (bytes : Bytes)
  | getRequest
  | restart

def use (i : ProtocolInterpreter) : Use → ProtocolInterpreter
  | .commitBytes bytes => (i.commitBytes bytes).1
  | .getRequest => if i.hasAvailableRequest then i.restart else i
  | .restart => i.restart

/-- What the caller gets: the bytes that are left, what is thrown, and the request that is available
or returned. Without one, `get_request` throws. -/
def reply (i : ProtocolInterpreter) : Use → Bytes × Option Exception × Option Request
  | .commitBytes bytes => ((i.commitBytes bytes).2.1, (i.commitBytes bytes).2.2, (i.commitBytes bytes).1.request)
  | .getRequest => ([], if i.hasAvailableRequest then none else some .fatal, i.request)
  | .restart => ([], none, none)

def replies (i : ProtocolInterpreter) (us : List Use) : List (Bytes × Option Exception × Option Request) :=
  Runs.outputs use (fun i u => some (i.reply u)) (fun _ => true) i us

abbrev Reachable (i : ProtocolInterpreter) : Prop := Runs.Reaches use (fun _ _ => True) fresh i

def completeLines (i : ProtocolInterpreter) : List Bytes := if i.lastLineComplete then i.lines else i.lines.dropLast

def openLine (i : ProtocolInterpreter) : Bytes := if i.lastLineComplete then [] else i.lines.getLastD []

@[simp] theorem completeLines_ofState (done : List Bytes) (cur : Bytes) : (ofState done cur).completeLines = done := by
  by_cases hc : cur = [] <;> simp [completeLines, ofState, hc]

@[simp] theorem openLine_ofState (done : List Bytes) (cur : Bytes) : (ofState done cur).openLine = cur := by
  by_cases hc : cur = [] <;> simp [openLine, ofState, hc]

end ProtocolInterpreter

namespace Framing

open ProtocolInterpreter

/-- The line with which the interpreter stops reading, because it exceeds a limit or ends a request,
with the lines of that request before it. -/
def stop : List Bytes → Bytes → List Bytes → Option (List Bytes × Bytes)
  | _, _, [] => none
  | done, cur, p :: ps =>
    if Exceeds done.length (cur ++ p).length then some (done, cur ++ p)
    else if newline ∉ p then stop done (cur ++ p) ps
    else if cur ++ p ≠ [newline] then stop (done ++ [(cur ++ p).dropLast]) [] ps
    else if done ≠ [] then some (done, [newline])
    else stop [] [] ps

theorem stop_goesOn {done done' : List Bytes} {cur cur' p : Bytes} (h : outcome done cur p = .goesOn done' cur')
    (ps : List Bytes) : stop done cur (p :: ps) = stop done' cur' ps := by
  unfold outcome at h
  rw [stop]
  split at h
  · cases h
  · rename_i hx
    rw [if_neg hx]
    split at h
    · rename_i hn
      cases h
      rw [if_pos hn]
    · rename_i hn
      rw [if_neg hn]
      split at h
      · rename_i hc
        cases h
        rw [if_pos hc]
      · rename_i hc
        rw [if_neg hc]
        split at h
        · cases h
        · rename_i hd
          cases h
          rw [if_neg hd]

theorem stop_ends {done : List Bytes} {cur p : Bytes} (hp : IsPiece p) (hx : ¬ Exceeds done.length (cur ++ p).length)
    (he : cur ++ p = [newline]) (hd : done ≠ []) (ps : List Bytes) :
    stop done cur (p :: ps) = some (done, [newline]) := by
  have hn : newline ∈ p := by
    rcases List.append_eq_singleton_iff.mp he with ⟨-, rfl⟩ | ⟨-, rfl⟩
    · simp
    · exact absurd rfl hp.1
  rw [stop, if_neg hx, if_neg (not_not.mpr hn), if_neg (not_not.mpr he), if_pos hd]

/-- What `commit_bytes` has done when it returns or throws. -/
inductive Read (done : List Bytes) (cur b : Bytes) : ProtocolInterpreter × Bytes × Option Exception → Prop
  | all {done' : List Bytes} {cur' : Bytes} (h : stop done cur (pieces b) = none) :
    Read done cur b (ofState done' cur', [], none)
  | exceeds {ls : List Bytes} {l rest : Bytes} (h : stop done cur (pieces b) = some (ls, l))
    (hx : Exceeds ls.length l.length) : Read done cur b (fresh, rest, some (.protocol (limitError l.length)))
  | request {ls : List Bytes} {rest : Bytes} {r : Request} (h : stop done cur (pieces b) = some (ls, [newline]))
    (hx : ls.length < maxLineCount) (hr : deliver ls = .request r) : Read done cur b (⟨[], some r, true⟩, rest, none)
  | malformed {ls : List Bytes} {rest : Bytes} {e : ProtocolError}
    (h : stop done cur (pieces b) = some (ls, [newline])) (hx : ls.length < maxLineCount)
    (he : deliver ls = .error (.protocol e)) :
    Read done cur b (ofState ([] :: ls.tail) [], rest, some (.protocol e))

theorem Read.of_stop {done done' : List Bytes} {cur cur' b b' : Bytes} {result : ProtocolInterpreter × Bytes × Option Exception}
    (h : Read done' cur' b' result) (hs : stop done cur (pieces b) = stop done' cur' (pieces b')) :
    Read done cur b result := by
  cases h with
  | all h => exact .all (hs.trans h)
  | exceeds h hx => exact .exceeds (hs.trans h) hx
  | request h hx hr => exact .request (hs.trans h) hx hr
  | malformed h hx he => exact .malformed (hs.trans h) hx he

theorem commitBytes_read (done : List Bytes) (cur b : Bytes) : Read done cur b ((ofState done cur).commitBytes b) := by
  induction hn : b.length using Nat.strong_induction_on generalizing done cur b with
  | _ n ih =>
    by_cases hb : b = []
    · subst b
      exact .all rfl
    have hp := isPiece_cutLine hb
    have hpieces := pieces_cutLine hb
    have hcommits := commitLine_commits done cur hp
    rw [commitBytes_cut hb rfl]
    generalize (ofState done cur).commitLine (cutLine b).1 = result at hcommits
    cases hcommits with
    | exceeds hx => exact .exceeds (by rw [hpieces, stop, if_pos hx]) hx
    | @goesOn done' cur' h =>
      have hrest := ih _ (hn ▸ cutLine_length hb) done' cur' (cutLine b).2 rfl
      exact hrest.of_stop (by rw [hpieces, stop_goesOn h])
    | @request r hx he hd h =>
      have havailable := commitBytes_available (i := ⟨[], some r, true⟩) rfl (cutLine b).2
      simp only [havailable]
      exact .request (by rw [hpieces, stop_ends hp hx he hd]) (not_le.mp fun hle => hx (.inl hle)) h
    | malformed hx he hd h =>
      exact .malformed (by rw [hpieces, stop_ends hp hx he hd]) (not_le.mp fun hle => hx (.inl hle)) h

theorem deliver_error_iff {ls : List Bytes} :
    (∃ e, deliver ls = .error (.protocol e)) ↔ ∃ l ∈ ls.tail, ∃ e, fieldFromString l = .error e := by
  cases ls with
  | nil => simp [deliver]
  | cons name fieldLines =>
    rcases mapM_fieldFromString fieldLines with ⟨hall, fields, hm, -⟩ | ⟨l, hl, e, he, hm⟩
    · refine iff_of_false (by simp [deliver, hm]) ?_
      rintro ⟨l, hl, e, he⟩
      obtain ⟨f, hok⟩ := hall l hl
      rw [he] at hok
      cases hok
    · exact iff_of_true ⟨e, by simp [deliver, hm]⟩ ⟨l, hl, e, he⟩

end Framing

namespace ProtocolInterpreter

/-- In every state lines are collected or a request waits. -/
inductive Usable : ProtocolInterpreter → Prop
  | collecting (done : List Bytes) (cur : Bytes) : Usable (ofState done cur)
  | available (r : Request) : Usable ⟨[], some r, true⟩

variable {i : ProtocolInterpreter}

theorem usable_fresh : Usable fresh := .collecting [] []

theorem Usable.use (h : i.Usable) (u : Use) : (i.use u).Usable := by
  cases h with
  | collecting done cur =>
    cases u with
    | commitBytes b =>
      have hread := commitBytes_read done cur b
      simp only [ProtocolInterpreter.use]
      generalize (ofState done cur).commitBytes b = result at hread
      cases hread with
      | all => exact .collecting _ _
      | exceeds => exact usable_fresh
      | request => exact .available _
      | malformed => exact .collecting _ _
    | getRequest => exact .collecting done cur
    | restart => exact usable_fresh
  | available r =>
    cases u with
    | commitBytes b =>
      have hsame := commitBytes_available (i := ⟨[], some r, true⟩) rfl b
      simp only [ProtocolInterpreter.use, hsame]
      exact .available r
    | getRequest => exact usable_fresh
    | restart => exact usable_fresh

theorem Reachable.usable (h : i.Reachable) : i.Usable := h.invariant usable_fresh (fun _ u hi _ => hi.use u)

/-- A `ProtocolError` that is thrown for the chunk leaves the interpreter like a new one, which reads
the rest of the chunk and everything later as a new one does. -/
def ErrorsReset (i : ProtocolInterpreter) (b : Bytes) : Prop :=
  ∀ i' rest e, i.commitBytes b = (i', rest, some (.protocol e)) →
    i' = fresh ∧ ∀ us, i'.replies (.commitBytes rest :: us) = fresh.replies (.commitBytes rest :: us)

/-- The chunk ends a request within the limits that has a malformed field. -/
def EndsMalformed (i : ProtocolInterpreter) (b : Bytes) : Prop :=
  i.request = none ∧ ∃ ls, stop i.completeLines i.openLine (pieces b) = some (ls, [newline]) ∧
    ls.length < maxLineCount ∧ ∃ l ∈ ls.tail, ∃ e, fieldFromString l = .error e

theorem errorsReset_iff (h : i.Reachable) (b : Bytes) : i.ErrorsReset b ↔ ¬ i.EndsMalformed b := by
  cases h.usable with
  | available r =>
    refine iff_of_true ?_ (fun hm => nomatch hm.1)
    intro i' rest e he
    rw [commitBytes_available rfl] at he
    cases he
  | collecting done cur =>
    have hread := commitBytes_read done cur b
    simp only [ErrorsReset, EndsMalformed, completeLines_ofState, openLine_ofState]
    generalize (ofState done cur).commitBytes b = result at hread
    cases hread with
    | all hs => exact iff_of_true (by simp) (by simp [hs])
    | @exceeds ls l rest hs hx =>
      refine iff_of_true ?_ ?_
      · rintro i' rest' e ⟨⟩
        exact ⟨rfl, fun _ => rfl⟩
      · rintro ⟨-, ls', hs', hfew, -⟩
        rw [hs] at hs'
        cases hs'
        rcases hx with hx | hx
        · omega
        · exact absurd hx (by decide)
    | @request ls rest r hs hx hr =>
      refine iff_of_true (by simp) ?_
      rintro ⟨-, ls', hs', -, hbad⟩
      rw [hs] at hs'
      cases hs'
      obtain ⟨e, he⟩ := deliver_error_iff.mpr hbad
      rw [hr] at he
      cases he
    | malformed hs hx he =>
      refine iff_of_false (fun hreset => ?_) (fun hnot => hnot ⟨rfl, _, hs, hx, deliver_error_iff.mp ⟨_, he⟩⟩)
      obtain ⟨hfresh, -⟩ := hreset _ _ _ rfl
      exact absurd (congrArg ProtocolInterpreter.lines hfresh) (by simp [ofState, fresh])

/-- The seventeenth line of a request is reported. -/
theorem errorsReset_iff_seventeen : fresh.ErrorsReset (List.replicate 17 (ascii "f\n")).flatten := by
  refine (errorsReset_iff .refl _).mpr ?_
  rintro ⟨-, ls, hs, -⟩
  have hstop : stop [] [] (pieces (List.replicate 17 (ascii "f\n")).flatten) =
      some (List.replicate 16 (ascii "f"), ascii "f\n") := by decide +kernel
  rw [show fresh.completeLines = [] from rfl, show fresh.openLine = [] from rfl, hstop] at hs
  cases hs

/-- After a bad field the lines of the bad request are still there. -/
theorem bad_field_left_behind : ¬ ∀ i, Reachable i → ∀ b, i.ErrorsReset b := by
  intro hall
  have hcommit : fresh.commitBytes (ascii "ls\nls\n\n") =
      (⟨[[], ascii "ls"], none, true⟩, [], some (refuseWith .badField (ascii "expected ':' field separator"))) := by
    decide
  obtain ⟨hfresh, -⟩ := hall fresh .refl _ _ _ _ hcommit
  cases hfresh

end ProtocolInterpreter

end TinDox
