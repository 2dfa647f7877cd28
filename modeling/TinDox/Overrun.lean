import TinDox.Framing

/-! Lines over the limits. The interpreter checks the limits on every fragment of a line it is
handed and starts afresh after an error, so what becomes of an over-limit line depends on where
the chunks cut it. -/

namespace TinDox

open ProtocolInterpreter

namespace Framing

/-- The fragments `commit_bytes` makes of a chunk: each ends behind a separator or with the chunk. -/
def pieces : Bytes → List Bytes
  | [] => []
  | c :: b =>
    if c = newline then [c] :: pieces b
    else
      match pieces b with
      | [] => [[c]]
      | p :: ps => (c :: p) :: ps

def IsPiece (p : Bytes) : Prop := p ≠ [] ∧ newline ∉ p.dropLast

instance (p : Bytes) : Decidable (IsPiece p) := inferInstanceAs (Decidable (_ ∧ _))

theorem pieces_cutLine {b : Bytes} (hb : b ≠ []) : pieces b = (cutLine b).1 :: pieces (cutLine b).2 := by
  induction b with
  | nil => exact absurd rfl hb
  | cons c b ih =>
    by_cases hc : c = newline
    · simp [pieces, cutLine, hc]
    · by_cases hb' : b = []
      · subst b
        simp [pieces, cutLine, hc]
      · simp [pieces, cutLine, hc, ih hb']

theorem IsPiece.cutLine {p : Bytes} (h : IsPiece p) : cutLine p = (p, []) := by
  rcases cutLine_cases p with ⟨-, hcut⟩ | ⟨q, s, -, rfl, hcut⟩
  · exact hcut
  · have hs : s = [] := by
      by_contra hs
      apply h.2
      rw [List.dropLast_append_of_ne_nil (by simp), List.dropLast_cons_of_ne_nil hs]
      simp
    subst s
    exact hcut

theorem isPiece_cutLine {b : Bytes} (hb : b ≠ []) : IsPiece (TinDox.cutLine b).1 := by
  refine ⟨cutLine_ne_nil hb, ?_⟩
  rcases cutLine_cases b with ⟨hp, hcut⟩ | ⟨q, s, hq, -, hcut⟩
  · rw [hcut]
    exact fun hm => hp (List.dropLast_subset _ hm)
  · rw [hcut]
    simpa using hq

theorem IsPiece.pieces {p : Bytes} (h : IsPiece p) : pieces p = [p] := by
  rw [pieces_cutLine h.1, h.cutLine]
  rfl

theorem flatMap_pieces {ps : List Bytes} (h : ∀ p ∈ ps, IsPiece p) : ps.flatMap pieces = ps := by
  induction ps with
  | nil => rfl
  | cons p ps ih =>
    rw [List.flatMap_cons, (h p (by simp)).pieces, ih (fun q hq => h q (by simp [hq]))]
    rfl

/-- A fragment ends its line or leaves it open. -/
theorem IsPiece.cases {p : Bytes} (h : IsPiece p) :
    newline ∉ p ∨ ∃ q, newline ∉ q ∧ p = q ++ [newline] := by
  rcases cutLine_cases p with ⟨hp, -⟩ | ⟨q, s, hq, hp, hcut⟩
  · exact .inl hp
  · have hs : s = [] := by simpa [hcut] using congrArg Prod.snd h.cutLine
    exact .inr ⟨q, hq, by simpa [hs] using hp⟩

/-- What is thrown for a line of this length when it exceeds a limit. -/
def limitError (length : Nat) : ProtocolError :=
  if maxLineLength < length then
    protocolError .tooLongLine (ascii "Too long line (" ++ fresh.lastLineSize ++ ascii " bytes)")
  else protocolError .tooManyFields (ascii "Too many fields (" ++ decimal 0 ++ ascii ")")

def LimitError (d : Delivery) : Prop :=
  ∃ e, d = .error (.protocol e) ∧ (e.code = .tooLongLine ∨ e.code = .tooManyFields)

def Exceeds (count length : Nat) : Prop := maxLineCount ≤ count ∨ maxLineLength < length

instance (count length : Nat) : Decidable (Exceeds count length) := inferInstanceAs (Decidable (_ ∨ _))

theorem limitError_spec (length : Nat) : LimitError (.error (.protocol (limitError length))) := by
  by_cases hl : maxLineLength < length
  · exact ⟨_, rfl, .inl (by simp [limitError, hl, protocolError])⟩
  · exact ⟨_, rfl, .inr (by simp [limitError, hl, protocolError])⟩

theorem checkForProtocolErrors_exceeds {i : ProtocolInterpreter} {done : List Bytes} {l : Bytes}
    (hi : i.lines = done ++ [l]) (h : Exceeds done.length l.length) :
    i.checkForProtocolErrors = (fresh, some (.protocol (limitError l.length))) := by
  have hlast : i.lines.getLastD [] = l := by rw [hi, List.getLastD_concat]
  by_cases hl : l.length > maxLineLength
  · simp only [checkForProtocolErrors, hlast, hl, true_or, if_true, limitError]
    rfl
  · have hc : i.lines.length > maxLineCount := by
      have hd := h.resolve_right hl
      simp only [hi, List.length_append, List.length_singleton]
      omega
    simp only [checkForProtocolErrors, hlast, hl, hc, or_true, if_true, if_false, limitError]
    rfl

theorem commitLine_exceeds {done : List Bytes} {cur p : Bytes} (h : Exceeds done.length (cur ++ p).length) :
    (ofState done cur).commitLine p = (fresh, some (.protocol (limitError (cur ++ p).length))) := by
  have hc := checkForProtocolErrors_exceeds (i := { ofState done cur with lines := done ++ [cur ++ p] }) rfl h
  rw [commitLine]
  simp only [commitLine_lines, hc]

/-- What the interpreter does with a fragment: it keeps collecting, or starts afresh behind a
delivery. -/
inductive Outcome where
  | goesOn (done : List Bytes) (cur : Bytes)
  | delivers (d : Delivery)

def Outcome.result : Outcome → Bytes → ProtocolInterpreter × Bytes × Delivery
  | goesOn done cur, s => (ofState done cur).takeRequest s
  | delivers d, s => (fresh, s, d)

def outcome (done : List Bytes) (cur p : Bytes) : Outcome :=
  if Exceeds done.length (cur ++ p).length then .delivers (.error (.protocol (limitError (cur ++ p).length)))
  else if newline ∉ p then .goesOn done (cur ++ p)
  else if cur ++ p ≠ [newline] then .goesOn (done ++ [(cur ++ p).dropLast]) []
  else if done ≠ [] then .delivers (deliver done)
  else .goesOn [] []

/-- Everything `commit_line` can do with a fragment. A malformed field leaves the lines behind, the
first of them moved out. -/
inductive Commits (done : List Bytes) (cur p : Bytes) : ProtocolInterpreter × Option Exception → Prop
  | exceeds (h : Exceeds done.length (cur ++ p).length) :
    Commits done cur p (fresh, some (.protocol (limitError (cur ++ p).length)))
  | goesOn {done' : List Bytes} {cur' : Bytes} (h : outcome done cur p = .goesOn done' cur') :
    Commits done cur p (ofState done' cur', none)
  | request {r : Request} (hx : ¬ Exceeds done.length (cur ++ p).length) (hp : cur ++ p = [newline]) (hd : done ≠ [])
    (h : deliver done = .request r) : Commits done cur p (⟨[], some r, true⟩, none)
  | malformed {e : ProtocolError} (hx : ¬ Exceeds done.length (cur ++ p).length) (hp : cur ++ p = [newline])
    (hd : done ≠ []) (h : deliver done = .error (.protocol e)) :
    Commits done cur p (ofState ([] :: done.tail) [], some (.protocol e))

theorem commitLine_commits (done : List Bytes) (cur : Bytes) {p : Bytes} (hp : IsPiece p) :
    Commits done cur p ((ofState done cur).commitLine p) := by
  by_cases hx : Exceeds done.length (cur ++ p).length
  · rw [commitLine_exceeds hx]
    exact .exceeds hx
  have hlen : (cur ++ p).length ≤ maxLineLength ∧ done.length + 1 ≤ maxLineCount := by
    simp only [Exceeds, not_or] at hx
    omega
  rcases hp.cases with hn | ⟨q, hq, rfl⟩
  · rw [commitLine_piece hp.1 hn hlen.1 hlen.2]
    exact .goesOn (by rw [outcome, if_neg hx, if_pos hn])
  have hnl : ¬ newline ∉ q ++ [newline] := by simp
  by_cases hc : cur ++ q = []
  · obtain ⟨rfl, rfl⟩ := List.append_eq_nil_iff.mp hc
    by_cases hd : done = []
    · subst done
      rw [List.nil_append, commitLine_blank]
      exact .goesOn rfl
    · rcases commitLine_terminator hd hlen.2 with ⟨r, hdel, hi⟩ | ⟨e, hdel, hi⟩
      · rw [List.nil_append, hi]
        exact .request hx rfl hd hdel
      · rw [List.nil_append, hi]
        exact .malformed hx rfl hd hdel
  · have hl : (cur ++ q).length + 1 ≤ maxLineLength := by
      simpa [Nat.add_assoc] using hlen.1
    have hcut : cur ++ (q ++ [newline]) = (cur ++ q) ++ [newline] := by simp
    have hcontent : cur ++ (q ++ [newline]) ≠ [newline] := by
      rw [hcut]
      intro he
      exact hc (List.append_left_eq_self.mp he)
    rw [commitLine_complete hc hl hlen.2]
    exact .goesOn (by rw [outcome, if_neg hx, if_neg hnl, if_pos hcontent, hcut, List.dropLast_concat])

theorem outcome_ends {done : List Bytes} {cur p : Bytes} (hx : ¬ Exceeds done.length (cur ++ p).length)
    (hp : IsPiece p) (he : cur ++ p = [newline]) (hd : done ≠ []) : outcome done cur p = .delivers (deliver done) := by
  have hn : newline ∈ p := by
    rcases List.append_eq_singleton_iff.mp he with ⟨-, rfl⟩ | ⟨-, rfl⟩
    · simp
    · exact absurd rfl hp.1
  rw [outcome, if_neg hx, if_neg (not_not.mpr hn), if_neg (not_not.mpr he), if_pos hd]

theorem takeRequest_outcome (done : List Bytes) (cur : Bytes) {p s : Bytes} (hp : IsPiece p)
    (hcut : TinDox.cutLine (p ++ s) = (p, s)) :
    (ofState done cur).takeRequest (p ++ s) = (outcome done cur p).result s := by
  have hne : p ++ s ≠ [] := by simp [hp.1]
  have hline {i : ProtocolInterpreter} (h : (ofState done cur).commitLine p = (i, none)) :
      (ofState done cur).takeRequest (p ++ s) = i.takeRequest s := by
    rw [takeRequest_line hne rfl (by rw [hcut]; exact h), hcut]
  have herror {i : ProtocolInterpreter} {e : ProtocolError}
      (h : (ofState done cur).commitLine p = (i, some (.protocol e))) :
      (ofState done cur).takeRequest (p ++ s) = (fresh, s, .error (.protocol e)) := by
    rw [takeRequest_error hne rfl (by rw [hcut]; exact h), hcut]
  have hcommits := commitLine_commits done cur hp
  generalize hres : (ofState done cur).commitLine p = result at hcommits
  cases hcommits with
  | exceeds hx =>
    rw [herror hres, outcome, if_pos hx]
    rfl
  | goesOn h =>
    rw [hline hres, h]
    rfl
  | request hx he hd h =>
    rw [hline hres, outcome_ends hx hp he hd, h]
    exact takeRequest_available rfl s
  | malformed hx he hd h =>
    rw [herror hres, outcome_ends hx hp he hd, h]
    rfl

/-- The state and the deliveries after a fragment. -/
def Outcome.step : Outcome → ProtocolInterpreter × List Delivery
  | goesOn done cur => (ofState done cur, [])
  | delivers d => (fresh, [d])

theorem outcome_delivers {done : List Bytes} {cur p : Bytes} {d : Delivery} (h : outcome done cur p = .delivers d) :
    d ≠ .nothing := by
  unfold outcome at h
  split at h
  · cases h
    simp
  · split at h
    · cases h
    · split at h
      · cases h
      · split at h
        · rename_i hd
          cases h
          obtain ⟨name, fieldLines, rfl⟩ := List.exists_cons_of_ne_nil hd
          cases hf : fieldLines.mapM fieldFromString <;> simp [deliver, hf]
        · cases h

theorem step_outcome {done : List Bytes} {cur p : Bytes} (hp : IsPiece p) (later : Bytes) :
    driveChunk (p.length + 1) (ofState done cur) p later =
      ((outcome done cur p).step.1, (outcome done cur p).step.2.map (·, later)) := by
  have htake := takeRequest_outcome done cur (s := []) hp (by simpa using hp.cutLine)
  rw [List.append_nil] at htake
  rw [driveChunk, htake]
  cases ho : outcome done cur p with
  | goesOn done' cur' => simp [Outcome.result, takeRequest_nil (i := ofState done' cur') rfl, Outcome.step]
  | delivers d => simp [Outcome.result, Outcome.step, outcome_delivers ho]

theorem step_ofState (o : Outcome) : ∃ done cur, o.step.1 = ofState done cur := by
  cases o with
  | goesOn done cur => exact ⟨done, cur, rfl⟩
  | delivers d => exact ⟨[], [], rfl⟩

/-- Cutting a chunk behind a separator changes nothing. -/
theorem driveChunk_pieces {fuel : Nat} {done : List Bytes} {cur input later : Bytes} (hf : input.length < fuel) :
    (driveChunk fuel (ofState done cur) input later).1 = (drive (ofState done cur) (pieces input)).1 ∧
    (driveChunk fuel (ofState done cur) input later).2.map Prod.fst =
      (drive (ofState done cur) (pieces input)).2.map Prod.fst := by
  induction hn : input.length using Nat.strong_induction_on generalizing fuel done cur input with
  | _ n ih =>
    subst n
    obtain ⟨fuel, rfl⟩ : ∃ f, fuel = f + 1 := ⟨fuel - 1, by omega⟩
    by_cases hb : input = []
    · subst input
      simp [driveChunk, takeRequest_nil (i := ofState done cur) rfl, pieces, drive]
    have hp := isPiece_cutLine hb
    have hcut := cutLine_length hb
    have htake := takeRequest_outcome done cur (s := (cutLine input).2) hp
      (by rw [cutLine_append])
    rw [cutLine_append] at htake
    rw [pieces_cutLine hb, drive, step_outcome hp]
    cases ho : outcome done cur (cutLine input).1 with
    | goesOn done' cur' =>
      have hsame : driveChunk (fuel + 1) (ofState done cur) input later =
          driveChunk (fuel + 1) (ofState done' cur') (cutLine input).2 later := by
        simp only [driveChunk, htake, ho, Outcome.result]
      obtain ⟨h1, h2⟩ := @ih _ hcut (fuel + 1) done' cur' _ (by omega) rfl
      rw [hsame, h1, h2]
      simp [Outcome.step]
    | delivers d =>
      have hd := outcome_delivers ho
      obtain ⟨h1, h2⟩ := @ih _ hcut fuel [] [] _ (by omega) rfl
      rw [driveChunk, htake, ho]
      by_cases hs : (cutLine input).2 = []
      · simp [Outcome.result, Outcome.step, hs, hd, pieces, drive]
      · rw [ofState_fresh] at h1 h2
        simp [Outcome.result, Outcome.step, hs, hd, h1, h2]

theorem isPiece_of_mem_pieces {b p : Bytes} (h : p ∈ pieces b) : IsPiece p := by
  induction hn : b.length using Nat.strong_induction_on generalizing b with
  | _ n ih =>
    by_cases hb : b = []
    · simp [hb, pieces] at h
    · rw [pieces_cutLine hb, List.mem_cons] at h
      rcases h with rfl | h
      · exact isPiece_cutLine hb
      · exact ih _ (hn ▸ cutLine_length hb) h rfl

/-- What `Client::handle_request` is handed for a list of chunks. -/
def reports (i : ProtocolInterpreter) (chunks : List Bytes) : List Delivery := (drive i chunks).2.map Prod.fst

theorem driveChunk_later (fuel : Nat) (i : ProtocolInterpreter) (input l l' : Bytes) :
    (driveChunk fuel i input l).1 = (driveChunk fuel i input l').1 ∧
    (driveChunk fuel i input l).2.map Prod.fst = (driveChunk fuel i input l').2.map Prod.fst := by
  induction fuel generalizing i input with
  | zero => exact ⟨rfl, rfl⟩
  | succ fuel ih =>
    simp only [driveChunk]
    rcases i.takeRequest input with ⟨i', rest, d⟩
    obtain ⟨h1, h2⟩ := ih i' rest
    by_cases hr : rest = []
    · by_cases hd : d = .nothing <;> simp [hr, hd]
    · by_cases hd : d = .nothing <;> simp [hr, hd, h1, h2]

theorem drive_append (i : ProtocolInterpreter) (cs ds : List Bytes) :
    (drive i (cs ++ ds)).1 = (drive (drive i cs).1 ds).1 ∧
    reports i (cs ++ ds) = reports i cs ++ reports (drive i cs).1 ds := by
  induction cs generalizing i with
  | nil => exact ⟨rfl, rfl⟩
  | cons c cs ih =>
    obtain ⟨h1, h2⟩ := driveChunk_later (c.length + 1) i c (cs ++ ds).flatten cs.flatten
    have hh := ih (driveChunk (c.length + 1) i c cs.flatten).1
    simp only [reports] at hh
    simp only [List.cons_append, drive, reports, h1, List.map_append, h2, hh.1, hh.2, List.append_assoc,
      and_self]

theorem drive_piece {p : Bytes} (hp : IsPiece p) (done : List Bytes) (cur : Bytes) (ps : List Bytes) :
    (drive (ofState done cur) (p :: ps)).1 = (drive (outcome done cur p).step.1 ps).1 ∧
    reports (ofState done cur) (p :: ps) =
      (outcome done cur p).step.2 ++ reports (outcome done cur p).step.1 ps := by
  simp [drive, reports, step_outcome hp, Function.comp_def]

theorem drive_pieces_state (done : List Bytes) (cur : Bytes) {ps : List Bytes} (hp : ∀ p ∈ ps, IsPiece p) :
    ∃ done' cur', (drive (ofState done cur) ps).1 = ofState done' cur' := by
  induction ps generalizing done cur with
  | nil => exact ⟨done, cur, rfl⟩
  | cons p ps ih =>
    obtain ⟨done', cur', hst⟩ := step_ofState (outcome done cur p)
    rw [(drive_piece (hp p (by simp)) done cur ps).1, hst]
    exact ih done' cur' (fun q hq => hp q (by simp [hq]))

theorem reports_pieces (done : List Bytes) (cur : Bytes) (chunks : List Bytes) :
    reports (ofState done cur) chunks = reports (ofState done cur) (chunks.flatMap pieces) := by
  induction chunks generalizing done cur with
  | nil => rfl
  | cons c cs ih =>
    obtain ⟨h1, h2⟩ := @driveChunk_pieces (c.length + 1) done cur c cs.flatten (by omega)
    obtain ⟨done', cur', hst⟩ := drive_pieces_state done cur (fun p => isPiece_of_mem_pieces (b := c))
    have hrest := ih done' cur'
    simp only [reports] at hrest
    rw [List.flatMap_cons, (drive_append (ofState done cur) (pieces c) (cs.flatMap pieces)).2, hst]
    simp only [drive, reports, h1, hst, List.map_append, h2, hrest]

/-- The fragments of a line behind the one with which it first exceeds a limit. -/
def afterLimit (count : Nat) : Nat → List Bytes → List Bytes
  | _, [] => []
  | length, p :: ps =>
    if Exceeds count (length + p.length) then ps else afterLimit count (length + p.length) ps

/-- Fragments of one line: its separator can only be the last byte. -/
structure OneLine (ps : List Bytes) : Prop where
  isPiece : ∀ p ∈ ps, IsPiece p
  single : newline ∉ ps.flatten.dropLast

theorem OneLine.tail {p : Bytes} {ps : List Bytes} (h : OneLine (p :: ps)) : OneLine ps := by
  refine ⟨fun q hq => h.isPiece q (by simp [hq]), fun hm => h.single ?_⟩
  have hne : ps.flatten ≠ [] := by
    intro he
    simp [he] at hm
  rw [List.flatten_cons, List.dropLast_append_of_ne_nil hne]
  exact List.mem_append_right p hm

theorem OneLine.head_still {p : Bytes} {ps : List Bytes} (h : OneLine (p :: ps)) (hne : ps ≠ []) : newline ∉ p := by
  obtain ⟨q, qs, rfl⟩ := List.exists_cons_of_ne_nil hne
  have hq := (h.isPiece q (by simp)).1
  have hflat : (q :: qs).flatten ≠ [] := by simp [hq]
  have hs := h.single
  rw [List.flatten_cons, List.dropLast_append_of_ne_nil hflat] at hs
  exact fun hm => hs (List.mem_append_left _ hm)

/-- An over-limit line makes the interpreter start afresh right behind the limit. -/
theorem drive_exceeding {done ps : List Bytes} {cur : Bytes} (h : OneLine ps) (hne : ps ≠ [])
    (hx : Exceeds done.length (cur ++ ps.flatten).length) :
    ∃ d, LimitError d ∧
      (drive (ofState done cur) ps).1 = (drive fresh (afterLimit done.length cur.length ps)).1 ∧
      reports (ofState done cur) ps = d :: reports fresh (afterLimit done.length cur.length ps) := by
  induction ps generalizing cur with
  | nil => exact absurd rfl hne
  | cons p ps ih =>
    obtain ⟨h1, h2⟩ := drive_piece (h.isPiece p (by simp)) done cur ps
    rw [h1, h2, afterLimit]
    rw [List.length_append, List.flatten_cons, List.length_append] at hx
    by_cases hp : Exceeds done.length (cur.length + p.length)
    · have ho : outcome done cur p = .delivers (.error (.protocol (limitError (cur ++ p).length))) := by
        rw [outcome, List.length_append, if_pos hp]
      rw [ho, if_pos hp]
      exact ⟨_, limitError_spec (cur ++ p).length, rfl, rfl⟩
    · have hps : ps ≠ [] := by
        rintro rfl
        exact hp (by simpa using hx)
      have ho : outcome done cur p = .goesOn done (cur ++ p) := by
        rw [outcome, List.length_append, if_neg hp, if_pos (h.head_still hps)]
      have hh := @ih (cur ++ p) h.tail hps
        (by rw [List.length_append, List.length_append, Nat.add_assoc]; exact hx)
      rw [ho, if_neg hp, ← List.length_append]
      exact hh

theorem drive_within {qs : List Bytes} {cur : Bytes} (h : OneLine qs)
    (hw : (cur ++ qs.flatten).length ≤ maxLineLength) (hn : newline ∉ qs.flatten) :
    (drive (ofState [] cur) qs).1 = ofState [] (cur ++ qs.flatten) ∧ reports (ofState [] cur) qs = [] := by
  induction qs generalizing cur with
  | nil => simp [drive, reports]
  | cons q qs ih =>
    obtain ⟨h1, h2⟩ := drive_piece (h.isPiece q (by simp)) [] cur qs
    have hq : newline ∉ q := fun hm => hn (by simp [hm])
    have hqs : newline ∉ qs.flatten := fun hm => hn (by rw [List.flatten_cons]; exact List.mem_append_right q hm)
    have ho : outcome [] cur q = .goesOn [] (cur ++ q) := by
      have hx : ¬ Exceeds ([] : List Bytes).length (cur ++ q).length := by
        simp only [List.flatten_cons, List.length_append] at hw
        simp only [Exceeds, List.length_nil, List.length_append, maxLineCount]
        omega
      rw [outcome, if_neg hx, if_pos hq]
    have hh := @ih (cur ++ q) h.tail (by rw [List.append_assoc]; exact hw) hqs
    rw [List.append_assoc] at hh
    rw [h1, h2, ho]
    exact hh

theorem drive_within_complete {done qs : List Bytes} {cur content : Bytes} (h : OneLine qs)
    (hd : done.length < maxLineCount) (hf : qs.flatten = content ++ [newline]) (hc : cur ++ content ≠ [])
    (hw : (cur ++ qs.flatten).length ≤ maxLineLength) :
    (drive (ofState done cur) qs).1 = ofState (done ++ [cur ++ content]) [] ∧ reports (ofState done cur) qs = [] := by
  induction qs generalizing cur content with
  | nil => simp at hf
  | cons q qs ih =>
    obtain ⟨h1, h2⟩ := drive_piece (h.isPiece q (by simp)) done cur qs
    have hx : ¬ Exceeds done.length (cur ++ q).length := by
      simp only [List.flatten_cons, List.length_append] at hw
      simp only [Exceeds, List.length_append]
      omega
    rw [h1, h2]
    by_cases hqs : qs = []
    · subst qs
      have hq : q = content ++ [newline] := by simpa using hf
      have hcut : cur ++ q = (cur ++ content) ++ [newline] := by simp [hq]
      have hne : cur ++ q ≠ [newline] := by
        rw [hcut]
        exact fun he => hc (List.append_left_eq_self.mp he)
      have ho : outcome done cur q = .goesOn (done ++ [cur ++ content]) [] := by
        rw [outcome, if_neg hx, if_neg (by simp [hq]), if_pos hne, hcut, List.dropLast_concat]
      rw [ho]
      exact ⟨rfl, rfl⟩
    · have hq := h.head_still hqs
      obtain ⟨r, rs, rfl⟩ := List.exists_cons_of_ne_nil hqs
      have hr := (h.isPiece r (by simp)).1
      rw [List.flatten_cons] at hf
      obtain ⟨c, hc1, hc2⟩ : ∃ c, content = q ++ c ∧ (r :: rs).flatten = c ++ [newline] := by
        rcases List.append_eq_append_iff.mp hf with ⟨c, hc1, hc2⟩ | ⟨c, hc1, hc2⟩
        · exact ⟨c, hc1, hc2⟩
        · rcases List.singleton_eq_append_iff.mp hc2 with ⟨rfl, hflat⟩ | ⟨-, hflat⟩
          · exact ⟨[], by simp [hc1], hflat⟩
          · simp [hr] at hflat
      have ho : outcome done cur q = .goesOn done (cur ++ q) := by
        rw [outcome, if_neg hx, if_pos hq]
      have hh := @ih (cur ++ q) c h.tail hc2 (by simpa [hc1] using hc) (by rw [List.append_assoc]; exact hw)
      rw [List.append_assoc, ← hc1] at hh
      rw [ho]
      exact hh

theorem afterLimit_suffix (count length : Nat) (ps : List Bytes) : afterLimit count length ps <:+ ps := by
  induction ps generalizing length with
  | nil => exact List.suffix_refl []
  | cons p ps ih =>
    rw [afterLimit]
    split
    · exact List.suffix_cons p ps
    · exact (ih _).trans (List.suffix_cons p ps)

theorem OneLine.suffix {ps qs : List Bytes} (h : OneLine ps) (hs : qs <:+ ps) : OneLine qs := by
  obtain ⟨rs, rfl⟩ := hs
  induction rs with
  | nil => exact h
  | cons r rs ih => exact ih h.tail

def Terminated (line : List Bytes) : Prop := line.flatten.getLast? = some newline

instance (line : List Bytes) : Decidable (Terminated line) := inferInstanceAs (Decidable (_ = _))

/-- A line, as the chunks cut it, that is too long or one line too many for the request the
interpreter is collecting when it begins. -/
structure OverLimitLine (before line : List Bytes) : Prop where
  isPiece : ∀ p ∈ before, IsPiece p
  starts : ∀ c ∈ before.flatten.getLast?, c = newline
  nonempty : line ≠ []
  oneLine : OneLine line
  exceeds : Exceeds (drive fresh before).1.lines.length line.flatten.length

/-- In every stream with this line, cut like this, the line is reported by one limit error, and
everything else that is reported is what is reported of the bytes before it, and of the bytes
behind it by an interpreter that never saw it. -/
def Skipped (before line : List Bytes) : Prop :=
  ∀ chunks after, chunks.flatMap pieces = before ++ line ++ after → Terminated line ∨ after = [] →
    ∃ d, LimitError d ∧ reports fresh chunks = reports fresh before ++ d :: reports fresh after

/-- What is left of the line behind the fragment that exceeds a limit. -/
def leftOver (before line : List Bytes) : Bytes :=
  (afterLimit (drive fresh before).1.lines.length 0 line).flatten

theorem OverLimitLine.start {before line : List Bytes} (h : OverLimitLine before line) :
    ∃ done, (drive fresh before).1 = ofState done [] := by
  rcases List.eq_nil_or_concat before with rfl | ⟨ps, p, rfl⟩
  · exact ⟨[], rfl⟩
  rw [List.concat_eq_append] at h ⊢
  have hp : IsPiece p := h.isPiece p (by simp)
  obtain ⟨done, cur, hst⟩ := drive_pieces_state [] [] (fun q hq => h.isPiece q (List.mem_append_left [p] hq))
  rw [ofState_fresh] at hst
  have hn : newline ∈ p := by
    obtain ⟨x, hx⟩ := List.getLast?_isSome.mpr hp.1 |> Option.isSome_iff_exists.mp
    have hlast := h.starts x (by simp [hx])
    exact hlast ▸ List.mem_of_getLast? hx
  rw [(drive_append fresh ps [p]).1, hst, (drive_piece hp done cur []).1, outcome, if_neg (not_not.mpr hn)]
  split
  · exact ⟨[], rfl⟩
  · split
    · exact ⟨_, rfl⟩
    · split
      · exact ⟨[], rfl⟩
      · exact ⟨[], rfl⟩

/-- What a stream with an over-limit line makes the interpreter report. -/
theorem OverLimitLine.reports {before line : List Bytes} (h : OverLimitLine before line)
    {chunks after : List Bytes} (hc : chunks.flatMap pieces = before ++ line ++ after) :
    ∃ d, LimitError d ∧
      let rest := afterLimit (drive fresh before).1.lines.length 0 line
      reports fresh chunks =
        Framing.reports fresh before ++ d :: (Framing.reports fresh rest ++
          Framing.reports (drive fresh rest).1 after) := by
  obtain ⟨done, hst⟩ := h.start
  have hover := h.exceeds
  have hcount : (ofState done []).lines.length = done.length := by simp [ofState]
  rw [hst, hcount] at hover
  obtain ⟨d, hd, h1, h2⟩ := @drive_exceeding done line [] h.oneLine h.nonempty hover
  refine ⟨d, hd, ?_⟩
  have hpieces := reports_pieces [] [] chunks
  rw [ofState_fresh] at hpieces
  rw [hpieces, hc, List.append_assoc, (drive_append fresh before _).2, hst,
    (drive_append (ofState done []) line after).2, h2, h1, hcount]
  rfl

theorem flatten_eq_nil {ps : List Bytes} (h : ∀ p ∈ ps, IsPiece p) (hf : ps.flatten = []) : ps = [] := by
  cases ps with
  | nil => rfl
  | cons p ps => exact absurd (List.append_eq_nil_iff.mp hf).1 (h p (by simp)).1

theorem reports_blank {ps : List Bytes} (h : ∀ p ∈ ps, IsPiece p) (hf : ps.flatten = [newline]) :
    ps = [[newline]] := by
  cases ps with
  | nil => simp at hf
  | cons p ps =>
    rw [List.flatten_cons] at hf
    rcases List.append_eq_singleton_iff.mp hf with ⟨hp, -⟩ | ⟨hp, hps⟩
    · exact absurd hp (h p (by simp)).1
    · rw [hp, flatten_eq_nil (fun q hq => h q (by simp [hq])) hps]

theorem reports_newline_fresh : drive fresh [[newline]] = (fresh, []) := by decide

theorem reports_newline {content : Bytes} : reports (ofState [content] []) [[newline]] ≠ [] := by
  have hp : IsPiece [newline] := by decide
  have ho : outcome [content] [] [newline] = .delivers (deliver [content]) := by
    have hx : ¬ Exceeds [content].length (([] : Bytes) ++ [newline]).length := by
      simp [Exceeds, maxLineCount, maxLineLength]
    rw [outcome, if_neg hx]
    simp
  rw [(drive_piece hp [content] [] []).2, ho]
  simp [Outcome.step]

theorem OneLine.ends {ps : List Bytes} (h : OneLine ps) (hn : newline ∈ ps.flatten) : Terminated ps := by
  rcases List.eq_nil_or_concat ps.flatten with he | ⟨b, c, he⟩
  · simp [he] at hn
  · have hs := h.single
    rw [List.concat_eq_append] at he
    rw [he, List.dropLast_concat] at hs
    have hc : newline = c := by simpa [he, hs] using hn
    simp [Terminated, he, hc]

theorem Terminated.of_suffix {ps qs : List Bytes} (h : Terminated qs) (hs : qs <:+ ps) : Terminated ps := by
  obtain ⟨rs, rfl⟩ := hs
  rw [Terminated] at h
  simp [Terminated, List.getLast?_append, h]

theorem OverLimitLine.skipped {before line : List Bytes} (h : OverLimitLine before line)
    (hrest : leftOver before line = [] ∨ leftOver before line = [newline] ∨
      ¬ Terminated line ∧ (leftOver before line).length ≤ maxLineLength) : Skipped before line := by
  intro chunks after hc hafter
  obtain ⟨d, hd, hr⟩ := h.reports hc
  refine ⟨d, hd, ?_⟩
  set rest := afterLimit (drive fresh before).1.lines.length 0 line with hdef
  have hsuffix : rest <:+ line := afterLimit_suffix ..
  have hone := h.oneLine.suffix hsuffix
  rw [leftOver, ← hdef] at hrest
  rcases hrest with hrest | hrest | ⟨hterm, hrest⟩
  · rw [hr, flatten_eq_nil hone.isPiece hrest]
    rfl
  · rw [hr, reports_blank hone.isPiece hrest]
    simp [Framing.reports, reports_newline_fresh]
  · obtain rfl := hafter.resolve_left hterm
    have hn : newline ∉ rest.flatten := fun hn => hterm ((hone.ends hn).of_suffix hsuffix)
    have hw := @drive_within rest [] hone hrest hn
    rw [ofState_fresh] at hw
    rw [hr, hw.2]
    rfl

theorem OverLimitLine.isPiece_append {before line : List Bytes} (h : OverLimitLine before line) :
    ∀ p ∈ before ++ line, IsPiece p := by
  intro p hp
  rcases List.mem_append.mp hp with hp | hp
  · exact h.isPiece p hp
  · exact h.oneLine.isPiece p hp

/-- The stream that ends with the line reports nothing for what is left over. -/
theorem OverLimitLine.reports_of_skipped {before line : List Bytes} (h : OverLimitLine before line)
    (hs : Skipped before line) :
    Framing.reports fresh (afterLimit (drive fresh before).1.lines.length 0 line) = [] := by
  have hc : (before ++ line).flatMap pieces = before ++ line ++ [] := by
    rw [flatMap_pieces h.isPiece_append, List.append_nil]
  obtain ⟨d, -, hr⟩ := h.reports hc
  obtain ⟨d', -, hr'⟩ := hs _ _ hc (.inr rfl)
  rw [hr] at hr'
  have hlen := congrArg List.length hr'
  simpa [Framing.reports, drive] using hlen

theorem length_le_of_reports_nil {rest : List Bytes} (hone : OneLine rest) (hnone : Framing.reports fresh rest = []) :
    rest.flatten.length ≤ maxLineLength := by
  by_contra hlong
  have hne : rest ≠ [] := by
    intro he
    simp [he] at hlong
  obtain ⟨d, -, -, hr⟩ := @drive_exceeding [] rest [] hone hne (.inr (by simpa using hlong))
  rw [ofState_fresh] at hr
  simp [hr] at hnone

theorem OverLimitLine.rest_of_skipped {before line : List Bytes} (h : OverLimitLine before line)
    (hs : Skipped before line) :
    leftOver before line = [] ∨ leftOver before line = [newline] ∨
      ¬ Terminated line ∧ (leftOver before line).length ≤ maxLineLength := by
  set rest := afterLimit (drive fresh before).1.lines.length 0 line with hdef
  have hsuffix : rest <:+ line := afterLimit_suffix ..
  have hone := h.oneLine.suffix hsuffix
  have hnone : Framing.reports fresh rest = [] := h.reports_of_skipped hs
  have hshort := length_le_of_reports_nil hone hnone
  rw [leftOver, ← hdef]
  by_cases hterm : Terminated line
  · rcases List.eq_nil_or_concat rest.flatten with he | ⟨content, c, he⟩
    · exact .inl he
    rw [List.concat_eq_append] at he
    have hc : c = newline := by
      obtain ⟨qs, hqs⟩ := hsuffix
      rw [Terminated, ← hqs] at hterm
      simpa [he] using hterm
    subst c
    by_cases hcontent : content = []
    · exact .inr (.inl (by simp [he, hcontent]))
    -- one more newline makes what is left over a request
    · have hc : (before ++ line ++ [[newline]]).flatMap pieces = before ++ line ++ [[newline]] := by
        rw [List.flatMap_append, flatMap_pieces h.isPiece_append]
        rfl
      obtain ⟨d, -, hr⟩ := h.reports hc
      obtain ⟨d', -, hr'⟩ := hs _ _ hc (.inl hterm)
      obtain ⟨hst, -⟩ := @drive_within_complete [] rest [] content hone (by decide) he hcontent (by simpa using hshort)
      rw [ofState_fresh] at hst
      rw [hr, ← hdef, hnone, hst] at hr'
      have hlen := congrArg List.length hr'
      have hpos := List.length_pos_of_ne_nil (@reports_newline ([] ++ content))
      simp only [List.length_append, List.length_cons, List.nil_append, Framing.reports, reports_newline_fresh,
        List.map_nil, List.length_nil] at hlen hpos
      omega
  · exact .inr (.inr ⟨hterm, hshort⟩)

/-- An over-limit line is skipped as a unit exactly when nothing but its separator is received
after the fragment that exceeds the limit. If the stream ends inside the line, what is left over is
never delivered and has to stay within the limit itself. -/
theorem overLimit_skipped_iff {before line : List Bytes} (h : OverLimitLine before line) :
    Skipped before line ↔
      leftOver before line = [] ∨ leftOver before line = [newline] ∨
        ¬ Terminated line ∧ (leftOver before line).length ≤ maxLineLength :=
  ⟨h.rest_of_skipped, h.skipped⟩

/-- A seventeenth line whose separator arrives alone. -/
theorem overLimit_skipped_seventeenth :
    Skipped (List.replicate 16 (ascii "f\n")) [ascii "field", ascii "\n"] :=
  (overLimit_skipped_iff
    ⟨by decide +kernel, by decide +kernel, by decide, ⟨by decide, by decide⟩, .inl (by decide +kernel)⟩).mpr
    (.inr (.inl (by decide +kernel)))

/-- A long line that is cut behind its 2049th byte: its end is delivered as a request. -/
theorem overLimit_not_skipped :
    ¬ ∀ before line, OverLimitLine before line → Skipped before line := by
  intro hall
  have hover : OverLimitLine [] [List.replicate 2049 97, ascii "ls\n"] :=
    ⟨by simp, by simp, List.cons_ne_nil _ _, ⟨by decide +kernel, by decide +kernel⟩, .inr (by decide +kernel)⟩
  obtain ⟨d, hd, hr⟩ := hall _ _ hover [List.replicate 2049 97, ascii "ls\n\n"] [[newline]]
    (by decide +kernel) (.inl (by decide +kernel))
  have hls : (reports fresh [List.replicate 2049 97, ascii "ls\n\n"]).getLast? = some (.request ⟨ascii "ls", []⟩) := by
    decide +kernel
  obtain ⟨e, rfl, -⟩ := hd
  rw [hr, reports, reports, reports_newline_fresh] at hls
  simp at hls

end Framing

end TinDox
