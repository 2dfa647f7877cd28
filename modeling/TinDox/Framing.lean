import TinDox.Interpreter
import Mathlib.Data.List.Forall2

/-! Request framing. A stream of request texts is read byte by byte by an abstract automaton
that knows no chunks and no limits; within the limits the interpreter delivers exactly what the
automaton reads, however the stream is cut. -/

namespace TinDox

open ProtocolInterpreter

/-- A line of a request: not empty, without a separator, and within the limit together with
its own separator. -/
def IsLine (l : Bytes) : Prop := l ≠ [] ∧ newline ∉ l ∧ l.length + 1 ≤ maxLineLength

instance (l : Bytes) : Decidable (IsLine l) := inferInstanceAs (Decidable (_ ∧ _))

structure RequestText where
  name : Bytes
  fieldLines : List Bytes
  isLine : ∀ l ∈ name :: fieldLines, IsLine l
  lineCount : (name :: fieldLines).length + 1 ≤ maxLineCount

def RequestText.encode (t : RequestText) : Bytes :=
  (t.name :: t.fieldLines).flatMap (· ++ [newline]) ++ [newline]

/-- Request texts, each behind some empty lines, and empty lines after the last of them. -/
def encodeStream : List (Nat × RequestText) → Nat → Bytes
  | [], blanks => List.replicate blanks newline
  | (n, t) :: ts, blanks => List.replicate n newline ++ t.encode ++ encodeStream ts blanks

def RequestText.Malformed (t : RequestText) : Prop := ∃ l ∈ t.fieldLines, ∃ e, fieldFromString l = .error e

def RequestText.Delivered (t : RequestText) (d : Delivery) : Prop :=
  (¬ t.Malformed ∧ ∃ fields, d = .request ⟨t.name, fields⟩ ∧
    List.Forall₂ (fun l f => fieldFromString l = .ok f) t.fieldLines fields) ∨
  (t.Malformed ∧ ∃ e, d = .error (.protocol e) ∧ e.code = .badField)

/-- The loop of `Client::handle_input` in command mode on one chunk. Each delivery is recorded
with the input that is unconsumed at that moment; `later` has not been received yet. -/
def driveChunk : Nat → ProtocolInterpreter → Bytes → Bytes → ProtocolInterpreter × List (Delivery × Bytes)
  | 0, i, _, _ => (i, [])
  | fuel + 1, i, input, later =>
    match i.takeRequest input with
    | (i, rest, d) =>
      let deliveries := if d = .nothing then [] else [(d, rest ++ later)]
      if rest = [] then (i, deliveries)
      else ((driveChunk fuel i rest later).1, deliveries ++ (driveChunk fuel i rest later).2)

def drive : ProtocolInterpreter → List Bytes → ProtocolInterpreter × List (Delivery × Bytes)
  | i, [] => (i, [])
  | i, chunk :: chunks =>
    let round := driveChunk (chunk.length + 1) i chunk chunks.flatten
    ((drive round.1 chunks).1, round.2 ++ (drive round.1 chunks).2)

namespace Framing

def deliver : List Bytes → Delivery
  | [] => .nothing
  | name :: fieldLines =>
    match fieldLines.mapM fieldFromString with
    | .error e => .error (.protocol e)
    | .ok fields => .request ⟨name, fields⟩

/-- The automaton: complete lines of the current request, its unfinished line, and the bytes
still to be read. -/
def deliveries : List Bytes → Bytes → Bytes → List (Delivery × Bytes)
  | _, _, [] => []
  | done, cur, c :: s =>
    if c ≠ newline then deliveries done (cur ++ [c]) s
    else if cur ≠ [] then deliveries (done ++ [cur]) [] s
    else if done ≠ [] then (deliver done, s) :: deliveries [] [] s
    else deliveries [] [] s

/-- The limits are kept at every byte the automaton reads. -/
def Within : List Bytes → Bytes → Bytes → Prop
  | _, _, [] => True
  | done, cur, c :: s =>
    cur.length + 1 ≤ maxLineLength ∧ done.length + 1 ≤ maxLineCount ∧
    if c ≠ newline then Within done (cur ++ [c]) s
    else if cur ≠ [] then Within (done ++ [cur]) [] s
    else Within [] [] s

/-- The interpreter state that stands for a state of the automaton. -/
def ofState (done : List Bytes) (cur : Bytes) : ProtocolInterpreter :=
  ⟨if cur = [] then done else done ++ [cur], none, cur = []⟩

theorem ofState_fresh : ofState [] [] = fresh := rfl

theorem deliveries_piece {p : Bytes} (hp : newline ∉ p) (done : List Bytes) (cur s : Bytes) :
    deliveries done cur (p ++ s) = deliveries done (cur ++ p) s := by
  induction p generalizing cur with
  | nil => simp
  | cons c p ih =>
    obtain ⟨hc, hp⟩ := List.ne_and_not_mem_of_not_mem_cons hp
    simp [deliveries, Ne.symm hc, ih hp]

theorem Within.piece {p : Bytes} (hp : newline ∉ p) {done : List Bytes} {cur s : Bytes}
    (h : Within done cur (p ++ s)) : Within done (cur ++ p) s := by
  induction p generalizing cur with
  | nil => simpa using h
  | cons c p ih =>
    obtain ⟨hc, hp⟩ := List.ne_and_not_mem_of_not_mem_cons hp
    simp only [List.cons_append, Within, ne_eq, Ne.symm hc, not_false_eq_true, if_true] at h
    simpa using ih hp h.2.2

theorem Within.piece_length {p : Bytes} (hp : newline ∉ p) {done : List Bytes} {cur s : Bytes}
    (h : Within done cur (p ++ s)) (hne : p ≠ []) :
    (cur ++ p).length ≤ maxLineLength ∧ done.length + 1 ≤ maxLineCount := by
  induction p generalizing cur with
  | nil => exact absurd rfl hne
  | cons c p ih =>
    obtain ⟨hc, hp⟩ := List.ne_and_not_mem_of_not_mem_cons hp
    simp only [List.cons_append, Within, ne_eq, Ne.symm hc, not_false_eq_true, if_true] at h
    by_cases hp' : p = []
    · subst p
      exact ⟨by simpa using h.1, h.2.1⟩
    · simpa using ih hp h.2.2 hp'

theorem commitLine_lines (done : List Bytes) (cur p : Bytes) :
    (if (ofState done cur).lastLineComplete then (ofState done cur).lines ++ [p]
      else (ofState done cur).lines.dropLast ++ [(ofState done cur).lines.getLastD [] ++ p]) =
      done ++ [cur ++ p] := by
  by_cases hc : cur = []
  · simp [ofState, hc]
  · simp [ofState, hc]

theorem checkForProtocolErrors_within {i : ProtocolInterpreter} {done : List Bytes} {l : Bytes}
    (hi : i.lines = done ++ [l]) (hl : l.length ≤ maxLineLength) (hd : done.length + 1 ≤ maxLineCount) :
    i.checkForProtocolErrors = (i, none) := by
  have h1 : ¬ (i.lines.getLastD []).length > maxLineLength := by simp [hi, hl]
  have h2 : ¬ i.lines.length > maxLineCount := by simpa [hi] using hd
  simp only [checkForProtocolErrors, h1, h2, or_self, if_false]

theorem commitLine_piece {done : List Bytes} {cur p : Bytes} (hne : p ≠ []) (hp : newline ∉ p)
    (hl : (cur ++ p).length ≤ maxLineLength) (hd : done.length + 1 ≤ maxLineCount) :
    (ofState done cur).commitLine p = (ofState done (cur ++ p), none) := by
  have hlast : p.getLast? ≠ some newline := fun hh => hp (List.mem_of_getLast? hh)
  rw [commitLine]
  simp only [commitLine_lines]
  rw [checkForProtocolErrors_within rfl hl hd]
  simp [hlast, hne, ofState]

theorem commitLine_complete {done : List Bytes} {cur p : Bytes} (hne : cur ++ p ≠ [])
    (hl : (cur ++ p).length + 1 ≤ maxLineLength) (hd : done.length + 1 ≤ maxLineCount) :
    (ofState done cur).commitLine (p ++ [newline]) = (ofState (done ++ [cur ++ p]) [], none) := by
  have hne' : ¬ (cur = [] ∧ p = []) := fun hh => hne (by simp [hh])
  rw [commitLine]
  simp only [commitLine_lines]
  rw [checkForProtocolErrors_within rfl (by simpa [Nat.add_assoc] using hl) hd]
  simp [← List.append_assoc, hne', ofState]

theorem commitLine_blank : (ofState [] []).commitLine [newline] = (ofState [] [], none) := by
  decide

theorem commitLine_terminator {done : List Bytes} (hne : done ≠ []) (hd : done.length + 1 ≤ maxLineCount) :
    (∃ r, deliver done = .request r ∧ (ofState done []).commitLine [newline] = (⟨[], some r, true⟩, none)) ∨
    (∃ e, deliver done = .error (.protocol e) ∧
      (ofState done []).commitLine [newline] = (ofState ([] :: done.tail) [], some (.protocol e))) := by
  have hcommit {i : ProtocolInterpreter} {e : Option Exception} (h : commitRequest ⟨done, none, true⟩ = (i, e)) :
      (ofState done []).commitLine [newline] = if e.isSome then (i, e) else ({ i with lines := [] }, none) := by
    rw [commitLine]
    simp only [commitLine_lines]
    rw [checkForProtocolErrors_within rfl (by decide) hd]
    simp only [List.nil_append, List.getLastD_eq_getLast?, List.getLast?_append, List.getLast?_singleton,
      Option.some_or, Option.getD_some, decide_true, if_true, List.dropLast_singleton, ne_eq, List.cons_ne_self,
      not_false_eq_true, List.dropLast_append_of_ne_nil, List.append_nil, List.length_append, List.length_cons,
      List.length_nil, Nat.zero_add, gt_iff_lt, Nat.lt_add_left_iff_pos, List.length_pos_iff, hne, ofState, h]
    cases e <;> rfl
  obtain ⟨name, fieldLines, rfl⟩ := List.exists_cons_of_ne_nil hne
  cases hf : fieldLines.mapM fieldFromString with
  | error e =>
    refine .inr ⟨e, ?_, ?_⟩
    · simp [deliver, hf]
    · have hr : commitRequest ⟨name :: fieldLines, none, true⟩ =
          (⟨[] :: fieldLines, none, true⟩, some (.protocol e)) := by
        simp [commitRequest, hf]
      exact hcommit hr
  | ok fields =>
    refine .inl ⟨⟨name, fields⟩, ?_, ?_⟩
    · simp [deliver, hf]
    · have hr : commitRequest ⟨name :: fieldLines, none, true⟩ =
          (⟨[] :: fieldLines, some ⟨name, fields⟩, true⟩, none) := by
        simp [commitRequest, hf]
      exact hcommit hr

theorem cutLine_cases (b : Bytes) :
    (newline ∉ b ∧ cutLine b = (b, [])) ∨
      ∃ p s, newline ∉ p ∧ b = p ++ newline :: s ∧ cutLine b = (p ++ [newline], s) := by
  induction b with
  | nil => exact .inl (by simp [cutLine])
  | cons c b ih =>
    by_cases hc : c = newline
    · exact .inr ⟨[], b, by simp [cutLine, hc]⟩
    · rcases ih with ⟨hb, hcut⟩ | ⟨p, s, hp, rfl, hcut⟩
      · exact .inl (by simp [cutLine, hc, hcut, hb, Ne.symm hc])
      · exact .inr ⟨c :: p, s, by simp [cutLine, hc, hcut, hp, Ne.symm hc]⟩

theorem cutLine_piece {p : Bytes} (hp : newline ∉ p) (s : Bytes) :
    cutLine (p ++ newline :: s) = (p ++ [newline], s) := by
  induction p with
  | nil => simp [cutLine]
  | cons c p ih =>
    obtain ⟨hc, hp⟩ := List.ne_and_not_mem_of_not_mem_cons hp
    simp [cutLine, Ne.symm hc, ih hp]

/-- One call of `take_request` follows the automaton: it reads the whole input without a
delivery, or stops right behind the request it delivers. -/
theorem takeRequest_ofState {done : List Bytes} {cur input later : Bytes}
    (h : Within done cur (input ++ later)) :
    (∃ done' cur', (ofState done cur).takeRequest input = (ofState done' cur', [], .nothing) ∧
      deliveries done cur (input ++ later) = deliveries done' cur' later ∧ Within done' cur' later) ∨
    (∃ d rest, (ofState done cur).takeRequest input = (fresh, rest, d) ∧ d ≠ .nothing ∧
      rest.length < input.length ∧ Within [] [] (rest ++ later) ∧
      deliveries done cur (input ++ later) = (d, rest ++ later) :: deliveries [] [] (rest ++ later)) := by
  induction hn : input.length using Nat.strong_induction_on generalizing done cur input with
  | _ n ih =>
    subst n
    by_cases hb : input = []
    · subst input
      exact .inl ⟨done, cur, rfl, rfl, h⟩
    rcases cutLine_cases input with ⟨hp, hcut⟩ | ⟨p, s, hp, rfl, hcut⟩
    · obtain ⟨hl, hd⟩ := h.piece_length hp hb
      refine .inl ⟨done, cur ++ input, ?_, deliveries_piece hp .., h.piece hp⟩
      rw [takeRequest_line hb rfl (by rw [hcut]; exact commitLine_piece hb hp hl hd), hcut]
      exact takeRequest_nil rfl
    · have hlen : s.length < (p ++ newline :: s).length := by simp; omega
      simp only [List.append_assoc, List.cons_append] at h ⊢
      have h' := h.piece hp
      rw [deliveries_piece hp]
      simp only [Within, deliveries, ne_eq, not_true_eq_false, if_false] at h' ⊢
      obtain ⟨hl, hd, h'⟩ := h'
      by_cases hc : cur ++ p = []
      · obtain ⟨rfl, rfl⟩ := List.append_eq_nil_iff.mp hc
        simp only [List.append_nil, List.nil_append, not_true_eq_false, if_false] at hb hcut h' hlen ⊢
        by_cases hd' : done = []
        · subst done
          rw [takeRequest_line hb rfl (by rw [hcut]; exact commitLine_blank), hcut]
          rcases ih s.length hlen h' rfl with hh | ⟨d, rest, htake, hne, hrest, hh⟩
          · exact .inl (by simpa using hh)
          · exact .inr ⟨d, rest, htake, hne, by omega, by simpa using hh⟩
        · refine .inr ⟨deliver done, s, ?_, ?_, by simp, h', by simp [hd']⟩
          · rcases commitLine_terminator hd' hd with ⟨r, hdel, hline⟩ | ⟨e, hdel, hline⟩
            · rw [takeRequest_line hb rfl (by rw [hcut]; exact hline), hcut, hdel]
              exact takeRequest_available rfl s
            · rw [takeRequest_error hb rfl (by rw [hcut]; exact hline), hcut, hdel]
          · rcases commitLine_terminator hd' hd with ⟨r, hdel, -⟩ | ⟨e, hdel, -⟩ <;> simp [hdel]
      · simp only [hc, not_false_eq_true, if_true] at h' ⊢
        rw [takeRequest_line hb rfl (by rw [hcut]; exact commitLine_complete hc hl hd), hcut]
        rcases ih s.length hlen h' rfl with hh | ⟨d, rest, htake, hne, hrest, hh⟩
        · exact .inl hh
        · exact .inr ⟨d, rest, htake, hne, by omega, hh⟩

theorem driveChunk_ofState {fuel : Nat} {done : List Bytes} {cur input later : Bytes}
    (h : Within done cur (input ++ later)) (hf : input.length < fuel) :
    ∃ done' cur' ds, driveChunk fuel (ofState done cur) input later = (ofState done' cur', ds) ∧
      deliveries done cur (input ++ later) = ds ++ deliveries done' cur' later ∧
      Within done' cur' later := by
  induction fuel generalizing done cur input with
  | zero => omega
  | succ fuel ih =>
    rw [driveChunk]
    rcases takeRequest_ofState h with ⟨done', cur', htake, hdel, hw⟩ | ⟨d, rest, htake, hne, hlen, hw, hdel⟩
    · exact ⟨done', cur', [], by simp [htake], by simpa using hdel, hw⟩
    · by_cases hrest : rest = []
      · exact ⟨[], [], [(d, later)], by simp [htake, hrest, hne, ofState_fresh],
          by simpa [hrest] using hdel, by simpa [hrest] using hw⟩
      · obtain ⟨done', cur', ds, hdrive, hds, hw'⟩ := ih hw (by omega)
        rw [ofState_fresh] at hdrive
        refine ⟨done', cur', (d, rest ++ later) :: ds, ?_, ?_, hw'⟩
        · simp [htake, hrest, hne, hdrive]
        · rw [hdel, hds, List.cons_append]

/-- However the bytes are cut into chunks, the interpreter delivers what the automaton reads. -/
theorem drive_ofState {done : List Bytes} {cur : Bytes} {chunks : List Bytes}
    (h : Within done cur chunks.flatten) :
    (drive (ofState done cur) chunks).2 = deliveries done cur chunks.flatten := by
  induction chunks generalizing done cur with
  | nil => simp [drive, deliveries]
  | cons chunk chunks ih =>
    obtain ⟨done', cur', ds, hdrive, hds, hw⟩ := driveChunk_ofState h (Nat.lt_succ_self _)
    have hh := ih hw
    simp only [drive, hdrive, hh, List.flatten_cons, hds]

theorem deliveries_line {l : Bytes} (hl : IsLine l) (done : List Bytes) (s : Bytes) :
    deliveries done [] (l ++ newline :: s) = deliveries (done ++ [l]) [] s := by
  rw [deliveries_piece hl.2.1]
  simp [deliveries, hl.1]

theorem Within.of_piece {p : Bytes} {done : List Bytes} {cur s : Bytes} (hp : newline ∉ p)
    (hl : (cur ++ p).length ≤ maxLineLength) (hd : done.length + 1 ≤ maxLineCount)
    (h : Within done (cur ++ p) s) : Within done cur (p ++ s) := by
  induction p generalizing cur with
  | nil => simpa using h
  | cons c p ih =>
    obtain ⟨hc, hp⟩ := List.ne_and_not_mem_of_not_mem_cons hp
    have hh : Within done (cur ++ [c]) (p ++ s) := ih hp (by simpa using hl) (by simpa using h)
    simp only [List.length_append, List.length_cons] at hl
    simp only [List.cons_append, Within, ne_eq, Ne.symm hc, not_false_eq_true, if_true]
    exact ⟨by omega, hd, hh⟩

theorem Within.of_line {l : Bytes} {done : List Bytes} {s : Bytes} (hl : IsLine l)
    (hd : done.length + 1 ≤ maxLineCount) (h : Within (done ++ [l]) [] s) :
    Within done [] (l ++ newline :: s) := by
  refine Within.of_piece hl.2.1 (by have := hl.2.2; simp; omega) hd ?_
  simpa [Within, hl.1] using ⟨hl.2.2, hd, h⟩

theorem deliveries_lines {ls done : List Bytes} (hl : ∀ l ∈ ls, IsLine l) (hne : done ++ ls ≠ []) (s : Bytes) :
    deliveries done [] (ls.flatMap (· ++ [newline]) ++ newline :: s) =
      (deliver (done ++ ls), s) :: deliveries [] [] s := by
  induction ls generalizing done with
  | nil => simpa [deliveries] using hne
  | cons l ls ih =>
    rw [List.flatMap_cons, List.append_assoc, List.append_assoc, List.singleton_append,
      deliveries_line (hl l (by simp)), ih (fun x hx => hl x (by simp [hx])) (by simp)]
    simp

theorem Within.of_lines {ls done : List Bytes} {s : Bytes} (hl : ∀ l ∈ ls, IsLine l)
    (hd : (done ++ ls).length + 1 ≤ maxLineCount) (h : Within [] [] s) :
    Within done [] (ls.flatMap (· ++ [newline]) ++ newline :: s) := by
  induction ls generalizing done with
  | nil => simpa [Within] using ⟨by decide, by simpa using hd, h⟩
  | cons l ls ih =>
    simp only [List.flatMap_cons, List.append_assoc, List.singleton_append]
    simp only [List.length_append, List.length_cons] at hd
    refine Within.of_line (hl l (by simp)) (by omega) (ih (fun x hx => hl x (by simp [hx])) ?_)
    simp only [List.length_append, List.length_cons, List.length_nil]
    omega

theorem deliveries_blanks (n : Nat) (s : Bytes) :
    deliveries [] [] (List.replicate n newline ++ s) = deliveries [] [] s := by
  induction n with
  | zero => rfl
  | succ n ih => simpa [List.replicate_succ, deliveries] using ih

theorem Within.of_blanks (n : Nat) {s : Bytes} (h : Within [] [] s) :
    Within [] [] (List.replicate n newline ++ s) := by
  induction n with
  | zero => exact h
  | succ n ih => simpa [List.replicate_succ, Within] using ⟨by decide, by decide, ih⟩

/-- The deliveries a stream of request texts stands for. -/
def expected : List (Nat × RequestText) → Nat → List (Delivery × Bytes)
  | [], _ => []
  | (_, t) :: ts, blanks =>
    (deliver (t.name :: t.fieldLines), encodeStream ts blanks) :: expected ts blanks

theorem deliveries_encodeStream (ts : List (Nat × RequestText)) (blanks : Nat) :
    deliveries [] [] (encodeStream ts blanks) = expected ts blanks := by
  induction ts with
  | nil => simpa [encodeStream, deliveries, expected] using deliveries_blanks blanks []
  | cons t ts ih =>
    obtain ⟨n, t⟩ := t
    simp only [encodeStream, RequestText.encode, List.append_assoc, deliveries_blanks, List.singleton_append]
    rw [deliveries_lines t.isLine (by simp), ih]
    rfl

theorem within_encodeStream (ts : List (Nat × RequestText)) (blanks : Nat) :
    Within [] [] (encodeStream ts blanks) := by
  induction ts with
  | nil => simpa [encodeStream] using Within.of_blanks blanks (s := []) trivial
  | cons t ts ih =>
    obtain ⟨n, t⟩ := t
    simp only [encodeStream, RequestText.encode, List.append_assoc, List.singleton_append]
    exact Within.of_blanks n (Within.of_lines t.isLine t.lineCount ih)

theorem mapM_fieldFromString (ls : List Bytes) :
    ((∀ l ∈ ls, ∃ f, fieldFromString l = .ok f) ∧ ∃ fields, ls.mapM fieldFromString = .ok fields ∧
      List.Forall₂ (fun l f => fieldFromString l = .ok f) ls fields) ∨
    (∃ l ∈ ls, ∃ e, fieldFromString l = .error e ∧ ls.mapM fieldFromString = .error e) := by
  induction ls with
  | nil => exact .inl ⟨by simp, [], rfl, .nil⟩
  | cons l ls ih =>
    cases hl : fieldFromString l with
    | error e => exact .inr ⟨l, by simp, e, hl, by simp [List.mapM_cons, hl]; rfl⟩
    | ok f =>
      rcases ih with ⟨hall, fields, hm, hf⟩ | ⟨l', hmem, e, he, hm⟩
      · exact .inl ⟨by simpa [hl] using hall, f :: fields, by simp [List.mapM_cons, hl, hm]; rfl, .cons hl hf⟩
      · exact .inr ⟨l', by simp [hmem], e, he, by simp [List.mapM_cons, hl, hm]; rfl⟩

theorem delivered_deliver (t : RequestText) : t.Delivered (deliver (t.name :: t.fieldLines)) := by
  rcases mapM_fieldFromString t.fieldLines with ⟨hall, fields, hm, hf⟩ | ⟨l, hmem, e, he, hm⟩
  · refine .inl ⟨?_, fields, by simp [deliver, hm], hf⟩
    rintro ⟨l, hmem, e, he⟩
    obtain ⟨f, hok⟩ := hall l hmem
    simp [he] at hok
  · exact .inr ⟨⟨l, hmem, e, he⟩, e, by simp [deliver, hm], fieldFromString_code he⟩

theorem delivered_expected (ts : List (Nat × RequestText)) (blanks : Nat) :
    List.Forall₂ (fun t d => t.2.Delivered d.1) ts (expected ts blanks) := by
  induction ts with
  | nil => exact .nil
  | cons t ts ih => exact .cons (delivered_deliver t.2) ih

end Framing

/-- However a stream of request texts is cut into chunks, the interpreter makes one delivery for
each of them, in order, with the input left right behind its terminator. -/
theorem drive_encodeStream (ts : List (Nat × RequestText)) (blanks : Nat) (chunks : List Bytes)
    (h : chunks.flatten = encodeStream ts blanks) :
    List.Forall₂ (fun t d => t.2.Delivered d) ts ((drive fresh chunks).2.map Prod.fst) ∧
    (drive fresh chunks).2.map Prod.snd =
      (List.range ts.length).map (fun k => encodeStream (ts.drop (k + 1)) blanks) := by
  have hdrive : (drive fresh chunks).2 = Framing.expected ts blanks := by
    rw [← Framing.ofState_fresh, Framing.drive_ofState (h ▸ Framing.within_encodeStream ts blanks), h,
      Framing.deliveries_encodeStream]
  rw [hdrive]
  refine ⟨List.forall₂_map_right_iff.mpr (Framing.delivered_expected ts blanks), ?_⟩
  clear hdrive h
  induction ts with
  | nil => rfl
  | cons t ts ih => simp [Framing.expected, ih, List.range_succ_eq_map, Function.comp_def]

/-- A request with a good and a request with a malformed field, cut inside both. -/
theorem drive_encodeStream_two :
    let cd : RequestText := ⟨ascii "cd", [ascii "path:/a"], by decide, by decide⟩
    let ls : RequestText := ⟨ascii "ls", [ascii "size"], by decide, by decide⟩
    let chunks := [ascii "\ncd\npath:/", ascii "a\n\nls", ascii "\nsize\n\n"]
    List.Forall₂ (fun t d => t.2.Delivered d) [(1, cd), (0, ls)] ((drive fresh chunks).2.map Prod.fst) ∧
    (drive fresh chunks).2.map Prod.snd = [ls.encode, []] :=
  drive_encodeStream _ 0 _ (by decide)

end TinDox
