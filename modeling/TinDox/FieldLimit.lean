import TinDox.Overrun

/-! The limit on the fields of a request. The interpreter counts lines, the one with the command and
the empty one at the end among them, so it accepts fewer fields than there may be. -/

namespace TinDox

open ProtocolInterpreter

namespace Framing

theorem flatten_pieces (b : Bytes) : (pieces b).flatten = b := by
  induction hn : b.length using Nat.strong_induction_on generalizing b with
  | _ n ih =>
    by_cases hb : b = []
    · simp [hb, pieces]
    · rw [pieces_cutLine hb, List.flatten_cons, ih _ (hn ▸ cutLine_length hb) _ rfl, cutLine_append]

theorem flatten_flatMap_pieces (chunks : List Bytes) : (chunks.flatMap pieces).flatten = chunks.flatten := by
  induction chunks with
  | nil => rfl
  | cons c cs ih => rw [List.flatMap_cons, List.flatten_append, flatten_pieces, ih, List.flatten_cons]

theorem isPiece_of_mem_flatMap (chunks : List Bytes) : ∀ p ∈ chunks.flatMap pieces, IsPiece p := by
  intro p hp
  obtain ⟨c, -, hc⟩ := List.mem_flatMap.mp hp
  exact isPiece_of_mem_pieces hc

/-- A line of the stream ends where a fragment ends. -/
theorem split_line {ps : List Bytes} {l t : Bytes} (hp : ∀ p ∈ ps, IsPiece p) (hl : newline ∉ l)
    (h : ps.flatten = l ++ newline :: t) :
    ∃ qs rs, ps = qs ++ rs ∧ qs.flatten = l ++ [newline] ∧ rs.flatten = t := by
  induction ps generalizing l with
  | nil => simp at h
  | cons p ps ih =>
    rw [List.flatten_cons] at h
    rcases (hp p (by simp)).cases with hn | ⟨q, hq, rfl⟩
    · obtain ⟨l', rfl, hrest⟩ : ∃ l', l = p ++ l' ∧ ps.flatten = l' ++ newline :: t := by
        rcases List.append_eq_append_iff.mp h with ⟨l', hl', hrest⟩ | ⟨c, hc, hrest⟩
        · exact ⟨l', hl', hrest⟩
        · cases c with
          | nil => exact ⟨[], by simpa using hc.symm, by simpa using hrest.symm⟩
          | cons d c =>
            obtain ⟨rfl, -⟩ := List.cons.inj hrest
            exact absurd (by simp [hc]) hn
      obtain ⟨qs, rs, rfl, hqs, hrs⟩ := ih (fun x hx => hp x (by simp [hx]))
        (fun hm => hl (List.mem_append_right p hm)) hrest
      exact ⟨p :: qs, rs, rfl, by rw [List.flatten_cons, hqs, List.append_assoc], hrs⟩
    · have hcut := cutLine_piece hq ps.flatten
      rw [List.append_assoc, List.singleton_append] at h
      rw [h, cutLine_piece hl] at hcut
      obtain ⟨hline, hrest⟩ := Prod.mk.inj hcut
      exact ⟨[q ++ [newline]], ps, rfl, by simp [hline], hrest.symm⟩

theorem drive_line {done ps : List Bytes} {l t : Bytes} (hp : ∀ p ∈ ps, IsPiece p) (hl : IsLine l)
    (hd : done.length < maxLineCount) (h : ps.flatten = l ++ newline :: t) :
    ∃ rs, (∀ p ∈ rs, IsPiece p) ∧ rs.flatten = t ∧
      reports (ofState done []) ps = reports (ofState (done ++ [l]) []) rs := by
  obtain ⟨qs, rs, rfl, hqs, hrs⟩ := split_line hp hl.2.1 h
  have hone : OneLine qs := by
    refine ⟨fun q hq => hp q (List.mem_append_left rs hq), ?_⟩
    rw [hqs, List.dropLast_concat]
    exact hl.2.1
  have hlen : (([] : Bytes) ++ qs.flatten).length ≤ maxLineLength := by simpa [hqs] using hl.2.2
  obtain ⟨hst, hnone⟩ := drive_within_complete hone hd hqs (by simpa using hl.1) hlen
  refine ⟨rs, fun p hr => hp p (List.mem_append_right qs hr), hrs, ?_⟩
  rw [(drive_append _ qs rs).2, hnone, hst]
  rfl

theorem drive_lines {done ls ps : List Bytes} {t : Bytes} (hp : ∀ p ∈ ps, IsPiece p) (hl : ∀ l ∈ ls, IsLine l)
    (hd : done.length + ls.length ≤ maxLineCount) (h : ps.flatten = ls.flatMap (· ++ [newline]) ++ t) :
    ∃ rs, (∀ p ∈ rs, IsPiece p) ∧ rs.flatten = t ∧
      reports (ofState done []) ps = reports (ofState (done ++ ls) []) rs := by
  induction ls generalizing done ps with
  | nil => exact ⟨ps, hp, h, by rw [List.append_nil]⟩
  | cons l ls ih =>
    rw [List.length_cons] at hd
    rw [List.flatMap_cons, List.append_assoc, List.append_assoc, List.singleton_append] at h
    have hroom : done.length < maxLineCount := by omega
    obtain ⟨qs, hqp, hqs, hsame⟩ := drive_line hp (hl l (by simp)) hroom h
    obtain ⟨rs, hrp, hrs, hsame'⟩ := @ih (done ++ [l]) qs hqp (fun x hx => hl x (by simp [hx]))
      (by simp only [List.length_append, List.length_singleton]; omega) hqs
    refine ⟨rs, hrp, hrs, ?_⟩
    rw [hsame, hsame', List.append_assoc, List.singleton_append]

/-- One line more than the limit is reported with its first fragment. -/
theorem reports_full {done ps : List Bytes} {l t : Bytes} (hp : ∀ p ∈ ps, IsPiece p) (hd : done.length = maxLineCount)
    (hl : newline ∉ l) (hlen : l.length + 1 ≤ maxLineLength) (h : ps.flatten = l ++ newline :: t) :
    ∃ e ds, e.code = .tooManyFields ∧ reports (ofState done []) ps = .error (.protocol e) :: ds := by
  obtain ⟨qs, rs, rfl, hqs, -⟩ := split_line hp hl h
  cases qs with
  | nil => simp at hqs
  | cons q qs =>
    have hx : Exceeds done.length (([] : Bytes) ++ q).length := .inl (by omega)
    have hshort : ¬ maxLineLength < (([] : Bytes) ++ q).length := by
      have hlength := congrArg List.length hqs
      rw [List.flatten_cons, List.length_append, List.length_append, List.length_singleton] at hlength
      rw [List.nil_append]
      omega
    refine ⟨limitError (([] : Bytes) ++ q).length, reports fresh (qs ++ rs), ?_, ?_⟩
    · rw [limitError, if_neg hshort]
      rfl
    · rw [List.cons_append, (drive_piece (hp q (by simp)) done [] (qs ++ rs)).2, outcome, if_pos hx]
      rfl

/-- A request is delivered only if the line that ends it is within the limit too. -/
theorem fields_of_outcome {done : List Bytes} {cur p : Bytes} {r : Request}
    (h : outcome done cur p = .delivers (.request r)) : r.fields.length + 2 ≤ maxLineCount := by
  unfold outcome at h
  split at h
  · cases h
  · rename_i hx
    split at h
    · cases h
    · split at h
      · cases h
      · split at h
        · rename_i hd
          obtain ⟨name, fieldLines, rfl⟩ := List.exists_cons_of_ne_nil hd
          simp only [Exceeds, List.length_cons, not_or] at hx
          rcases mapM_fieldFromString fieldLines with ⟨-, fields, hm, hf⟩ | ⟨l, -, e, -, hm⟩
          · simp only [deliver, hm, Outcome.delivers.injEq, Delivery.request.injEq] at h
            subst r
            have hlen := hf.length_eq
            simp only
            omega
          · simp [deliver, hm] at h
        · cases h

theorem fields_of_pieces {done ps : List Bytes} {cur : Bytes} {r : Request} (hp : ∀ p ∈ ps, IsPiece p)
    (h : .request r ∈ reports (ofState done cur) ps) : r.fields.length + 2 ≤ maxLineCount := by
  induction ps generalizing done cur with
  | nil => simp [reports, drive] at h
  | cons p ps ih =>
    rw [(drive_piece (hp p (by simp)) done cur ps).2] at h
    have hps : ∀ q ∈ ps, IsPiece q := fun q hq => hp q (by simp [hq])
    cases ho : outcome done cur p with
    | goesOn done' cur' =>
      rw [ho] at h
      exact ih hps (by simpa [Outcome.step] using h)
    | delivers d =>
      rw [ho] at h
      rcases List.mem_append.mp h with h | h
      · obtain rfl : Delivery.request r = d := List.mem_singleton.mp h
        exact fields_of_outcome ho
      · exact @ih [] [] hps h

theorem fields_of_reports {chunks : List Bytes} {r : Request} (h : .request r ∈ reports fresh chunks) :
    r.fields.length + 2 ≤ maxLineCount := by
  rw [← ofState_fresh, reports_pieces] at h
  exact fields_of_pieces (isPiece_of_mem_flatMap chunks) h

end Framing

open Framing

/-- The number of fields that a request may have by the documentation of the protocol. -/
def maxFieldCount : Nat := 16

/-- A request as a client may send it, with any number of fields. -/
structure Message where
  name : Bytes
  fieldLines : List Bytes
  isLine : ∀ l ∈ name :: fieldLines, IsLine l
  wellFormed : ∀ l ∈ fieldLines, ∃ f, fieldFromString l = .ok f

namespace Message

def encode (m : Message) : Bytes := (m.name :: m.fieldLines).flatMap (· ++ [newline]) ++ [newline]

/-- The limit as it is documented: a message within it is delivered with all of its fields, one
beyond it is reported, and no request with too many fields is ever delivered. -/
structure LimitKept (m : Message) (chunks : List Bytes) : Prop where
  delivered : m.fieldLines.length ≤ maxFieldCount → ∃ fields,
    reports fresh chunks = [.request ⟨m.name, fields⟩] ∧
      List.Forall₂ (fun l f => fieldFromString l = .ok f) m.fieldLines fields
  reported : maxFieldCount < m.fieldLines.length →
    (∃ e, .error (.protocol e) ∈ reports fresh chunks ∧ e.code = .tooManyFields) ∧
      ∀ r, .request r ∈ reports fresh chunks → r.fields.length ≤ maxFieldCount

variable {m : Message} {chunks : List Bytes}

theorem reports_within (h : chunks.flatten = m.encode) (hm : m.fieldLines.length + 2 ≤ maxLineCount) :
    ∃ fields, reports fresh chunks = [.request ⟨m.name, fields⟩] ∧
      List.Forall₂ (fun l f => fieldFromString l = .ok f) m.fieldLines fields := by
  have hw : Within [] [] (m.encode ++ []) := by
    rw [List.append_nil]
    refine Within.of_lines (s := []) m.isLine ?_ trivial
    rw [List.nil_append, List.length_cons]
    exact hm
  have hreports : reports fresh chunks = [deliver (m.name :: m.fieldLines)] := by
    rw [List.append_nil, ← h] at hw
    rw [reports, ← ofState_fresh, drive_ofState hw, h, encode, deliveries_lines m.isLine (by simp)]
    rfl
  rcases mapM_fieldFromString m.fieldLines with ⟨-, fields, hmap, hf⟩ | ⟨l, hl, e, he, -⟩
  · exact ⟨fields, by rw [hreports, deliver, hmap], hf⟩
  · obtain ⟨f, hok⟩ := m.wellFormed l hl
    rw [he] at hok
    cases hok

/-- What follows the first lines of a message begins with a line or is the empty one at its end. -/
theorem encode_split (m : Message) (n : Nat) :
    ∃ l t, m.encode = ((m.name :: m.fieldLines).take n).flatMap (· ++ [newline]) ++ (l ++ newline :: t) ∧
      newline ∉ l ∧ l.length + 1 ≤ maxLineLength := by
  have hsplit : m.encode = ((m.name :: m.fieldLines).take n).flatMap (· ++ [newline]) ++
      (((m.name :: m.fieldLines).drop n).flatMap (· ++ [newline]) ++ [newline]) := by
    rw [encode, ← List.append_assoc, ← List.flatMap_append, List.take_append_drop]
  cases hd : (m.name :: m.fieldLines).drop n with
  | nil =>
    rw [hd] at hsplit
    exact ⟨[], [], hsplit, by simp, by decide⟩
  | cons l ls =>
    have hl : IsLine l := m.isLine l (List.mem_of_mem_drop (hd ▸ List.mem_cons_self))
    refine ⟨l, ls.flatMap (· ++ [newline]) ++ [newline], ?_, hl.2.1, hl.2.2⟩
    rw [hsplit, hd, List.flatMap_cons]
    simp

theorem reports_beyond (h : chunks.flatten = m.encode) (hm : maxLineCount < m.fieldLines.length + 2) :
    ∃ e ds, e.code = .tooManyFields ∧ reports fresh chunks = .error (.protocol e) :: ds := by
  obtain ⟨l, t, hsplit, hl, hlen⟩ := m.encode_split maxLineCount
  have hflat : (chunks.flatMap pieces).flatten = m.encode := by rw [flatten_flatMap_pieces, h]
  have hcount : ((m.name :: m.fieldLines).take maxLineCount).length = maxLineCount := by
    rw [List.length_take, List.length_cons]
    omega
  obtain ⟨rs, hrp, hrs, hsame⟩ := @drive_lines [] _ _ _ (isPiece_of_mem_flatMap chunks)
    (fun x hx => m.isLine x (List.mem_of_mem_take hx)) (by rw [hcount]; rfl) (hflat.trans hsplit)
  obtain ⟨e, ds, he, hds⟩ := reports_full hrp hcount hl hlen hrs
  refine ⟨e, ds, he, ?_⟩
  rw [← ofState_fresh, reports_pieces, hsame, ← hds]
  rfl

theorem limitKept_iff (h : chunks.flatten = m.encode) :
    m.LimitKept chunks ↔ m.fieldLines.length ≤ 14 ∨ 16 < m.fieldLines.length := by
  by_cases hm : m.fieldLines.length + 2 ≤ maxLineCount
  · have hfew : m.fieldLines.length ≤ 14 := by simpa [maxLineCount] using hm
    refine iff_of_true ⟨fun _ => reports_within h hm, fun hmany => ?_⟩ (.inl hfew)
    rw [maxFieldCount] at hmany
    omega
  · obtain ⟨e, ds, he, hds⟩ := reports_beyond h (by omega)
    constructor
    · intro hkept
      by_contra hnot
      obtain ⟨fields, hf, -⟩ := hkept.delivered (by rw [maxFieldCount]; omega)
      rw [hds] at hf
      cases hf
    · intro hmany
      rw [maxLineCount] at hm
      refine ⟨fun hfew => ?_, fun _ => ⟨⟨e, by simp [hds], he⟩, fun r hr => ?_⟩⟩
      · rw [maxFieldCount] at hfew
        omega
      · have hr := fields_of_reports hr
        rw [maxLineCount] at hr
        rw [maxFieldCount]
        omega

/-- A message with the same field many times. -/
def repeated (n : Nat) : Message where
  name := ascii "ls"
  fieldLines := List.replicate n (ascii "size: true")
  isLine := by
    intro l hl
    rcases List.mem_cons.mp hl with rfl | hl
    · decide
    · rw [List.eq_of_mem_replicate hl]
      decide
  wellFormed := by
    intro l hl
    rw [List.eq_of_mem_replicate hl]
    exact ⟨⟨ascii "size", .boolean true⟩, by decide⟩

/-- Two fields, cut inside the second. -/
theorem limitKept_iff_two :
    (repeated 2).LimitKept [ascii "ls\nsize: true\nsize", ascii ": true\n\n"] :=
  (limitKept_iff (by decide)).mpr (.inl (by decide))

/-- A fifteenth field is one too many. -/
theorem fifteen_fields_refused : ¬ ∀ (m : Message) (chunks : List Bytes), chunks.flatten = m.encode → m.LimitKept chunks := by
  intro hall
  have hflat : [(repeated 15).encode].flatten = (repeated 15).encode := List.flatten_singleton
  obtain ⟨fields, hf, -⟩ := (hall (repeated 15) [(repeated 15).encode] hflat).delivered (by decide)
  obtain ⟨e, ds, -, hds⟩ := reports_beyond hflat (by decide)
  rw [hds] at hf
  cases hf

end Message

end TinDox
