import TinDox.Execution
import TinDox.Words

/-! The list of files of the console client. `Tui::updateFilesEntries` takes the responses to `pwd`
and `ls` apart into words: a name ends with the first word that ends with a quotation mark, the
three words behind it are the size and the two halves of the time. -/

namespace TinDox

open Words

namespace Tui

/-- The variables of the loop over the response to `ls`. While `inName` is set, it is the inner loop
that reads the words of the stream. -/
structure Reading where
  wordCounter : Nat
  inName : Bool
  entry : Bytes
  entries : List Bytes
  fNames : List Bytes
  deriving DecidableEq

/-- `string(space_numb, ' ')`, or one blank. The difference is unsigned: below zero it is more than
a string can hold, and the constructor throws. -/
def padding (width size : Nat) : Option Bytes :=
  if size > width then none
  else if width - size > 0 then some (List.replicate (width - size) 32)
  else some [32]

/-- A word of a name; the last one ends with a quotation mark. -/
def nameWord (s : Reading) (word : Bytes) : Option Reading :=
  if word.getLast? ≠ some 34 then some { s with inName := true, entry := s.entry ++ word ++ [32] }
  else
    let entry := s.entry ++ word.dropLast
    (padding 40 entry.length).map fun space =>
      { s with wordCounter := 1, inName := false, entry := entry ++ space, fNames := s.fNames ++ [entry] }

/-- The word with the size. A directory has none, which is where its name gets a slash. -/
def sizeWord (s : Reading) (word : Bytes) : Option Reading :=
  let back := s.fNames.getLastD [] ++ [slash]
  let s := { s with entry := s.entry ++ word }
  let s := if word = ascii "-" then
      { s with fNames := s.fNames.dropLast ++ [back], entry := back ++ s.entry.drop back.length }
    else s
  (padding 15 word.length).map fun space => { s with wordCounter := 2, entry := s.entry ++ space }

def step (s : Reading) (word : Bytes) : Option Reading :=
  if s.inName then nameWord s word
  else
    match s.wordCounter with
    | 0 => nameWord s word.tail
    | 1 => sizeWord s word
    | 2 => some { s with wordCounter := 3, entry := s.entry ++ word.tail ++ [32] }
    | _ => some { s with wordCounter := 0, entry := [], entries := s.entries ++ [s.entry ++ word.dropLast] }

/-- The words with a blank behind each, without the last blank; there is nothing to remove when there
is no word. -/
def extractPath (responseBody : Bytes) : Option Bytes :=
  let path := (words isSpace responseBody).flatMap (· ++ [32])
  if path = [] then none else some path.dropLast

structure FilesView where
  path : Bytes
  entries : List Bytes
  fNames : List Bytes
  deriving DecidableEq

/-- Before the loop: outside the topmost directory there is an entry for the parent. -/
def start (path : Bytes) : Reading :=
  let parent := if path ≠ ascii "/" then [ascii "../"] else []
  ⟨0, false, [], parent, parent⟩

/-- What `updateFilesEntries` shows when it returns true, by what `pwd` and `ls` leave in
`response_body`. It does not return when the stream ends inside a name. -/
def updateFilesEntries (pwd : Option Bytes) (ls : Bytes → Option Bytes) : Option FilesView := do
  let path ← extractPath (← pwd)
  let responseBody ← ls path
  let s ← (words isSpace responseBody).foldlM step (start path)
  if s.inName then none else some ⟨path, s.entries, s.fNames⟩

theorem updateFilesEntries_some {pwd : Bytes} {ls : Bytes → Option Bytes} {view : FilesView} :
    updateFilesEntries (some pwd) ls = some view ↔ ∃ path responseBody s, extractPath pwd = some path ∧
      ls path = some responseBody ∧ (words isSpace responseBody).foldlM step (start path) = some s ∧
      s.inName = false ∧ view = ⟨path, s.entries, s.fNames⟩ := by
  simp only [updateFilesEntries, Option.bind_eq_bind, Option.bind_some, Option.bind_eq_some_iff]
  constructor
  · rintro ⟨path, hpath, responseBody, hls, s, hs, hview⟩
    split at hview
    · cases hview
    · rename_i hin
      exact ⟨path, responseBody, s, hpath, hls, hs, by simpa using hin, (Option.some.inj hview).symm⟩
  · rintro ⟨path, responseBody, s, hpath, hls, hs, hin, rfl⟩
    exact ⟨path, hpath, responseBody, hls, s, hs, by simp [hin]⟩

/-- A name that the words give back: it has no space but blanks, and a blank comes neither behind a
blank nor behind a quotation mark. -/
structure Intact (name : Bytes) : Prop where
  only : ∀ c ∈ name, isSpace c = true → c = 32
  apart : Apart (fun a => a ≠ 32 ∧ a ≠ 34) 32 name

variable {s t : Reading} {e w name rest : Bytes}

theorem intact_free (h : Free isSpace w) : Intact w := by
  refine ⟨fun c hc hs => ?_, h.apart (by decide) _⟩
  rw [h c hc] at hs
  cases hs

theorem intact_append_iff (h : Free isSpace w) :
    Intact (w ++ 32 :: rest) ↔ w.getLast? ≠ some 34 ∧ rest.head? ≠ some 32 ∧ Intact rest := by
  have hlast : ∀ a ∈ w.getLast?, a ≠ 32 := fun a ha => h.ne (by decide) (List.mem_of_mem_getLast? ha)
  constructor
  · rintro ⟨honly, hapart⟩
    obtain ⟨hw, hhead, hrest⟩ := (apart_append_iff h (by decide)).mp hapart
    refine ⟨fun hq => (hw 34 hq).2 rfl, fun hb => (hhead hb).1 rfl, fun c hc => honly c (by simp [hc]), hrest⟩
  · rintro ⟨hw, hhead, honly, hrest⟩
    refine ⟨fun c hc hs => ?_, (apart_append_iff h (by decide)).mpr ⟨fun a ha => ⟨hlast a ha, ?_⟩, ?_, hrest⟩⟩
    · rcases List.mem_append.mp hc with hc | hc
      · exact (intact_free h).only c hc hs
      · rcases List.mem_cons.mp hc with rfl | hc
        · rfl
        · exact honly c hc hs
    · rintro rfl
      exact hw ha
    · exact fun hb => absurd hb hhead

def close (s : Reading) (e : Bytes) : Option Reading :=
  (padding 40 e.length).map fun space =>
    { s with wordCounter := 1, inName := false, entry := e ++ space, fNames := s.fNames ++ [e] }

theorem nameWord_last (s : Reading) (w : Bytes) : nameWord s (w ++ [34]) = close s (s.entry ++ w) := by
  simp [nameWord, close]

theorem nameWord_more (h : w.getLast? ≠ some 34) :
    nameWord s w = some { s with inName := true, entry := s.entry ++ w ++ [32] } := by
  simp [nameWord, h]

theorem closes_one {u : Bytes} (hu : step s u = nameWord s (w ++ [34])) : [u].foldlM step s = close s (s.entry ++ w) := by
  rw [List.foldlM_cons, hu, nameWord_last]
  exact bind_pure _

/-- The words that are read for a name, and the name that is found: it is intact, whatever was
written, and it is the name that was written when that one is intact. -/
structure Found (s : Reading) (name : Bytes) (ws A B : List Bytes) (entry e : Bytes) : Prop where
  words : ws = A ++ B
  closes : A.foldlM step s = close s (entry ++ e)
  intact : Intact e
  subset : ∀ c ∈ e, c ∈ name ∨ c = 32

/-- What is found inside a name, up to the quotation mark that closes it or an earlier one. -/
def FoundMore (rest : Bytes) : Prop := ∀ s : Reading, s.inName = true →
  ∃ A B e, Found s rest (words isSpace (rest ++ [34])) A B s.entry e ∧ e.head? ≠ some 32 ∧
    (Intact rest → rest.head? ≠ some 32 → B = [] ∧ e = rest)

theorem head?_ne_blank (hw : Free isSpace w) (hne : w ≠ []) (tail : Bytes) : (w ++ tail).head? ≠ some 32 := by
  obtain ⟨c, v, rfl⟩ := List.exists_cons_of_ne_nil hne
  intro hh
  exact hw.ne (by decide : isSpace 32 = true) (by simp : c ∈ c :: v) (by simpa using hh)

/-- A word `u` of the stream that is treated as the first word `w` of a name, and the rest of that
name behind a space. -/
theorem found_break {u : Bytes} {sep : Byte} (hw : Free isSpace w) (hsep : isSpace sep = true)
    (hu : step s u = nameWord s w) (hmore : FoundMore rest) :
    ∃ A B e, Found s (w ++ sep :: rest) (u :: words isSpace (rest ++ [34])) A B s.entry e ∧
      (w ≠ [] → e.head? ≠ some 32) ∧ (Intact (w ++ sep :: rest) → B = [] ∧ e = w ++ sep :: rest) := by
  by_cases hend : w.getLast? = some 34
  · -- the word is taken for the last one of the name
    obtain ⟨v, rfl⟩ : ∃ v, w = v ++ [34] := ⟨w.dropLast, (List.dropLast_append_getLast? 34 hend).symm⟩
    have hv : Free isSpace v := fun c hc => hw c (by simp [hc])
    refine ⟨[u], words isSpace (rest ++ [34]), v,
      ⟨rfl, closes_one hu, intact_free hv, fun c hc => .inl (by simp [hc])⟩, ?_, ?_⟩
    · exact fun _ => hv.head?_ne (by decide)
    · intro hi
      rw [hi.only sep (by simp) hsep] at hi
      exact absurd hend ((intact_append_iff hw).mp hi).1
  · obtain ⟨A, B, e, hfound, hhead, hrest⟩ := hmore { s with inName := true, entry := s.entry ++ w ++ [32] } rfl
    refine ⟨u :: A, B, w ++ 32 :: e, ⟨by rw [hfound.words]; rfl, ?_, ?_, fun c hc => ?_⟩, fun hne => ?_, fun hi => ?_⟩
    · rw [List.foldlM_cons, hu, nameWord_more hend]
      refine hfound.closes.trans ?_
      simp [close]
    · exact (intact_append_iff hw).mpr ⟨hend, hhead, hfound.intact⟩
    · simp only [List.mem_append, List.mem_cons] at hc ⊢
      rcases hc with hc | hc | hc
      · exact .inl (.inl hc)
      · exact .inr hc
      · rcases hfound.subset c hc with h | h
        · exact .inl (.inr (.inr h))
        · exact .inr h
    · exact head?_ne_blank hw hne _
    · have hblank := hi.only sep (by simp) hsep
      rw [hblank] at hi
      obtain ⟨-, hrhead, hrintact⟩ := (intact_append_iff hw).mp hi
      obtain ⟨rfl, rfl⟩ := hrest hrintact hrhead
      exact ⟨rfl, by rw [hblank]⟩

theorem found_more (rest : Bytes) : FoundMore rest := by
  have hquote : Free isSpace [34] := free_singleton (by decide)
  induction rest using break_induction (p := isSpace) with
  | free rest hrest =>
    intro s hs
    have hstep : step s (rest ++ [34]) = nameWord s (rest ++ [34]) := by rw [step, if_pos hs]
    have hword : words isSpace (rest ++ [34]) = [rest ++ [34]] := words_free (hrest.append hquote) (by simp)
    refine ⟨[rest ++ [34]], [], rest, ⟨hword, closes_one hstep, intact_free hrest, fun c hc => .inl hc⟩,
      hrest.head?_ne (by decide), fun _ _ => ⟨rfl, rfl⟩⟩
  | break_at w sep rest hw hsep ih =>
    intro s hs
    rw [List.append_assoc, List.cons_append, words_append_cons w _ hsep]
    by_cases hne : w = []
    · -- a second space in a row: no word stands between the two
      subst w
      obtain ⟨A, B, e, hfound, hhead, -⟩ := ih s hs
      refine ⟨A, B, e, ⟨?_, hfound.closes, hfound.intact, fun c hc => ?_⟩, hhead, fun hi hh => ?_⟩
      · rw [words_nil, List.nil_append, hfound.words]
      · rcases hfound.subset c hc with h | h
        · exact .inl (by simp [h])
        · exact .inr h
      · have hblank := hi.only sep (by simp) hsep
        exact absurd (by simp [hblank]) hh
    · rw [words_free hw hne]
      have hu : step s w = nameWord s w := by rw [step, if_pos hs]
      obtain ⟨A, B, e, hfound, hhead, hintact⟩ := found_break hw hsep hu ih
      exact ⟨A, B, e, hfound, hhead hne, fun hi _ => hintact hi⟩

theorem found_name (name : Bytes) (hs : s.inName = false) (hc : s.wordCounter = 0) :
    ∃ A B e, Found s name (words isSpace (quotedName name)) A B s.entry e ∧ (Intact name → B = [] ∧ e = name) := by
  have hquote : Free isSpace [34] := free_singleton (by decide)
  have hstep : ∀ w, step s (34 :: w) = nameWord s w := by
    intro w
    simp [step, hs, hc]
  rcases free_or_break isSpace name with hname | ⟨w, sep, rest, rfl, hw, hsep⟩
  · have hword : words isSpace (quotedName name) = [34 :: (name ++ [34])] :=
      words_free ((hquote.append hname).append hquote) (by simp [quotedName])
    exact ⟨[34 :: (name ++ [34])], [], name, ⟨hword, closes_one (hstep _), intact_free hname, fun c hc => .inl hc⟩,
      fun _ => ⟨rfl, rfl⟩⟩
  · have hwords : words isSpace (quotedName (w ++ sep :: rest)) = (34 :: w) :: words isSpace (rest ++ [34]) := by
      have htext : quotedName (w ++ sep :: rest) = (34 :: w) ++ sep :: (rest ++ [34]) := by simp [quotedName]
      rw [htext, words_append_cons _ _ hsep, words_free (l := 34 :: w) (hquote.append hw) (by simp)]
      rfl
    obtain ⟨A, B, e, hfound, -, hintact⟩ := found_break hw hsep (hstep w) (found_more rest)
    exact ⟨A, B, e, hwords ▸ hfound, hintact⟩

/-- The names that no later word changes. -/
def Reading.settled (s : Reading) : List Bytes :=
  if s.inName = false ∧ s.wordCounter = 1 then s.fNames.dropLast else s.fNames

theorem padding_some {width size : Nat} {space : Bytes} (h : padding width size = some space) : size ≤ width := by
  unfold padding at h
  split at h
  · cases h
  · omega

theorem padding_of_le {width size : Nat} (h : size ≤ width) : ∃ space, padding width size = some space := by
  unfold padding
  rw [if_neg (by omega)]
  split
  · exact ⟨_, rfl⟩
  · exact ⟨_, rfl⟩

theorem close_some (h : close s e = some t) :
    e.length ≤ 40 ∧ t.inName = false ∧ t.wordCounter = 1 ∧ t.entries = s.entries ∧ t.fNames = s.fNames ++ [e] := by
  obtain ⟨space, hspace, rfl⟩ := Option.map_eq_some_iff.mp h
  exact ⟨padding_some hspace, rfl, rfl, rfl, rfl⟩

theorem sizeWord_some (h : sizeWord s w = some t) :
    w.length ≤ 15 ∧ t.inName = s.inName ∧ t.wordCounter = 2 ∧ t.entries = s.entries ∧
      t.fNames = if w = ascii "-" then s.fNames.dropLast ++ [s.fNames.getLastD [] ++ [slash]] else s.fNames := by
  obtain ⟨space, hspace, rfl⟩ := Option.map_eq_some_iff.mp h
  refine ⟨padding_some hspace, ?_⟩
  split
  · exact ⟨rfl, rfl, rfl, rfl⟩
  · exact ⟨rfl, rfl, rfl, rfl⟩

theorem close_of_le (s : Reading) (h : e.length ≤ 40) : ∃ t, close s e = some t := by
  obtain ⟨space, hspace⟩ := padding_of_le h
  exact ⟨_, by rw [close, hspace]; rfl⟩

theorem sizeWord_of_le (s : Reading) (h : w.length ≤ 15) : ∃ t, sizeWord s w = some t := by
  obtain ⟨space, hspace⟩ := padding_of_le h
  exact ⟨_, by rw [sizeWord, hspace]; rfl⟩

theorem nameWord_settled (h : nameWord s w = some t) : s.fNames <+: t.settled := by
  by_cases hend : w.getLast? = some 34
  · obtain ⟨v, rfl⟩ : ∃ v, w = v ++ [34] := ⟨w.dropLast, (List.dropLast_append_getLast? 34 hend).symm⟩
    rw [nameWord_last] at h
    obtain ⟨-, hin, hcounter, -, hnames⟩ := close_some h
    simp [Reading.settled, hin, hcounter, hnames]
  · rw [nameWord_more hend] at h
    obtain rfl := Option.some.inj h
    exact List.prefix_rfl

theorem Reading.settled_prefix (s : Reading) : s.settled <+: s.fNames := by
  rw [Reading.settled]
  split
  · exact List.dropLast_prefix _
  · exact List.prefix_rfl

theorem step_settled (h : step s w = some t) : s.settled <+: t.settled := by
  rw [step] at h
  split at h
  · exact s.settled_prefix.trans (nameWord_settled h)
  · rename_i hin
    split at h
    · exact s.settled_prefix.trans (nameWord_settled h)
    · rename_i hcounter
      obtain ⟨-, -, hnext, -, hnames⟩ := sizeWord_some h
      have hs : s.settled = s.fNames.dropLast := by simp [Reading.settled, hin, hcounter]
      have ht : t.settled = t.fNames := by simp [Reading.settled, hnext]
      rw [hs, ht, hnames]
      split
      · exact List.prefix_append _ _
      · exact List.dropLast_prefix _
    · obtain rfl := Option.some.inj h
      exact s.settled_prefix.trans (by simp [Reading.settled])
    · obtain rfl := Option.some.inj h
      exact s.settled_prefix.trans (by simp [Reading.settled])

theorem run_settled {ws : List Bytes} (h : ws.foldlM step s = some t) : s.settled <+: t.settled := by
  induction ws generalizing s with
  | nil =>
    obtain rfl := Option.some.inj h
    exact List.prefix_rfl
  | cons w ws ih =>
    rw [List.foldlM_cons] at h
    obtain ⟨s₁, hstep, hrest⟩ := Option.bind_eq_some_iff.mp h
    exact (step_settled hstep).trans (ih hrest)

/-- A name that has been found stays in the list, perhaps with a slash behind it. -/
theorem run_found {ws : List Bytes} {l : List Bytes} {e : Bytes} (hs : s.inName = false) (hc : s.wordCounter = 1)
    (hl : s.fNames = l ++ [e]) (h : ws.foldlM step s = some t) :
    l ++ [e] <+: t.fNames ∨ l ++ [e ++ [slash]] <+: t.fNames := by
  cases ws with
  | nil =>
    obtain rfl := Option.some.inj h
    exact .inl (hl ▸ List.prefix_rfl)
  | cons w ws =>
    rw [List.foldlM_cons] at h
    obtain ⟨s₁, hstep, hrest⟩ := Option.bind_eq_some_iff.mp h
    have hsize : sizeWord s w = some s₁ := by simpa [step, hs, hc] using hstep
    obtain ⟨-, -, hnext, -, hnames⟩ := sizeWord_some hsize
    have hsettled : s₁.settled = s₁.fNames := by simp [Reading.settled, hnext]
    have hprefix := (run_settled hrest).trans t.settled_prefix
    rw [hsettled, hnames, hl] at hprefix
    split at hprefix
    · exact .inr (by simpa using hprefix)
    · exact .inl hprefix

/-- A line of the response to `ls`. -/
structure Row where
  name : Bytes
  size : Bytes
  day : Bytes
  time : Bytes

namespace Row

def text (r : Row) : Bytes := quotedName r.name ++ 32 :: r.size ++ 32 :: quotedName (r.day ++ 32 :: r.time)

/-- What is promised of a line: a name without a slash, and fields that are words. -/
structure Valid (r : Row) : Prop where
  name : slash ∉ r.name
  size : Free isSpace r.size ∧ r.size ≠ []
  day : Free isSpace r.day
  time : Free isSpace r.time

/-- The name as it should be listed. -/
def shown (r : Row) : Bytes := if r.size = ascii "-" then r.name ++ [slash] else r.name

/-- What the client copes with. -/
structure Fits (r : Row) : Prop where
  intact : Intact r.name
  short : r.name.length ≤ 40
  digits : r.size.length ≤ 15

variable {r : Row}

theorem Valid.words_text (h : r.Valid) :
    words isSpace r.text = words isSpace (quotedName r.name) ++ [r.size, 34 :: r.day, r.time ++ [34]] := by
  have hblank : isSpace 32 = true := by decide
  have hquote : Free isSpace [34] := free_singleton (by decide)
  have htext : r.text = quotedName r.name ++ 32 :: (r.size ++ 32 :: ((34 :: r.day) ++ 32 :: (r.time ++ [34]))) := by
    simp [text, quotedName]
  rw [htext, words_append_cons _ _ hblank, words_append_cons _ _ hblank, words_append_cons _ _ hblank,
    words_free h.size.1 h.size.2, words_free (l := 34 :: r.day) (hquote.append h.day) (by simp),
    words_free (h.time.append hquote) (by simp)]
  rfl

end Row

/-- Between two lines. -/
structure Reading.Ready (s : Reading) : Prop where
  inName : s.inName = false
  wordCounter : s.wordCounter = 0
  entry : s.entry = []

theorem ready_start (path : Bytes) : (start path).Ready := ⟨rfl, rfl, rfl⟩

variable {r : Row}

theorem run_row (hs : s.Ready) (hv : r.Valid) (hf : r.Fits) :
    ∃ t, (words isSpace r.text).foldlM step s = some t ∧ t.Ready ∧ t.fNames = s.fNames ++ [r.shown] ∧
      t.entries.length = s.entries.length + 1 := by
  obtain ⟨A, B, e, hfound, hintact⟩ := found_name r.name hs.inName hs.wordCounter
  obtain ⟨rfl, rfl⟩ := hintact hf.intact
  obtain ⟨t₁, hclose⟩ := close_of_le s hf.short
  obtain ⟨-, hin₁, hcounter₁, hentries₁, hnames₁⟩ := close_some hclose
  obtain ⟨t₂, hsize⟩ := sizeWord_of_le t₁ hf.digits
  obtain ⟨-, hin₂, hcounter₂, hentries₂, hnames₂⟩ := sizeWord_some hsize
  have hname : (words isSpace (quotedName r.name)).foldlM step s = some t₁ := by
    rw [hfound.words, List.append_nil, hfound.closes, hs.entry, List.nil_append, hclose]
  have hstep₁ : step t₁ r.size = some t₂ := by simpa [step, hin₁, hcounter₁] using hsize
  let t₃ : Reading := { t₂ with wordCounter := 3, entry := t₂.entry ++ r.day ++ [32] }
  let t₄ : Reading := { t₃ with wordCounter := 0, entry := [], entries := t₃.entries ++ [t₃.entry ++ r.time] }
  have hstep₂ : step t₂ (34 :: r.day) = some t₃ := by simp [step, hin₂, hin₁, hcounter₂, t₃]
  have hstep₃ : step t₃ (r.time ++ [34]) = some t₄ := by simp [step, hin₂, hin₁, t₃, t₄]
  refine ⟨t₄, ?_, ?_, ?_, ?_⟩
  · rw [hv.words_text, List.foldlM_append, hname]
    simp only [Option.bind_eq_bind, Option.bind_some, List.foldlM_cons, hstep₁, hstep₂, hstep₃, List.foldlM_nil]
    rfl
  · exact ⟨hin₂.trans hin₁, rfl, rfl⟩
  · show t₂.fNames = _
    rw [hnames₂, hnames₁, Row.shown]
    split
    · simp
    · rfl
  · simp [t₄, t₃, hentries₂, hentries₁]

theorem fits_of_run {ws : List Bytes} (hs : s.Ready) (hv : r.Valid)
    (h : (words isSpace r.text ++ ws).foldlM step s = some t) (hshown : s.fNames ++ [r.shown] <+: t.fNames) : r.Fits := by
  obtain ⟨A, B, e, hfound, hintact⟩ := found_name r.name hs.inName hs.wordCounter
  have hcloses := hfound.closes
  rw [hs.entry, List.nil_append] at hcloses
  rw [hv.words_text, hfound.words, List.append_assoc, List.append_assoc, List.foldlM_append, hcloses] at h
  obtain ⟨t₁, hclose, hrest⟩ := Option.bind_eq_some_iff.mp h
  obtain ⟨hshort, hin, hcounter, -, hnames⟩ := close_some hclose
  have hslash : slash ∉ e := by
    intro hm
    rcases hfound.subset slash hm with hm | hm
    · exact hv.name hm
    · exact absurd hm (by decide)
  have hsame : ∀ x, s.fNames ++ [x] <+: t.fNames → x = r.shown := by
    intro x hx
    have heq := (List.prefix_of_prefix_length_le hx hshown (by simp)).eq_of_length (by simp)
    simpa using heq
  have hname : e = r.name := by
    rcases run_found hin hcounter hnames hrest with hprefix | hprefix
    · have hx := hsame e hprefix
      rw [Row.shown] at hx
      split at hx
      · exact absurd (hx ▸ by simp) hslash
      · exact hx
    · have hx := hsame (e ++ [slash]) hprefix
      rw [Row.shown] at hx
      split at hx
      · exact List.append_cancel_right hx
      · exact absurd (hx ▸ by simp) hv.name
  obtain ⟨rfl, -⟩ := hintact (hname ▸ hfound.intact)
  rw [List.nil_append, List.cons_append, List.foldlM_cons] at hrest
  obtain ⟨t₂, hsize, -⟩ := Option.bind_eq_some_iff.mp hrest
  have hsize' : sizeWord t₁ r.size = some t₂ := by simpa [step, hin, hcounter] using hsize
  exact ⟨hname ▸ hfound.intact, hname ▸ hshort, (sizeWord_some hsize').1⟩

/-- The lines of a listing as they stand in `response_body`. -/
def body (rows : List Row) : Bytes := rows.flatMap (·.text ++ [newline]) ++ [newline]

theorem words_body (rows : List Row) : words isSpace (body rows) = rows.flatMap (fun r => words isSpace r.text) := by
  have hnewline : isSpace newline = true := by decide
  induction rows with
  | nil => exact words_cons [] hnewline
  | cons r rows ih =>
    have hbody : body (r :: rows) = r.text ++ newline :: body rows := by simp [body]
    rw [hbody, words_append_cons _ _ hnewline, ih, List.flatMap_cons]

/-- The names of the listing are what they should be, and there is an entry for each. -/
structure Reading.Lists (s t : Reading) (rows : List Row) : Prop where
  outside : t.inName = false
  names : t.fNames = s.fNames ++ rows.map Row.shown
  entries : t.entries.length = s.entries.length + rows.length

/-- A listing is read as it was written exactly when each of its lines fits. -/
theorem run_iff {rows : List Row} (hs : s.Ready) (hv : ∀ r ∈ rows, r.Valid) :
    (∃ t, (words isSpace (body rows)).foldlM step s = some t ∧ s.Lists t rows) ↔ ∀ r ∈ rows, r.Fits := by
  rw [words_body]
  induction rows generalizing s with
  | nil => exact iff_of_true ⟨s, rfl, hs.inName, by simp, rfl⟩ (by simp)
  | cons r rows ih =>
    have hr := hv r (by simp)
    rw [List.flatMap_cons, List.forall_mem_cons]
    constructor
    · rintro ⟨t, hrun, hlists⟩
      have hfits : r.Fits := by
        refine fits_of_run hs hr hrun ?_
        rw [hlists.names]
        exact ⟨rows.map Row.shown, by simp⟩
      obtain ⟨s₁, hrow, hready, hnames, hcount⟩ := run_row hs hr hfits
      rw [List.foldlM_append, hrow] at hrun
      refine ⟨hfits, (ih hready (fun r hr => hv r (by simp [hr]))).mp ⟨t, hrun, hlists.outside, ?_, ?_⟩⟩
      · rw [hlists.names, hnames]
        simp
      · rw [hlists.entries, hcount, List.length_cons]
        omega
    · rintro ⟨hfits, hrest⟩
      obtain ⟨s₁, hrow, hready, hnames, hcount⟩ := run_row hs hr hfits
      obtain ⟨t, hrun, hlists⟩ := (ih hready (fun r hr => hv r (by simp [hr]))).mpr hrest
      refine ⟨t, by rw [List.foldlM_append, hrow]; exact hrun, hlists.outside, ?_, ?_⟩
      · rw [hlists.names, hnames]
        simp
      · rw [hlists.entries, hcount, List.length_cons]
        omega

end Tui

end TinDox
