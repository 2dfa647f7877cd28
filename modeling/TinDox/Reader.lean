import TinDox.Connection
import TinDox.Framing

/-! A reader that takes a client's stream a byte at a time and knows no chunks. Bytes are commands or file
data by the mode of the session; the interpreter and the upload manager, which work on chunks, do
what the reader does as long as it keeps within the limits and nothing ends the connection. -/

namespace TinDox

open ProtocolInterpreter Framing

theorem FileSystem.write_write (fs : FileSystem) (i : Nat) (a b : Bytes) :
    (fs.write i a).write i b = fs.write i (a ++ b) := by
  have hmodify : (fs.data.modify i (· ++ a)).modify i (· ++ b) = fs.data.modify i (· ++ (a ++ b)) := by
    rw [List.modify_modify_eq]
    congr 1
    funext data
    simp
  simp only [write, hmodify]

namespace UploadManager

variable {fs fs₁ : FileSystem} {m m₁ : UploadManager} {a b rest : Bytes}

theorem commitBytes_append (h : m.Bounded) (hc : m.commitBytes fs a = (fs₁, m₁, .ok rest)) :
    m.commitBytes fs (a ++ b) =
      if m₁.hasFinished then (fs₁, m₁, .ok (rest ++ b)) else m₁.commitBytes fs₁ b := by
  obtain ⟨token, i, ht, hf, ⟨hlen, rfl, rfl, rfl⟩ | ⟨hlen, hr, rfl, rfl⟩⟩ := commitBytes_ok h.size hc
  · have htaken : taken token a = a.length := by
      simp only [taken]
      omega
    have hall : (a ++ b).take (taken token (a ++ b)) = a ++ b.take (taken (advance token a) b) := by
      rw [taken_append, htaken, List.take_length_add_append]
    have hleft : (a ++ b).drop (taken token (a ++ b)) = b.drop (taken (advance token a) b) := by
      rw [taken_append, htaken, List.drop_length_add_append]
    have htoken : ({ m with token := some (advance token a) } : UploadManager).token = some (advance token a) := rfl
    rw [if_neg (by simp [hasFinished]), commitBytes_eq ht hf, commitBytes_eq htoken hf, FileSystem.write_write, hall,
      hleft, advance_append]
    rfl
  · have htaken : taken token (a ++ b) = getRemainingBytes token := by
      simp only [taken, List.length_append]
      omega
    have hcomplete : (advance token (a ++ b)).offset = token.size := by
      rw [complete_iff (h token ht).1, List.length_append]
      omega
    have hpath : (advance token (a ++ b)).path = token.path := rfl
    rw [if_pos (by simp [hasFinished]), commitBytes_eq ht hf, if_pos hcomplete, htaken,
      List.take_append_of_le_length hlen, List.drop_append_of_le_length hlen, finish, hpath, hr]

end UploadManager

theorem Session.handleUpload_ok {fs fs₁ : FileSystem} {s s₁ : Session} {a b rest : Bytes}
    (h : s.uploadManager.Bounded) (hm : s.context.mode = .upload) (hu : s.handleUpload fs a = (fs₁, s₁, .ok rest)) :
    s₁.uploadManager.Bounded ∧ s₁.context.isAlive = s.context.isAlive ∧
    (s₁.context.mode = .upload ∧ rest = [] ∧ s.handleUpload fs (a ++ b) = s₁.handleUpload fs₁ b ∨
      s₁.context.mode = .command ∧ rest <:+ a ∧ s.handleUpload fs (a ++ b) = (fs₁, s₁, .ok (rest ++ b))) := by
  have hbounded := h.commitBytes fs a
  unfold Session.handleUpload at hu ⊢
  rcases hc : s.uploadManager.commitBytes fs a with ⟨fs', m, e | rest'⟩
  · simp [hc] at hu
  · have happend := @UploadManager.commitBytes_append fs fs' s.uploadManager m a b rest' h hc
    simp only [hc] at hu hbounded
    cases hu
    obtain ⟨token, i, ht, hf, ⟨hlen, rfl, rfl, rfl⟩ | ⟨hlen, hr, rfl, rfl⟩⟩ := UploadManager.commitBytes_ok h.size hc
    · rw [if_neg (by simp [UploadManager.hasFinished])] at happend
      exact ⟨hbounded, rfl, .inl ⟨hm, rfl, by rw [happend]; rfl⟩⟩
    · rw [if_pos (by simp [UploadManager.hasFinished])] at happend
      exact ⟨hbounded, rfl, .inr ⟨rfl, List.drop_suffix _ a, by rw [happend]⟩⟩

/-- The state of a reader: what the client works on, the lines of the current request, and what
has been handled. It is broken when a limit is exceeded or something is thrown. -/
structure Reader where
  fs : FileSystem
  session : Session
  done : List Bytes
  line : Bytes
  responses : List Response
  handled : List Delivery
  broken : Bool

namespace Reader

def start (fs : FileSystem) : Reader := ⟨fs, .new, [], [], [], [], false⟩

def client (R : Reader) : Client := ⟨R.session, ofState R.done R.line, [], R.responses⟩

variable (srv : ServerContext) (env : FileSystem → Surroundings)

/-- A complete request is executed, a malformed one is answered. -/
def handle (R : Reader) (lines : List Bytes) : Reader :=
  match deliver lines with
  | .request r =>
    let ex := R.session.executeCommand srv (Client.surroundings (env R.fs) R.session) R.fs r
    { R with
      fs := ex.fs
      session := ex.session
      done := []
      line := []
      responses := R.responses ++ (ex.answer.map Answer.response).toList
      handled := R.handled ++ [.request r]
      broken := ex.fatal }
  | .error (.protocol e) =>
    { R with
      done := []
      line := []
      responses := R.responses ++ [buildResponse e.code (ascii "<interpreter>") [e.what]]
      handled := R.handled ++ [.error (.protocol e)] }
  | _ => { R with broken := true }

def readCommand (R : Reader) (b : Byte) : Reader :=
  if R.line.length + 1 > maxLineLength ∨ R.done.length + 1 > maxLineCount then { R with broken := true }
  else if b ≠ newline then { R with line := R.line ++ [b] }
  else if R.line ≠ [] then { R with done := R.done ++ [R.line], line := [] }
  else if R.done ≠ [] then R.handle srv env R.done
  else R

/-- A byte of a file goes to the upload; one that the upload does not need is a command again. -/
def feed (R : Reader) (b : Byte) : Reader :=
  if R.session.context.mode = .upload then
    match R.session.handleUpload R.fs [b] with
    | (fs, s, .ok []) => { R with fs := fs, session := s }
    | (fs, s, .ok _) => readCommand srv env { R with fs := fs, session := s } b
    | (fs, s, .error _) => { R with fs := fs, session := s, broken := true }
  else R.readCommand srv env b

/-- Nothing has ended the connection, and no download has been started. -/
structure Live (R : Reader) : Prop where
  whole : R.broken = false
  alive : R.session.context.isAlive = true
  mode : R.session.context.mode ≠ .download

instance (R : Reader) : Decidable R.Live :=
  decidable_of_iff (R.broken = false ∧ R.session.context.isAlive = true ∧ R.session.context.mode ≠ .download)
    ⟨fun h => ⟨h.1, h.2.1, h.2.2⟩, fun h => ⟨h.whole, h.alive, h.mode⟩⟩

/-- Every byte of the stream leaves the reader live. -/
abbrev Admits (R : Reader) (stream : Bytes) : Prop :=
  Runs.AllMeet (feed srv env) (fun R b => (R.feed srv env b).Live) R stream

abbrev read (R : Reader) (stream : Bytes) : Reader := Runs.run (feed srv env) R stream

variable {srv env} {R : Reader}

theorem Admits.live (h : R.Live) {stream : Bytes} (hs : R.Admits srv env stream) : (R.read srv env stream).Live := by
  induction stream generalizing R with
  | nil => exact h
  | cons b stream ih => exact ih hs.1 hs.2

theorem read_append (p q : Bytes) : R.read srv env (p ++ q) = (R.read srv env p).read srv env q :=
  Runs.run_append R p q

theorem Admits.append {p q : Bytes} (h : R.Admits srv env (p ++ q)) :
    R.Admits srv env p ∧ (R.read srv env p).Admits srv env q :=
  h.of_append

theorem feed_command (hm : R.session.context.mode = .command) (b : Byte) : R.feed srv env b = R.readCommand srv env b := by
  simp [feed, hm]

theorem readCommand_whole {b : Byte} (h : (R.readCommand srv env b).broken = false) :
    R.line.length + 1 ≤ maxLineLength ∧ R.done.length + 1 ≤ maxLineCount := by
  by_contra hlimit
  have hbroken : R.line.length + 1 > maxLineLength ∨ R.done.length + 1 > maxLineCount := by omega
  rw [readCommand, if_pos hbroken] at h
  simp at h

theorem readCommand_eq {b : Byte} (h : (R.readCommand srv env b).broken = false) :
    R.readCommand srv env b =
      if b ≠ newline then { R with line := R.line ++ [b] }
      else if R.line ≠ [] then { R with done := R.done ++ [R.line], line := [] }
      else if R.done ≠ [] then R.handle srv env R.done
      else R := by
  have hlimit := readCommand_whole h
  rw [readCommand, if_neg (by omega)]

theorem read_piece {p : Bytes} (hm : R.session.context.mode = .command) (hp : newline ∉ p)
    (h : R.Admits srv env p) :
    R.read srv env p = { R with line := R.line ++ p } ∧
    (p ≠ [] → (R.line ++ p).length ≤ maxLineLength ∧ R.done.length + 1 ≤ maxLineCount) := by
  induction p generalizing R with
  | nil => simp
  | cons b p ih =>
    obtain ⟨hb, hp⟩ := List.ne_and_not_mem_of_not_mem_cons hp
    obtain ⟨hlive, hrest⟩ := h
    rw [feed_command hm] at hlive hrest
    have hlimit := readCommand_whole hlive.whole
    have hnext : R.readCommand srv env b = { R with line := R.line ++ [b] } := by
      rw [readCommand_eq hlive.whole, if_pos (Ne.symm hb)]
    rw [hnext] at hrest
    obtain ⟨hread, hlen⟩ := ih (R := { R with line := R.line ++ [b] }) hm hp hrest
    refine ⟨?_, fun _ => ⟨?_, hlimit.2⟩⟩
    · have hcons : R.read srv env (b :: p) = Reader.read srv env (R.feed srv env b) p := rfl
      rw [hcons, feed_command hm, hnext, hread]
      simp
    · by_cases hne : p = []
      · simp only [hne, List.length_append, List.length_cons, List.length_nil]
        omega
      · have hh := (hlen hne).1
        simpa using hh

theorem read_newline (hm : R.session.context.mode = .command) {s : Bytes} (h : R.Admits srv env (newline :: s)) :
    R.line.length + 1 ≤ maxLineLength ∧ R.done.length + 1 ≤ maxLineCount ∧
    Admits srv env (R.feed srv env newline) s ∧
    R.feed srv env newline =
      if R.line ≠ [] then { R with done := R.done ++ [R.line], line := [] }
      else if R.done ≠ [] then R.handle srv env R.done
      else R := by
  obtain ⟨hlive, hrest⟩ := h
  have hfeed := @feed_command srv env R hm newline
  rw [hfeed] at hlive
  obtain ⟨hl, hd⟩ := readCommand_whole hlive.whole
  refine ⟨hl, hd, hrest, ?_⟩
  rw [hfeed, readCommand_eq hlive.whole, if_neg (by simp)]

/-- What one call of `take_request` does for a reader: it takes the whole input without a
delivery, or stops right behind the request it delivers. -/
inductive Takes (srv : ServerContext) (env : FileSystem → Surroundings) (R : Reader) (input : Bytes) : Prop
  | all (done : List Bytes) (line : Bytes)
      (takes : (ofState R.done R.line).takeRequest input = (ofState done line, [], .nothing))
      (reads : R.read srv env input = { R with done := done, line := line })
  | request (p rest : Bytes) (done : List Bytes) (split : input = p ++ rest)
      (takes : (ofState R.done R.line).takeRequest input = (fresh, rest, deliver done))
      (reads : R.read srv env p = handle srv env { R with done := done, line := [] } done)

theorem Takes.line {p s : Bytes} {R' : Reader} (hp : newline ∉ p) (hread : R.read srv env (p ++ [newline]) = R')
    (hsame : ∀ done line, { R' with done := done, line := line } = { R with done := done, line := line })
    (hcommit : (ofState R.done R.line).commitLine (p ++ [newline]) = (ofState R'.done R'.line, none))
    (h : Takes srv env R' s) : Takes srv env R (p ++ newline :: s) := by
  have hb : p ++ newline :: s ≠ [] := by simp
  have hcut : cutLine (p ++ newline :: s) = (p ++ [newline], s) := cutLine_piece hp s
  have htake : (ofState R.done R.line).takeRequest (p ++ newline :: s) = (ofState R'.done R'.line).takeRequest s := by
    rw [takeRequest_line hb rfl (by rw [hcut]; exact hcommit), hcut]
  have hline (q : Bytes) : R.read srv env (p ++ newline :: q) = R'.read srv env q := by
    rw [List.append_cons, read_append, hread]
  cases h with
  | all done line takes reads =>
    refine .all done line (htake.trans takes) ?_
    rw [hline, reads, hsame]
  | request q rest done split takes reads =>
    refine .request (p ++ newline :: q) rest done (by simp [split]) (htake.trans takes) ?_
    rw [hline, reads, hsame]

theorem takes {input : Bytes} (hm : R.session.context.mode = .command) (h : R.Admits srv env input) :
    Takes srv env R input := by
  induction hn : input.length using Nat.strong_induction_on generalizing R input with
  | _ n ih =>
    subst n
    by_cases hb : input = []
    · subst input
      exact .all R.done R.line rfl rfl
    rcases cutLine_cases input with ⟨hp, hcut⟩ | ⟨p, s, hp, rfl, hcut⟩
    · obtain ⟨hread, hlen⟩ := read_piece hm hp h
      obtain ⟨hl, hd⟩ := hlen hb
      refine .all R.done (R.line ++ input) ?_ hread
      rw [takeRequest_line hb rfl (by rw [hcut]; exact commitLine_piece hb hp hl hd), hcut]
      exact takeRequest_nil rfl
    · have hlen : s.length < (p ++ newline :: s).length := by
        simp only [List.length_append, List.length_cons]
        omega
      obtain ⟨hpiece, hrest⟩ := Admits.append h
      have hread := (read_piece hm hp hpiece).1
      rw [hread] at hrest
      obtain ⟨hl, hd, hs, hfeed⟩ := @read_newline srv env { R with line := R.line ++ p } hm s hrest
      have hnext : R.read srv env (p ++ [newline]) = Reader.feed srv env { R with line := R.line ++ p } newline := by
        rw [read_append, hread]
        rfl
      simp only at hl hd hfeed
      by_cases hc : R.line ++ p = []
      · obtain ⟨hline, rfl⟩ := List.append_eq_nil_iff.mp hc
        by_cases hd' : R.done = []
        · rw [if_neg (by simpa using hc), if_neg (by simpa using hd')] at hfeed
          rw [hfeed] at hnext hs
          refine Takes.line hp hnext (fun _ _ => rfl) ?_ (ih s.length hlen hm hs rfl)
          simp only [hline, hd']
          exact commitLine_blank
        · refine .request [newline] s R.done rfl ?_ ?_
          · rw [hline]
            rcases commitLine_terminator hd' hd with ⟨r, hdel, hcommit⟩ | ⟨e, hdel, hcommit⟩
            · rw [takeRequest_line hb rfl (by rw [hcut]; exact hcommit), hcut, hdel]
              exact takeRequest_available rfl s
            · rw [takeRequest_error hb rfl (by rw [hcut]; exact hcommit), hcut, hdel]
          · rw [List.nil_append] at hnext
            rw [hnext, hfeed, if_neg (by simpa using hc), if_pos hd', List.append_nil, hline]
      · rw [if_pos hc] at hfeed
        rw [hfeed] at hnext hs
        exact Takes.line hp hnext (fun _ _ => rfl) (commitLine_complete hc hl hd) (ih s.length hlen hm hs rfl)

end Reader

end TinDox
