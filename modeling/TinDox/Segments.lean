import TinDox.Reader

/-! Commands and file data on one stream. However the stream arrives, the input loop does what the
reader does. -/

namespace TinDox

open ProtocolInterpreter Framing

/-- A `ul` request that is accepted, and the token that the upload has in the session after it. -/
structure Uploads (srv : ServerContext) (around : Surroundings) (fs : FileSystem) (s s' : Session) (r : Request) :
    Prop where
  command : r.name = ascii "ul"
  accepted : ∃ fs₁ token, AcceptsUpload srv around fs s.context r fs₁ token ∧ s'.uploadManager.token = some token

theorem Effect.uploads {srv : ServerContext} {around : Surroundings} {fs fs' : FileSystem} {s s' : Session}
    {r : Request} (he : Effect srv around fs s r fs' s') (hm : s.context.mode = .command)
    (hmode : s'.context.mode = .upload) : Uploads srv around fs s s' r := by
  cases he with
  | none | cp | mkdir | mv | rename | rm | unbacked => simp [hm] at hmode
  | flags | login | logout | cd | dl => simp [Session.withContext, ClientContext.logout, hm] at hmode
  | dls => simp at hmode
  | @ul fs₁ token command accepted =>
    exact ⟨command, fs₁, token, accepted, UploadManager.startUpload_token srv fs₁ s.uploadManager token⟩

def Session.withUpload (s : Session) (token : UploadToken) : Session :=
  { s with uploadManager := { s.uploadManager with token := some token } }

def Session.endUpload (s : Session) : Session :=
  { s with
    context := s.context.setMode .command
    uploadManager := { s.uploadManager with token := none, file := none } }

/-- The loop of `handle_input` when what surrounds a client is a function of the file system. -/
def Client.handleInputIn (srv : ServerContext) (env : FileSystem → Surroundings) :
    Nat → FileSystem → Client → Bytes → Handling
  | 0, fs, c, _ => ⟨fs, c, false, []⟩
  | fuel + 1, fs, c, input =>
    match c.handleOnce srv (env fs) fs input with
    | (h, rest) =>
      if h.fatal ∨ rest = [] then h
      else
        let h' := handleInputIn srv env fuel h.fs h.client rest
        { h' with trace := h.trace ++ h'.trace }

theorem Client.handleInputIn_const (srv : ServerContext) (others : Surroundings) (fuel : Nat) (fs : FileSystem)
    (c : Client) (input : Bytes) :
    handleInputIn srv (fun _ => others) fuel fs c input = handleInputLoop srv others fuel fs c input := by
  induction fuel generalizing fs c input with
  | zero => rfl
  | succ fuel ih => simp only [handleInputIn, handleInputLoop, ih]

/-- A call of `handle_input` for each chunk, until an exception or a request ends the connection. -/
def Client.handleChunks (srv : ServerContext) (env : FileSystem → Surroundings) :
    FileSystem → Client → List Bytes → Handling
  | fs, c, [] => ⟨fs, c, false, []⟩
  | fs, c, chunk :: chunks =>
    let h := handleInputIn srv env (2 * chunk.length + 2) fs c chunk
    if h.fatal ∨ ¬ h.client.isAlive then h
    else
      let h' := handleChunks srv env h.fs h.client chunks
      { h' with trace := h.trace ++ h'.trace }

/-- With the same surroundings all the time, a chunk is a call of `handle_input`. -/
theorem Client.handleChunks_single (srv : ServerContext) (others : Surroundings) (fs : FileSystem) (c : Client) (chunk : Bytes) :
    handleChunks srv (fun _ => others) fs c [chunk] = c.handleInput srv others fs chunk := by
  simp only [handleChunks, handleInputIn_const, handleInput]
  rcases handleInputLoop srv others (2 * chunk.length + 2) fs c chunk with ⟨fs', c', fatal, trace⟩
  cases fatal <;> simp

def deliveriesOf (trace : List Iteration) : List Delivery := (trace.map (·.delivery)).filter (· ≠ .nothing)

theorem deliveriesOf_append (t t' : List Iteration) : deliveriesOf (t ++ t') = deliveriesOf t ++ deliveriesOf t' := by
  simp [deliveriesOf]

namespace Reader

variable {srv : ServerContext} {env : FileSystem → Surroundings} {R : Reader}

/-- What the input loop has done agrees with what a reader has read. -/
structure Agrees (R R' : Reader) (h : Handling) : Prop where
  fs : h.fs = R'.fs
  client : h.client = R'.client
  fatal : h.fatal = false
  handled : R.handled ++ deliveriesOf h.trace = R'.handled

theorem handleRequest_agrees {input p rest : Bytes} {done : List Bytes}
    (htake : (ofState R.done R.line).takeRequest input = (fresh, rest, deliver done))
    (hread : R.read srv env p = handle srv env { R with done := done, line := [] } done)
    (hlive : (R.read srv env p).Live) :
    ∃ h, R.client.handleRequest srv (env R.fs) R.fs input = (h, rest) ∧ Agrees R (R.read srv env p) h := by
  have hwhole := hlive.whole
  unfold Client.handleRequest
  rw [hread] at hwhole ⊢
  simp only [client, htake]
  simp only [handle] at hwhole ⊢
  cases hd : deliver done with
  | nothing => simp [hd] at hwhole
  | request r =>
    simp only [hd] at hwhole ⊢
    exact ⟨_, rfl, rfl, rfl, hwhole, by simp [deliveriesOf]⟩
  | error e =>
    cases e with
    | fatal => simp [hd] at hwhole
    | protocol e => exact ⟨_, rfl, rfl, rfl, rfl, by simp [deliveriesOf]⟩

theorem handleUpload_agrees {input : Bytes} (hR : R.Live) (hb : R.session.uploadManager.Bounded)
    (hm : R.session.context.mode = .upload) (hne : input ≠ []) (h : R.Admits srv env input) :
    ∃ fs s rest, R.session.handleUpload R.fs input = (fs, s, .ok rest) ∧
      Live { R with fs := fs, session := s } ∧ Admits srv env { R with fs := fs, session := s } rest ∧
      R.read srv env input = read srv env { R with fs := fs, session := s } rest := by
  induction input generalizing R with
  | nil => exact absurd rfl hne
  | cons b input ih =>
    obtain ⟨hlive, hrest⟩ := h
    have hcons : R.read srv env (b :: input) = Reader.read srv env (R.feed srv env b) input := rfl
    rw [hcons]
    unfold feed at hlive hrest ⊢
    simp only [hm, if_true] at hlive hrest ⊢
    rcases hu : R.session.handleUpload R.fs [b] with ⟨fs, s, e | rest⟩
    · simp only [hu] at hlive
      exact absurd hlive.whole (by simp)
    · obtain ⟨hbounded, halive, ⟨hmode, rfl, happend⟩ | ⟨hmode, hsuffix, happend⟩⟩ :=
        @Session.handleUpload_ok R.fs fs R.session s [b] input rest hb hm hu
      · simp only [hu] at hlive hrest ⊢
        by_cases hin : input = []
        · subst input
          exact ⟨fs, s, [], hu, hlive, hrest, rfl⟩
        · rw [List.singleton_append] at happend
          rw [happend]
          exact @ih { R with fs := fs, session := s } hlive hbounded hmode hin hrest
      · refine ⟨fs, s, rest ++ input, happend, ⟨hR.whole, halive.trans hR.alive, by simp [hmode]⟩, ?_⟩
        rcases List.suffix_cons_iff.mp hsuffix with rfl | hnil
        · -- the upload has needed no byte, and this one is read as a command
          simp only [hu] at hlive hrest ⊢
          have hfeed := @feed_command srv env { R with fs := fs, session := s } hmode b
          rw [← hfeed] at hlive hrest ⊢
          exact ⟨⟨hlive, hrest⟩, rfl⟩
        · rw [List.suffix_nil] at hnil
          subst rest
          simp only [hu] at hlive hrest ⊢
          exact ⟨hrest, rfl⟩

/-- One iteration of the input loop, and the reader that goes on with what it leaves. -/
theorem handleOnce_agrees {input : Bytes} (hR : R.Live) (hc : R.client.Ready) (hne : input ≠ [])
    (h : R.Admits srv env input) :
    ∃ R' handling rest, R.client.handleOnce srv (env R.fs) R.fs input = (handling, rest) ∧
      Agrees R R' handling ∧ R'.Live ∧ R'.Admits srv env rest ∧ R.read srv env input = R'.read srv env rest := by
  unfold Client.handleOnce
  cases hm : R.session.context.mode with
  | download => exact absurd hm hR.mode
  | upload =>
    obtain ⟨fs, s, rest, hu, hlive, hadmits, hread⟩ := handleUpload_agrees hR hc.bounded hm hne h
    have hmode : R.client.session.context.mode = .upload := hm
    have hu' : R.client.session.handleUpload R.fs input = (fs, s, .ok rest) := hu
    simp only [hmode, Client.handleUpload, hu']
    exact ⟨_, _, _, rfl, ⟨rfl, rfl, rfl, by simp [deliveriesOf]⟩, hlive, hadmits, hread⟩
  | command =>
    have hmode : R.client.session.context.mode = .command := hm
    simp only [hmode]
    cases takes hm h with
    | all done line takes reads =>
      have hlive := Admits.live hR h
      rw [reads] at hlive ⊢
      simp only [Client.handleRequest, client, takes]
      exact ⟨{ R with done := done, line := line }, _, [], rfl, ⟨rfl, rfl, rfl, by simp [deliveriesOf]⟩, hlive,
        trivial, rfl⟩
    | request p rest done split takes reads =>
      subst split
      obtain ⟨hp, hrest⟩ := Admits.append h
      have hlive := Admits.live hR hp
      obtain ⟨handling, hhandle, hagrees⟩ := handleRequest_agrees takes reads hlive
      exact ⟨R.read srv env p, handling, rest, hhandle, hagrees, hlive, hrest, read_append p rest⟩

theorem Agrees.trans {R' R'' : Reader} {h h' : Handling} (hR : Agrees R R' h) (hR' : Agrees R' R'' h') :
    Agrees R R'' { h' with trace := h.trace ++ h'.trace } :=
  ⟨hR'.fs, hR'.client, hR'.fatal, by rw [deliveriesOf_append, ← List.append_assoc, hR.handled, hR'.handled]⟩

theorem handleInputIn_agrees {fuel : Nat} {input : Bytes} (hR : R.Live) (hc : R.client.Ready) (hne : input ≠ [])
    (h : R.Admits srv env input) (hfuel : R.client.measure input < fuel) :
    Agrees R (R.read srv env input) (Client.handleInputIn srv env fuel R.fs R.client input) ∧
      (R.read srv env input).client.Ready := by
  induction fuel generalizing R input with
  | zero => omega
  | succ fuel ih =>
    obtain ⟨R', handling, rest, honce, hagrees, hlive, hadmits, hread⟩ := handleOnce_agrees hR hc hne h
    have hadv := Client.handleOnce_advances hc honce hagrees.fatal
    have hready : R'.client.Ready := hagrees.client ▸ hadv.ready
    rw [Client.handleInputIn, honce, hread]
    simp only [hagrees.fatal, Bool.false_eq_true, false_or]
    by_cases hrest : rest = []
    · subst rest
      rw [if_pos rfl]
      exact ⟨hagrees, hready⟩
    · have hlt := hadv.decreases hR.mode hne
      rw [hagrees.client] at hlt
      rw [if_neg hrest, hagrees.fs, hagrees.client]
      obtain ⟨htail, hend⟩ := ih hlive hready hrest hadmits (by omega)
      exact ⟨hagrees.trans htail, hend⟩

/-- However the stream is cut into chunks, the client does what the reader does. -/
theorem handleChunks_agrees {chunks : List Bytes} (hR : R.Live) (hc : R.client.Ready) (hne : ∀ c ∈ chunks, c ≠ [])
    (h : R.Admits srv env chunks.flatten) :
    Agrees R (R.read srv env chunks.flatten) (Client.handleChunks srv env R.fs R.client chunks) ∧
      (R.read srv env chunks.flatten).client.Ready := by
  induction chunks generalizing R with
  | nil => exact ⟨⟨rfl, rfl, rfl, by simp [deliveriesOf, Client.handleChunks]⟩, hc⟩
  | cons chunk chunks ih =>
    rw [List.flatten_cons] at h ⊢
    obtain ⟨hchunk, hrest⟩ := Admits.append h
    have hlive := Admits.live hR hchunk
    have hfuel : R.client.measure chunk < 2 * chunk.length + 2 := by
      unfold Client.measure
      split <;> omega
    obtain ⟨hagrees, hready⟩ := handleInputIn_agrees hR hc (hne chunk (by simp)) hchunk hfuel
    have halive : (Client.handleInputIn srv env (2 * chunk.length + 2) R.fs R.client chunk).client.isAlive = true := by
      rw [hagrees.client]
      exact hlive.alive
    rw [Client.handleChunks, read_append]
    simp only [hagrees.fatal, halive, Bool.false_eq_true, not_true_eq_false, or_self, if_false]
    obtain ⟨htail, hend⟩ := ih hlive hready (fun c hmem => hne c (by simp [hmem])) hrest
    rw [← hagrees.fs, ← hagrees.client] at htail
    exact ⟨hagrees.trans htail, hend⟩

theorem handle_uploads {lines : List Bytes} (hm : R.session.context.mode = .command)
    (hmode : (R.handle srv env lines).session.context.mode = .upload) :
    ∃ r, (R.handle srv env lines).handled = R.handled ++ [.request r] ∧
      Uploads srv (Client.surroundings (env R.fs) R.session) R.fs R.session (R.handle srv env lines).session r := by
  unfold handle at hmode ⊢
  cases hd : deliver lines with
  | nothing => simp [hd, hm] at hmode
  | error e => cases e <;> simp [hd, hm] at hmode
  | request r =>
    simp only [hd] at hmode ⊢
    have heffect := executeCommand_effect srv (Client.surroundings (env R.fs) R.session) R.fs R.session r hm
    exact ⟨r, rfl, heffect.uploads hm hmode⟩

theorem feed_uploads {b : Byte} (hm : R.session.context.mode = .command) (hlive : (R.feed srv env b).Live)
    (hmode : (R.feed srv env b).session.context.mode = .upload) :
    ∃ r, (R.feed srv env b).handled = R.handled ++ [.request r] ∧
      Uploads srv (Client.surroundings (env R.fs) R.session) R.fs R.session (R.feed srv env b).session r := by
  rw [feed_command hm] at hlive hmode ⊢
  rw [readCommand_eq hlive.whole] at hmode ⊢
  by_cases hb : b = newline
  · by_cases hl : R.line = []
    · by_cases hd : R.done = []
      · simp [hb, hl, hd, hm] at hmode
      · simp only [hb, hl, ne_eq, not_true_eq_false, if_false, hd, not_false_eq_true, if_true] at hmode ⊢
        exact handle_uploads hm hmode
    · simp [hb, hl, hm] at hmode
  · simp [hb, hm] at hmode

theorem read_upload {d : Bytes} (hR : R.Live) (hb : R.session.uploadManager.Bounded)
    (hm : R.session.context.mode = .upload) (hne : d ≠ []) (h : R.Admits srv env d) :
    ∃ token i, R.session.uploadManager.token = some token ∧ R.session.uploadManager.file = some i ∧
      (d.length < UploadManager.getRemainingBytes token ∧
          R.read srv env d =
            { R with fs := R.fs.write i d, session := R.session.withUpload (UploadManager.advance token d) } ∨
        UploadManager.getRemainingBytes token ≤ d.length ∧ ∃ fs,
          (R.fs.write i (d.take (UploadManager.getRemainingBytes token))).rename
            R.session.uploadManager.partialFileName token.path = .ok fs ∧
          Live { R with fs := fs, session := R.session.endUpload } ∧
          Admits srv env { R with fs := fs, session := R.session.endUpload }
            (d.drop (UploadManager.getRemainingBytes token)) ∧
          R.read srv env d =
            read srv env { R with fs := fs, session := R.session.endUpload }
              (d.drop (UploadManager.getRemainingBytes token))) := by
  obtain ⟨fs, s, rest, hu, hlive, hadmits, hread⟩ := handleUpload_agrees hR hb hm hne h
  obtain ⟨m, hc, rfl⟩ := Session.handleUpload_eq_ok hu
  obtain ⟨token, i, ht, hf, hcase⟩ := UploadManager.commitBytes_ok hb.size hc
  refine ⟨token, i, ht, hf, ?_⟩
  rcases hcase with ⟨hlen, rfl, rfl, rfl⟩ | ⟨hlen, hr, rfl, rfl⟩
  · exact .inl ⟨hlen, hread⟩
  · exact .inr ⟨hlen, fs, hr, hlive, hadmits, hread⟩

theorem live_start (fs : FileSystem) : (start fs).Live := by
  constructor <;> simp [start, Session.new, ClientContext.new, ClientContext.isAlive]

end Reader

/-- A way in which a stream can arrive: a receive returns at least one byte. -/
def IsCut (chunks : List Bytes) (stream : Bytes) : Prop := chunks.flatten = stream ∧ ∀ c ∈ chunks, c ≠ []

instance (chunks : List Bytes) (stream : Bytes) : Decidable (IsCut chunks stream) :=
  inferInstanceAs (Decidable (_ ∧ _))

/-- Nothing is thrown, and the state, the responses, the mode and the deliveries are the same. -/
structure Handling.Same (h h' : Handling) : Prop where
  whole : h.fatal = false ∧ h'.fatal = false
  fs : h.fs = h'.fs
  client : h.client = h'.client
  deliveries : deliveriesOf h.trace = deliveriesOf h'.trace

/-- The upload that is going on before takes the data: all of it is written to its file, or exactly what is
missing is, the file is moved to its place, and what is behind is handled as commands. -/
def Handling.Stores (srv : ServerContext) (env : FileSystem → Surroundings) (before after : Handling)
    (data : Bytes) : Prop :=
  let s := before.client.session
  ∃ token i, s.uploadManager.token = some token ∧ s.uploadManager.file = some i ∧
    (token.offset ≤ token.size → UploadManager.getRemainingBytes token = token.size - token.offset) ∧
    (data.length < UploadManager.getRemainingBytes token ∧ after.fs = before.fs.write i data ∧
        after.client = { before.client with session := s.withUpload (UploadManager.advance token data) } ∧
        deliveriesOf after.trace = deliveriesOf before.trace ∨
      UploadManager.getRemainingBytes token ≤ data.length ∧ ∃ fs,
        (before.fs.write i (data.take (UploadManager.getRemainingBytes token))).rename
          s.uploadManager.partialFileName token.path = .ok fs ∧
        ∀ chunks, IsCut chunks (data.drop (UploadManager.getRemainingBytes token)) →
          let behind := Client.handleChunks srv env fs { before.client with session := s.endUpload } chunks
          after.fs = behind.fs ∧ after.client = behind.client ∧
            deliveriesOf after.trace = deliveriesOf before.trace ++ deliveriesOf behind.trace)

namespace Client

variable {srv : ServerContext} {env : FileSystem → Surroundings} {fs : FileSystem} {stream : Bytes}

theorem handleChunks_start {chunks : List Bytes} (h : (Reader.start fs).Admits srv env stream)
    (hc : IsCut chunks stream) :
    Reader.Agrees (Reader.start fs) ((Reader.start fs).read srv env stream) (handleChunks srv env fs .new chunks) ∧
      ((Reader.start fs).read srv env stream).client.Ready := by
  obtain ⟨rfl, hne⟩ := hc
  exact Reader.handleChunks_agrees (Reader.live_start fs) ready_new hne h

theorem handleChunks_cut {cs ds es : List Bytes} (h : (Reader.start fs).Admits srv env stream)
    (hcut : IsCut (cs ++ ds ++ es) stream) :
    ∃ R : Reader, R.Live ∧ R.client.Ready ∧ R.Admits srv env ds.flatten ∧
      Reader.Agrees (Reader.start fs) R (handleChunks srv env fs .new cs) ∧
      Reader.Agrees (Reader.start fs) (R.read srv env ds.flatten) (handleChunks srv env fs .new (cs ++ ds)) := by
  obtain ⟨rfl, hne⟩ := hcut
  rw [List.flatten_append] at h
  have hboth := (Reader.Admits.append h).1
  rw [List.flatten_append] at hboth
  obtain ⟨hcs, hds⟩ := Reader.Admits.append hboth
  obtain ⟨hbefore, hready⟩ := handleChunks_start hcs ⟨rfl, fun c hc => hne c (by simp [hc])⟩
  have hcut : IsCut (cs ++ ds) (cs.flatten ++ ds.flatten) :=
    ⟨List.flatten_append, fun c hc => hne c (List.mem_append_left es hc)⟩
  have hafter := (handleChunks_start hboth hcut).1
  rw [Reader.read_append] at hafter
  exact ⟨_, Reader.Admits.live (Reader.live_start fs) hcs, hready, hds, hbefore, hafter⟩

theorem handleChunks_stores {cs ds es : List Bytes} (h : (Reader.start fs).Admits srv env stream)
    (hcut : IsCut (cs ++ ds ++ es) stream) (hne : ds ≠ [])
    (hm : (handleChunks srv env fs .new cs).client.session.context.mode = .upload) :
    Handling.Stores srv env (handleChunks srv env fs .new cs) (handleChunks srv env fs .new (cs ++ ds)) ds.flatten := by
  obtain ⟨R, hlive, hready, hadmits, hbefore, hafter⟩ := handleChunks_cut h hcut
  have hdata : ds.flatten ≠ [] := by
    obtain ⟨d, ds, rfl⟩ := List.exists_cons_of_ne_nil hne
    have hd := hcut.2 d (by simp)
    simp [hd]
  have hsession : (handleChunks srv env fs .new cs).client.session = R.session := by
    rw [hbefore.client]
    rfl
  rw [hsession] at hm
  obtain ⟨token, i, ht, hf, hcase⟩ := Reader.read_upload hlive hready.bounded hm hdata hadmits
  obtain ⟨hs, -⟩ := hready.bounded token ht
  unfold Handling.Stores
  simp only [hbefore.fs, hbefore.client, hafter.fs, hafter.client]
  refine ⟨token, i, ht, hf, fun ho => UploadManager.getRemainingBytes_eq ho hs, ?_⟩
  rcases hcase with ⟨hlen, hread⟩ | ⟨hlen, fs₁, hr, hlive₁, hadmits₁, hread⟩
  · refine .inl ⟨hlen, by rw [hread], by rw [hread]; rfl, ?_⟩
    have hhandled := hafter.handled
    rw [hread] at hhandled
    exact List.append_cancel_left (hhandled.trans hbefore.handled.symm)
  · refine .inr ⟨hlen, fs₁, hr, ?_⟩
    rintro chunks ⟨hflat, hchunks⟩
    -- the reader behind the upload is one that the chunks behind it agree with
    have hready₁ : Reader.client { R with fs := fs₁, session := R.session.endUpload } |>.Ready :=
      ⟨rfl, by rintro token ⟨⟩⟩
    rw [← hflat] at hadmits₁ hread
    obtain ⟨hbehind, -⟩ := Reader.handleChunks_agrees hlive₁ hready₁ hchunks hadmits₁
    rw [hread] at hafter ⊢
    refine ⟨hbehind.fs.symm, hbehind.client.symm, ?_⟩
    have hhandled := hafter.handled
    rw [← hbehind.handled, ← hbefore.handled, List.append_assoc] at hhandled
    exact List.append_cancel_left hhandled

theorem handleChunks_uploads {cs es : List Bytes} {b : Byte} (h : (Reader.start fs).Admits srv env stream)
    (hcut : IsCut (cs ++ [[b]] ++ es) stream)
    (hm : (handleChunks srv env fs .new cs).client.session.context.mode = .command)
    (hmode : (handleChunks srv env fs .new (cs ++ [[b]])).client.session.context.mode = .upload) :
    ∃ r, deliveriesOf (handleChunks srv env fs .new (cs ++ [[b]])).trace =
        deliveriesOf (handleChunks srv env fs .new cs).trace ++ [.request r] ∧
      Uploads srv
        (surroundings (env (handleChunks srv env fs .new cs).fs) (handleChunks srv env fs .new cs).client.session)
        (handleChunks srv env fs .new cs).fs (handleChunks srv env fs .new cs).client.session
        (handleChunks srv env fs .new (cs ++ [[b]])).client.session r := by
  obtain ⟨R, hlive, hready, hadmits, hbefore, hafter⟩ := handleChunks_cut h hcut
  have hread : R.read srv env [[b]].flatten = R.feed srv env b := rfl
  rw [hread] at hafter
  rw [hbefore.client] at hm
  rw [hafter.client] at hmode
  obtain ⟨r, hhandled, huploads⟩ := Reader.feed_uploads hm hadmits.1 hmode
  refine ⟨r, ?_, ?_⟩
  · have hall := hafter.handled
    rw [hhandled, ← hbefore.handled, List.append_assoc] at hall
    exact List.append_cancel_left hall
  · rw [hbefore.client, hbefore.fs, hafter.client]
    exact huploads

/-- However a stream is cut, the same requests are executed in the same order, with the same state,
responses and mode in the end. At every cut in upload mode the upload takes its bytes and no more, and
upload mode begins with a `ul` that is accepted. -/
theorem handleChunks_demultiplexes (h : (Reader.start fs).Admits srv env stream) :
    (∀ cs ds, IsCut cs stream → IsCut ds stream →
      (handleChunks srv env fs .new cs).Same (handleChunks srv env fs .new ds)) ∧
    (∀ cs ds es, IsCut (cs ++ ds ++ es) stream → ds ≠ [] →
      (handleChunks srv env fs .new cs).client.session.context.mode = .upload →
      Handling.Stores srv env (handleChunks srv env fs .new cs) (handleChunks srv env fs .new (cs ++ ds)) ds.flatten) ∧
    (∀ cs b es, IsCut (cs ++ [[b]] ++ es) stream →
      let before := handleChunks srv env fs .new cs
      let after := handleChunks srv env fs .new (cs ++ [[b]])
      before.client.session.context.mode = .command → after.client.session.context.mode = .upload →
      ∃ r, deliveriesOf after.trace = deliveriesOf before.trace ++ [.request r] ∧
        Uploads srv (surroundings (env before.fs) before.client.session) before.fs before.client.session
          after.client.session r) := by
  refine ⟨fun cs ds hcs hds => ?_, fun cs ds es hcut hne hm => handleChunks_stores h hcut hne hm,
    fun cs b es hcut hm hmode => handleChunks_uploads h hcut hm hmode⟩
  obtain ⟨hc, -⟩ := handleChunks_start h hcs
  obtain ⟨hd, -⟩ := handleChunks_start h hds
  exact ⟨⟨hc.fatal, hd.fatal⟩, hc.fs.trans hd.fs.symm, hc.client.trans hd.client.symm,
    List.append_cancel_left (hc.handled.trans hd.handled.symm)⟩

/-- A request, an upload with its data and another request, in one chunk and cut inside all of them. -/
theorem handleChunks_demultiplexes_upload :
    let fs : FileSystem := ⟨Sample.tree [], []⟩
    let stream := ascii "auth\nlogin:u\npasswd:pw\n\nul\nname:f\nsize:3\n\nab\npwd\n\n"
    let cut := ["auth\nlog", "in:u\npasswd:pw\n\nul\nna", "me:f\nsize:3\n\na", "b\np", "wd\n\n"].map ascii
    (Reader.start fs).Admits Sample.server (fun _ => Sample.around) stream ∧
    (Client.new.handleInput Sample.server Sample.around fs stream).fs.data = [ascii "ab\n"] ∧
    (Client.new.handleInput Sample.server Sample.around fs stream).Same
      (handleChunks Sample.server (fun _ => Sample.around) fs .new cut) := by
  intro fs stream cut
  have hadmits : (Reader.start fs).Admits Sample.server (fun _ => Sample.around) stream := by decide +kernel
  rw [← handleChunks_single]
  exact ⟨hadmits, by decide +kernel,
    (handleChunks_demultiplexes hadmits).1 [stream] cut (by decide +kernel) (by decide +kernel)⟩

end Client

end TinDox
