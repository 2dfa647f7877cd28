import TinDox.Answers
import TinDox.Collecting
import TinDox.Downloads
import TinDox.Fallible
import TinDox.UploadRequest

/-! A download of the console client against the server, from the local file it is given to the one
it leaves. A retried download appends to what is there, but its request carries the size of the
local file in a field that `dl` does not read: the server starts at the first byte. -/

namespace TinDox

open ProtocolInterpreter Delimited Fallible

namespace TDPService.Connection

theorem foldl_take_file {reads : List Bytes} (hfits : ∀ buf ∈ reads, buf.length ≤ 2 ^ 64) (r : Reception) :
    (reads.foldl (Reception.take true) r).file = r.file ++ reads.flatten ∧
      r.bytesToRead % 2 ^ 64 = (reads.flatten.length + (reads.foldl (Reception.take true) r).bytesToRead) % 2 ^ 64 := by
  induction reads generalizing r with
  | nil => simp
  | cons buf reads ih =>
    obtain ⟨hfile, hcount⟩ := ih (fun b hb => hfits b (by simp [hb])) (r.take true buf)
    have hbuf := hfits buf (by simp)
    have htake : (r.take true buf).bytesToRead = (r.bytesToRead + (2 ^ 64 - buf.length)) % 2 ^ 64 := rfl
    rw [List.foldl_cons, hfile, List.flatten_cons, List.length_append]
    refine ⟨by simp [Reception.take], ?_⟩
    rw [htake] at hcount
    generalize (reads.foldl (Reception.take true) (r.take true buf)).bytesToRead = left at hcount ⊢
    omega

theorem exchangeWithServer_file {ready unread : List (List Bytes)} {r r' : Reception}
    (hfits : ∀ reads ∈ ready, ∀ buf ∈ reads, buf.length ≤ 2 ^ 64)
    (h : exchangeWithServer true r ready = some (r', unread)) :
    ∃ taken, ready = taken ++ unread ∧ r'.file = r.file ++ taken.flatten.flatten ∧
      r.bytesToRead % 2 ^ 64 = taken.flatten.flatten.length % 2 ^ 64 := by
  induction ready generalizing r with
  | nil => simp [exchangeWithServer] at h
  | cons reads later ih =>
    obtain ⟨hfile, hcount⟩ := foldl_take_file (hfits reads (by simp)) r
    rw [exchangeWithServer, receiveAllReadyFromServer] at h
    split at h
    · cases h
    · rename_i r₁ heq
      split at heq
      · cases heq
      · simp only [if_true, Option.some.injEq, Prod.mk.injEq, decide_eq_true_eq] at heq h
        obtain ⟨rfl, hzero⟩ := heq
        obtain ⟨rfl, rfl⟩ := h
        refine ⟨[reads], rfl, by simpa using hfile, ?_⟩
        rw [hcount, hzero]
        simp
    · rename_i r₁ heq
      split at heq
      · cases heq
      · simp only [if_true, Option.some.injEq, Prod.mk.injEq] at heq
        obtain ⟨rfl, -⟩ := heq
        obtain ⟨taken, rfl, hfile', hcount'⟩ := ih (fun reads hr => hfits reads (by simp [hr])) h
        refine ⟨reads :: taken, rfl, by simp [hfile', hfile], ?_⟩
        simp only [List.flatten_cons, List.flatten_append, List.length_append]
        omega

theorem kept_front {p rest : Bytes} (hp : (0 : Byte) ∉ p) {reads : List Bytes} (h : reads.flatten = p ++ rest) :
    ∃ reads', reads'.flatten = rest ∧ kept reads = p ++ kept reads' := by
  induction p generalizing reads with
  | nil => exact ⟨reads, h, rfl⟩
  | cons c p ih =>
    obtain ⟨hc, hp'⟩ := List.ne_and_not_mem_of_not_mem_cons hp
    induction reads with
    | nil => simp at h
    | cons buf reads ihreads =>
      cases buf with
      | nil => exact ihreads h
      | cons d buf =>
        obtain ⟨rfl, htail⟩ := List.cons.inj h
        obtain ⟨reads', hflat, hkept⟩ := @ih hp' (buf :: reads) htail
        refine ⟨reads', hflat, ?_⟩
        simpa [kept, Ne.symm hc] using hkept

theorem receiveResponse_front {p rest received : Bytes} {ready unread : List (List Bytes)} (hp : (0 : Byte) ∉ p)
    (hn : newline ∉ p) (h : Splits (p ++ rest) ready) (hr : receiveResponse ready = some (received, unread)) :
    ∃ rest', received = p ++ rest' ∧ [newline, newline] <:+ received := by
  rw [receiveResponse_collect h] at hr
  obtain ⟨taken, hready, hreceived, hend⟩ := collect_some hr
  have hkept : received = kept taken.flatten := by
    rw [hreceived, List.nil_append, kept, List.flatMap_def, List.flatMap_def, List.map_flatten, List.flatten_flatten,
      List.map_map]
    rfl
  have hall := h.all
  rw [hready, List.flatten_append, List.flatten_append] at hall
  rcases List.append_eq_append_iff.mp hall with ⟨a, ha, -⟩ | ⟨a, ha, -⟩
  · -- the reader has stopped inside the front, where there is no newline to stop at
    have hnul : (0 : Byte) ∉ taken.flatten.flatten := fun hm => hp (ha ▸ List.mem_append_left _ hm)
    have hline : newline ∈ received := hend.mem (by simp)
    rw [hkept, kept_of_noNul hnul] at hline
    exact absurd (ha ▸ List.mem_append_left _ hline) hn
  · obtain ⟨reads', -, hfront⟩ := kept_front hp ha
    exact ⟨kept reads', hkept.trans hfront, hend⟩

end TDPService.Connection

namespace ResponseAnalyzer

variable {commandName iter iter' rest : Bytes} {c e : ConnectionError}

theorem getResponseHeader_code {code : ProtocolCode} (hrest : rest ≠ [])
    (h : getResponseHeader (decimal code.value ++ rest) commandName = .ok (c, iter')) : c = .ofCode code.value := by
  rw [getResponseHeader, getErrorCode, readCode_value code hrest] at h
  dsimp only at h
  split at h
  · cases h
  · rename_i c' iter'' heq
    split at heq
    · obtain ⟨rfl, rfl⟩ := Prod.mk.inj (Except.ok.inj heq)
      split at h
      · cases h
      · exact (Prod.mk.inj (Except.ok.inj h)).1.symm
    · cases heq

theorem code_ok {code : ProtocolCode} {body : Bytes} {expected : Bool} (hrest : rest ≠ [])
    (h : (analyseSimpleResponse commandName (decimal code.value ++ rest) body expected).code = .ok) : code = .ok := by
  have hcode : ConnectionError.ofCode code.value = .ok := by
    rw [analyseSimpleResponse] at h
    split at h
    · rename_i e he
      rw [getResponseHeader_error he] at h
      cases h
    · rename_i c iter hc
      rw [← getResponseHeader_code hrest hc]
      split at h
      · rename_i hok
        exact hok.1
      · split at h
        · exact h
        · cases h
  cases code with
  | ok => rfl
  | _ => exact absurd hcode (by decide)

end ResponseAnalyzer

section Server

variable {srv : ServerContext} {around : Surroundings} {fs : FileSystem} {s : Session} {cur : Path} {name b : Bytes}
  {size : Nat} {retry : Bool}

open TDPService (Call)

/-- An error that the client is told of is not told with the code of success. -/
def Exception.Refuses : Exception → Prop
  | .protocol e => e.code ≠ .ok
  | .fatal => True

theorem parseExistingName_meets_name (fs : FileSystem) (c : ClientContext) (name : Bytes) :
    Meets Exception.Refuses (· = ⟨name⟩) (parseExistingName fs c none (Call.textField "name" name)) := by
  have hvalue : (Call.textField "name" name).getString = some name := rfl
  refine Meets.bind (P := (· = ⟨name⟩)) ?_ ?_
  · simp only [parseNameField, Option.isSome_none, Bool.false_eq_true, if_false, hvalue]
    split
    · simp [refuseWith, protocolError, Exception.Refuses]
    · rfl
  · rintro p rfl
    refine Meets.bind (P := fun _ => True) ?_ ?_
    · unfold getCurrentPath
      split <;> trivial
    · intro cur _
      cases hx : fs.fsExists (cur / ⟨name⟩) with
      | error e =>
        obtain ⟨-, rfl⟩ := FileSystem.fsExists_eq_error.mp hx
        trivial
      | ok found =>
        change Meets _ _ (if _ then _ else _)
        split
        · simp [refuseWith, protocolError, Exception.Refuses]
        · rfl

/-- The name field decides; the field with the size of the local file is none that `dl` reads. -/
theorem Dl.parseFields_request (fs : FileSystem) (c : ClientContext) (name : Bytes) (size : Nat) (retry : Bool) :
    Dl.parseFields fs c (Call.dl name size retry).request.fields =
      (parseExistingName fs c none (Call.textField "name" name)).map (fun p => .dl p 0) := by
  have hname : (Call.textField "name" name).name = ascii "name" := rfl
  have hsize : ascii "size" ≠ ascii "name" ∧ ascii "size" ≠ ascii "offset" := by decide
  rw [Dl.parseFields]
  cases hp : parseExistingName fs c none (Call.textField "name" name) with
  | error e => simp [Call.request, hname, hp, bind, Except.bind, Except.map]
  | ok p => cases retry <;> simp [Call.request, hname, hp, hsize, require, bind, Except.bind, pure, Except.pure, Except.map]

theorem ServerContext.downloadFile_refuses (srv : ServerContext) (fs : FileSystem) (path : Path) :
    Meets Exception.Refuses (fun _ => True) (srv.downloadFile fs path) := by
  unfold ServerContext.downloadFile
  split
  · split
    · trivial
    · simp [refuseWith, protocolError, Exception.Refuses]
  · trivial

theorem Dl.execute_refuses {w w' : World} {p : Path} {offset : Nat} {e : Exception}
    (h : Dl.execute srv w p offset = (w', .error e)) : e.Refuses := by
  unfold Dl.execute at h
  split at h
  · cases h
    trivial
  · rename_i cur _
    have hfile := srv.downloadFile_refuses w.fs (cur / p)
    split at h
    · rename_i e' he
      cases h
      rwa [he] at hfile
    · split at h
      · cases h
      · cases h
        simp [refuseWith, protocolError, Exception.Refuses]

/-- A positive answer to the request of a download: `dl` has accepted the file from its start. -/
theorem acceptsDl_of_answer {a : Answer} (hcur : s.context.currentPathLock = some cur)
    (hb : fs.readFile (cur / ⟨name⟩) = some b)
    (ha : (s.executeCommand srv around fs (Call.dl name size retry).request).answer = some a) (hok : a.code = .ok) :
    Session.AcceptsDl srv fs s (Call.dl name size retry).request b 0 := by
  have hrefused : ∀ {fs' s' e}, e.Refuses →
      (Session.refused fs' s' (Call.dl name size retry).request e).answer ≠ some a := by
    intro fs' s' e he hh
    obtain ⟨e', rfl, hcode⟩ := Session.refused_code hh
    exact he (hcode ▸ hok)
  cases hset : CommandExecutor.setCommand s.context (Call.dl name size retry).request.name with
  | error e =>
    rw [Session.executeCommand_stopped hset] at ha
    refine absurd ha (hrefused ?_)
    cases e with
    | protocol e => exact CommandExecutor.setCommand_error hset
    | fatal => trivial
  | ok n =>
    obtain rfl : n = .dl := by
      have hn : ascii "dl" = n.toBytes := (CommandExecutor.setCommand_ok hset).1
      cases n <;> first | rfl | exact absurd hn (by decide)
    refine ⟨hset, cur, ⟨name⟩, ?_⟩
    have hmeets := parseExistingName_meets_name fs s.context name
    have hparse := Dl.parseFields_request fs s.context name size retry
    cases hp : parseExistingName fs s.context none (Call.textField "name" name) with
    | error e =>
      rw [hp] at hparse hmeets
      rw [Session.executeCommand_unparsed hset hparse] at ha
      exact absurd ha (hrefused hmeets)
    | ok p =>
      rw [hp] at hparse hmeets
      obtain rfl : p = ⟨name⟩ := hmeets
      rcases hx : Dl.execute srv ⟨fs, s.context⟩ ⟨name⟩ 0 with ⟨w, e | lines⟩
      · rw [Session.executeCommand_throws hset hparse hx] at ha
        exact absurd ha (hrefused (Dl.execute_refuses hx))
      · exact ⟨w, lines, hcur, hb, hparse, rfl⟩

end Server

namespace TDPService

open TDPService.Connection

/-- `std::stoul` to the base ten; nothing where it throws. -/
def stoul (text : Bytes) : Option Nat :=
  let text := text.dropWhile isSpace
  let signed := text.head? = some 43 ∨ text.head? = some 45
  let digits := (if signed then text.tail else text).takeWhile isDigit
  if digits = [] ∨ digitsValue digits ≥ 2 ^ 64 then none
  else some (if text.head? = some 45 then (2 ^ 64 - digitsValue digits) % 2 ^ 64 else digitsValue digits)

/-- The local file when `dl` has opened it. One that is retried has to exist and is appended to, any
other one is truncated, so that in both cases what is written goes behind what it holds. -/
def openForDownload (retry : Bool) (file : Option Bytes) : Option Bytes := if retry then file else some []

/-- The local file when `dl` reports success. `body` is what an earlier response has left, `first`
and `second` are the reads of the two exchanges. -/
def dl (name : Bytes) (retry : Bool) (file : Option Bytes) (body : Bytes) (first second : List (List Bytes)) :
    Option Bytes := do
  let opened ← openForDownload retry file
  let _ ← (Call.dl name opened.length retry).lastSentCommand
  let (received, unread) ← receiveResponse first
  let analysis := ResponseAnalyzer.analyseSimpleResponse (ascii "dl") received body true
  if analysis.code = .ok then
    let bytesToRead ← stoul analysis.responseBody
    let (r, _) ← exchangeWithServer true ⟨[], opened, bytesToRead⟩ (unread ++ second)
    some r.file
  else none

/-- What the server does when the bytes of one request have arrived. The interpreter is as new
whenever it has delivered a request. -/
def served (srv : ServerContext) (around : Surroundings) (fs : FileSystem) (s : Session) (chunks : List Bytes) :
    Option Executed :=
  match (drive fresh chunks).2 with
  | [(.request r, _)] => some (s.executeCommand srv around fs r)
  | _ => none

/-- What it writes then, an answer or a file, when the socket takes up to these many bytes in turn. -/
def written (rooms : List Nat) (done : Executed) : Bytes :=
  done.answer.elim [] (·.response.data) ++ if done.fatal then [] else (Session.transfer done.fs rooms done.session).2

/-- A call of `dl` with the local file opened, and a server that executes its two requests: the
bytes of each party reach the other in pieces. -/
structure DlRun (srv : ServerContext) (fs : FileSystem) (s : Session) (name opened : Bytes) (retry : Bool) where
  around : Surroundings
  around' : Surroundings
  chunks : List Bytes
  chunks' : List Bytes
  rooms : List Nat
  first : List (List Bytes)
  second : List (List Bytes)
  asks : (Call.dl name opened.length retry).lastSentCommand = some chunks.flatten
  starts : Call.downloadFileData.lastSentCommand = some chunks'.flatten
  replies : Splits ((served srv around fs s chunks).elim [] (written [])) first
  sends : Splits ((served srv around fs s chunks).elim [] fun asked =>
    (served srv around' asked.fs asked.session chunks').elim [] (written rooms)) second

variable {srv : ServerContext} {fs : FileSystem} {s : Session} {cur : Path} {name opened file file' b body : Bytes}
  {retry : Bool} {k : Nat}

theorem stoul_decimal {n : Nat} (hn : n < 2 ^ 64) {rest : Bytes} : stoul (decimal n ++ newline :: rest) = some n := by
  obtain ⟨c, d, hd⟩ := List.exists_cons_of_ne_nil (decimal_ne_nil n)
  have hc : isDigit c = true := isDigit_of_mem_decimal (hd ▸ List.mem_cons_self)
  have hspace : isSpace c = false := not_isSpace_of_isDigit hc
  have hfront : (decimal n ++ newline :: rest).dropWhile isSpace = decimal n ++ newline :: rest := by
    rw [hd, List.cons_append, List.dropWhile_cons_of_neg (by simp [hspace])]
  have hhead : (decimal n ++ newline :: rest).head? = some c := by rw [hd, List.cons_append, List.head?_cons]
  have hdigits : (decimal n ++ newline :: rest).takeWhile isDigit = decimal n := by
    rw [List.takeWhile_append_of_pos (fun c hc => isDigit_of_mem_decimal hc),
      List.takeWhile_cons_of_neg (by decide), List.append_nil]
  have hplus : ¬ some c = some 43 := by
    rintro ⟨⟩
    exact absurd hc (by decide)
  have hminus : ¬ some c = some 45 := by
    rintro ⟨⟩
    exact absurd hc (by decide)
  have hfits : ¬ (decimal n = [] ∨ n ≥ 2 ^ 64) := by
    rintro (hnil | hge)
    · exact decimal_ne_nil n hnil
    · omega
  simp only [stoul, hfront, hhead, hplus, hminus, or_self, if_false, hdigits, digitsValue_decimal, hfits]

theorem served_request (call : Call) (hc : call.Proper) {chunks : List Bytes}
    (h : call.lastSentCommand = some chunks.flatten) (srv : ServerContext) (around : Surroundings) (fs : FileSystem)
    (s : Session) : served srv around fs s chunks = some (s.executeCommand srv around fs call.request) := by
  obtain ⟨t, htext, hdeliver⟩ := Call.lastSentCommand_text hc h
  rw [served, drive_text hdeliver htext]

theorem Connection.Splits.nil {ready : List (List Bytes)} (h : Splits [] ready) : ready = [] := by
  cases ready with
  | nil => rfl
  | cons reads later =>
    have hall := h.all
    obtain ⟨buf, reads, rfl⟩ := List.exists_cons_of_ne_nil (h.some reads (by simp))
    simp only [List.flatten_cons, List.flatten_append, List.append_eq_nil_iff, List.append_assoc] at hall
    exact absurd hall.1 (h.fits (buf :: reads) (by simp) buf (by simp)).1

theorem answered_ok {done : Executed} {first unread : List (List Bytes)} {received commandName : Bytes}
    (hs : Splits (written [] done) first) (hr : receiveResponse first = some (received, unread))
    (hok : (ResponseAnalyzer.analyseSimpleResponse commandName received body true).code = .ok) :
    ∃ a, done.answer = some a ∧ a.code = .ok := by
  have hwritten : written [] done = done.answer.elim [] (·.response.data) := by simp [written, Session.transfer]
  rw [hwritten] at hs
  cases ha : done.answer with
  | none =>
    rw [ha] at hs
    rw [hs.nil] at hr
    cases hr
  | some a =>
    have hdata : a.response.data = decimal a.code.value ++ (ascii " " ++ a.commandName ++ [newline] ++
        a.lines.flatMap (· ++ [newline]) ++ [newline]) := by simp [Answer.response, buildResponse]
    rw [ha, Option.elim_some, hdata] at hs
    have hline : newline ∉ decimal a.code.value := notMem_decimal (by decide)
    obtain ⟨rest, rfl, hend⟩ := receiveResponse_front (notMem_decimal (by decide)) hline hs hr
    have hrest : rest ≠ [] := by
      rintro rfl
      rw [List.append_nil] at hend
      exact hline (hend.mem (by simp))
    exact ⟨a, rfl, ResponseAnalyzer.code_ok hrest hok⟩

theorem received_count (body : Bytes) {n : Nat} (hn : n < 2 ^ 64) {first unread : List (List Bytes)} {received : Bytes}
    (hs : Splits (buildResponse .ok (ascii "dl") [decimal n]).data first)
    (hr : receiveResponse first = some (received, unread)) :
    unread = [] ∧ stoul (ResponseAnalyzer.analyseSimpleResponse (ascii "dl") received body true).responseBody = some n := by
  have hnewline : newline ∉ decimal n := notMem_decimal (by decide)
  have hself : SelfDelimiting (buildResponse .ok (ascii "dl") [decimal n]).data := by
    refine (selfDelimiting_response_iff (by decide) (by simpa using hnewline)).mpr ⟨by decide, ?_⟩
    simpa using ⟨decimal_ne_nil n, (notMem_decimal (by decide) : (0 : Byte) ∉ decimal n)⟩
  obtain ⟨rfl, rfl⟩ := Prod.mk.inj (Option.some.inj (hr.symm.trans (hself.console first hs)))
  have hanalysis := (ResponseAnalyzer.analyseSimpleResponse_line (by decide) (ascii "dl") body
    ⟨decimal_ne_nil n, hnewline⟩ (fun _ => rfl) : _ ∧ (ResponseAnalyzer.analyseSimpleResponse (ascii "dl")
      (buildResponse .ok (ascii "dl") [decimal n]).data body true).responseBody = _)
  rw [hanalysis.2, List.append_assoc]
  exact ⟨rfl, stoul_decimal hn⟩

theorem sent_prefix (around around' : Surroundings) {r : Request} (hc : s.Coherent) (hm : s.context.mode = .command)
    (h : Session.AcceptsDl srv fs s r b 0) (rooms : List Nat) :
    written rooms ((s.executeCommand srv around fs r).session.executeCommand srv around' fs
      Call.downloadFileData.request) <+: b := by
  obtain ⟨path, s', hpath, -, -, hmgr, -, hfs, hanswer, hs⟩ :=
    @Session.AcceptsDl.started srv around around' fs s r b 0 h hm []
  have hsent : (Session.transfer fs rooms s').2 <+: b := by
    by_cases hzero : b.length = 0
    · have hnone : s'.downloadManager.token = none := by
        rw [hmgr, DownloadManager.startDownload, if_neg (by simp [hzero])]
        exact hc.noDownload (by simp [hm])
      rw [Session.transfer_nothing rooms hnone]
      exact List.nil_prefix
    · obtain ⟨i, hi, hstart⟩ := Session.startDownload_of_readFile s.downloadManager hpath (by omega) 0
      have hsent := @Session.transfer_prefix fs rooms s'
      rw [hmgr, hstart] at hsent
      simpa only [DownloadManager.content, hi, List.drop_zero] using hsent
  rw [written, show Call.downloadFileData.request = ⟨ascii "dls", []⟩ from rfl, hanswer, hs, hfs, Option.elim_none,
    List.nil_append]
  split
  · exact List.nil_prefix
  · exact hsent

/-- Every download that reports success has the whole file appended to what the local file holds. -/
theorem DlRun.appends (run : DlRun srv fs s name opened retry) (hc : s.Coherent) (hm : s.context.mode = .command)
    (hcur : s.context.currentPathLock = some cur) (hb : fs.readFile (cur / ⟨name⟩) = some b)
    (hlen : b.length < 2 ^ 64) (hname : newline ∉ name) (hopened : opened.length < 2 ^ 64)
    (ho : openForDownload retry file = some opened)
    (h : dl name retry file body run.first run.second = some file') :
    file' = opened ++ b ∧ ∃ asked path, served srv run.around fs s run.chunks = some asked ∧
      asked.session.context.downloadToken = some ⟨path, b.length, 0⟩ ∧
      asked.answer = some ⟨.ok, ascii "dl", [decimal b.length]⟩ := by
  have hasked := served_request (.dl name opened.length retry) ⟨hname, hopened⟩ run.asks srv run.around fs s
  have hreplies := run.replies
  have hsends := run.sends
  rw [hasked, Option.elim_some] at hreplies hsends
  obtain ⟨received, unread, hreceived, hok, count, hcount, r, unread', hexchange, rfl⟩ :
      ∃ received unread, receiveResponse run.first = some (received, unread) ∧
        (ResponseAnalyzer.analyseSimpleResponse (ascii "dl") received body true).code = .ok ∧
        ∃ count, stoul (ResponseAnalyzer.analyseSimpleResponse (ascii "dl") received body true).responseBody = some count ∧
        ∃ r unread', exchangeWithServer true ⟨[], opened, count⟩ (unread ++ run.second) = some (r, unread') ∧
          file' = r.file := by
    simp only [dl, ho, Option.bind_eq_bind, Option.bind_some, Option.bind_eq_some_iff, Prod.exists] at h
    obtain ⟨-, -, received, unread, hreceived, h⟩ := h
    split at h
    · rename_i hok
      obtain ⟨count, hcount, h⟩ := Option.bind_eq_some_iff.mp h
      obtain ⟨⟨r, unread'⟩, hexchange, hfile⟩ := Option.bind_eq_some_iff.mp h
      exact ⟨received, unread, hreceived, hok, count, hcount, r, unread', hexchange, (Option.some.inj hfile).symm⟩
    · cases h
  obtain ⟨a, ha, haok⟩ := answered_ok hreplies hreceived hok
  have haccepts := acceptsDl_of_answer hcur hb ha haok
  obtain ⟨-, path, -, hdone⟩ := @Session.AcceptsDl.executed srv run.around fs s _ b 0 haccepts hm
  have hprefix := sent_prefix run.around run.around' hc hm haccepts run.rooms
  rw [hdone] at hreplies hsends hprefix
  have hstarted := served_request .downloadFileData trivial run.starts srv run.around' fs
    (s.withContext { s.context with downloadToken := some ⟨path, b.length, 0⟩ })
  rw [hstarted, Option.elim_some] at hsends
  have hanswer : written [] ⟨fs, s.withContext { s.context with downloadToken := some ⟨path, b.length, 0⟩ },
      some ⟨.ok, ascii "dl", [decimal (b.length - 0)]⟩, false⟩ =
        (buildResponse .ok (ascii "dl") [decimal b.length]).data := by
    simp [written, Session.transfer, Answer.response]
  obtain ⟨rfl, hexpected⟩ := received_count body hlen (hanswer ▸ hreplies) hreceived
  obtain rfl : b.length = count := Option.some.inj (hexpected.symm.trans hcount)
  refine ⟨?_, _, path, hasked.trans (congrArg some hdone), rfl, rfl⟩
  rw [List.nil_append] at hexchange
  obtain ⟨taken, htaken, hfile, hmod⟩ := exchangeWithServer_file (fun reads hr buf hbuf =>
    (hsends.fits reads hr buf hbuf).2.trans (by decide)) hexchange
  have hread : taken.flatten.flatten <+: b := by
    refine List.IsPrefix.trans ⟨unread'.flatten.flatten, ?_⟩ hprefix
    rw [← List.flatten_append, ← List.flatten_append, ← htaken, hsends.all]
  have hle := hread.length_le
  rw [hfile, hread.eq_of_length (by dsimp only at hmod; omega)]

/-- A retried download of `b` with its first `k` bytes in the local file: `dl` starts at the offset
`k` and announces the rest, the rest is appended, and the local file is the whole file then. -/
structure DlRun.Resumes (run : DlRun srv fs s name (b.take k) true) (file' : Bytes) : Prop where
  started : ∃ asked path, served srv run.around fs s run.chunks = some asked ∧
    asked.session.context.downloadToken = some ⟨path, b.length, k⟩ ∧
    asked.answer = some ⟨.ok, ascii "dl", [decimal (b.length - k)]⟩
  appended : file' = b.take k ++ b.drop k
  whole : file' = b

/-- A retried download that reports success is resumed only when there is nothing to resume. -/
theorem DlRun.resumes_iff (run : DlRun srv fs s name (b.take k) true) (hc : s.Coherent)
    (hm : s.context.mode = .command) (hcur : s.context.currentPathLock = some cur)
    (hb : fs.readFile (cur / ⟨name⟩) = some b) (hlen : b.length < 2 ^ 64) (hname : newline ∉ name) (hk : k ≤ b.length)
    (h : dl name true (some (b.take k)) body run.first run.second = some file') :
    run.Resumes file' ↔ k = 0 := by
  have htake : (b.take k).length = k := List.length_take_of_le hk
  have hopened : (b.take k).length < 2 ^ 64 := by omega
  obtain ⟨rfl, asked, path, hserved, htoken, hanswer⟩ := run.appends hc hm hcur hb hlen hname hopened rfl h
  constructor
  · intro hr
    have hwhole := congrArg List.length hr.whole
    rw [List.length_append, htake] at hwhole
    omega
  · rintro rfl
    exact ⟨⟨asked, path, hserved, htoken, hanswer⟩, rfl, rfl⟩

end TDPService

namespace Sample

open TDPService

/-- The first `k` bytes of a file with three bytes are here already. -/
def retried (k : Nat) (hk : k < 4) :
    DlRun server threeBytes session (ascii "x") ((ascii "abc").take k) true where
  around := around
  around' := around
  chunks := [ascii "dl\nname:'x", ascii "'\nsize:" ++ decimal k ++ ascii "\n\n"]
  chunks' := [ascii "dls\n\n"]
  rooms := [1, 5]
  first := [[ascii "100 d"], [ascii "l\n3\n", ascii "\n"]]
  second := [[ascii "ab"], [ascii "c"]]
  asks := by
    revert k
    decide
  starts := by decide
  replies := by
    refine ⟨by decide, by decide, ?_⟩
    revert k
    decide +kernel
  sends := by
    refine ⟨by decide, by decide, ?_⟩
    revert k
    decide +kernel

end Sample

namespace TDPService

theorem DlRun.resumes_iff_nothing :
    Sample.session.Coherent ∧ dl (ascii "x") true (some []) [] (Sample.retried 0 (by decide)).first
      (Sample.retried 0 (by decide)).second = some (ascii "abc") ∧
    (DlRun.Resumes (b := ascii "abc") (Sample.retried 0 (by decide)) (ascii "abc") ↔ 0 = 0) := by
  have hc : Sample.session.Coherent := by constructor <;> decide
  have hcur : Sample.session.context.currentPathLock = some ⟨ascii "/r"⟩ := rfl
  have h : dl (ascii "x") true (some []) [] (Sample.retried 0 (by decide)).first
    (Sample.retried 0 (by decide)).second = some (ascii "abc") := by decide +kernel
  exact ⟨hc, h, DlRun.resumes_iff (b := ascii "abc") (Sample.retried 0 (by decide)) hc rfl hcur (by decide) (by decide)
    (by decide) (by decide) h⟩

/-- With one byte of three here, the request names a size, the server starts at the first byte and
the local file ends up with four. -/
theorem dl_retry_repeats :
    dl (ascii "x") true (some (ascii "a")) [] (Sample.retried 1 (by decide)).first
      (Sample.retried 1 (by decide)).second = some (ascii "aabc") ∧
    ¬ DlRun.Resumes (b := ascii "abc") (Sample.retried 1 (by decide)) (ascii "aabc") := by
  refine ⟨by decide +kernel, fun h => ?_⟩
  exact absurd h.whole (by decide)

end TDPService

end TinDox
