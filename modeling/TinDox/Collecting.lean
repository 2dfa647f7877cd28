import TinDox.Console
import TinDox.Delimited

/-! How the two clients collect a response. Both go on until what they have ends in an empty line:
the console client asks whenever its socket has no more to read, the desktop client after each
read. The console client appends what it reads as a C string. -/

namespace TinDox

open Delimited

namespace TDPService.Connection

/-- What `exchangeWithServer` works on: the collected text, the local file, and the count of the
bytes of the file that are still expected. -/
structure Reception where
  message : Bytes
  file : Bytes
  bytesToRead : Nat
  deriving DecidableEq

/-- What one read does. The count is unsigned. -/
def Reception.take (readFile : Bool) (r : Reception) (buf : Bytes) : Reception :=
  { message := r.message ++ buf.takeWhile (· ≠ 0)
    file := if readFile then r.file ++ buf else r.file
    bytesToRead := if readFile then (r.bytesToRead + (2 ^ 64 - buf.length)) % 2 ^ 64 else r.bytesToRead }

/-- The reads until the socket has no more, with `gotWholeResponse`; nothing when one of them
reports the end of the stream, which closes the connection. -/
def receiveAllReadyFromServer (readFile : Bool) (r : Reception) (reads : List Bytes) : Option (Reception × Bool) :=
  if [] ∈ reads then none
  else
    let r := reads.foldl (Reception.take readFile) r
    some (r, if readFile then r.bytesToRead = 0 else [newline, newline] <:+ r.message)

/-- The receiving part of `exchangeWithServer`, one element for each time the socket is ready. It
returns with what was ready later not read, and does not return when nothing more comes. -/
def exchangeWithServer (readFile : Bool) : Reception → List (List Bytes) → Option (Reception × List (List Bytes))
  | _, [] => none
  | r, reads :: later =>
    match receiveAllReadyFromServer readFile r reads with
    | none => none
    | some (r, true) => some (r, later)
    | some (r, false) => exchangeWithServer readFile r later

/-- A response: `data` has been cleared when it begins. -/
def receiveResponse (ready : List (List Bytes)) : Option (Bytes × List (List Bytes)) :=
  (exchangeWithServer false ⟨[], [], 0⟩ ready).map (fun e => (e.1.message, e.2))

/-- The ways in which bytes can be read: every time the socket is ready there is at least one read,
and a read is not longer than the buffer. -/
structure Splits (data : Bytes) (ready : List (List Bytes)) : Prop where
  some : ∀ reads ∈ ready, reads ≠ []
  fits : ∀ reads ∈ ready, ∀ buf ∈ reads, buf ≠ [] ∧ buf.length ≤ bufMaxSize - 1
  all : ready.flatten.flatten = data

def kept (reads : List Bytes) : Bytes := reads.flatMap (·.takeWhile (· ≠ 0))

theorem foldl_take (reads : List Bytes) (r : Reception) :
    reads.foldl (Reception.take false) r = { r with message := r.message ++ kept reads } := by
  induction reads generalizing r with
  | nil => simp [kept]
  | cons buf reads ih => simp [ih, Reception.take, kept]

theorem exchangeWithServer_collect {ready : List (List Bytes)} (h : ∀ reads ∈ ready, [] ∉ reads) (r : Reception) :
    exchangeWithServer false r ready =
      (collect newline kept r.message ready).map (fun e => ({ r with message := e.1 }, e.2)) := by
  induction ready generalizing r with
  | nil => rfl
  | cons reads later ih =>
    have hlater := ih (fun reads hr => h reads (by simp [hr])) { r with message := r.message ++ kept reads }
    rw [exchangeWithServer, receiveAllReadyFromServer, if_neg (h reads (by simp)), foldl_take, collect]
    by_cases hstop : [newline, newline] <:+ r.message ++ kept reads
    · simp [hstop]
    · simp only [hstop, Bool.false_eq_true, if_false, decide_false]
      exact hlater

theorem receiveResponse_collect {data : Bytes} {ready : List (List Bytes)} (h : Splits data ready) :
    receiveResponse ready = collect newline kept [] ready := by
  have hopen : ∀ reads ∈ ready, [] ∉ reads := fun reads hr hnil => (h.fits reads hr [] hnil).1 rfl
  rw [receiveResponse, exchangeWithServer_collect hopen, Option.map_map]
  exact Option.map_id'

end TDPService.Connection

namespace Desktop.ResponseAnalyzer

def isMessageComplete (receivedResponse : Bytes) : Bool := [newline, newline] <:+ receivedResponse

/-- `analyze`, read by read, up to the first message that is complete. -/
def analyze : Bytes → List Bytes → Option (Bytes × List Bytes)
  | _, [] => none
  | receivedResponse, response :: later =>
    if isMessageComplete (receivedResponse ++ response) then some (receivedResponse ++ response, later)
    else analyze (receivedResponse ++ response) later

theorem analyze_collect (received : Bytes) (reads : List Bytes) :
    analyze received reads = collect newline id received reads := by
  induction reads generalizing received with
  | nil => rfl
  | cons response later ih => simp [analyze, collect, isMessageComplete, ih]

end Desktop.ResponseAnalyzer

open TDPService.Connection

/-- Two newlines in a row are nowhere but at the end, and each client has collected exactly the
response when it stops, however its bytes are split into reads. -/
structure SelfDelimiting (data : Bytes) : Prop where
  onlyAtEnd : OnlyAtEnd newline data
  console : ∀ ready, Splits data ready → receiveResponse ready = some (data, [])
  desktop : ∀ reads, (∀ buf ∈ reads, buf ≠ []) → reads.flatten = data →
    Desktop.ResponseAnalyzer.analyze [] reads = some (data, [])

theorem kept_of_noNul {reads : List Bytes} (h : (0 : Byte) ∉ reads.flatten) : kept reads = reads.flatten := by
  induction reads with
  | nil => rfl
  | cons buf reads ih =>
    simp only [List.flatten_cons, List.mem_append, not_or] at h
    have hbuf : buf.takeWhile (· ≠ 0) = buf := by
      rw [List.takeWhile_eq_self_iff]
      intro c hc
      simpa using fun hzero : c = 0 => h.1 (hzero ▸ hc)
    have hrest := ih h.2
    simp only [kept, List.flatMap_cons, List.flatten_cons] at hrest ⊢
    rw [hrest, hbuf]

theorem kept_singles (data : Bytes) : kept (data.map ([·])) = data.filter (· ≠ 0) := by
  induction data with
  | nil => rfl
  | cons c data ih =>
    simp only [kept, List.map_cons, List.flatMap_cons] at ih ⊢
    rw [ih]
    by_cases hc : c = 0
    · simp [hc]
    · simp [hc]

theorem splits_singles {data : Bytes} (h : data ≠ []) : Splits data [data.map ([·])] where
  some reads hr := by
    rw [List.mem_singleton.mp hr]
    simpa using h
  fits reads hr buf hb := by
    rw [List.mem_singleton.mp hr] at hb
    obtain ⟨c, -, rfl⟩ := List.mem_map.mp hb
    exact ⟨by simp, by simp [TDPService.bufMaxSize]⟩
  all := by simp [← List.flatMap_def]

/-- A text that ends in an empty line delimits itself exactly when it has no other empty line and
no NUL. -/
theorem selfDelimiting_iff {data : Bytes} (hend : [newline, newline] <:+ data) :
    SelfDelimiting data ↔ OnlyAtEnd newline data ∧ (0 : Byte) ∉ data := by
  have hdata : data ≠ [] := by
    rintro rfl
    simp at hend
  constructor
  · intro h
    refine ⟨h.onlyAtEnd, fun hnul => ?_⟩
    have hcollect := h.console _ (splits_singles hdata)
    rw [receiveResponse_collect (splits_singles hdata), collect, kept_singles] at hcollect
    split at hcollect
    · simp only [List.nil_append, Option.some.injEq, Prod.mk.injEq, and_true] at hcollect
      rw [← hcollect] at hnul
      simp at hnul
    · simp [collect] at hcollect
  · rintro ⟨honly, hnul⟩
    refine ⟨honly, fun ready hs => ?_, fun reads hne hall => ?_⟩
    · have hready : ready ≠ [] := by
        rintro rfl
        exact hdata hs.all.symm
      have hkept : ∀ reads ∈ ready, kept reads = reads.flatten := by
        intro reads hr
        apply kept_of_noNul
        intro hzero
        rw [← hs.all] at hnul
        obtain ⟨buf, hb, hzero⟩ := List.mem_flatten.mp hzero
        exact hnul (List.mem_flatten.mpr ⟨buf, List.mem_flatten.mpr ⟨reads, hr, hb⟩, hzero⟩)
      have hsome : ∀ reads ∈ ready, kept reads ≠ [] := by
        intro reads hr hnil
        obtain ⟨buf, later, rfl⟩ := List.exists_cons_of_ne_nil (hs.some reads hr)
        rw [hkept _ hr, List.flatten_cons, List.append_eq_nil_iff] at hnil
        exact (hs.fits _ hr buf (by simp)).1 hnil.1
      rw [receiveResponse_collect hs]
      refine collect_eq hend honly hsome ?_ hready
      rw [List.nil_append, List.flatMap_congr hkept, ← hs.all, List.flatten_flatten, List.flatMap_def]
    · have hreads : reads ≠ [] := by
        rintro rfl
        exact hdata hall.symm
      rw [Desktop.ResponseAnalyzer.analyze_collect]
      exact collect_eq hend honly hne (by simp [hall]) hreads

theorem buildResponse_encode (code : ProtocolCode) (commandName : Bytes) (lines : List Bytes) :
    (buildResponse code commandName lines).data =
      encode newline ((decimal code.value ++ ascii " " ++ commandName) :: lines) := by
  simp [buildResponse, encode]

theorem notMem_decimal {n : Nat} {c : Byte} (hc : isDigit c = false) : c ∉ decimal n := by
  intro hm
  rw [isDigit_of_mem_decimal hm] at hc
  cases hc

/-- A response delimits itself exactly when none of its lines is empty and nothing of it has a NUL. -/
theorem selfDelimiting_response_iff {code : ProtocolCode} {commandName : Bytes} {lines : List Bytes}
    (hname : newline ∉ commandName) (hlines : ∀ l ∈ lines, newline ∉ l) :
    SelfDelimiting (buildResponse code commandName lines).data ↔
      (0 : Byte) ∉ commandName ∧ ∀ l ∈ lines, l ≠ [] ∧ (0 : Byte) ∉ l := by
  have hhead : newline ∉ decimal code.value ++ ascii " " ++ commandName := by
    simp only [List.mem_append, not_or]
    exact ⟨⟨notMem_decimal (by decide), by decide⟩, hname⟩
  have hnul : (0 : Byte) ∉ encode newline ((decimal code.value ++ ascii " " ++ commandName) :: lines) ↔
      (0 : Byte) ∉ commandName ∧ ∀ l ∈ lines, (0 : Byte) ∉ l := by
    have hdigits : (0 : Byte) ∉ decimal code.value := notMem_decimal (by decide)
    have hblank : (0 : Byte) ∉ ascii " " := by decide
    have hzero : (0 : Byte) ≠ newline := by decide
    simp [encode, hdigits, hblank, hzero]
  rw [buildResponse_encode, selfDelimiting_iff (suffix_encode _ _), onlyAtEnd_encode_iff (by simp [decimal_ne_nil]), hnul]
  · constructor
    · rintro ⟨hne, hn, hl⟩
      exact ⟨hn, fun l hm => ⟨hne l hm, hl l hm⟩⟩
    · rintro ⟨hn, hl⟩
      exact ⟨fun l hm => (hl l hm).1, hn, fun l hm => (hl l hm).2⟩
  · intro c hc
    rcases List.mem_cons.mp hc with rfl | hc
    · exact hhead
    · exact hlines c hc

end TinDox
