import TinDox.MachineInt
import TinDox.Protocol

/-! `ConfigReader`: the integers of the section `[server]` and the setters that they go through. A
setter takes a narrower type than the file has, and what it checks is the converted value. -/

namespace TinDox

open MachineInt

def integerText (n : Int) : Bytes := if n < 0 then ascii "-" ++ decimal n.natAbs else decimal n.natAbs

structure ServerConfig where
  maxThreadCount : Int
  maxUserCount : Int
  backlog : Int
  port : Int
  uploadMaxSize : Int
  deriving DecidableEq

namespace ServerConfig

/-- The default constructor, on a machine with so many threads. -/
def defaults (hardwareConcurrency : Int) : ServerConfig where
  maxThreadCount := hardwareConcurrency
  maxUserCount := 5 * hardwareConcurrency
  backlog := 32
  port := 37666
  uploadMaxSize := 2 ^ 31 - 1

variable (c : ServerConfig) (n : Int)

def setCount (label : Bytes) (set : Int → ServerConfig) : Except Bytes ServerConfig :=
  if n < 1 then .error (label ++ ascii " should be at least 1 (is " ++ integerText n ++ ascii ")") else .ok (set n)

def setMaxThreadCount : Except Bytes ServerConfig :=
  setCount n (ascii "Max thread count") fun n => { c with maxThreadCount := n }

def setMaxUserCount : Except Bytes ServerConfig :=
  setCount n (ascii "Max user count") fun n => { c with maxUserCount := n }

def setBacklog : Except Bytes ServerConfig := setCount n (ascii "Backlog") fun n => { c with backlog := n }

/-- A port is given by its number; `Port::invalid` has the number 0. -/
def setPort : Except Bytes ServerConfig :=
  if n = 0 then .error (integerText 0 ++ ascii " is not valid port") else .ok { c with port := n }

def setUploadMaxSize : ServerConfig := { c with uploadMaxSize := n }

end ServerConfig

namespace ConfigReader

inductive Key where
  | maxThreadCount
  | maxUserCount
  | backlog
  | port
  | uploadMaxSize
  deriving DecidableEq

def Key.name : Key → Bytes
  | maxThreadCount => ascii "max_thread_count"
  | maxUserCount => ascii "max_user_count"
  | backlog => ascii "backlog"
  | port => ascii "port"
  | uploadMaxSize => ascii "upload_max_size"

/-- A value of the file, converted to the type of the setter. -/
def setIntegerField (c : ServerConfig) (name : Bytes) (value : Int) : Except Bytes ServerConfig :=
  if name = Key.maxThreadCount.name then c.setMaxThreadCount (signed 32 value)
  else if name = Key.maxUserCount.name then c.setMaxUserCount (signed 32 value)
  else if name = Key.backlog.name then c.setBacklog (signed 32 value)
  else if name = Key.port.name then
    if ¬ (0 ≤ value ∧ value < 2 ^ 16) then
      .error (ascii "ConfigReader: invalid port value in config file (" ++ integerText value ++ ascii ")")
    else c.setPort (unsigned 16 value)
  else if name = Key.uploadMaxSize.name then .ok (c.setUploadMaxSize (unsigned 64 value))
  else .error (ascii "ConfigReader: " ++ name ++ ascii " is not valid integer field")

/-- What the document has under `server`; a value that is no integer is nothing. -/
inductive Section where
  | missing
  | table (entries : List (Bytes × Option Int))
  | other

def readField (c : ServerConfig) (entry : Bytes × Option Int) : Except Bytes ServerConfig :=
  match entry.2 with
  | some value => setIntegerField c entry.1 value
  | none => .error (ascii "ConfigReader: field '" ++ entry.1 ++ ascii "' is invalid")

def readConfig (hardwareConcurrency : Int) : Section → Except Bytes ServerConfig
  | .missing => .error (ascii "Section [server] does not exist in config file!")
  | .table entries => entries.foldlM readField (.defaults hardwareConcurrency)
  | .other => .ok (.defaults hardwareConcurrency)

/-- A table of integers, in any order. -/
structure IntegerTable where
  entries : List (Bytes × Int)
  keys : (entries.map Prod.fst).Nodup
  range : ∀ e ∈ entries, -2 ^ 63 ≤ e.2 ∧ e.2 < 2 ^ 63

def IntegerTable.toSection (t : IntegerTable) : Section := .table (t.entries.map fun e => (e.1, some e.2))

def field (c : ServerConfig) : Key → Int
  | .maxThreadCount => c.maxThreadCount
  | .maxUserCount => c.maxUserCount
  | .backlog => c.backlog
  | .port => c.port
  | .uploadMaxSize => c.uploadMaxSize

/-- Nothing is read, or every listed field has the value that the file gives it. -/
def FaceValue (hardwareConcurrency : Int) (t : IntegerTable) : Prop :=
  ∀ c, readConfig hardwareConcurrency t.toSection = .ok c →
    ∀ e ∈ t.entries, ∃ k : Key, e.1 = k.name ∧ field c k = e.2

/-- The values that are refused: a count that is not positive in its lower 32 bits, and no port. -/
def Key.Refuses (value : Int) : Key → Prop
  | maxThreadCount | maxUserCount | backlog => value % 2 ^ 32 = 0 ∨ 2 ^ 31 ≤ value % 2 ^ 32
  | port => ¬ (1 ≤ value ∧ value < 2 ^ 16)
  | uploadMaxSize => False

/-- The values that the type of the setter has. -/
def Key.Fits (value : Int) : Key → Prop
  | maxThreadCount | maxUserCount | backlog => value < 2 ^ 31 ∧ -2 ^ 31 ≤ value
  | port => 0 ≤ value ∧ value < 2 ^ 16
  | uploadMaxSize => 0 ≤ value

def Refused (e : Bytes × Int) : Prop := ∀ k : Key, e.1 = k.name → k.Refuses e.2

def Key.stored (value : Int) : Key → Int
  | maxThreadCount | maxUserCount | backlog => signed 32 value
  | port => value
  | uploadMaxSize => unsigned 64 value

theorem Key.name_injective {k j : Key} (h : k.name = j.name) : k = j := by
  cases k <;> cases j <;> first | rfl | exact absurd h (by decide)

theorem not_refuses_count (value : Int) (k : Key) (h : k = .maxThreadCount ∨ k = .maxUserCount ∨ k = .backlog) :
    ¬ k.Refuses value ↔ ¬ signed 32 value < 1 := by
  have hpos : 0 < signed (31 + 1) value ↔ 0 < value % 2 ^ (31 + 1) ∧ value % 2 ^ (31 + 1) < 2 ^ 31 := signed_pos_iff
  have hnonneg : 0 ≤ value % 2 ^ 32 := Int.emod_nonneg value (by decide)
  have hrefuses : k.Refuses value ↔ value % 2 ^ 32 = 0 ∨ 2 ^ 31 ≤ value % 2 ^ 32 := by
    rcases h with rfl | rfl | rfl <;> exact Iff.rfl
  rw [hrefuses]
  simp only [Nat.reduceAdd] at hpos
  omega

variable {c c' : ServerConfig} {value : Int} {entries : List (Bytes × Int)}

/-- A value is refused, or it is stored in its field and the others stay. -/
inductive Sets (c : ServerConfig) (k : Key) (value : Int) : Except Bytes ServerConfig → Prop
  | refused {message : Bytes} (h : k.Refuses value) : Sets c k value (.error message)
  | stored {c' : ServerConfig} (h : ¬ k.Refuses value) (hk : field c' k = k.stored value)
    (hj : ∀ j, j ≠ k → field c' j = field c j) : Sets c k value (.ok c')

theorem setCount_sets {k : Key} (hk : k = .maxThreadCount ∨ k = .maxUserCount ∨ k = .backlog) (label : Bytes)
    {set : Int → ServerConfig} (hset : ∀ n, field (set n) k = n) (hothers : ∀ n j, j ≠ k → field (set n) j = field c j) :
    Sets c k value (ServerConfig.setCount (signed 32 value) label set) := by
  have hiff := not_refuses_count value k hk
  have hstored : k.stored value = signed 32 value := by rcases hk with rfl | rfl | rfl <;> rfl
  unfold ServerConfig.setCount
  split
  · rename_i hlt
    exact .refused (not_not.mp fun hnot => hiff.mp hnot hlt)
  · rename_i hge
    exact .stored (hiff.mpr hge) ((hset _).trans hstored.symm) (hothers _)

theorem setIntegerField_sets (c : ServerConfig) (k : Key) (value : Int) : Sets c k value (setIntegerField c k.name value) := by
  have hfalse {a b : Key} (h : a ≠ b) : ¬ a.name = b.name := fun he => h (Key.name_injective he)
  cases k with
  | maxThreadCount =>
    rw [setIntegerField, if_pos rfl]
    exact setCount_sets (.inl rfl) _ (fun _ => rfl) (fun n j hj => by cases j <;> first | rfl | exact absurd rfl hj)
  | maxUserCount =>
    rw [setIntegerField, if_neg (hfalse (by decide)), if_pos rfl]
    exact setCount_sets (.inr (.inl rfl)) _ (fun _ => rfl) (fun n j hj => by cases j <;> first | rfl | exact absurd rfl hj)
  | backlog =>
    rw [setIntegerField, if_neg (hfalse (by decide)), if_neg (hfalse (by decide)), if_pos rfl]
    exact setCount_sets (.inr (.inr rfl)) _ (fun _ => rfl) (fun n j hj => by cases j <;> first | rfl | exact absurd rfl hj)
  | port =>
    rw [setIntegerField, if_neg (hfalse (by decide)), if_neg (hfalse (by decide)), if_neg (hfalse (by decide)), if_pos rfl]
    by_cases hrange : 0 ≤ value ∧ value < 2 ^ 16
    · have hvalue : unsigned 16 value = value := unsigned_eq_self_iff.mpr hrange
      rw [if_neg (not_not.mpr hrange), hvalue, ServerConfig.setPort]
      by_cases hzero : value = 0
      · rw [if_pos hzero]
        exact .refused (fun hok => by omega)
      · rw [if_neg hzero]
        exact .stored (not_not.mpr ⟨by omega, hrange.2⟩) rfl (fun j hj => by cases j <;> first | rfl | exact absurd rfl hj)
    · rw [if_pos hrange]
      exact .refused (fun hok => hrange ⟨by omega, hok.2⟩)
  | uploadMaxSize =>
    rw [setIntegerField, if_neg (hfalse (by decide)), if_neg (hfalse (by decide)), if_neg (hfalse (by decide)),
      if_neg (hfalse (by decide)), if_pos rfl]
    exact .stored id rfl (fun j hj => by cases j <;> first | rfl | exact absurd rfl hj)

theorem setIntegerField_unknown {name : Bytes} (h : ∀ k : Key, name ≠ k.name) (c : ServerConfig) (value : Int) :
    setIntegerField c name value = .error (ascii "ConfigReader: " ++ name ++ ascii " is not valid integer field") := by
  rw [setIntegerField, if_neg (h _), if_neg (h _), if_neg (h _), if_neg (h _), if_neg (h _)]

/-- What is stored is the value of the file exactly when the type of the setter has it. -/
theorem stored_eq_iff {k : Key} (hk : ¬ k.Refuses value) (hrange : -2 ^ 63 ≤ value ∧ value < 2 ^ 63) :
    k.stored value = value ↔ k.Fits value := by
  have hcount : signed (31 + 1) value = value ↔ -2 ^ 31 ≤ value ∧ value < 2 ^ 31 := signed_eq_self_iff
  cases k with
  | maxThreadCount | maxUserCount | backlog => exact hcount.trans and_comm
  | port =>
    have hport := not_not.mp hk
    exact iff_of_true rfl ⟨by omega, hport.2⟩
  | uploadMaxSize =>
    have hsize : unsigned 64 value = value ↔ 0 ≤ value ∧ value < 2 ^ 64 := unsigned_eq_self_iff
    refine hsize.trans ⟨fun h => h.1, fun h => ⟨h, ?_⟩⟩
    omega

def readEntry (c : ServerConfig) (e : Bytes × Int) : Except Bytes ServerConfig := setIntegerField c e.1 e.2

theorem readConfig_table (hardwareConcurrency : Int) (t : IntegerTable) :
    readConfig hardwareConcurrency t.toSection = t.entries.foldlM readEntry (.defaults hardwareConcurrency) := by
  have hmap : ∀ (entries : List (Bytes × Int)) (c : ServerConfig),
      (entries.map fun e => (e.1, some e.2)).foldlM readField c = entries.foldlM readEntry c := by
    intro entries
    induction entries with
    | nil => exact fun _ => rfl
    | cons e entries ih =>
      intro c
      rw [List.map_cons, List.foldlM_cons, List.foldlM_cons]
      exact congrArg (bind (readEntry c e)) (funext ih)
  exact hmap t.entries _

theorem foldlM_ok (hkeys : (entries.map Prod.fst).Nodup) (h : entries.foldlM readEntry c = .ok c') :
    (∀ e ∈ entries, ¬ Refused e ∧ ∃ k : Key, e.1 = k.name ∧ field c' k = k.stored e.2) ∧
      ∀ k : Key, k.name ∉ entries.map Prod.fst → field c' k = field c k := by
  induction entries generalizing c with
  | nil =>
    cases h
    exact ⟨by simp, fun _ _ => rfl⟩
  | cons e entries ih =>
    obtain ⟨name, value⟩ := e
    obtain ⟨hnot, hlater⟩ := List.nodup_cons.mp hkeys
    rw [List.foldlM_cons] at h
    by_cases hknown : ∃ k : Key, name = k.name
    · obtain ⟨k, rfl⟩ := hknown
      have hsets := setIntegerField_sets c k value
      have hread : readEntry c (k.name, value) = setIntegerField c k.name value := rfl
      rw [hread] at h
      generalize setIntegerField c k.name value = result at hsets h
      cases hsets with
      | refused => cases h
      | stored hrefuses hk hj =>
        obtain ⟨hentries, hothers⟩ := ih hlater h
        refine ⟨?_, ?_⟩
        · rintro e he
          rcases List.mem_cons.mp he with rfl | he
          · exact ⟨fun hrefused => hrefuses (hrefused k rfl), k, rfl, (hothers k hnot).trans hk⟩
          · exact hentries e he
        · intro j hjnot
          rw [List.map_cons, List.mem_cons, not_or] at hjnot
          exact (hothers j hjnot.2).trans (hj j fun hjk => hjnot.1 (hjk ▸ rfl))
    · have hunknown := setIntegerField_unknown (not_exists.mp hknown) c value
      have hread : readEntry c (name, value) = setIntegerField c name value := rfl
      rw [hread, hunknown] at h
      cases h

theorem foldlM_exists (c : ServerConfig) (h : ∀ e ∈ entries, ¬ Refused e) : ∃ c', entries.foldlM readEntry c = .ok c' := by
  induction entries generalizing c with
  | nil => exact ⟨c, rfl⟩
  | cons e entries ih =>
    obtain ⟨k, hk⟩ := not_forall.mp (h e (by simp))
    obtain ⟨hname, hrefuses⟩ := Classical.not_imp.mp hk
    have hsets := setIntegerField_sets c k e.2
    have hread : readEntry c e = setIntegerField c k.name e.2 := by rw [readEntry, hname]
    rw [List.foldlM_cons, hread]
    generalize setIntegerField c k.name e.2 = result at hsets
    cases hsets with
    | refused hrefused => exact absurd hrefused hrefuses
    | stored => exact ih _ (fun e he => h e (by simp [he]))

/-- The values are taken at face value when the reader throws, for a reason that has nothing to do with
the others, or when they all fit the types of their setters. -/
theorem faceValue_iff (hardwareConcurrency : Int) (t : IntegerTable) :
    FaceValue hardwareConcurrency t ↔
      (∃ e ∈ t.entries, Refused e) ∨ ∀ e ∈ t.entries, ∀ k : Key, e.1 = k.name → k.Fits e.2 := by
  unfold FaceValue
  rw [readConfig_table]
  constructor
  · intro hall
    refine or_iff_not_imp_left.mpr fun hnone e he k hk => ?_
    have hopen : ∀ e ∈ t.entries, ¬ Refused e := fun e he hrefused => hnone ⟨e, he, hrefused⟩
    obtain ⟨c, hc⟩ := foldlM_exists (.defaults hardwareConcurrency) hopen
    obtain ⟨hrefused, k', hk', hstored⟩ := (foldlM_ok t.keys hc).1 e he
    obtain ⟨k'', hk'', hvalue⟩ := hall c hc e he
    obtain rfl := Key.name_injective (hk.symm.trans hk')
    obtain rfl := Key.name_injective (hk.symm.trans hk'')
    have hrefuses : ¬ k.Refuses e.2 := fun hr => hrefused fun j hj => Key.name_injective (hk.symm.trans hj) ▸ hr
    exact (stored_eq_iff hrefuses (t.range e he)).mp (hstored.symm.trans hvalue)
  · intro hor c hc e he
    obtain ⟨hall, -⟩ := foldlM_ok t.keys hc
    obtain ⟨hrefused, k, hk, hstored⟩ := hall e he
    refine ⟨k, hk, hstored.trans ?_⟩
    have hrefuses : ¬ k.Refuses e.2 := fun hr => hrefused fun j hj => Key.name_injective (hk.symm.trans hj) ▸ hr
    rcases hor with ⟨e', he', hrefused'⟩ | hfits
    · exact absurd hrefused' (hall e' he').1
    · exact (stored_eq_iff hrefuses (t.range e he)).mpr (hfits e he k hk)

def wrapped : IntegerTable := ⟨[(ascii "backlog", 2 ^ 32 + 1)], by decide, by decide⟩

theorem wrapped_accepted : ¬ ∀ hardwareConcurrency t, FaceValue hardwareConcurrency t := by
  intro hall
  obtain ⟨k, hk, hvalue⟩ := hall 1 wrapped ⟨1, 5, 1, 37666, 2 ^ 31 - 1⟩ (by decide) _ List.mem_cons_self
  have hbacklog : Key.backlog.name = k.name := hk
  rw [← Key.name_injective hbacklog] at hvalue
  exact absurd hvalue (by decide)

end ConfigReader

end TinDox
