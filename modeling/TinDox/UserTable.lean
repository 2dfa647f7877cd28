import TinDox.Parsing
import TinDox.Runs
import TinDox.Views
import Mathlib.Data.List.Lookmap
import Mathlib.Data.List.Nodup

/-! `UserTable`: the accounts of a server directory, the calls that change them, and their file.
The TOML library is a pair of functions between texts and tables. -/

namespace TinDox

/-- What the functions of the user table throw; the text of a TOML error is the library's. -/
inductive UserTableException where
  | userTable (what : Bytes)
  | runtime (what : Bytes)
  | invalidArguments (what usage : Bytes)
  | toml
  deriving DecidableEq

namespace Permissions

def initial : Permissions := download

def symbols : List (Permissions × Byte) :=
  [(write, 119), (copy, 99), (move, 109), (download, 100), (upload, 117)]

def addSymbol (result : Permissions) (symbol : Byte) : Except UserTableException Permissions :=
  match symbols.find? (·.2 = symbol) with
  | some e => .ok (result ||| e.1)
  | .none => .error (.runtime (ascii "Invalid permission symbol '" ++ [symbol] ++ ascii "'"))

/-- `perms_from_string`. -/
def fromBytes (str : Bytes) : Except UserTableException Permissions := str.foldlM addSymbol none

/-- A set that some string of permission letters stands for. -/
def OfLetters (perms : Permissions) : Prop := ∃ letters, fromBytes letters = .ok perms

/-- The bits no letter stands for. -/
def unused : Permissions := 193

theorem or_unused {p q : Permissions} (hp : p &&& unused = 0) (hq : q &&& unused = 0) : (p ||| q) &&& unused = 0 := by
  apply UInt8.toBitVec_inj.mp
  have hp' := congrArg UInt8.toBitVec hp
  have hq' := congrArg UInt8.toBitVec hq
  rw [UInt8.toBitVec_and] at hp' hq' ⊢
  rw [UInt8.toBitVec_or, BitVec.and_or_distrib_right, hp', hq']
  rfl

theorem and_unused {p : Permissions} (hp : p &&& unused = 0) (q : Permissions) : (p &&& q) &&& unused = 0 := by
  rw [UInt8.and_assoc, UInt8.and_comm q, ← UInt8.and_assoc, hp]
  exact UInt8.zero_and

theorem fromBytes_unused {letters : Bytes} {perms : Permissions} (h : fromBytes letters = .ok perms) :
    perms &&& unused = 0 := by
  refine foldlM_invariant (P := fun p => p &&& unused = 0) h (by decide) ?_
  intro p c p' hp hstep
  unfold addSymbol at hstep
  split at hstep
  · rename_i e he
    have hmem : e ∈ symbols := List.mem_of_find?_eq_some he
    have hsymbol : e.1 &&& unused = 0 := by
      simp only [symbols, List.mem_cons, List.not_mem_nil, or_false] at hmem
      rcases hmem with rfl | rfl | rfl | rfl | rfl <;> rfl
    obtain rfl := Except.ok.inj hstep
    exact or_unused hp hsymbol
  · cases hstep

theorem fromBytes_toBytes_of_unused : ∀ n : Fin 256, UInt8.ofFin n &&& unused = 0 →
    fromBytes (toBytes (UInt8.ofFin n)) = .ok (UInt8.ofFin n) := by
  decide +kernel

theorem OfLetters.fromBytes_toBytes {perms : Permissions} (h : OfLetters perms) :
    fromBytes perms.toBytes = .ok perms := by
  obtain ⟨letters, hl⟩ := h
  exact fromBytes_toBytes_of_unused perms.toFin (fromBytes_unused hl)

theorem OfLetters.of_unused {perms : Permissions} (h : perms &&& unused = 0) : OfLetters perms :=
  ⟨perms.toBytes, fromBytes_toBytes_of_unused perms.toFin h⟩

end Permissions

/-- A TOML value; the kinds the user table neither writes nor accepts are one. -/
inductive Toml where
  | string (value : Bytes)
  | array (values : List Toml)
  | table (entries : List (Bytes × Toml))
  | other

namespace Toml

/-- `insert` leaves a key that is there alone. -/
def insert (entries : List (Bytes × Toml)) (key : Bytes) (value : Toml) : List (Bytes × Toml) :=
  if (entries.lookup key).isSome then entries else entries ++ [(key, value)]

end Toml

/-- What the user table uses of the TOML library. -/
structure TomlLibrary where
  serialise : List (Bytes × Toml) → Bytes
  parse : Bytes → Option (List (Bytes × Toml))

structure UserTable where
  usersFile : Path
  users : List UserData

namespace UserTable

def requiredField (table : List (Bytes × Toml)) (field : Bytes) : Except UserTableException Bytes :=
  match table.lookup field with
  | some (.string value) => .ok value
  | _ => .error (.userTable (ascii "invalid required filed '" ++ field ++ ascii "'"))

def fetchOneUser : Toml → Except UserTableException UserData
  | .table table => do
    let name ← requiredField table (ascii "name")
    let passwd ← requiredField table (ascii "passwd")
    let perms ← requiredField table (ascii "perms")
    let perms ← Permissions.fromBytes perms
    .ok ⟨name, passwd, perms⟩
  | _ => .error (.userTable (ascii "invalid user"))

/-- Opening a table that holds no users yet. -/
def fetchTable (lib : TomlLibrary) (fs : FileSystem) (usersFile : Path) : Except UserTableException UserTable :=
  match (fs.readFile usersFile).bind lib.parse with
  | none => .error .toml
  | some table =>
    match table.lookup (ascii "users") with
    | some (.array users) => (users.mapM fetchOneUser).map (fun users => ⟨usersFile, users⟩)
    | _ => .error (.userTable (ascii "TOML object 'users' is invalid"))

def userToToml (user : UserData) : Toml :=
  .table (Toml.insert (Toml.insert (Toml.insert [] (ascii "name") (.string user.name))
    (ascii "passwd") (.string user.passwordHash)) (ascii "perms") (.string user.perms.toBytes))

def createTomlTable (t : UserTable) : List (Bytes × Toml) :=
  Toml.insert [] (ascii "users") (.array (t.users.map userToToml))

def commitTable (t : UserTable) (lib : TomlLibrary) (fs : FileSystem) : FileSystem × Option UserTableException :=
  match fs.openWrite t.usersFile true with
  | none =>
    (fs, some (.userTable (ascii "failed to open output file (" ++ quoted t.usersFile.native ++ ascii ")")))
  | some (fs', i) => (fs'.write i (lib.serialise t.createTomlTable), none)

def hasUser (t : UserTable) (username : Bytes) : Bool := t.users.any (·.name = username)

def doesNotExist (username : Bytes) : UserTableException :=
  .userTable (ascii "user '" ++ username ++ ascii "' does not exist")

/-- Writing to the record `get_user` finds, which is the first of that name. -/
def modifyUser (t : UserTable) (username : Bytes) (f : UserData → UserData) : UserTable × Option UserTableException :=
  if t.hasUser username then
    ({ t with users := t.users.lookmap (fun u => if u.name = username then some (f u) else none) }, none)
  else (t, some (doesNotExist username))

/-- The calls that change the table. -/
inductive Call where
  | addUser (username password : Bytes)
  | removeUser (username : Bytes)
  | setPasswordOfUser (username newPassword : Bytes)
  | setPermsOfUser (username : Bytes) (newPerms : Permissions)

section Calls

variable (hash : Bytes → Bytes)

def addUser (t : UserTable) (username password : Bytes) : UserTable :=
  if t.hasUser username then t
  else { t with users := t.users ++ [⟨username, hash password, Permissions.initial⟩] }

def removeUser (t : UserTable) (username : Bytes) : UserTable × Option UserTableException :=
  if t.hasUser username then ({ t with users := t.users.filter (·.name ≠ username) }, none)
  else (t, some (doesNotExist username))

def setPasswordOfUser (t : UserTable) (username newPassword : Bytes) : UserTable × Option UserTableException :=
  t.modifyUser username (fun u => { u with passwordHash := hash newPassword })

def setPermsOfUser (t : UserTable) (username : Bytes) (newPerms : Permissions) :
    UserTable × Option UserTableException :=
  t.modifyUser username (fun u => { u with perms := newPerms })

def call (t : UserTable) : Call → UserTable × Option UserTableException
  | .addUser username password => (t.addUser hash username password, none)
  | .removeUser username => t.removeUser username
  | .setPasswordOfUser username newPassword => t.setPasswordOfUser hash username newPassword
  | .setPermsOfUser username newPerms => t.setPermsOfUser username newPerms

end Calls

namespace Call

def username : Call → Bytes
  | addUser username _ | removeUser username | setPasswordOfUser username _ | setPermsOfUser username _ => username

def isAdd : Call → Bool
  | addUser .. => true
  | _ => false

/-- What becomes of the record of the user that a successful call is about. -/
def edited (hash : Bytes → Bytes) : Call → Option UserData → Option UserData
  | addUser username password, u => some (u.getD ⟨username, hash password, Permissions.initial⟩)
  | removeUser _, _ => none
  | setPasswordOfUser _ newPassword, u => u.map fun u => { u with passwordHash := hash newPassword }
  | setPermsOfUser _ newPerms, u => u.map fun u => { u with perms := newPerms }

/-- A permission set in a call comes from permission letters. -/
def OfLetters : Call → Prop
  | setPermsOfUser _ newPerms => newPerms.OfLetters
  | _ => True

end Call

/-- The user it is about keeps its name, so the others are untouched. -/
theorem filter_lookmap (users : List UserData) (username : Bytes) {f : UserData → UserData}
    (hf : ∀ u, (f u).name = u.name) :
    (users.lookmap (fun u => if u.name = username then some (f u) else none)).filter (·.name ≠ username) =
      users.filter (·.name ≠ username) := by
  induction users with
  | nil => rfl
  | cons u users ih =>
    by_cases hu : u.name = username
    · rw [List.lookmap_cons_some (b := f u) _ _ (by simp [hu])]
      simp [hf, hu]
    · rw [List.lookmap_cons_none _ _ (by simp [hu]), List.filter_cons_of_pos (by simp [hu]),
        List.filter_cons_of_pos (by simp [hu]), ih]

theorem find?_lookmap (users : List UserData) (username : Bytes) {f : UserData → UserData} (hf : ∀ u, (f u).name = u.name) :
    (users.lookmap (fun u => if u.name = username then some (f u) else none)).find? (·.name = username) =
      (users.find? (·.name = username)).map f := by
  induction users with
  | nil => rfl
  | cons u users ih =>
    by_cases hu : u.name = username
    · rw [List.lookmap_cons_some (b := f u) _ _ (by simp [hu]), List.find?_cons_of_pos (by simp [hf, hu]),
        List.find?_cons_of_pos (by simp [hu]), Option.map_some]
    · rw [List.lookmap_cons_none _ _ (by simp [hu]), List.find?_cons_of_neg (by simp [hu]),
        List.find?_cons_of_neg (by simp [hu]), ih]

theorem map_name_lookmap (users : List UserData) (username : Bytes) {f : UserData → UserData}
    (hf : ∀ u, (f u).name = u.name) :
    (users.lookmap (fun u => if u.name = username then some (f u) else none)).map (·.name) =
      users.map (·.name) := by
  refine List.lookmap_map_eq _ (fun u : UserData => u.name) ?_ users
  intro u v hv
  split at hv
  · obtain rfl := Option.some.inj hv
    exact (hf u).symm
  · cases hv

theorem mem_lookmap {users : List UserData} {username : Bytes} {f : UserData → UserData} {v : UserData}
    (h : v ∈ users.lookmap (fun u => if u.name = username then some (f u) else none)) :
    v ∈ users ∨ ∃ u ∈ users, v = f u := by
  induction users with
  | nil => simp at h
  | cons u users ih =>
    by_cases hu : u.name = username
    · rw [List.lookmap_cons_some (b := f u) _ _ (by simp [hu]), List.mem_cons] at h
      rcases h with rfl | h
      · exact .inr ⟨u, by simp, rfl⟩
      · exact .inl (by simp [h])
    · rw [List.lookmap_cons_none _ _ (by simp [hu]), List.mem_cons] at h
      rcases h with rfl | h
      · exact .inl (by simp)
      · rcases ih h with hv | ⟨w, hw, hv⟩
        · exact .inl (by simp [hv])
        · exact .inr ⟨w, by simp [hw], hv⟩

variable {hash : Bytes → Bytes} {t : UserTable}

theorem hasUser_iff {username : Bytes} : t.hasUser username = true ↔ username ∈ t.users.map (·.name) := by
  simp [hasUser]

theorem modifyUser_of_hasUser {username : Bytes} (h : t.hasUser username = true) (f : UserData → UserData) :
    t.modifyUser username f =
      ({ t with users := t.users.lookmap (fun u => if u.name = username then some (f u) else none) }, none) :=
  if_pos h

theorem modifyUser_of_not_hasUser {username : Bytes} (h : t.hasUser username = false) (f : UserData → UserData) :
    t.modifyUser username f = (t, some (doesNotExist username)) :=
  if_neg (Bool.eq_false_iff.mp h)

theorem call_cases (hash : Bytes → Bytes) (t : UserTable) (c : Call) :
    (call hash t c = (t, some (doesNotExist c.username)) ∧ c.isAdd = false ∧ t.hasUser c.username = false) ∨
    (call hash t c = (t, none) ∧ c.isAdd = true ∧ t.hasUser c.username = true) ∨
    (∃ password, c = .addUser c.username password ∧ t.hasUser c.username = false ∧
      call hash t c = ({ t with users := t.users ++ [⟨c.username, hash password, Permissions.initial⟩] }, none)) ∨
    (c = .removeUser c.username ∧ t.hasUser c.username = true ∧
      call hash t c = ({ t with users := t.users.filter (·.name ≠ c.username) }, none)) ∨
    (∃ f : UserData → UserData, c.isAdd = false ∧ t.hasUser c.username = true ∧ (∀ u, (f u).name = u.name) ∧
      (∀ u, (f u).perms = u.perms ∨ ∃ username, c = .setPermsOfUser username (f u).perms) ∧
      call hash t c =
        ({ t with users := t.users.lookmap (fun u => if u.name = c.username then some (f u) else none) }, none)) := by
  cases hu : t.hasUser c.username with
  | false =>
    cases c with
    | addUser username password =>
      refine .inr (.inr (.inl ⟨password, rfl, rfl, ?_⟩))
      simp only [Call.username] at hu
      simp [call, addUser, hu, Call.username]
    | removeUser username =>
      refine .inl ⟨?_, rfl, rfl⟩
      simp only [Call.username] at hu
      simp [call, removeUser, hu, Call.username]
    | setPasswordOfUser username newPassword => exact .inl ⟨modifyUser_of_not_hasUser hu _, rfl, rfl⟩
    | setPermsOfUser username newPerms => exact .inl ⟨modifyUser_of_not_hasUser hu _, rfl, rfl⟩
  | true =>
    cases c with
    | addUser username password =>
      refine .inr (.inl ⟨?_, rfl, rfl⟩)
      simp only [Call.username] at hu
      simp [call, addUser, hu]
    | removeUser username =>
      refine .inr (.inr (.inr (.inl ⟨rfl, rfl, ?_⟩)))
      simp only [Call.username] at hu
      simp only [call, removeUser, hu, if_true]
      rfl
    | setPasswordOfUser username newPassword =>
      exact .inr (.inr (.inr (.inr ⟨fun u => { u with passwordHash := hash newPassword }, rfl, rfl,
        fun _ => rfl, fun _ => .inl rfl, modifyUser_of_hasUser hu _⟩)))
    | setPermsOfUser username newPerms =>
      exact .inr (.inr (.inr (.inr ⟨fun u => { u with perms := newPerms }, rfl, rfl,
        fun _ => rfl, fun _ => .inr ⟨username, rfl⟩, modifyUser_of_hasUser hu _⟩)))

theorem call_others (hash : Bytes → Bytes) (t : UserTable) (c : Call) :
    (call hash t c).1.users.filter (·.name ≠ c.username) = t.users.filter (·.name ≠ c.username) := by
  rcases call_cases hash t c with ⟨h, -⟩ | ⟨h, -⟩ | ⟨password, -, -, h⟩ | ⟨-, -, h⟩ | ⟨f, -, -, hf, -, h⟩
  · rw [h]
  · rw [h]
  · simp [h]
  · simp [h]
  · rw [h]
    exact filter_lookmap t.users c.username hf

theorem find?_eq_none_of_not_hasUser {username : Bytes} (h : t.hasUser username = false) :
    t.users.find? (·.name = username) = none := by
  rw [List.find?_eq_none]
  intro u hu hname
  rw [Bool.eq_false_iff, ne_eq, hasUser_iff] at h
  exact h (List.mem_map.mpr ⟨u, hu, by simpa using hname⟩)

theorem find?_modifyUser {username : Bytes} {f : UserData → UserData} (hf : ∀ u, (f u).name = u.name)
    (h : (t.modifyUser username f).2 = none) :
    (t.modifyUser username f).1.users.find? (·.name = username) = (t.users.find? (·.name = username)).map f := by
  cases hu : t.hasUser username with
  | true =>
    rw [modifyUser_of_hasUser hu]
    exact find?_lookmap t.users username hf
  | false =>
    rw [modifyUser_of_not_hasUser hu] at h
    cases h

theorem call_named (hash : Bytes → Bytes) (t : UserTable) (c : Call) (h : (call hash t c).2 = none) :
    (call hash t c).1.users.find? (·.name = c.username) = c.edited hash (t.users.find? (·.name = c.username)) := by
  cases c with
  | addUser username password =>
    show (t.addUser hash username password).users.find? (·.name = username) =
      some ((t.users.find? (·.name = username)).getD ⟨username, hash password, Permissions.initial⟩)
    cases hu : t.hasUser username with
    | true =>
      obtain ⟨u, hmem, hname⟩ := List.mem_map.mp (hasUser_iff.mp hu)
      have hsome : (t.users.find? (·.name = username)).isSome := List.find?_isSome.mpr ⟨u, hmem, decide_eq_true hname⟩
      obtain ⟨v, hv⟩ := Option.isSome_iff_exists.mp hsome
      rw [addUser, if_pos hu, hv, Option.getD_some]
    | false =>
      have hnone := find?_eq_none_of_not_hasUser hu
      rw [addUser, if_neg (by simp [hu]), List.find?_append, hnone, Option.none_or, Option.getD_none]
      exact List.find?_cons_of_pos (by simp)
  | removeUser username =>
    cases hu : t.hasUser username with
    | true =>
      show (t.removeUser username).1.users.find? (·.name = username) = none
      rw [removeUser, if_pos hu, List.find?_eq_none]
      intro u hmem
      simpa using (List.mem_filter.mp hmem).2
    | false =>
      simp [call, removeUser, hu] at h
  | setPasswordOfUser username newPassword => exact find?_modifyUser (fun _ => rfl) h
  | setPermsOfUser username newPerms => exact find?_modifyUser (fun _ => rfl) h

/-- What every table keeps: names are distinct, and permission sets come from letters. -/
structure Sound (t : UserTable) : Prop where
  nodup : (t.users.map (·.name)).Nodup
  perms : ∀ u ∈ t.users, u.perms.OfLetters

theorem Sound.call (h : t.Sound) {c : Call} (hc : c.OfLetters) : (call hash t c).1.Sound := by
  rcases call_cases hash t c with ⟨he, -⟩ | ⟨he, -⟩ | ⟨password, -, hu, he⟩ | ⟨-, -, he⟩ | ⟨f, -, -, hf, hp, he⟩
  · rw [he]
    exact h
  · rw [he]
    exact h
  · have hnew : c.username ∉ t.users.map (·.name) := by
      intro hm
      simp [hasUser_iff.mpr hm] at hu
    rw [he]
    refine ⟨?_, ?_⟩
    · rw [List.map_append, List.map_singleton, ← List.concat_eq_append]
      exact (List.nodup_concat _ _).mpr ⟨hnew, h.nodup⟩
    · intro u hu'
      rcases List.mem_append.mp hu' with hu' | hu'
      · exact h.perms u hu'
      · rw [List.mem_singleton.mp hu']
        exact (Permissions.OfLetters.of_unused (by decide) : Permissions.initial.OfLetters)
  · rw [he]
    exact ⟨(List.filter_sublist.map _).nodup h.nodup, fun u hu => h.perms u (List.mem_filter.mp hu).1⟩
  · rw [he]
    refine ⟨?_, ?_⟩
    · rw [map_name_lookmap _ _ hf]
      exact h.nodup
    · intro v hv
      rcases mem_lookmap hv with hv | ⟨u, hu, rfl⟩
      · exact h.perms v hv
      · rcases hp u with hsame | ⟨username, hset⟩
        · rw [hsame]
          exact h.perms u hu
        · rw [hset] at hc
          exact hc

theorem fetchOneUser_perms {v : Toml} {u : UserData} (h : fetchOneUser v = .ok u) : u.perms.OfLetters := by
  cases v with
  | table table =>
    simp only [fetchOneUser, bind_eq_ok] at h
    obtain ⟨name, -, passwd, -, letters, -, perms, hperms, h⟩ := h
    obtain rfl := Except.ok.inj h
    exact ⟨letters, hperms⟩
  | _ => cases h

theorem mapM_ok_mem {α β ε : Type} {f : α → Except ε β} {xs : List α} {ys : List β} (h : xs.mapM f = .ok ys) :
    ∀ y ∈ ys, ∃ x ∈ xs, f x = .ok y := by
  induction xs generalizing ys with
  | nil =>
    obtain rfl := Except.ok.inj h
    simp
  | cons x xs ih =>
    rw [List.mapM_cons] at h
    obtain ⟨y, hy, h⟩ := bind_eq_ok.mp h
    obtain ⟨ys', hys, h⟩ := bind_eq_ok.mp h
    obtain rfl := Except.ok.inj h
    intro z hz
    rcases List.mem_cons.mp hz with rfl | hz
    · exact ⟨x, by simp, hy⟩
    · obtain ⟨x', hx', hz⟩ := ih hys z hz
      exact ⟨x', by simp [hx'], hz⟩

theorem fetchTable_perms {lib : TomlLibrary} {fs : FileSystem} {usersFile : Path}
    (h : fetchTable lib fs usersFile = .ok t) : ∀ u ∈ t.users, u.perms.OfLetters := by
  unfold fetchTable at h
  split at h
  · cases h
  · split at h
    · obtain ⟨users, hm, rfl⟩ := map_eq_ok.mp h
      intro u hu
      obtain ⟨v, -, hv⟩ := mapM_ok_mem hm u hu
      exact fetchOneUser_perms hv
    · cases h

theorem fetchTable_usersFile {lib : TomlLibrary} {fs : FileSystem} {usersFile : Path}
    (h : fetchTable lib fs usersFile = .ok t) : t.usersFile = usersFile := by
  unfold fetchTable at h
  split at h
  · cases h
  · split at h
    · obtain ⟨users, -, rfl⟩ := map_eq_ok.mp h
      rfl
    · cases h

theorem fetchOneUser_userToToml {u : UserData} (h : u.perms.OfLetters) : fetchOneUser (userToToml u) = .ok u := by
  have hperms := h.fromBytes_toBytes
  simp only [userToToml, fetchOneUser]
  change (do
    let perms ← Permissions.fromBytes u.perms.toBytes
    (Except.ok ⟨u.name, u.passwordHash, perms⟩ : Except UserTableException UserData)) = _
  rw [hperms]
  rfl

theorem mapM_userToToml {users : List UserData} (h : ∀ u ∈ users, u.perms.OfLetters) :
    (users.map userToToml).mapM fetchOneUser = .ok users := by
  induction users with
  | nil => rfl
  | cons u users ih =>
    have hu := fetchOneUser_userToToml (h u (by simp))
    have hrest := ih (fun v hv => h v (by simp [hv]))
    rw [List.map_cons, List.mapM_cons, hu, hrest]
    rfl

theorem fetchTable_commitTable {lib : TomlLibrary} {fs fs' : FileSystem}
    (hp : ∀ u ∈ t.users, u.perms.OfLetters) (hw : fs.WellFormed) (hc : t.commitTable lib fs = (fs', none))
    (hlib : lib.parse (lib.serialise t.createTomlTable) = some t.createTomlTable) :
    fetchTable lib fs' t.usersFile = .ok t := by
  cases ho : fs.openWrite t.usersFile true with
  | none => simp [commitTable, ho] at hc
  | some r =>
    obtain ⟨fs₁, i⟩ := r
    have he : fs' = fs₁.write i (lib.serialise t.createTomlTable) := by
      simpa [commitTable, ho, eq_comm] using hc
    have hread := hw.readFile_write ho (lib.serialise t.createTomlTable)
    rw [← he] at hread
    have hlookup : t.createTomlTable.lookup (ascii "users") = some (.array (t.users.map userToToml)) := rfl
    simp only [fetchTable, hread, Option.bind_some, hlib, hlookup, mapM_userToToml hp, Except.map]

/-- One call on a table with distinct names: at most the record of the named user changes, as the call
says, and the others keep their order, adding a known user changes nothing, and any other call about
an unknown user throws and changes nothing. -/
structure Intact (hash : Bytes → Bytes) (t : UserTable) : Prop where
  nodup : (t.users.map (·.name)).Nodup
  others : ∀ c, (call hash t c).1.users.filter (·.name ≠ c.username) = t.users.filter (·.name ≠ c.username)
  named : ∀ c, (call hash t c).2 = none →
    (call hash t c).1.users.find? (·.name = c.username) = c.edited hash (t.users.find? (·.name = c.username))
  known : ∀ c, c.isAdd = true → t.hasUser c.username = true → call hash t c = (t, none)
  unknown : ∀ c, c.isAdd = false → t.hasUser c.username = false →
    call hash t c = (t, some (doesNotExist c.username))

theorem Sound.intact (h : t.Sound) (hash : Bytes → Bytes) : t.Intact hash := by
  refine ⟨h.nodup, call_others hash t, call_named hash t, ?_, ?_⟩
  · intro c ha hu
    rcases call_cases hash t c with ⟨-, hadd, -⟩ | ⟨he, -⟩ | ⟨-, -, hno, -⟩ | ⟨hc, -⟩ | ⟨-, hadd, -⟩
    · simp [ha] at hadd
    · exact he
    · simp [hu] at hno
    · rw [hc] at ha
      cases ha
    · simp [ha] at hadd
  · intro c ha hu
    rcases call_cases hash t c with ⟨he, -⟩ | ⟨-, hadd, -⟩ | ⟨password, hc, -⟩ | ⟨-, hyes, -⟩ | ⟨-, -, hyes, -⟩
    · exact he
    · simp [ha] at hadd
    · rw [hc] at ha
      cases ha
    · simp [hu] at hyes
    · simp [hu] at hyes

theorem call_usersFile (hash : Bytes → Bytes) (t : UserTable) (c : Call) :
    (call hash t c).1.usersFile = t.usersFile := by
  rcases call_cases hash t c with ⟨h, -⟩ | ⟨h, -⟩ | ⟨_, -, -, h⟩ | ⟨-, -, h⟩ | ⟨_, -, -, -, -, h⟩ <;> rw [h]

/-- The table after a sequence of calls, whether or not some of them threw. -/
def calls (hash : Bytes → Bytes) (t : UserTable) (cs : List Call) : UserTable :=
  Runs.run (fun t c => (call hash t c).1) t cs

theorem Sound.calls (h : t.Sound) {cs : List Call} (hc : ∀ c ∈ cs, c.OfLetters) : (calls hash t cs).Sound := by
  induction cs generalizing t with
  | nil => exact h
  | cons c cs ih => exact ih (h.call (hc c (by simp))) (fun c' hc' => hc c' (by simp [hc']))

theorem calls_usersFile (hash : Bytes → Bytes) (t : UserTable) (cs : List Call) :
    (calls hash t cs).usersFile = t.usersFile := by
  induction cs generalizing t with
  | nil => rfl
  | cons c cs ih => exact (ih (call hash t c).1).trans (call_usersFile hash t c)

/-- From a users file with distinct names, every sequence of calls leaves an intact table, and
what it commits is read back as it is. -/
theorem userTable_integrity {lib : TomlLibrary} (hash : Bytes → Bytes) {fs : FileSystem} {usersFile : Path}
    (h : fetchTable lib fs usersFile = .ok t) (hd : (t.users.map (·.name)).Nodup) {cs : List Call}
    (hc : ∀ c ∈ cs, c.OfLetters) :
    (calls hash t cs).Intact hash ∧
    ∀ fs₁ fs₂ : FileSystem, fs₁.WellFormed → (calls hash t cs).commitTable lib fs₁ = (fs₂, none) →
      lib.parse (lib.serialise (calls hash t cs).createTomlTable) = some (calls hash t cs).createTomlTable →
      fetchTable lib fs₂ usersFile = .ok (calls hash t cs) := by
  have hs : t.Sound := ⟨hd, fetchTable_perms h⟩
  have hs' : (calls hash t cs).Sound := hs.calls hc
  refine ⟨hs'.intact hash, ?_⟩
  intro fs₁ fs₂ hw hcommit hlib
  rw [← fetchTable_usersFile h, ← calls_usersFile hash t cs]
  exact fetchTable_commitTable hs'.perms hw hcommit hlib

/-! A library that writes the tables it is handed here as TOML, and knows two texts. -/

namespace Sample

def usersFile : Path := ⟨ascii "/r/.tds/users"⟩

def tomlUser : Toml → Bytes
  | .table fields => ascii "[[users]]\n" ++ fields.flatMap (fun e =>
      match e.2 with
      | .string value => e.1 ++ ascii " = '" ++ value ++ ascii "'\n"
      | _ => [])
  | _ => []

def tomlText (entries : List (Bytes × Toml)) : Bytes :=
  match entries with
  | [(_, .array users)] => users.flatMap tomlUser
  | _ => []

def oneUser : UserTable := ⟨usersFile, [⟨ascii "u", ascii "pw", 16⟩]⟩

def editing : List Call :=
  [.addUser (ascii "v") (ascii "x"), .addUser (ascii "u") (ascii "y"), .removeUser (ascii "w"),
    .setPermsOfUser (ascii "u") 6, .setPasswordOfUser (ascii "v") (ascii "z")]

def textBefore : Bytes := ascii "[[users]]\nname = 'u'\npasswd = 'pw'\nperms = 'd'\n"

def textAfter : Bytes :=
  ascii "[[users]]\nname = 'u'\npasswd = 'pw'\nperms = 'wc'\n" ++
    ascii "[[users]]\nname = 'v'\npasswd = 'z'\nperms = 'd'\n"

def toml : TomlLibrary where
  serialise := tomlText
  parse b :=
    if b = textBefore then some oneUser.createTomlTable
    else if b = textAfter then some (calls id oneUser editing).createTomlTable
    else none

def usersDirectory : FileSystem :=
  ⟨[([ascii "r"], .dir), ([ascii "r", ascii ".tds"], .dir), ([ascii "r", ascii ".tds", ascii "users"], .file 0)],
    [textBefore]⟩

end Sample

theorem userTable_integrity_sample :
    (calls id Sample.oneUser Sample.editing).Intact id ∧
    fetchTable Sample.toml ((calls id Sample.oneUser Sample.editing).commitTable Sample.toml Sample.usersDirectory).1
      Sample.usersFile = .ok (calls id Sample.oneUser Sample.editing) := by
  have hfetch : fetchTable Sample.toml Sample.usersDirectory Sample.usersFile = .ok Sample.oneUser := rfl
  have hletters : ∀ c ∈ Sample.editing, c.OfLetters := by
    simp only [Sample.editing, List.forall_mem_cons, Call.OfLetters, true_and]
    exact ⟨⟨ascii "cw", by decide⟩, by simp⟩
  obtain ⟨hintact, hround⟩ := userTable_integrity id hfetch (by decide) hletters
  exact ⟨hintact, hround Sample.usersDirectory _ (by decide +kernel) rfl rfl⟩

/-- `UserPermsCommand`: the flags of `tds user perms`. -/
structure PermsFlags where
  newPerms : Permissions
  takenPerms : Permissions

def permsUsage : Bytes := ascii "tds user perms <username> <(+|-)(twcmdu)>..."

def parseFlag (flags : PermsFlags) : Bytes → Except UserTableException PermsFlags
  | [] => .ok flags
  | sign :: letters =>
    if sign = 45 then do
      let perms ← Permissions.fromBytes letters
      .ok { flags with takenPerms := flags.takenPerms ||| perms }
    else if sign = 43 then do
      let perms ← Permissions.fromBytes letters
      .ok { flags with newPerms := flags.newPerms ||| perms }
    else .error (.invalidArguments (ascii "invalid flag " ++ sign :: letters) permsUsage)

def parsePermsArguments : List Bytes → Except UserTableException (Bytes × PermsFlags)
  | username :: flag :: flags => do
    let parsed ← (flag :: flags).foldlM parseFlag ⟨Permissions.none, Permissions.none⟩
    .ok (username, parsed)
  | _ => .error (.invalidArguments (ascii "too few arguments") permsUsage)

def executePerms (t : UserTable) (username : Bytes) (flags : PermsFlags) : UserTable × Option UserTableException :=
  match t.users.find? (·.name = username) with
  | none => (t, some (doesNotExist username))
  | some u => t.setPermsOfUser username ((u.perms ||| flags.newPerms) &&& ~~~ flags.takenPerms)

theorem parseFlag_unused {flags flags' : PermsFlags} {arg : Bytes}
    (hf : flags.newPerms &&& Permissions.unused = 0) (h : parseFlag flags arg = .ok flags') :
    flags'.newPerms &&& Permissions.unused = 0 := by
  cases arg with
  | nil => exact Except.ok.inj h ▸ hf
  | cons sign letters =>
    rw [parseFlag] at h
    by_cases hminus : sign = 45
    · rw [if_pos hminus] at h
      obtain ⟨perms, -, he⟩ := bind_eq_ok.mp h
      exact Except.ok.inj he ▸ hf
    · rw [if_neg hminus] at h
      by_cases hplus : sign = 43
      · rw [if_pos hplus] at h
        obtain ⟨perms, hperms, he⟩ := bind_eq_ok.mp h
        obtain rfl := Except.ok.inj he
        exact Permissions.or_unused hf (Permissions.fromBytes_unused hperms)
      · rw [if_neg hplus] at h
        cases h

/-- What `tds user perms` sets is again a set of letters, so it is one of the calls above. -/
theorem executePerms_call (h : ∀ u ∈ t.users, u.perms.OfLetters) (hash : Bytes → Bytes) {args : List Bytes} {username : Bytes}
    {flags : PermsFlags} (ha : parsePermsArguments args = .ok (username, flags)) :
    ∃ perms : Permissions, perms.OfLetters ∧
      t.executePerms username flags = UserTable.call hash t (.setPermsOfUser username perms) := by
  have hnew : flags.newPerms &&& Permissions.unused = 0 := by
    match args, ha with
    | _ :: flag :: rest, ha =>
      obtain ⟨parsed, hfold, he⟩ := bind_eq_ok.mp ha
      cases he
      exact foldlM_invariant (P := fun f : PermsFlags => f.newPerms &&& Permissions.unused = 0) hfold (by decide)
        (fun _ _ _ => parseFlag_unused)
  cases hf : t.users.find? (·.name = username) with
  | none =>
    have hno : t.hasUser username = false := by
      simpa [hasUser] using hf
    refine ⟨Permissions.none, .of_unused (by decide), ?_⟩
    simp [UserTable.executePerms, hf, UserTable.call, setPermsOfUser, modifyUser, hno]
  | some u =>
    obtain ⟨letters, hl⟩ := h u (List.mem_of_find?_eq_some hf)
    have hor := Permissions.or_unused (Permissions.fromBytes_unused hl) hnew
    refine ⟨_, .of_unused (Permissions.and_unused hor (~~~ flags.takenPerms)), ?_⟩
    simp only [UserTable.executePerms, hf, UserTable.call]

end UserTable

end TinDox
