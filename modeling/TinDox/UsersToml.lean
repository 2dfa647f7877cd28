import TinDox.Administration

/-! Users files as a TOML library writes and reads them: one table behind the other, each with the three
strings of an account. A string is literal unless it holds an apostrophe. -/

namespace Toml

variable {s : List UInt8}

def quote (s : List UInt8) : List UInt8 := if 39 ∈ s then 34 :: escape s ++ [34] else 39 :: s ++ [39]

def readQuoted (l : List UInt8) : Option (List UInt8 × List UInt8) :=
  if l.head? = some 39 then
    match l.tail.dropWhile (· ≠ 39) with
    | [] => none
    | _ :: rest => some (l.tail.takeWhile (· ≠ 39), rest)
  else if l.head? = some 34 then (scan false l.tail).bind fun (body, rest) => (string (.text .start) body).map (·, rest)
  else none

theorem readQuoted_quote (h : IsText s) (rest : List UInt8) : readQuoted (quote s ++ rest) = some (s, rest) := by
  by_cases hs : 39 ∈ s
  · have hscan := scan_closed (closed_escape s) rest
    have hquote : quote s ++ rest = 34 :: (escape s ++ 34 :: rest) := by simp [quote, hs]
    have hhead : (34 :: (escape s ++ 34 :: rest)).head? ≠ some 39 := by
      rw [List.head?_cons]
      decide
    rw [hquote, readQuoted, if_neg hhead, if_pos List.head?_cons, List.tail_cons, hscan, Option.bind_some]
    show (string (.text .start) (escape s)).map (·, rest) = some (s, rest)
    rw [string_escape, if_pos h]
    rfl
  · have hquote : quote s ++ rest = 39 :: (s ++ 39 :: rest) := by simp [quote, hs]
    have hplain : ∀ c ∈ s, decide (c ≠ 39) = true := fun c hc => decide_eq_true fun he => hs (he ▸ hc)
    have hstop := takeWhile_stop hplain (decide_eq_false (not_not.mpr rfl)) rest
    rw [hquote, readQuoted, if_pos List.head?_cons, List.tail_cons, hstop.1, hstop.2]

end Toml

namespace TinDox

namespace UsersToml

variable {s : Bytes}

def line (key s : Bytes) : Bytes := key ++ ascii " = " ++ (Toml.quote s ++ [newline])

def readLine (key l : Bytes) : Option (Bytes × Bytes) := do
  let rest ← l.dropPrefix? (key ++ ascii " = ")
  let (s, rest) ← Toml.readQuoted rest
  let rest ← rest.dropPrefix? [newline]
  some (s, rest)

theorem readLine_line (h : Toml.IsText s) (key rest : Bytes) : readLine key (line key s ++ rest) = some (s, rest) := by
  have hline : line key s ++ rest = (key ++ ascii " = ") ++ (Toml.quote s ++ ([newline] ++ rest)) := by simp [line]
  rw [hline, readLine, Toml.dropPrefix_append, Option.bind_eq_bind, Option.bind_some, Toml.readQuoted_quote h,
    Option.bind_eq_bind, Option.bind_some]
  simp only [Toml.dropPrefix_append, Option.bind_some]

def header : Bytes := ascii "[[users]]\n"

def userText : Toml → Bytes
  | .table fields => header ++ fields.flatMap fun e =>
    match e.2 with
    | .string s => line e.1 s
    | _ => []
  | _ => []

def readUser (l : Bytes) : Option (Toml × Bytes) := do
  let rest ← l.dropPrefix? header
  let (name, rest) ← readLine (ascii "name") rest
  let (passwd, rest) ← readLine (ascii "passwd") rest
  let (perms, rest) ← readLine (ascii "perms") rest
  some (.table [(ascii "name", .string name), (ascii "passwd", .string passwd), (ascii "perms", .string perms)], rest)

theorem userText_userToToml (u : UserData) : userText (UserTable.userToToml u) = header ++ (line (ascii "name") u.name ++
    (line (ascii "passwd") u.passwordHash ++ line (ascii "perms") u.perms.toBytes)) := by
  show header ++ (_ ++ (_ ++ (_ ++ []))) = _
  rw [List.append_nil]

theorem readUser_userText {u : UserData} (hname : Toml.IsText u.name) (hpasswd : Toml.IsText u.passwordHash)
    (hperms : Toml.IsText u.perms.toBytes) (rest : Bytes) :
    readUser (userText (UserTable.userToToml u) ++ rest) = some (UserTable.userToToml u, rest) := by
  rw [userText_userToToml, readUser]
  simp only [List.append_assoc, Toml.dropPrefix_append, Option.bind_eq_bind, Option.bind_some, readLine_line hname,
    readLine_line hpasswd, readLine_line hperms]
  rfl

def readUsers : Nat → Bytes → Option (List Toml)
  | 0, _ => none
  | fuel + 1, l =>
    if l = [] then some []
    else (readUser l).bind fun (u, rest) => (readUsers fuel rest).map (u :: ·)

theorem readUsers_texts {users : List UserData} (h : ∀ u ∈ users, Toml.IsText u.name ∧ Toml.IsText u.passwordHash ∧
    Toml.IsText u.perms.toBytes) {fuel : Nat} (hf : ((users.map UserTable.userToToml).flatMap userText).length < fuel) :
    readUsers fuel ((users.map UserTable.userToToml).flatMap userText) = some (users.map UserTable.userToToml) := by
  induction users generalizing fuel with
  | nil =>
    cases fuel with
    | zero => cases hf
    | succ fuel => rfl
  | cons u users ih =>
    obtain ⟨hname, hpasswd, hperms⟩ := h u List.mem_cons_self
    have hlong : 0 < (userText (UserTable.userToToml u)).length := by
      rw [userText_userToToml, List.length_append]
      exact Nat.add_pos_left (by decide) _
    rw [List.map_cons, List.flatMap_cons, List.length_append] at hf
    rw [List.map_cons, List.flatMap_cons]
    cases fuel with
    | zero => cases hf
    | succ fuel =>
      have hne : userText (UserTable.userToToml u) ++ (users.map UserTable.userToToml).flatMap userText ≠ [] := by
        intro hnil
        rw [(List.append_eq_nil_iff.mp hnil).1] at hlong
        cases hlong
      rw [readUsers, if_neg hne, readUser_userText hname hpasswd hperms, Option.bind_some]
      have hrest : readUsers fuel _ = _ := ih (fun v hv => h v (List.mem_cons_of_mem _ hv)) (by omega)
      simp only [hrest, Option.map_some]

def library : TomlLibrary where
  serialise entries :=
    match entries.lookup (ascii "users") with
    | some (.array []) => ascii "users = []\n"
    | some (.array users) => users.flatMap userText
    | _ => []
  parse b :=
    if b = ascii "users = []\n" then some [(ascii "users", .array [])]
    else (readUsers (b.length + 1) b).map fun users => [(ascii "users", .array users)]

/-- Text of ASCII. -/
theorem isText_of_ascii {l : Bytes} (h : ∀ b ∈ l, b < 0x80 ∧ Toml.isText b = true) : Toml.IsText l := by
  refine ⟨?_, List.all_eq_true.mpr fun b hb => (h b hb).2⟩
  induction l with
  | nil => rfl
  | cons b l ih =>
    have hfirst : Utf8.step .start b = some .start := Utf8.first_ascii (h b List.mem_cons_self).1
    show (Utf8.step .start b).bind (fun q => Utf8.run q l) = some .start
    rw [hfirst]
    exact ih fun c hc => h c (List.mem_cons_of_mem b hc)

theorem ascii_of_word : ∀ n : Fin 256, (let b := UInt8.ofFin n
    97 ≤ b && b ≤ 122 || 65 ≤ b && b ≤ 90 || 48 ≤ b && b ≤ 57 || b == 95) = true →
      UInt8.ofFin n < 0x80 ∧ Toml.isText (UInt8.ofFin n) = true := by
  decide +kernel

theorem isText_of_isUsernameOk {l : Bytes} (h : UserTable.isUsernameOk l = true) : Toml.IsText l := by
  apply isText_of_ascii
  intro b hb
  exact ascii_of_word b.toFin (List.all_eq_true.mp (Bool.and_eq_true_iff.mp h).2 b hb)

theorem isText_toBytes (perms : Permissions) : Toml.IsText perms.toBytes := by
  apply isText_of_ascii
  intro b hb
  obtain ⟨⟨p, letter⟩, he, hletter⟩ := List.mem_filterMap.mp hb
  have hb' : b = letter := by
    split at hletter
    · exact (Option.some.inj hletter).symm
    · cases hletter
  have hletters : (Permissions.symbols.all fun e => decide (e.2 < 0x80) && Toml.isText e.2) = true := by decide
  have hfits := Bool.and_eq_true_iff.mp (List.all_eq_true.mp hletters _ he)
  rw [hb']
  exact ⟨of_decide_eq_true hfits.1, hfits.2⟩

theorem library_reads {t : UserTable} (ht : t.Servable) :
    library.parse (library.serialise t.createTomlTable) = some t.createTomlTable := by
  have htext : ∀ u ∈ t.users, Toml.IsText u.name ∧ Toml.IsText u.passwordHash ∧ Toml.IsText u.perms.toBytes :=
    fun u hu => ⟨isText_of_isUsernameOk (ht.names u hu), ht.hashes u hu, isText_toBytes u.perms⟩
  have hread := readUsers_texts htext (Nat.lt_succ_self _)
  cases husers : t.users with
  | nil =>
    have htable : t.createTomlTable = [(ascii "users", .array [])] := by
      rw [UserTable.createTomlTable, husers]
      rfl
    rw [htable]
    rfl
  | cons u users =>
    have htable : t.createTomlTable = [(ascii "users", .array (t.users.map UserTable.userToToml))] := rfl
    have hserialised : library.serialise t.createTomlTable = (t.users.map UserTable.userToToml).flatMap userText := by
      rw [htable, husers]
      rfl
    have hne : (t.users.map UserTable.userToToml).flatMap userText ≠ ascii "users = []\n" := by
      rw [husers, List.map_cons, List.flatMap_cons, userText_userToToml]
      intro h
      have hhead := congrArg List.head? h
      simp [header, ascii] at hhead
    show (if _ = _ then _ else _) = _
    rw [hserialised, if_neg hne, hread, htable]
    rfl

end UsersToml

end TinDox
