import TinDox.UserTable
import Mathlib.Data.List.GetD
import Mathlib.Data.Nat.Bitwise

/-! The hash of a password and what it tells apart. `crypt` is a parameter: of its key it gets the
bytes before the first NUL, and of its salt the two characters it reads. -/

namespace TinDox

namespace Linux

def saltChars : Bytes := ascii "abcdefghijklmnopqrstuvwxyzABCDEFGHIJKLMNOPQRSTUVWXYZ0123456789./"

/-- `salt_chars[i % salt_chars.size()]`. -/
def saltChar (i : Nat) : Byte := saltChars.getD (i % 64) 0

def salt (str : Bytes) : Bytes :=
  if 2 ≤ str.length then
    let first := (str.headD 0).toNat
    let last := (str.getLastD 0).toNat
    [saltChar (first ^^^ last), saltChar (first * last)]
  else ascii ".0"

def cString (str : Bytes) : Bytes := str.takeWhile (· ≠ 0)

def hash (crypt : Bytes → Bytes → Bytes) (word : Bytes) : Bytes := crypt (cString word) (salt word)

end Linux

namespace UserTable

def maxPasswordLength : Nat := 40

def isPasswordOk (password : Bytes) : Bool := password.length ≤ maxPasswordLength

def getUser (t : UserTable) (username : Bytes) : Except UserTableException UserData :=
  match t.users.find? (·.name = username) with
  | some u => .ok u
  | none => .error (doesNotExist username)

def verifyPasswordOfUser (hash : Bytes → Bytes) (t : UserTable) (username password : Bytes) :
    Except UserTableException Bool :=
  (t.getUser username).map (fun u => hash password = u.passwordHash)

inductive SetsPassword (hash : Bytes → Bytes) (username password : Bytes) (t : UserTable) : UserTable → Prop where
  | addUser (h : t.hasUser username = false) :
      SetsPassword hash username password t (t.addUser hash username password)
  | setPasswordOfUser (h : t.hasUser username = true) :
      SetsPassword hash username password t (t.setPasswordOfUser hash username password).1

end UserTable

namespace Linux

/-- The DES scheme, on keys no longer than a password may be: a function of the salt and the first
eight bytes of the key, and injective in them. -/
structure TraditionalDes (crypt : Bytes → Bytes → Bytes) : Prop where
  crypt_eq_iff : ∀ {key key' salt salt' : Bytes},
    key.length ≤ UserTable.maxPasswordLength → key'.length ≤ UserTable.maxPasswordLength →
    salt.length = 2 → salt'.length = 2 → (∀ c ∈ salt, c ∈ saltChars) → (∀ c ∈ salt', c ∈ saltChars) →
    (crypt key salt = crypt key' salt' ↔ salt = salt' ∧ key.take 8 = key'.take 8)

/-- Two words that `hash` takes to one value: they agree on the eight bytes `crypt` reads, and
either both are too short to have a salt of their own or their last bytes agree in six bits. -/
def Collides (p q : Bytes) : Prop :=
  (cString p).take 8 = (cString q).take 8 ∧
    (p.length < 2 ∧ q.length < 2 ∨
      2 ≤ p.length ∧ 2 ≤ q.length ∧ (p.getLastD 0).toNat % 64 = (q.getLastD 0).toNat % 64)

theorem saltChars_nodup : saltChars.Nodup := by decide +kernel

theorem saltChar_mem (i : Nat) : saltChar i ∈ saltChars := by
  have hlt : i % 64 < saltChars.length := Nat.mod_lt i (by decide)
  rw [saltChar, List.getD_eq_getElem saltChars 0 hlt]
  exact List.getElem_mem hlt

theorem saltChar_inj {i j : Nat} : saltChar i = saltChar j ↔ i % 64 = j % 64 := by
  have hi : i % 64 < saltChars.length := Nat.mod_lt i (by decide)
  have hj : j % 64 < saltChars.length := Nat.mod_lt j (by decide)
  rw [saltChar, saltChar, List.getD_eq_getElem saltChars 0 hi, List.getD_eq_getElem saltChars 0 hj]
  exact saltChars_nodup.getElem_inj_iff

theorem shortSalt_eq : ascii ".0" = [saltChar 62, saltChar 52] := by decide

theorem salt_length (str : Bytes) : (salt str).length = 2 := by
  unfold salt
  split
  · rfl
  · rfl

theorem mem_saltChars {str : Bytes} {c : Byte} (h : c ∈ salt str) : c ∈ saltChars := by
  have hpair : ∀ i j, c ∈ [saltChar i, saltChar j] → c ∈ saltChars := by
    intro i j hc
    simp only [List.mem_cons, List.not_mem_nil, or_false] at hc
    rcases hc with rfl | rfl
    · exact saltChar_mem i
    · exact saltChar_mem j
  unfold salt at h
  split at h
  · exact hpair _ _ h
  · rw [shortSalt_eq] at h
    exact hpair _ _ h

theorem xor_mod_64 (m n : Nat) : (m ^^^ n) % 64 = (m % 64) ^^^ (n % 64) :=
  Nat.xor_mod_two_pow (n := 6)

/-- With the first bytes equal, the exclusive or alone decides; the product follows. -/
theorem salt_chars_eq_iff (first last last' : Nat) :
    ((first ^^^ last) % 64 = (first ^^^ last') % 64 ∧ first * last % 64 = first * last' % 64) ↔
      last % 64 = last' % 64 := by
  constructor
  · rintro ⟨hx, -⟩
    rw [xor_mod_64, xor_mod_64 first last'] at hx
    exact Nat.xor_right_injective hx
  · intro h
    constructor
    · rw [xor_mod_64, xor_mod_64 first last', h]
    · rw [Nat.mul_mod, h, ← Nat.mul_mod]

/-- No word long enough to have a salt of its own has the salt of the short ones. -/
theorem short_salt_residues : ∀ x < 64, ∀ y < 64, (x ^^^ y) = 62 → x * y % 64 ≠ 52 := by
  decide +kernel

theorem salt_ne_short {str : Bytes} (h : 2 ≤ str.length) : salt str ≠ ascii ".0" := by
  intro he
  rw [salt, if_pos h, shortSalt_eq] at he
  injection he with hx hrest
  injection hrest with hm _
  rw [saltChar_inj, xor_mod_64] at hx
  rw [saltChar_inj, Nat.mul_mod] at hm
  exact short_salt_residues _ (Nat.mod_lt _ (by decide)) _ (Nat.mod_lt _ (by decide)) hx hm

/-- Words that agree on what `crypt` reads start with the same byte, which may be NUL. -/
theorem head_eq_of_key {p q : Bytes} (h : (cString p).take 8 = (cString q).take 8)
    (hp : p ≠ []) (hq : q ≠ []) : p.headD 0 = q.headD 0 := by
  cases p with
  | nil => exact absurd rfl hp
  | cons b p =>
    cases q with
    | nil => exact absurd rfl hq
    | cons c q =>
      by_cases hb : b = 0 <;> by_cases hc : c = 0
      · simp [hb, hc]
      · simp [cString, hb, hc] at h
      · simp [cString, hb, hc] at h
      · simp only [cString, hb, hc, List.takeWhile_cons, ne_eq, not_false_eq_true, decide_true, if_true,
          List.take_succ_cons, List.cons.injEq] at h
        exact h.1

theorem salt_eq_iff {p q : Bytes} (h : (cString p).take 8 = (cString q).take 8) :
    salt p = salt q ↔ p.length < 2 ∧ q.length < 2 ∨
      2 ≤ p.length ∧ 2 ≤ q.length ∧ (p.getLastD 0).toNat % 64 = (q.getLastD 0).toNat % 64 := by
  rcases Nat.lt_or_ge p.length 2 with hp | hp <;> rcases Nat.lt_or_ge q.length 2 with hq | hq
  · simp [salt, hp, hq, Nat.not_le.mpr hp, Nat.not_le.mpr hq]
  · have hne : salt p ≠ salt q := by
      rw [salt, if_neg (Nat.not_le.mpr hp)]
      exact (salt_ne_short hq).symm
    simp [hne, hp, hq, Nat.not_lt.mpr hq, Nat.not_le.mpr hp]
  · have hne : salt p ≠ salt q := by
      rw [salt.eq_1 q, if_neg (Nat.not_le.mpr hq)]
      exact salt_ne_short hp
    simp [hne, hp, hq, Nat.not_lt.mpr hp, Nat.not_le.mpr hq]
  · have hfirst : p.headD 0 = q.headD 0 :=
      head_eq_of_key h (List.ne_nil_of_length_pos (by omega)) (List.ne_nil_of_length_pos (by omega))
    have hlast := salt_chars_eq_iff (q.headD 0).toNat (p.getLastD 0).toNat (q.getLastD 0).toNat
    simp only [salt, if_pos hp, if_pos hq, hfirst, List.cons.injEq, and_true, saltChar_inj, hlast]
    simp [hp, hq, Nat.not_lt.mpr hp]

theorem hash_eq_iff {crypt : Bytes → Bytes → Bytes} (hdes : TraditionalDes crypt) {p q : Bytes}
    (hp : UserTable.isPasswordOk p = true) (hq : UserTable.isPasswordOk q = true) :
    hash crypt p = hash crypt q ↔ Collides p q := by
  have hlength {w : Bytes} (hw : UserTable.isPasswordOk w = true) :
      (cString w).length ≤ UserTable.maxPasswordLength :=
    (List.takeWhile_sublist _).length_le.trans (of_decide_eq_true hw)
  have hcrypt := hdes.crypt_eq_iff (hlength hp) (hlength hq) (salt_length p) (salt_length q)
    (fun _ => mem_saltChars) (fun _ => mem_saltChars)
  rw [hash, hash, hcrypt]
  constructor
  · rintro ⟨hsalt, hkey⟩
    exact ⟨hkey, (salt_eq_iff hkey).mp hsalt⟩
  · rintro ⟨hkey, hends⟩
    exact ⟨(salt_eq_iff hkey).mpr hends, hkey⟩

end Linux

namespace UserTable

theorem SetsPassword.getUser {hash : Bytes → Bytes} {username password : Bytes} {t t' : UserTable}
    (h : SetsPassword hash username password t t') :
    ∃ u, t'.getUser username = .ok u ∧ u.passwordHash = hash password := by
  cases h with
  | addUser h =>
    have hnone := find?_eq_none_of_not_hasUser h
    refine ⟨⟨username, hash password, Permissions.initial⟩, ?_, rfl⟩
    simp [UserTable.getUser, UserTable.addUser, h, List.find?_append, hnone]
  | setPasswordOfUser h =>
    obtain ⟨u, hu, hname⟩ := List.any_eq_true.mp h
    obtain ⟨v, hv⟩ : ∃ v, t.users.find? (·.name = username) = some v :=
      Option.isSome_iff_exists.mp (List.find?_isSome.mpr ⟨u, hu, hname⟩)
    refine ⟨{ v with passwordHash := hash password }, ?_, rfl⟩
    rw [UserTable.setPasswordOfUser, modifyUser_of_hasUser h, UserTable.getUser,
      find?_lookmap t.users username (f := fun u => { u with passwordHash := hash password }) (fun _ => rfl), hv]
    rfl

theorem SetsPassword.verify_iff {hash : Bytes → Bytes} {username p : Bytes} {t t' : UserTable}
    (h : SetsPassword hash username p t t') (q : Bytes) :
    verifyPasswordOfUser hash t' username q = .ok true ↔ hash p = hash q := by
  obtain ⟨u, hu, hhash⟩ := h.getUser
  simp [verifyPasswordOfUser, hu, hhash, Except.map, eq_comm]

end UserTable

namespace Linux

/-- The hash of `password` under the salt `bW`; every other pair is written out in full. -/
def sampleCrypt (key salt : Bytes) : Bytes :=
  if salt = ascii "bW" ∧ key.take 8 = ascii "password" then ascii "bWi.EijoZI6Yo" else salt ++ 0 :: key.take 8

theorem sampleCrypt_des : TraditionalDes sampleCrypt := by
  refine ⟨?_⟩
  intro key key' salt salt' _ _ hsalt hsalt' _ _
  constructor
  · intro h
    unfold sampleCrypt at h
    split at h <;> split at h
    · rename_i h₁ h₂
      exact ⟨h₁.1.trans h₂.1.symm, h₁.2.trans h₂.2.symm⟩
    · -- the third byte tells a real hash from the other values
      have hthird := congrArg (·[2]?) h
      simp [hsalt'] at hthird
      exact absurd hthird (by decide)
    · have hthird := congrArg (·[2]?) h
      simp [hsalt] at hthird
      exact absurd hthird (by decide)
    · obtain ⟨hs, hk⟩ := List.append_inj h (hsalt.trans hsalt'.symm)
      exact ⟨hs, (List.cons.inj hk).2⟩
  · rintro ⟨rfl, hkey⟩
    simp only [sampleCrypt, hkey]

end Linux

namespace UserTable

/-- Only the password that was set verifies, exactly when the other one does not collide with it. -/
theorem verifies_only_iff {crypt : Bytes → Bytes → Bytes} (hdes : Linux.TraditionalDes crypt) {username p q : Bytes}
    {t t' : UserTable} (hp : isPasswordOk p = true) (hq : isPasswordOk q = true)
    (hset : SetsPassword (Linux.hash crypt) username p t t') :
    (verifyPasswordOfUser (Linux.hash crypt) t' username q = .ok true ↔ q = p) ↔
      (q = p ∨ ¬ Linux.Collides p q) := by
  rw [hset.verify_iff, Linux.hash_eq_iff hdes hp hq]
  constructor
  · intro h
    by_cases hqp : q = p
    · exact .inl hqp
    · exact .inr (fun hc => hqp (h.mp hc))
  · intro h
    rcases h with rfl | hc
    · have hself : Linux.Collides q q := (Linux.hash_eq_iff hdes hq hq).mp rfl
      exact ⟨fun _ => rfl, fun _ => hself⟩
    · constructor
      · intro hcollides
        exact absurd hcollides hc
      · rintro rfl
        exact (Linux.hash_eq_iff hdes hq hq).mp rfl

theorem verifies_only_iff_password :
    (verifyPasswordOfUser (Linux.hash Linux.sampleCrypt)
        (addUser (Linux.hash Linux.sampleCrypt) ⟨⟨ascii "users.toml"⟩, []⟩ (ascii "u") (ascii "password1"))
        (ascii "u") (ascii "passwordq") = .ok true ↔ ascii "passwordq" = ascii "password1") ↔
      (ascii "passwordq" = ascii "password1" ∨ ¬ Linux.Collides (ascii "password1") (ascii "passwordq")) :=
  verifies_only_iff Linux.sampleCrypt_des (by decide) (by decide) (.addUser rfl)

/-- The ninth byte is not hashed, and the last byte reaches the salt with six of its bits only. -/
theorem other_password_verifies :
    isPasswordOk (ascii "password1") = true ∧ isPasswordOk (ascii "passwordq") = true ∧
      ascii "passwordq" ≠ ascii "password1" ∧ Linux.TraditionalDes Linux.sampleCrypt ∧
      verifyPasswordOfUser (Linux.hash Linux.sampleCrypt)
        (addUser (Linux.hash Linux.sampleCrypt) ⟨⟨ascii "users.toml"⟩, []⟩ (ascii "u") (ascii "password1"))
        (ascii "u") (ascii "passwordq") = .ok true :=
  ⟨by decide, by decide, by decide, Linux.sampleCrypt_des, by rfl⟩

end UserTable

end TinDox
