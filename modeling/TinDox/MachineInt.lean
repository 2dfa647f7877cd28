import Mathlib.Algebra.Ring.Int.Defs
import Mathlib.Algebra.Ring.Nat

/-! Conversions between machine integers: the value is kept modulo a power of two, so it survives
exactly when the type has it. -/

namespace MachineInt

/-- The conversion to a signed type of `w` bits. -/
def signed (w : Nat) (x : Int) : Int := x.bmod (2 ^ w)

/-- The conversion to an unsigned type of `w` bits. -/
def unsigned (w : Nat) (x : Int) : Int := x % 2 ^ w

variable {w : Nat} {x : Int}

theorem pow_succ_nat (w : Nat) : (2 ^ (w + 1) : Nat) = 2 * 2 ^ w := by
  rw [Nat.pow_succ, Nat.mul_comm]

theorem signed_range (w : Nat) (x : Int) : -2 ^ w ≤ signed (w + 1) x ∧ signed (w + 1) x < 2 ^ w := by
  have hpos : 0 < 2 ^ (w + 1) := Nat.two_pow_pos _
  have hle : -(((2 ^ (w + 1) : Nat) : Int) / 2) ≤ signed (w + 1) x := Int.le_bmod hpos
  have hlt : signed (w + 1) x < (((2 ^ (w + 1) : Nat) : Int) + 1) / 2 := Int.bmod_lt hpos
  rw [pow_succ_nat] at hle hlt
  have hcast : ((2 ^ w : Nat) : Int) = 2 ^ w := by simp
  constructor <;> omega

theorem signed_eq_self_iff : signed (w + 1) x = x ↔ -2 ^ w ≤ x ∧ x < 2 ^ w := by
  constructor
  · intro h
    rw [← h]
    exact signed_range w x
  · rintro ⟨hle, hlt⟩
    have hcast : ((2 ^ w : Nat) : Int) = 2 ^ w := by simp
    apply Int.bmod_eq_of_le
    · rw [pow_succ_nat]
      omega
    · rw [pow_succ_nat]
      omega

/-- A number that is not negative gives one when the bits that are left do not have the sign. -/
theorem signed_eq_natCast_iff {n k : Nat} : signed (w + 1) n = k ↔ n % 2 ^ (w + 1) = k ∧ k < 2 ^ w := by
  have hvalue : signed (w + 1) n = ((n % 2 ^ (w + 1) : Nat) : Int) -
      ((if ((n % 2 ^ (w + 1) : Nat) : Int) ≥ (((2 ^ (w + 1) : Nat) : Int) + 1) / 2 then 2 ^ (w + 1) else 0 : Nat) : Int) :=
    Int.bmod_eq_emod n (2 ^ (w + 1))
  have hlt : n % 2 ^ (w + 1) < 2 ^ (w + 1) := Nat.mod_lt n (Nat.two_pow_pos _)
  rw [hvalue]
  rw [pow_succ_nat] at hlt ⊢
  generalize n % (2 * 2 ^ w) = left at hlt ⊢
  split <;> omega

theorem signed_pos_iff : 0 < signed (w + 1) x ↔ 0 < x % 2 ^ (w + 1) ∧ x % 2 ^ (w + 1) < 2 ^ w := by
  have hvalue : signed (w + 1) x = x % ((2 ^ (w + 1) : Nat) : Int) -
      ((if x % ((2 ^ (w + 1) : Nat) : Int) ≥ (((2 ^ (w + 1) : Nat) : Int) + 1) / 2 then 2 ^ (w + 1) else 0 : Nat) : Int) :=
    Int.bmod_eq_emod x (2 ^ (w + 1))
  have hpow : (2 : Int) ^ (w + 1) = ((2 ^ (w + 1) : Nat) : Int) := by simp
  have hcast : ((2 ^ w : Nat) : Int) = 2 ^ w := by simp
  have hnonneg : 0 ≤ x % ((2 ^ (w + 1) : Nat) : Int) := Int.emod_nonneg x (by
    have hpos := Nat.two_pow_pos (w + 1)
    omega)
  have hlt : x % ((2 ^ (w + 1) : Nat) : Int) < ((2 ^ (w + 1) : Nat) : Int) := Int.emod_lt_of_pos x (by
    have hpos := Nat.two_pow_pos (w + 1)
    omega)
  rw [hvalue, hpow, ← hcast]
  rw [pow_succ_nat] at hnonneg hlt ⊢
  generalize x % ((2 * 2 ^ w : Nat) : Int) = left at hnonneg hlt ⊢
  split <;> omega

theorem unsigned_range (w : Nat) (x : Int) : 0 ≤ unsigned w x ∧ unsigned w x < 2 ^ w := by
  have hpos : (0 : Int) < 2 ^ w := Int.pow_pos (by decide)
  exact ⟨Int.emod_nonneg x (Int.ne_of_gt hpos), Int.emod_lt_of_pos x hpos⟩

theorem unsigned_eq_self_iff : unsigned w x = x ↔ 0 ≤ x ∧ x < 2 ^ w := by
  constructor
  · intro h
    rw [← h]
    exact unsigned_range w x
  · rintro ⟨hle, hlt⟩
    exact Int.emod_eq_of_lt hle hlt

end MachineInt
