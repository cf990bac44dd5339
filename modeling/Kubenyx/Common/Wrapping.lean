import Mathlib

/-!
# Two's complement

Signed integers of a fixed width, whose operations wrap around, and their bytes with the least
significant one first.

* `wrap_wrap_add`, `wrap_wrap_mul`: a computation that wraps in every step is the one over the
  integers, wrapped once.
* `abs_wrap_le`: the wrapped number is the remainder of least magnitude.
* `leInt_leBytes`: what was written in bytes is read back.
-/

namespace Kubenyx.Common

/-! ## Wrapping -/

/-- The number of `w` bits in two's complement that is congruent to `z`. -/
def wrap (w : ℕ) (z : ℤ) : ℤ := z.bmod (2 ^ w)

section wrap

variable {w : ℕ} {a b z : ℤ}

theorem wrap_wrap_add : wrap w (wrap w a + b) = wrap w (a + b) := Int.bmod_add_bmod

theorem wrap_wrap_mul : wrap w (wrap w a * b) = wrap w (a * b) := Int.bmod_mul_bmod

theorem wrap_eq_self (hlo : -2 ^ w ≤ z * 2) (hhi : z * 2 < 2 ^ w) : wrap w z = z :=
  Int.bmod_eq_of_le_mul_two (by push_cast; exact hlo) (by push_cast; exact hhi)

/-- It differs from the number by a multiple of the modulus. -/
theorem exists_wrap_eq (w : ℕ) (z : ℤ) : ∃ k : ℤ, wrap w z = z - k * 2 ^ w :=
  ⟨z.bdiv (2 ^ w), by
    unfold wrap
    rw [Int.bmod_eq_self_sub_bdiv_mul]
    push_cast
    rfl⟩

theorem wrap_bounds (w : ℕ) (z : ℤ) : -2 ^ w ≤ wrap w z * 2 ∧ wrap w z * 2 < 2 ^ w := by
  have hpos : 0 < 2 ^ w := Nat.two_pow_pos w
  have hlo := @Int.le_bmod z (2 ^ w) hpos
  have hhi := @Int.bmod_lt z (2 ^ w) hpos
  unfold wrap
  push_cast at hlo hhi
  omega

/-- No other number that differs by a multiple is smaller in magnitude. -/
theorem abs_wrap_le (w : ℕ) (z k : ℤ) : |wrap w z| ≤ |z - k * 2 ^ w| := by
  obtain ⟨j, hj⟩ := exists_wrap_eq w z
  obtain ⟨hlo, hhi⟩ := wrap_bounds w z
  by_cases hk : k = j
  · rw [hk, hj]
  · -- another multiple is at least the modulus away, and this one at most half of it
    have hz : z - k * 2 ^ w = wrap w z + (j - k) * 2 ^ w := by
      rw [hj]
      ring
    have hpos : (0 : ℤ) < 2 ^ w := by positivity
    have hfar : (2 : ℤ) ^ w ≤ |(j - k) * 2 ^ w| := by
      rw [abs_mul, abs_of_pos hpos]
      have hone : 1 ≤ |j - k| := Int.one_le_abs (sub_ne_zero.mpr (Ne.symm hk))
      nlinarith
    have htri := abs_sub_abs_le_abs_sub ((j - k) * 2 ^ w) (-wrap w z)
    rw [abs_neg, sub_neg_eq_add, add_comm ((j - k) * 2 ^ w)] at htri
    rw [hz]
    have hhalf : |wrap w z| * 2 ≤ 2 ^ w := by
      rcases abs_cases (wrap w z) with ⟨h, -⟩ | ⟨h, -⟩ <;> omega
    omega

end wrap

/-! ## Bytes -/

/-- The lowest `n` bytes of a number. -/
def natBytes : ℕ → ℕ → List UInt8
  | 0, _ => []
  | n + 1, m => UInt8.ofNat (m % 256) :: natBytes n (m / 256)

/-- `to_le_bytes` of an integer type with `n` bytes. -/
def leBytes (n : ℕ) (z : ℤ) : List UInt8 := natBytes n (z % 256 ^ n).toNat

/-- `from_le_bytes` of a signed integer type. -/
def leInt (bs : List UInt8) : ℤ :=
  wrap (8 * bs.length) (Nat.ofDigits 256 (bs.map UInt8.toNat) : ℕ)

theorem length_natBytes (n m : ℕ) : (natBytes n m).length = n := by
  induction n generalizing m with
  | zero => rfl
  | succ n ih => rw [natBytes, List.length_cons, ih]

theorem length_leBytes (n : ℕ) (z : ℤ) : (leBytes n z).length = n := length_natBytes _ _

theorem ofDigits_natBytes (n m : ℕ) :
    Nat.ofDigits 256 ((natBytes n m).map UInt8.toNat) = m % 256 ^ n := by
  induction n generalizing m with
  | zero => simp [natBytes, Nat.mod_one]
  | succ n ih =>
    have hbyte : (UInt8.ofNat (m % 256)).toNat = m % 256 := by
      rw [UInt8.toNat_ofNat']
      omega
    rw [natBytes, List.map_cons, Nat.ofDigits_cons, ih, hbyte, pow_succ, Nat.mul_comm (256 ^ n),
      Nat.mod_mul]

/-- A number that fits in the bytes is read back. -/
theorem leInt_leBytes {n : ℕ} {z : ℤ} (hlo : -2 ^ (8 * n) ≤ z * 2) (hhi : z * 2 < 2 ^ (8 * n)) :
    leInt (leBytes n z) = z := by
  have hpow : (256 : ℤ) ^ n = ((2 ^ (8 * n) : ℕ) : ℤ) := by
    push_cast
    rw [pow_mul]
    norm_num
  have hpos : (0 : ℤ) < 256 ^ n := by positivity
  have hnonneg : 0 ≤ z % 256 ^ n := Int.emod_nonneg _ hpos.ne'
  have hlt : (z % 256 ^ n).toNat < 256 ^ n := by
    have := Int.emod_lt_of_pos z hpos
    zify
    rw [Int.toNat_of_nonneg hnonneg]
    exact this
  unfold leInt leBytes
  rw [length_natBytes, ofDigits_natBytes, Nat.mod_eq_of_lt hlt, Int.toNat_of_nonneg hnonneg]
  unfold wrap
  rw [hpow, Int.emod_bmod]
  exact wrap_eq_self hlo hhi

end Kubenyx.Common
