import Mathlib.Data.Nat.Bitwise
import Mathlib.Tactic.Ring

/-!
# Alignment by masks

The low bits of a number are masked out by the complement of `2 ^ k - 1` in a word of `n` bits;
together with adding `2 ^ k - 1` first this rounds up to the next multiple of `2 ^ k`.
-/

namespace Vsys.Num

variable {k n x a : ℕ}

/-- Masking with the complement of a low mask rounds down. -/
theorem and_complement_eq (hx : x < 2 ^ n) :
    x &&& (2 ^ n - 1 - (2 ^ k - 1)) = x / 2 ^ k * 2 ^ k := by
  have hmask : 2 ^ n - 1 - (2 ^ k - 1) = 2 ^ n - (2 ^ k - 1 + 1) := by omega
  apply Nat.eq_of_testBit_eq
  intro i
  obtain hkn | hkn := Nat.lt_or_ge n k
  · have hzero : x / 2 ^ k = 0 :=
      Nat.div_eq_of_lt (hx.trans (Nat.pow_lt_pow_right (by norm_num) hkn))
    have hle : 2 ^ n ≤ 2 ^ k := Nat.pow_le_pow_right (by norm_num) hkn.le
    have hmask0 : 2 ^ n - 1 - (2 ^ k - 1) = 0 := by omega
    simp [hzero, hmask0]
  · have hlt : 2 ^ k - 1 < 2 ^ n := by
      have hle : 2 ^ k ≤ 2 ^ n := Nat.pow_le_pow_right (by norm_num) hkn
      have hpos : 0 < 2 ^ k := Nat.two_pow_pos k
      omega
    rw [hmask, Nat.testBit_and, Nat.testBit_two_pow_sub_succ hlt, Nat.testBit_two_pow_sub_one,
      mul_comm, Nat.testBit_two_pow_mul, Nat.testBit_div_two_pow]
    by_cases hki : k ≤ i
    · by_cases hin : i < n
      · simp [hin, hki, Nat.not_lt.mpr hki]
      · have hbit : x.testBit i = false := by
          apply Nat.testBit_lt_two_pow
          exact hx.trans_le (Nat.pow_le_pow_right (by norm_num) (Nat.not_lt.mp hin))
        simp [hbit, hki]
    · simp [Nat.not_le.mp hki, hki]

/-- The next multiple. -/
def roundUp (x a : ℕ) : ℕ := (x + a - 1) / a * a

theorem dvd_roundUp (x a : ℕ) : a ∣ roundUp x a := Dvd.intro_left _ rfl

theorem le_roundUp (ha : 0 < a) : x ≤ roundUp x a := by
  have hdiv := Nat.div_add_mod (x + a - 1) a
  have hmod := Nat.mod_lt (x + a - 1) ha
  rw [roundUp, mul_comm]
  omega

theorem roundUp_lt (ha : 0 < a) : roundUp x a < x + a := by
  have hle := Nat.div_mul_le_self (x + a - 1) a
  rw [roundUp]
  omega

/-- A multiple is its own next multiple, also behind other multiples. -/
theorem roundUp_add_mul (ha : 0 < a) (m : ℕ) : roundUp (x + m * a) a = roundUp x a + m * a := by
  have hsum : x + m * a + a - 1 = x + a - 1 + m * a := by omega
  rw [roundUp, hsum, Nat.add_mul_div_right _ _ ha, add_mul, roundUp]

theorem roundUp_eq_self (ha : 0 < a) (h : a ∣ x) : roundUp x a = x := by
  obtain ⟨m, rfl⟩ := h
  have hzero : roundUp 0 a = 0 := by
    rw [roundUp, Nat.div_eq_of_lt (by omega), zero_mul]
  simpa [hzero, mul_comm] using roundUp_add_mul (x := 0) ha m

/-- What is added on the way to the next multiple. -/
theorem roundUp_eq_add (ha : 0 < a) : roundUp x a = x + (a - x % a) % a := by
  have hdecomp : x % a + x / a * a = x := by rw [mul_comm]; exact Nat.mod_add_div x a
  have hmod := Nat.mod_lt x ha
  have hup : roundUp x a = roundUp (x % a) a + x / a * a := by
    rw [← roundUp_add_mul ha, hdecomp]
  rw [hup]
  obtain hzero | hpos := Nat.eq_zero_or_pos (x % a)
  · rw [hzero, roundUp_eq_self ha (dvd_zero a), Nat.sub_zero, Nat.mod_self]
    omega
  · have hone : roundUp (x % a) a = a := by
      have hdiv : (x % a + a - 1) / a = 1 := by
        apply Nat.div_eq_of_lt_le <;> omega
      rw [roundUp, hdiv, one_mul]
    rw [hone, Nat.mod_eq_of_lt (by omega)]
    omega

end Vsys.Num
