import Mathlib.Algebra.Order.Ring.Nat
import Mathlib.Data.Nat.Log
import Mathlib.Tactic.Ring

/-!
# Rounding to a binary significand

A floating-point number keeps a fixed number of binary digits.  `roundEven` rounds a natural number
to so many digits, to the nearest such number and to the even one of two that are equally near.
Rounding commutes with a power of two, so a fraction is rounded as its numerator.

What programs rely on most is `le_roundEven_of_le`: rounding does not carry a number below one that
is representable.
-/

namespace Vsys.Num

/-- The binary digits of a number beyond the first `bits`. -/
def excess (bits n : ℕ) : ℕ := Nat.log2 n + 1 - bits

/-- The number rounded to `bits` binary digits, ties to even. -/
def roundEven (bits n : ℕ) : ℕ :=
  let unit := 2 ^ excess bits n
  let kept := n / unit
  let lost := n % unit
  if unit < 2 * lost ∨ 2 * lost = unit ∧ kept % 2 = 1 then (kept + 1) * unit else kept * unit

variable {bits n : ℕ}

theorem roundEven_eq_or (bits n : ℕ) :
    roundEven bits n = n / 2 ^ excess bits n * 2 ^ excess bits n ∨
      roundEven bits n = (n / 2 ^ excess bits n + 1) * 2 ^ excess bits n := by
  dsimp only [roundEven]
  split_ifs
  · exact .inr rfl
  · exact .inl rfl

theorem kept_le_roundEven (bits n : ℕ) :
    n / 2 ^ excess bits n * 2 ^ excess bits n ≤ roundEven bits n := by
  cases roundEven_eq_or bits n with
  | inl h => exact h.ge
  | inr h => exact h ▸ Nat.mul_le_mul_right _ (Nat.le_succ _)

/-- A number that fits is kept. -/
theorem roundEven_of_excess (h : excess bits n = 0) : roundEven bits n = n := by
  simp [roundEven, h, Nat.mod_one]

theorem kept_lt (bits n : ℕ) : n / 2 ^ excess bits n < 2 ^ bits := by
  apply Nat.div_lt_of_lt_mul
  calc
    n < 2 ^ (Nat.log2 n + 1) := Nat.lt_log2_self
    _ ≤ 2 ^ (excess bits n + bits) := Nat.pow_le_pow_right two_pos (by unfold excess; omega)
    _ = 2 ^ excess bits n * 2 ^ bits := pow_add ..

/-- The rounded number has `bits` digits, or is a power of two. -/
theorem exists_roundEven (bits n : ℕ) :
    ∃ kept ≤ 2 ^ bits, roundEven bits n = kept * 2 ^ excess bits n := by
  have hlt := kept_lt bits n
  cases roundEven_eq_or bits n with
  | inl h => exact ⟨_, hlt.le, h⟩
  | inr h => exact ⟨_, hlt, h⟩

/-- The leading digit of a number that does not fit is kept. -/
theorem pow_log2_le_roundEven (hbits : 0 < bits) (h : excess bits n ≠ 0) :
    2 ^ Nat.log2 n ≤ roundEven bits n := by
  have hn : n ≠ 0 := by
    rintro rfl
    simp only [excess, Nat.log2_zero] at h
    omega
  have hle : excess bits n ≤ Nat.log2 n := by
    unfold excess
    omega
  have hsplit : 2 ^ (Nat.log2 n - excess bits n) * 2 ^ excess bits n = 2 ^ Nat.log2 n := by
    rw [← pow_add, Nat.sub_add_cancel hle]
  have hkept : 2 ^ (Nat.log2 n - excess bits n) ≤ n / 2 ^ excess bits n := by
    rw [Nat.le_div_iff_mul_le (Nat.two_pow_pos _), hsplit]
    exact Nat.log2_self_le hn
  calc
    2 ^ Nat.log2 n = 2 ^ (Nat.log2 n - excess bits n) * 2 ^ excess bits n := hsplit.symm
    _ ≤ n / 2 ^ excess bits n * 2 ^ excess bits n := Nat.mul_le_mul_right _ hkept
    _ ≤ roundEven bits n := kept_le_roundEven bits n

/-- **Rounding does not cross a representable number.** Here the representable number has a unit
that may be `2 ^ scale` times smaller. -/
theorem le_roundEven_of_le (hbits : 0 < bits) {kept place scale : ℕ} (hkept : kept ≤ 2 ^ bits)
    (h : kept * 2 ^ place ≤ 2 ^ scale * n) :
    kept * 2 ^ place ≤ 2 ^ scale * roundEven bits n := by
  by_cases hexcess : excess bits n = 0
  · rwa [roundEven_of_excess hexcess]
  by_cases hplace : place < scale + excess bits n
  · have hlog : bits + place ≤ scale + Nat.log2 n := by
      unfold excess at hexcess hplace
      omega
    calc
      kept * 2 ^ place ≤ 2 ^ bits * 2 ^ place := Nat.mul_le_mul_right _ hkept
      _ = 2 ^ (bits + place) := (pow_add ..).symm
      _ ≤ 2 ^ (scale + Nat.log2 n) := Nat.pow_le_pow_right two_pos hlog
      _ = 2 ^ scale * 2 ^ Nat.log2 n := pow_add ..
      _ ≤ 2 ^ scale * roundEven bits n :=
        Nat.mul_le_mul_left _ (pow_log2_le_roundEven hbits hexcess)
  · obtain ⟨more, rfl⟩ := Nat.exists_eq_add_of_le (Nat.le_of_not_lt hplace)
    have hsplit : kept * 2 ^ (scale + excess bits n + more) =
        2 ^ scale * (kept * 2 ^ more * 2 ^ excess bits n) := by
      rw [pow_add, pow_add]
      ring
    rw [hsplit] at h ⊢
    have hle : kept * 2 ^ more * 2 ^ excess bits n ≤ n :=
      Nat.le_of_mul_le_mul_left h (Nat.two_pow_pos scale)
    have hdiv : kept * 2 ^ more ≤ n / 2 ^ excess bits n :=
      (Nat.le_div_iff_mul_le (Nat.two_pow_pos _)).mpr hle
    apply Nat.mul_le_mul_left
    exact (Nat.mul_le_mul_right _ hdiv).trans (kept_le_roundEven bits n)

end Vsys.Num
