import Mathlib.Algebra.BigOperators.Intervals
import Mathlib.Algebra.BigOperators.Ring.Finset
import Mathlib.Algebra.Order.BigOperators.Group.Finset
import Mathlib.Algebra.Order.Field.Basic
import Mathlib.Tactic.Linarith
import Mathlib.Tactic.Ring

/-!
# Elimination in place

Gaussian elimination without exchanges of rows, as programs do it: the factors by which a row is
subtracted take the place of the zeros below the diagonal.  The result holds a lower and an upper
triangle whose product is the matrix, and two substitutions solve the system.

A matrix is a function of two indices, of which the first `n` are looked at.  Rows that are
dominated by their diagonal stay so, which is why no pivot vanishes.
-/

namespace Vsys.Num

open Finset

variable {K : Type*} [Field K]

/-- Column `k` is cleared below the diagonal. -/
def pivotStep (k : ℕ) (a : ℕ → ℕ → K) (i j : ℕ) : K :=
  if k < i then
    if j = k then a i k / a k k else if k < j then a i j - a i k / a k k * a k j else a i j
  else a i j

/-- The first `k` columns are cleared. -/
def eliminated (a : ℕ → ℕ → K) : ℕ → ℕ → ℕ → K
  | 0 => a
  | k + 1 => pivotStep k (eliminated a k)

/-- The triangle below the diagonal, with ones on it. -/
def lowerPart (a : ℕ → ℕ → K) (i m : ℕ) : K := if m < i then a i m else if m = i then 1 else 0

/-- The triangle on and above the diagonal. -/
def upperPart (a : ℕ → ℕ → K) (m j : ℕ) : K := if m ≤ j then a m j else 0

variable {a : ℕ → ℕ → K} {n k i j : ℕ}

/-- An entry is final when its column or its row has been reached. -/
theorem pivotStep_of_le (h : min i (j + 1) ≤ k) : pivotStep k a i j = a i j := by
  rw [pivotStep]
  split_ifs with hrow hcol hright
  · omega
  · omega
  · rfl
  · rfl

theorem eliminated_of_le (hk : k ≤ n) (h : min i (j + 1) ≤ k) :
    eliminated a n i j = eliminated a k i j := by
  induction n, hk using Nat.le_induction with
  | base => rfl
  | succ n hn ih => exact (pivotStep_of_le (h.trans hn)).trans ih

/-- What is left to do is what the triangles do not account for yet. -/
theorem eq_sum_add_rest (hpivot : ∀ k < n, eliminated a k k k ≠ 0) (hk : k ≤ n) (i j : ℕ) :
    a i j = ∑ m ∈ range k, lowerPart (eliminated a n) i m * upperPart (eliminated a n) m j +
      if k ≤ i ∧ k ≤ j then eliminated a k i j else 0 := by
  induction k with
  | zero => simp [eliminated]
  | succ k ih =>
      have hlt : k < n := hk
      have hupper : ∀ j, k ≤ j → upperPart (eliminated a n) k j = eliminated a k k j := by
        intro j hj
        rw [upperPart, if_pos hj]
        exact eliminated_of_le hlt.le (by omega)
      have hlower : ∀ i, k < i → lowerPart (eliminated a n) i k =
          eliminated a k i k / eliminated a k k k := by
        intro i hi
        have hfinal : eliminated a n i k = eliminated a (k + 1) i k :=
          eliminated_of_le hk (by omega)
        rw [lowerPart, if_pos hi, hfinal, eliminated, pivotStep, if_pos hi, if_pos rfl]
      have hstep : (if k ≤ i ∧ k ≤ j then eliminated a k i j else 0) =
          lowerPart (eliminated a n) i k * upperPart (eliminated a n) k j +
            if k + 1 ≤ i ∧ k + 1 ≤ j then eliminated a (k + 1) i j else 0 := by
        rcases lt_trichotomy i k with hi | rfl | hi
        · have hzero : lowerPart (eliminated a n) i k = 0 := by
            rw [lowerPart, if_neg (by omega), if_neg (by omega)]
          rw [hzero, if_neg (by omega), if_neg (by omega), zero_mul, zero_add]
        · have hone : lowerPart (eliminated a n) i i = 1 := by
            rw [lowerPart, if_neg (by omega), if_pos rfl]
          have hdone : ¬ (i + 1 ≤ i ∧ i + 1 ≤ j) := fun h ↦ absurd h.1 (Nat.not_succ_le_self i)
          rw [hone, one_mul, if_neg hdone, add_zero]
          split_ifs with hj
          · exact (hupper j hj.2).symm
          · rw [upperPart, if_neg fun h ↦ hj ⟨le_rfl, h⟩]
        · rcases lt_trichotomy j k with hj | rfl | hj
          · have hzero : upperPart (eliminated a n) k j = 0 := by
              rw [upperPart, if_neg (by omega)]
            rw [hzero, if_neg (by omega), if_neg (by omega), mul_zero, zero_add]
          · rw [if_pos ⟨hi.le, le_rfl⟩, if_neg (by omega), add_zero, hlower i hi, hupper j le_rfl,
              div_mul_cancel₀ _ (hpivot j hlt)]
          · rw [if_pos ⟨hi.le, hj.le⟩, if_pos ⟨hi, hj⟩, hlower i hi, hupper j hj.le, eliminated,
              pivotStep, if_pos hi, if_neg (by omega), if_pos hj]
            ring
      calc
        a i j = ∑ m ∈ range k, lowerPart (eliminated a n) i m * upperPart (eliminated a n) m j +
            if k ≤ i ∧ k ≤ j then eliminated a k i j else 0 := ih hlt.le
        _ = _ := by rw [hstep, sum_range_succ, add_assoc]

/-- **The two triangles** multiply to the matrix. -/
theorem eq_sum_lowerPart_upperPart (hpivot : ∀ k < n, eliminated a k k k ≠ 0) (hi : i < n)
    (j : ℕ) :
    a i j = ∑ m ∈ range n, lowerPart (eliminated a n) i m * upperPart (eliminated a n) m j := by
  have h := eq_sum_add_rest hpivot le_rfl i j
  rwa [if_neg (by omega), add_zero] at h

/-! ## Substitutions -/

variable {b x y : ℕ → K}

/-- `y` is what forward substitution gives for `b`. -/
def Forward (a : ℕ → ℕ → K) (n : ℕ) (b y : ℕ → K) : Prop :=
  ∀ i < n, y i = b i - ∑ j ∈ range i, a i j * y j

/-- `x` is what backward substitution gives for `y`. -/
def Backward (a : ℕ → ℕ → K) (n : ℕ) (y x : ℕ → K) : Prop :=
  ∀ i < n, x i = (y i - ∑ j ∈ Ico (i + 1) n, a i j * x j) / a i i

theorem sum_lowerPart (a : ℕ → ℕ → K) (y : ℕ → K) (hi : i < n) :
    ∑ m ∈ range n, lowerPart a i m * y m = ∑ j ∈ range i, a i j * y j + y i := by
  have hsplit := sum_range_add_sum_Ico (fun m ↦ lowerPart a i m * y m) hi.le
  have htail : ∑ m ∈ Ico i n, lowerPart a i m * y m = y i := by
    rw [sum_eq_single_of_mem i (left_mem_Ico.mpr hi)]
    · rw [lowerPart, if_neg (lt_irrefl i), if_pos rfl, one_mul]
    · intro m hm hne
      have hle := (mem_Ico.mp hm).1
      rw [lowerPart, if_neg (by omega), if_neg hne, zero_mul]
  have hhead : ∑ m ∈ range i, lowerPart a i m * y m = ∑ j ∈ range i, a i j * y j := by
    apply sum_congr rfl
    intro m hm
    rw [lowerPart, if_pos (mem_range.mp hm)]
  rw [← hsplit, hhead, htail]

theorem sum_upperPart (a : ℕ → ℕ → K) (x : ℕ → K) (hi : i < n) :
    ∑ j ∈ range n, upperPart a i j * x j = a i i * x i + ∑ j ∈ Ico (i + 1) n, a i j * x j := by
  have hsplit := sum_range_add_sum_Ico (fun j ↦ upperPart a i j * x j) hi.le
  have hhead : ∑ j ∈ range i, upperPart a i j * x j = 0 := by
    apply sum_eq_zero
    intro j hj
    rw [upperPart, if_neg (by simpa using hj), zero_mul]
  have htail : ∑ j ∈ Ico i n, upperPart a i j * x j = ∑ j ∈ Ico i n, a i j * x j := by
    apply sum_congr rfl
    intro j hj
    rw [upperPart, if_pos (mem_Ico.mp hj).1]
  rw [← hsplit, hhead, htail, zero_add, sum_eq_sum_Ico_succ_bot hi]

theorem backward_iff (hdiag : ∀ i < n, a i i ≠ 0) :
    Backward a n y x ↔ ∀ i < n, ∑ j ∈ range n, upperPart a i j * x j = y i := by
  refine forall₂_congr fun i hi ↦ ?_
  rw [sum_upperPart a x hi, eq_div_iff (hdiag i hi), eq_sub_iff_add_eq, mul_comm]

theorem forward_iff :
    Forward a n b y ↔ ∀ i < n, ∑ m ∈ range n, lowerPart a i m * y m = b i := by
  refine forall₂_congr fun i hi ↦ ?_
  rw [sum_lowerPart a y hi, eq_sub_iff_add_eq, add_comm]

/-- A row of the matrix, by way of the triangles. -/
theorem sum_triangles (hpivot : ∀ k < n, eliminated a k k k ≠ 0) (x : ℕ → K) (hi : i < n) :
    ∑ j ∈ range n, a i j * x j = ∑ m ∈ range n, lowerPart (eliminated a n) i m *
      ∑ j ∈ range n, upperPart (eliminated a n) m j * x j := by
  simp only [mul_sum]
  rw [sum_comm]
  apply sum_congr rfl
  intro j _
  rw [eq_sum_lowerPart_upperPart hpivot hi j, sum_mul]
  simp only [mul_assoc]

/-- **Solving.** The substitutions with the triangles solve the system. -/
theorem solves_of_substitutions (hpivot : ∀ k < n, eliminated a k k k ≠ 0)
    (hforward : Forward (eliminated a n) n b y) (hbackward : Backward (eliminated a n) n y x)
    (hi : i < n) : ∑ j ∈ range n, a i j * x j = b i := by
  have hdiag : ∀ i < n, eliminated a n i i ≠ 0 := by
    intro i hi
    rw [eliminated_of_le hi.le (min_le_left _ _)]
    exact hpivot i hi
  have hupper := (backward_iff hdiag).mp hbackward
  have hlower := forward_iff.mp hforward
  calc
    ∑ j ∈ range n, a i j * x j = ∑ m ∈ range n, lowerPart (eliminated a n) i m *
        ∑ j ∈ range n, upperPart (eliminated a n) m j * x j := sum_triangles hpivot x hi
    _ = ∑ m ∈ range n, lowerPart (eliminated a n) i m * y m := by
      apply sum_congr rfl
      intro m hm
      rw [hupper m (mem_range.mp hm)]
    _ = b i := hlower i hi

theorem Forward.eq {y' : ℕ → K} (h : Forward a n b y) (h' : Forward a n b y') (hi : i < n) :
    y i = y' i := by
  induction i using Nat.strong_induction_on with
  | _ i ih =>
      have hsum : ∑ j ∈ range i, a i j * y j = ∑ j ∈ range i, a i j * y' j := by
        apply sum_congr rfl
        intro j hj
        have hlt := mem_range.mp hj
        rw [ih j hlt (hlt.trans hi)]
      rw [h i hi, h' i hi, hsum]

theorem Backward.eq {x' : ℕ → K} (h : Backward a n y x) (h' : Backward a n y x') (hi : i < n) :
    x i = x' i := by
  -- the induction is on the number of rows below
  induction hrows : n - i using Nat.strong_induction_on generalizing i with
  | _ rows ih =>
      have hsum : ∑ j ∈ Ico (i + 1) n, a i j * x j = ∑ j ∈ Ico (i + 1) n, a i j * x' j := by
        apply sum_congr rfl
        intro j hj
        obtain ⟨hlow, hhigh⟩ := mem_Ico.mp hj
        rw [ih (n - j) (by omega) hhigh rfl]
      rw [h i hi, h' i hi, hsum]

theorem Forward.congr {b' : ℕ → K} (h : Forward a n b y) (hb : ∀ i < n, b i = b' i) :
    Forward a n b' y := by
  intro i hi
  rw [← hb i hi]
  exact h i hi

theorem Backward.congr {y' : ℕ → K} (h : Backward a n y x) (hy : ∀ i < n, y i = y' i) :
    Backward a n y' x := by
  intro i hi
  rw [← hy i hi]
  exact h i hi

theorem Forward.congr_matrix {a' : ℕ → ℕ → K} (h : Forward a n b y)
    (ha : ∀ i j, i < n → j < n → a i j = a' i j) : Forward a' n b y := by
  intro i hi
  have hsum : ∑ j ∈ range i, a' i j * y j = ∑ j ∈ range i, a i j * y j := by
    apply sum_congr rfl
    intro j hj
    rw [ha i j hi ((mem_range.mp hj).trans hi)]
  rw [hsum]
  exact h i hi

theorem Backward.congr_matrix {a' : ℕ → ℕ → K} (h : Backward a n y x)
    (ha : ∀ i j, i < n → j < n → a i j = a' i j) : Backward a' n y x := by
  intro i hi
  have hsum : ∑ j ∈ Ico (i + 1) n, a' i j * x j = ∑ j ∈ Ico (i + 1) n, a i j * x j := by
    apply sum_congr rfl
    intro j hj
    rw [ha i j hi (mem_Ico.mp hj).2]
  rw [hsum, ← ha i i hi hi]
  exact h i hi

/-- **There is no other solution.** -/
theorem eq_of_solves {x' : ℕ → K} (hpivot : ∀ k < n, eliminated a k k k ≠ 0)
    (h : ∀ i < n, ∑ j ∈ range n, a i j * x j = ∑ j ∈ range n, a i j * x' j) (hi : i < n) :
    x i = x' i := by
  have hdiag : ∀ i < n, eliminated a n i i ≠ 0 := by
    intro i hi
    rw [eliminated_of_le hi.le (min_le_left _ _)]
    exact hpivot i hi
  have hforward : ∀ x : ℕ → K, Forward (eliminated a n) n (fun i ↦ ∑ j ∈ range n, a i j * x j)
      fun m ↦ ∑ j ∈ range n, upperPart (eliminated a n) m j * x j :=
    fun x ↦ forward_iff.mpr fun i hi ↦ (sum_triangles hpivot x hi).symm
  have hsame : Forward (eliminated a n) n (fun i ↦ ∑ j ∈ range n, a i j * x j)
      fun m ↦ ∑ j ∈ range n, upperPart (eliminated a n) m j * x' j :=
    (hforward x').congr fun i hi ↦ (h i hi).symm
  have hupper := fun i (hi : i < n) ↦ (hforward x).eq hsame hi
  have hback := (backward_iff hdiag).mpr fun i (_ : i < n) ↦
    (rfl : ∑ j ∈ range n, upperPart (eliminated a n) i j * x j = _)
  have hback' := (backward_iff hdiag).mpr fun i (_ : i < n) ↦
    (rfl : ∑ j ∈ range n, upperPart (eliminated a n) i j * x' j = _)
  exact (hback.congr hupper).eq hback' hi

/-! ## Dominated rows -/

section Dominated

variable {K : Type*} [Field K] [LinearOrder K] [IsStrictOrderedRing K] {a : ℕ → ℕ → K} {n k : ℕ}

/-- From column `k` on, the diagonal dominates row `i`. -/
def Dominated (a : ℕ → ℕ → K) (n k i : ℕ) : Prop :=
  ∑ j ∈ (Ico k n).erase i, |a i j| < |a i i|

theorem Dominated.ne_zero (h : Dominated a n k i) : a i i ≠ 0 := by
  intro hzero
  rw [Dominated, hzero, abs_zero] at h
  exact absurd h (not_lt.mpr (sum_nonneg fun j _ ↦ abs_nonneg _))

/-- **Clearing a column** leaves the rows below dominated. -/
theorem Dominated.pivotStep (hk : Dominated a n k k) (hi : Dominated a n k i) (hki : k < i)
    (hin : i < n) : Dominated (pivotStep k a) n (k + 1) i := by
  have hkn : k < n := hki.trans hin
  have hpivot := hk.ne_zero
  set l := a i k / a k k with hl
  -- the rest of the pivot row, without the diagonal of row `i`
  have hrow : ∑ j ∈ (Ico (k + 1) n).erase i, |a k j| + |a k i| < |a k k| := by
    have hmem : i ∈ Ico (k + 1) n := mem_Ico.mpr ⟨hki, hin⟩
    have herase : (Ico k n).erase k = Ico (k + 1) n := by
      ext j
      simp only [mem_erase, mem_Ico]
      omega
    rw [Dominated, herase, ← sum_erase_add _ _ hmem] at hk
    exact hk
  have hown : ∑ j ∈ (Ico (k + 1) n).erase i, |a i j| + |a i k| < |a i i| := by
    have hmem : k ∈ (Ico k n).erase i := mem_erase.mpr ⟨hki.ne, mem_Ico.mpr ⟨le_rfl, hkn⟩⟩
    have herase : ((Ico k n).erase i).erase k = (Ico (k + 1) n).erase i := by
      ext j
      simp only [mem_erase, mem_Ico]
      omega
    rw [Dominated, ← sum_erase_add _ _ hmem, herase] at hi
    exact hi
  have hcancel : |l| * |a k k| = |a i k| := by
    rw [← abs_mul, hl, div_mul_cancel₀ _ hpivot]
  have hentry : ∀ j, k < j → Vsys.Num.pivotStep k a i j = a i j - l * a k j := by
    intro j hj
    rw [Vsys.Num.pivotStep, if_pos hki, if_neg hj.ne', if_pos hj]
  have hrest : ∑ j ∈ (Ico (k + 1) n).erase i, |Vsys.Num.pivotStep k a i j| ≤
      ∑ j ∈ (Ico (k + 1) n).erase i, |a i j| + |l| * ∑ j ∈ (Ico (k + 1) n).erase i, |a k j| := by
    rw [mul_sum, ← sum_add_distrib]
    apply sum_le_sum
    intro j hj
    have hlt : k < j := (mem_Ico.mp (mem_of_mem_erase hj)).1
    rw [hentry j hlt, ← abs_mul]
    exact abs_sub _ _
  have hscaled : |l| * ∑ j ∈ (Ico (k + 1) n).erase i, |a k j| + |l| * |a k i| ≤ |a i k| := by
    rw [← hcancel, ← mul_add]
    exact mul_le_mul_of_nonneg_left hrow.le (abs_nonneg l)
  have hdiag : |a i i| - |l| * |a k i| ≤ |Vsys.Num.pivotStep k a i i| := by
    rw [hentry i hki, ← abs_mul]
    exact abs_sub_abs_le_abs_sub _ _
  rw [Dominated]
  calc
    ∑ j ∈ (Ico (k + 1) n).erase i, |Vsys.Num.pivotStep k a i j| ≤
        ∑ j ∈ (Ico (k + 1) n).erase i, |a i j| +
          |l| * ∑ j ∈ (Ico (k + 1) n).erase i, |a k j| := hrest
    _ < |a i i| - |l| * |a k i| := by linarith
    _ ≤ |Vsys.Num.pivotStep k a i i| := hdiag

theorem dominated_eliminated (h : ∀ i < n, Dominated a n 0 i) (hk : k ≤ n) (hi : k ≤ i)
    (hin : i < n) : Dominated (eliminated a k) n k i := by
  induction k generalizing i with
  | zero => exact h i hin
  | succ k ih =>
      have hlt : k < i := hi
      exact (ih (by omega) le_rfl (by omega)).pivotStep (ih (by omega) hlt.le hin) hlt hin

/-- **No pivot vanishes.** -/
theorem eliminated_ne_zero (h : ∀ i < n, Dominated a n 0 i) (hk : k < n) :
    eliminated a k k k ≠ 0 :=
  (dominated_eliminated h hk.le le_rfl hk).ne_zero

end Dominated

end Vsys.Num
