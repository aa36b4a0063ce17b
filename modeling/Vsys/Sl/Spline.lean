import Mathlib
import Vsys.Num.Numerals
import Vsys.Num.Pieces
import Vsys.Sl.BandMatrix

/-!
# Cubic splines

The class `spline` of `sl/spline.cpp` lays a curve through points: between two of them a cubic, and
straight lines outside.  `set_points` finds the coefficients by way of a band matrix, `get_point`
looks up the piece with a binary search.

`Natural` says what the coefficients have to satisfy: the pieces meet in value, slope and curvature,
and the curvature vanishes at the ends.  `set_points` computes the only such coefficients.
-/

namespace Vsys.Sl

open Vsys.Num Finset

attribute [local instance] atLeastTwo_two atLeastTwo_three

/-- `spline`. -/
structure Spline (K : Type*) where
  n : ℕ
  mX : ℕ → K
  mY : ℕ → K
  mA : ℕ → K
  mB : ℕ → K
  mC : ℕ → K

namespace Spline

section Coefficients

variable {K : Type*} [Field K]

/-- A round of the loop of `set_points` that sets up the matrix. -/
def matrixRow (x : ℕ → K) (A : BandMatrix K) (i : ℕ) : BandMatrix K :=
  ((A.set i (i - 1) (1 / 3 * (x i - x (i - 1)))).set i i (2 / 3 * (x (i + 1) - x (i - 1)))).set i
    (i + 1) (1 / 3 * (x (i + 1) - x i))

/-- The matrix of the equations for `b`. -/
def matrix (n : ℕ) (x : ℕ → K) : BandMatrix K :=
  let A := (List.range' 1 (n - 2)).foldl (matrixRow x) (BandMatrix.create n 1 1)
  (((A.set 0 0 2).set 0 1 0).set (n - 1) (n - 1) 2).set (n - 1) (n - 2) 0

/-- The slope between a point and the next. -/
def slope (x y : ℕ → K) (i : ℕ) : K := (y (i + 1) - y i) / (x (i + 1) - x i)

/-- `rhs`. -/
def rhs (n : ℕ) (x y : ℕ → K) (i : ℕ) : K :=
  if 1 ≤ i ∧ i + 1 < n then slope x y i - (y i - y (i - 1)) / (x i - x (i - 1)) else 0

/-- `set_points`, for cubic splines. -/
def setPoints (n : ℕ) (x y : ℕ → K) : Spline K :=
  let b := (matrix n x).luSolve (rhs n x y)
  let a := fun i ↦ if i + 1 < n then 1 / 3 * (b (i + 1) - b i) / (x (i + 1) - x i) else 0
  let c := fun i ↦ slope x y i - 1 / 3 * (2 * b i + b (i + 1)) * (x (i + 1) - x i)
  let h := x (n - 1) - x (n - 2)
  { n := n
    mX := x
    mY := y
    mA := a
    mB := b
    mC := Function.update c (n - 1) (3 * a (n - 2) * h * h + 2 * b (n - 2) * h + c (n - 2)) }

/-! ## The equations -/

variable {n i j : ℕ} {x y : ℕ → K}

/-- A row of the matrix between the ends. -/
def innerRow (x : ℕ → K) (i c : ℕ) : K :=
  if c = i + 1 then 1 / 3 * (x (i + 1) - x i)
  else if c = i then 2 / 3 * (x (i + 1) - x (i - 1))
  else if c = i - 1 then 1 / 3 * (x i - x (i - 1))
  else 0

theorem get_matrixRow (x : ℕ → K) (A : BandMatrix K) (i r c : ℕ)
    (hzero : ∀ c, A.get i c = 0) :
    (matrixRow x A i).get r c = if r = i then innerRow x i c else A.get r c := by
  rw [matrixRow, BandMatrix.get_set, BandMatrix.get_set, BandMatrix.get_set, innerRow]
  by_cases hr : r = i
  · simp [hr, hzero]
  · simp [hr]

theorem sameShape_matrixRow (x : ℕ → K) (A : BandMatrix K) (i : ℕ) :
    BandMatrix.SameShape A (matrixRow x A i) :=
  ((A.sameShape_set _ _ _).trans (BandMatrix.sameShape_set _ _ _ _)).trans
    (BandMatrix.sameShape_set _ _ _ _)

theorem sameShape_matrix (n : ℕ) (x : ℕ → K) :
    BandMatrix.SameShape (BandMatrix.create n 1 1) (matrix n x) := by
  rw [matrix]
  refine .trans (.foldl (sameShape_matrixRow x) (List.range' 1 (n - 2)) _) ?_
  exact (((BandMatrix.sameShape_set _ _ _ _).trans (BandMatrix.sameShape_set _ _ _ _)).trans
    (BandMatrix.sameShape_set _ _ _ _)).trans (BandMatrix.sameShape_set _ _ _ _)

/-- The entries of the matrix. -/
theorem get_matrix (hn : 2 ≤ n) (x : ℕ → K) (hi : i < n) (c : ℕ) :
    (matrix n x).get i c =
      if i = 0 ∨ i + 1 = n then if c = i then 2 else 0 else innerRow x i c := by
  have hcreate : ∀ r c, (BandMatrix.create n 1 1 : BandMatrix K).get r c = 0 := by
    intro r c
    rw [BandMatrix.get]
    split <;> rfl
  have hfold := BandMatrix.get_foldl_rows (BandMatrix.create n 1 1) (matrixRow x) (innerRow x)
    (sameShape_matrixRow x) (fun A i _ _ hrow r c ↦
      get_matrixRow x A i r c fun c ↦
        (hrow i c (.inl rfl)).trans (hcreate i c))
    (List.nodup_range' (s := 1) (n := n - 2)) (List.Subset.refl _) i c
  have hmem : i ∈ List.range' 1 (n - 2) ↔ ¬ (i = 0 ∨ i + 1 = n) := by
    rw [List.mem_range'_1]
    omega
  rw [matrix]
  simp only [BandMatrix.get_set, hfold, hcreate, hmem]
  split_ifs <;> first | rfl | omega

/-! ## Three entries in a row -/

theorem sum_range_three {f : ℕ → K} (hi : 1 ≤ i) (hin : i + 1 < n)
    (hzero : ∀ j, j ≠ i - 1 → j ≠ i → j ≠ i + 1 → f j = 0) :
    ∑ j ∈ range n, f j = f (i - 1) + f i + f (i + 1) := by
  have hsub : ({i - 1, i, i + 1} : Finset ℕ) ⊆ range n := by
    intro j hj
    simp only [mem_insert, mem_singleton] at hj
    rw [mem_range]
    omega
  rw [← sum_subset hsub]
  · rw [sum_insert, sum_insert, sum_singleton, add_assoc]
    · simp
    · simp only [mem_insert, mem_singleton]
      omega
  · intro j _ hj
    simp only [mem_insert, mem_singleton, not_or] at hj
    exact hzero j hj.1 hj.2.1 hj.2.2

theorem toMatrix_matrix (n : ℕ) (x : ℕ → K) (i j : ℕ) :
    (matrix n x).toMatrix i j = if i ≤ j + 1 ∧ j ≤ i + 1 then (matrix n x).get i j else 0 :=
  (sameShape_matrix n x).toMatrix i j

theorem innerRow_left (hi : 1 ≤ i) (x : ℕ → K) :
    innerRow x i (i - 1) = 1 / 3 * (x i - x (i - 1)) := by
  rw [innerRow, if_neg (by omega), if_neg (by omega), if_pos rfl]

theorem innerRow_self (x : ℕ → K) (i : ℕ) :
    innerRow x i i = 2 / 3 * (x (i + 1) - x (i - 1)) := by
  rw [innerRow, if_neg (by omega), if_pos rfl]

theorem innerRow_right (x : ℕ → K) (i : ℕ) :
    innerRow x i (i + 1) = 1 / 3 * (x (i + 1) - x i) := if_pos rfl

theorem innerRow_other (x : ℕ → K) (hleft : j ≠ i - 1) (hself : j ≠ i) (hright : j ≠ i + 1) :
    innerRow x i j = 0 := by
  rw [innerRow, if_neg hright, if_neg hself, if_neg hleft]

/-- A row between the ends. -/
theorem toMatrix_matrix_inner (hi : 1 ≤ i) (hin : i + 1 < n) (x : ℕ → K) (c : ℕ) :
    (matrix n x).toMatrix i c = innerRow x i c := by
  rw [toMatrix_matrix]
  split_ifs with hband
  · rw [get_matrix (by omega) x (by omega), if_neg (by omega)]
  · exact (innerRow_other x (by omega) (by omega) (by omega)).symm

theorem sum_matrix_inner (hi : 1 ≤ i) (hin : i + 1 < n) (x b : ℕ → K) :
    ∑ j ∈ range n, (matrix n x).toMatrix i j * b j =
      1 / 3 * (x i - x (i - 1)) * b (i - 1) + 2 / 3 * (x (i + 1) - x (i - 1)) * b i +
        1 / 3 * (x (i + 1) - x i) * b (i + 1) := by
  simp only [toMatrix_matrix_inner hi hin]
  rw [sum_range_three hi hin, innerRow_left hi, innerRow_self, innerRow_right]
  intro j hleft hself hright
  rw [innerRow_other x hleft hself hright, zero_mul]

/-- The rows at the ends. -/
theorem toMatrix_matrix_end (hn : 2 ≤ n) (hi : i < n) (hend : i = 0 ∨ i + 1 = n) (x : ℕ → K)
    (c : ℕ) : (matrix n x).toMatrix i c = if c = i then 2 else 0 := by
  rw [toMatrix_matrix]
  split_ifs with hband hc hc
  · rw [get_matrix hn x hi c, if_pos hend, if_pos hc]
  · rw [get_matrix hn x hi c, if_pos hend, if_neg hc]
  · omega
  · rfl

theorem sum_matrix_end (hn : 2 ≤ n) (hi : i < n) (hend : i = 0 ∨ i + 1 = n) (x b : ℕ → K) :
    ∑ j ∈ range n, (matrix n x).toMatrix i j * b j = 2 * b i := by
  rw [sum_eq_single_of_mem i (mem_range.mpr hi)]
  · rw [toMatrix_matrix_end hn hi hend, if_pos rfl]
  · intro j _ hne
    rw [toMatrix_matrix_end hn hi hend, if_neg hne, zero_mul]

/-! ## Natural splines -/

/-- What a natural spline through the points satisfies: the pieces meet in value, slope and
curvature, and it is straight at the ends. -/
structure Natural (n : ℕ) (x y a b c : ℕ → K) : Prop where
  meets : ∀ i, i + 1 < n →
    ((a i * (x (i + 1) - x i) + b i) * (x (i + 1) - x i) + c i) * (x (i + 1) - x i) + y i =
      y (i + 1)
  slope_eq : ∀ i, i + 1 < n →
    3 * a i * (x (i + 1) - x i) ^ 2 + 2 * b i * (x (i + 1) - x i) + c i = c (i + 1)
  curvature_eq : ∀ i, i + 1 < n → 6 * a i * (x (i + 1) - x i) + 2 * b i = 2 * b (i + 1)
  first : b 0 = 0
  last : b (n - 1) = 0
  straight : a (n - 1) = 0

/-- The coefficients that go with `b`. -/
structure Follow (n : ℕ) (x y a b c : ℕ → K) : Prop where
  a_eq : ∀ i, i + 1 < n → a i = 1 / 3 * (b (i + 1) - b i) / (x (i + 1) - x i)
  c_eq : ∀ i, i + 1 < n →
    c i = slope x y i - 1 / 3 * (2 * b i + b (i + 1)) * (x (i + 1) - x i)
  a_last : a (n - 1) = 0
  c_last : c (n - 1) = 3 * a (n - 2) * (x (n - 1) - x (n - 2)) * (x (n - 1) - x (n - 2)) +
    2 * b (n - 2) * (x (n - 1) - x (n - 2)) + c (n - 2)

variable {a b c : ℕ → K}

/-- `m_c`. -/
theorem mC_setPoints (n : ℕ) (x y : ℕ → K) (i : ℕ) :
    (setPoints n x y).mC i = if i = n - 1 then
      3 * (setPoints n x y).mA (n - 2) * (x (n - 1) - x (n - 2)) * (x (n - 1) - x (n - 2)) +
        2 * (setPoints n x y).mB (n - 2) * (x (n - 1) - x (n - 2)) +
        (slope x y (n - 2) - 1 / 3 * (2 * (setPoints n x y).mB (n - 2) +
          (setPoints n x y).mB (n - 2 + 1)) * (x (n - 2 + 1) - x (n - 2)))
    else slope x y i - 1 / 3 * (2 * (setPoints n x y).mB i + (setPoints n x y).mB (i + 1)) *
      (x (i + 1) - x i) := by
  simp only [setPoints, Function.update_apply]

theorem follow_setPoints (hn : 2 ≤ n) (x y : ℕ → K) :
    Follow n x y (setPoints n x y).mA (setPoints n x y).mB (setPoints n x y).mC where
  a_eq i hi := if_pos hi
  c_eq i hi := by rw [mC_setPoints, if_neg (by omega)]
  a_last := if_neg (by omega)
  c_last := by rw [mC_setPoints, mC_setPoints, if_pos rfl, if_neg (by omega)]

variable {a' b' c' : ℕ → K}

theorem Follow.congr (hn : 2 ≤ n) (h : Follow n x y a b c)
    (hsame : ∀ i < n, a' i = a i ∧ b' i = b i ∧ c' i = c i) : Follow n x y a' b' c' where
  a_eq i hi := by
    rw [(hsame i (by omega)).1, (hsame i (by omega)).2.1, (hsame (i + 1) hi).2.1, h.a_eq i hi]
  c_eq i hi := by
    rw [(hsame i (by omega)).2.2, (hsame i (by omega)).2.1, (hsame (i + 1) hi).2.1, h.c_eq i hi]
  a_last := by rw [(hsame (n - 1) (by omega)).1, h.a_last]
  c_last := by
    obtain ⟨ha, hb, hc⟩ := hsame (n - 2) (by omega)
    rw [(hsame (n - 1) (by omega)).2.2, ha, hb, hc, h.c_last]

/-- The other coefficients are determined. -/
theorem Follow.eq (hn : 2 ≤ n) (h : Follow n x y a b c) (h' : Follow n x y a' b' c')
    (hb : ∀ i < n, b i = b' i) (hi : i < n) : a i = a' i ∧ b i = b' i ∧ c i = c' i := by
  have hinner : ∀ i, i + 1 < n → a i = a' i ∧ c i = c' i := by
    intro i hi
    constructor
    · rw [h.a_eq i hi, h'.a_eq i hi, hb i (by omega), hb (i + 1) hi]
    · rw [h.c_eq i hi, h'.c_eq i hi, hb i (by omega), hb (i + 1) hi]
  by_cases hlast : i + 1 < n
  · exact ⟨(hinner i hlast).1, hb i hi, (hinner i hlast).2⟩
  · obtain rfl : i = n - 1 := by omega
    obtain ⟨ha, hc⟩ := hinner (n - 2) (by omega)
    refine ⟨h.a_last.trans h'.a_last.symm, hb _ hi, ?_⟩
    rw [h.c_last, h'.c_last, ha, hc, hb (n - 2) (by omega)]

/-- The row of the system for an inner point. -/
theorem row_eq_iff (b : ℕ → K) (hin : i + 2 < n) :
    ∑ j ∈ range n, (matrix n x).toMatrix (i + 1) j * b j = rhs n x y (i + 1) ↔
      1 / 3 * (x (i + 1) - x i) * b i + 2 / 3 * (x (i + 2) - x i) * b (i + 1) +
        1 / 3 * (x (i + 2) - x (i + 1)) * b (i + 2) = slope x y (i + 1) - slope x y i := by
  have hrhs : rhs n x y (i + 1) = slope x y (i + 1) - slope x y i := if_pos ⟨by omega, hin⟩
  rw [sum_matrix_inner (by omega) hin, hrhs]
  rfl

section CharZero

variable [CharZero K]

/-- The slopes of two pieces meet exactly if a row of the system is satisfied. -/
theorem slope_eq_iff (hx : ∀ i, i + 1 < n → x (i + 1) - x i ≠ 0) (h : Follow n x y a b c)
    (hin : i + 2 < n) :
    3 * a i * (x (i + 1) - x i) ^ 2 + 2 * b i * (x (i + 1) - x i) + c i = c (i + 1) ↔
      1 / 3 * (x (i + 1) - x i) * b i + 2 / 3 * (x (i + 2) - x i) * b (i + 1) +
        1 / 3 * (x (i + 2) - x (i + 1)) * b (i + 2) = slope x y (i + 1) - slope x y i := by
  have hne := hx i (by omega)
  rw [h.a_eq i (by omega), h.c_eq i (by omega), h.c_eq (i + 1) hin]
  have hcube : 3 * (1 / 3 * (b (i + 1) - b i) / (x (i + 1) - x i)) * (x (i + 1) - x i) ^ 2 =
      (b (i + 1) - b i) * (x (i + 1) - x i) := by
    field_simp
  rw [hcube]
  constructor
  · intro hslope
    linear_combination hslope
  · intro hrow
    linear_combination hrow

/-- The rows for the ends. -/
theorem row_end_iff (hn : 2 ≤ n) (hi : i < n) (hend : i = 0 ∨ i + 1 = n) (b : ℕ → K) :
    ∑ j ∈ range n, (matrix n x).toMatrix i j * b j = rhs n x y i ↔ b i = 0 := by
  have hrhs : rhs n x y i = 0 := if_neg (by omega)
  rw [sum_matrix_end hn hi hend, hrhs, mul_eq_zero, or_iff_right two_ne_zero]

/-- The pieces of a natural spline follow from the curvatures. -/
theorem Natural.follow (hn : 2 ≤ n) (hx : ∀ i, i + 1 < n → x (i + 1) - x i ≠ 0)
    (h : Natural n x y a b c) : Follow n x y a b c where
  a_eq i hi := by
    rw [eq_div_iff (hx i hi)]
    linear_combination h.curvature_eq i hi / 6
  c_eq i hi := by
    have hne := hx i hi
    have hslope : slope x y i * (x (i + 1) - x i) = y (i + 1) - y i := div_mul_cancel₀ _ hne
    apply mul_right_cancel₀ hne
    linear_combination h.meets i hi - hslope - (x (i + 1) - x i) ^ 2 / 6 * h.curvature_eq i hi
  a_last := h.straight
  c_last := by
    have hslope := h.slope_eq (n - 2) (by omega)
    rw [show n - 2 + 1 = n - 1 by omega] at hslope
    linear_combination -hslope

/-- **The system** has the natural splines as its solutions. -/
theorem natural_iff (hn : 2 ≤ n) (hx : ∀ i, i + 1 < n → x (i + 1) - x i ≠ 0) :
    Natural n x y a b c ↔ Follow n x y a b c ∧
      ∀ i < n, ∑ j ∈ range n, (matrix n x).toMatrix i j * b j = rhs n x y i := by
  constructor
  · intro h
    have hfollow := h.follow hn hx
    refine ⟨hfollow, fun i hi ↦ ?_⟩
    rcases Nat.eq_zero_or_pos i with rfl | hpos
    · exact (row_end_iff hn hi (.inl rfl) b).mpr h.first
    · by_cases hlast : i + 1 = n
      · apply (row_end_iff hn hi (.inr hlast) b).mpr
        have hin : i = n - 1 := by omega
        exact hin ▸ h.last
      · obtain ⟨k, rfl⟩ := Nat.exists_eq_add_of_le' hpos
        have hin : k + 2 < n := by omega
        exact (row_eq_iff b hin).mpr ((slope_eq_iff hx hfollow hin).mp (h.slope_eq k (by omega)))
  · intro ⟨hfollow, hrows⟩
    have hfirst : b 0 = 0 := (row_end_iff hn (by omega) (.inl rfl) b).mp (hrows 0 (by omega))
    have hlast : b (n - 1) = 0 :=
      (row_end_iff hn (by omega) (.inr (by omega)) b).mp (hrows (n - 1) (by omega))
    refine ⟨fun i hi ↦ ?_, fun i hi ↦ ?_, fun i hi ↦ ?_, hfirst, hlast, hfollow.a_last⟩
    · have hne := hx i hi
      rw [hfollow.a_eq i hi, hfollow.c_eq i hi, slope]
      field_simp
      ring
    · by_cases hin : i + 2 < n
      · exact (slope_eq_iff hx hfollow hin).mpr ((row_eq_iff b hin).mp (hrows (i + 1) (by omega)))
      · have hi' : i = n - 2 := by omega
        have hi'' : n - 2 + 1 = n - 1 := by omega
        rw [hi', hi'', hfollow.c_last]
        ring
    · have hne := hx i hi
      rw [hfollow.a_eq i hi]
      field_simp
      ring

end CharZero

/-- The curve on both sides of the points, and between them. -/
def piece (s : Spline K) : ℕ → K → K
  | 0, t => (s.mB 0 * (t - s.mX 0) + s.mC 0) * (t - s.mX 0) + s.mY 0
  | k + 1, t =>
      ((s.mA k * (t - s.mX k) + s.mB k) * (t - s.mX k) + s.mC k) * (t - s.mX k) + s.mY k

/-- The pieces of a natural spline meet. -/
theorem piece_meets {s : Spline K} (h : Natural s.n s.mX s.mY s.mA s.mB s.mC) {k : ℕ}
    (hk : k < s.n) :
    s.piece k (s.mX k) = s.mY k ∧ s.piece (k + 1) (s.mX k) = s.mY k := by
  have hbehind : s.piece (k + 1) (s.mX k) = s.mY k := by
    rw [piece, sub_self]
    ring
  refine ⟨?_, hbehind⟩
  cases k with
  | zero =>
      rw [piece, sub_self]
      ring
  | succ k => exact h.meets k hk

end Coefficients

/-! ## Looking up -/

section Lookup

variable {K : Type*} [LinearOrder K] {s : Spline K}

/-- `lower_bound` in the increasing `m_x`: the first point that is not before `t`. -/
def lowerBound (s : Spline K) (t : K) : ℕ :=
  (List.range s.n).findIdx fun i ↦ !decide (s.mX i < t)

theorem lowerBound_eq (hx : Increasing s.n s.mX) (t : K) : s.lowerBound t = place s.mX t s.n := by
  symm
  apply place_eq hx
  · exact List.findIdx_le_length.trans_eq List.length_range
  · intro i hi
    simpa using List.not_of_lt_findIdx hi
  · intro hlt
    have hindex : (List.range s.n).findIdx (fun i ↦ !decide (s.mX i < t)) <
        (List.range s.n).length := hlt.trans_eq List.length_range.symm
    have hfound := List.findIdx_getElem (w := hindex)
    rw [lowerBound]
    simpa using hfound

end Lookup

section Curve

variable {K : Type*} [Field K] [LinearOrder K] {i : ℕ} {s : Spline K}

/-- `get_point`. -/
def getPoint (s : Spline K) (t : K) : K :=
  let idx := s.lowerBound t - 1
  let h := t - s.mX idx
  if t < s.mX 0 then (s.mB 0 * h + s.mC 0) * h + s.mY 0
  else if s.mX (s.n - 1) < t then
    (s.mB (s.n - 1) * h + s.mC (s.n - 1)) * h + s.mY (s.n - 1)
  else ((s.mA idx * h + s.mB idx) * h + s.mC idx) * h + s.mY idx

/-- **`get_point`** follows the pieces. -/
theorem getPoint_eq (hn : 1 ≤ s.n) (hx : Increasing s.n s.mX) (hlast : s.mA (s.n - 1) = 0) (t : K) :
    s.getPoint t = s.piece (place s.mX t s.n) t := by
  have hbound := lowerBound_eq hx t
  rw [getPoint, hbound]
  split_ifs with hleft hright
  · have hplace : place s.mX t s.n = 0 :=
      place_eq hx (Nat.zero_le _) (fun i hi ↦ absurd hi (Nat.not_lt_zero i)) fun _ ↦ hleft.le
    rw [hplace]
    rfl
  · have hplace : place s.mX t s.n = s.n - 1 + 1 := by
      apply place_eq hx (by omega)
      · intro i hi
        exact (hx.le (by omega) (by omega)).trans_lt hright
      · omega
    rw [hplace, piece, hlast, zero_mul, zero_add, Nat.add_sub_cancel]
  · cases hplace : place s.mX t s.n with
    | succ k => rfl
    | zero =>
        -- the first point itself
        have heq : t = s.mX 0 := by
          apply le_antisymm _ (not_lt.mp hleft)
          by_contra hlt
          have hpos := (lt_place_iff hx hn).mpr (not_le.mp hlt)
          omega
        rw [piece, heq, sub_self]
        ring

/-- **Interpolation.** The curve goes through the points. -/
theorem getPoint_point (hn : 1 ≤ s.n) (hx : Increasing s.n s.mX)
    (h : Natural s.n s.mX s.mY s.mA s.mB s.mC) (hi : i < s.n) :
    s.getPoint (s.mX i) = s.mY i := by
  have hplace : place s.mX (s.mX i) s.n = i :=
    place_eq hx hi.le (fun k hk ↦ hx.lt hk hi) fun _ ↦ le_rfl
  rw [getPoint_eq hn hx h.straight, hplace]
  exact (piece_meets h hi).1

/-- Outside the curve is a straight line. -/
theorem getPoint_of_le (hn : 1 ≤ s.n) (hx : Increasing s.n s.mX)
    (h : Natural s.n s.mX s.mY s.mA s.mB s.mC) {t : K} (ht : t ≤ s.mX 0) :
    s.getPoint t = s.mC 0 * (t - s.mX 0) + s.mY 0 := by
  have hplace : place s.mX t s.n = 0 :=
    place_eq hx (Nat.zero_le _) (fun i hi ↦ absurd hi (Nat.not_lt_zero i)) fun _ ↦ ht
  rw [getPoint_eq hn hx h.straight, hplace, piece, h.first, zero_mul, zero_add]

theorem getPoint_of_ge (hn : 1 ≤ s.n) (hx : Increasing s.n s.mX)
    (h : Natural s.n s.mX s.mY s.mA s.mB s.mC) {t : K} (ht : s.mX (s.n - 1) ≤ t) :
    s.getPoint t = s.mC (s.n - 1) * (t - s.mX (s.n - 1)) + s.mY (s.n - 1) := by
  rcases ht.eq_or_lt with heq | hlt
  · rw [← heq, getPoint_point hn hx h (by omega), sub_self, mul_zero, zero_add]
  · have hplace : place s.mX t s.n = s.n - 1 + 1 := by
      apply place_eq hx (by omega)
      · intro i hi
        exact (hx.le (by omega) (by omega)).trans_lt hlt
      · omega
    rw [getPoint_eq hn hx h.straight, hplace, piece, h.straight, h.last, zero_mul, zero_add,
      zero_mul, zero_add]

end Curve

/-! ## The solution -/

section Solution

variable {K : Type*} [Field K] [LinearOrder K] [IsStrictOrderedRing K] {n i : ℕ} {x : ℕ → K}

theorem increasing_natCast (n : ℕ) : Increasing n fun t : ℕ ↦ (t : K) :=
  fun i _ ↦ Nat.cast_lt.mpr (Nat.lt_succ_self i)

theorem gap_pos (h : Increasing n x) (hi : i + 1 < n) : 0 < x (i + 1) - x i := sub_pos.mpr (h i hi)

/-- The rows of the matrix are dominated by their diagonal. -/
theorem dominated_matrix (hn : 2 ≤ n) (hx : Increasing n x) (hi : i < n) :
    Dominated (matrix n x).toMatrix n 0 i := by
  have hrange : Ico 0 n = range n := (range_eq_Ico n).symm
  rw [Dominated, hrange]
  by_cases hend : i = 0 ∨ i + 1 = n
  · rw [sum_eq_zero, toMatrix_matrix_end hn hi hend, if_pos rfl]
    · exact abs_pos.mpr two_ne_zero
    · intro j hj
      rw [toMatrix_matrix_end hn hi hend, if_neg (ne_of_mem_erase hj), abs_zero]
  · have hpos : 1 ≤ i := by omega
    have hin : i + 1 < n := by omega
    have hleft : 0 < x i - x (i - 1) := sub_pos.mpr (hx.lt (by omega) hi)
    have hright : 0 < x (i + 1) - x i := gap_pos hx hin
    have hsum : ∑ j ∈ (range n).erase i, |innerRow x i j| =
        |innerRow x i (i - 1)| + |innerRow x i (i + 1)| := by
      calc
        ∑ j ∈ (range n).erase i, |innerRow x i j| =
            ∑ j ∈ (range n).erase i, if j = i then 0 else |innerRow x i j| := by
          apply sum_congr rfl
          intro j hj
          rw [if_neg (ne_of_mem_erase hj)]
        _ = ∑ j ∈ range n, if j = i then 0 else |innerRow x i j| := sum_erase _ (if_pos rfl)
        _ = |innerRow x i (i - 1)| + |innerRow x i (i + 1)| := by
          rw [sum_range_three hpos hin, if_neg (by omega), if_pos rfl, if_neg (by omega), add_zero]
          intro j hleft hself hright
          rw [innerRow_other x hleft hself hright, abs_zero, if_neg hself]
    simp only [toMatrix_matrix_inner hpos hin]
    rw [hsum, innerRow_left hpos, innerRow_self, innerRow_right, abs_of_pos (by linarith),
      abs_of_pos (by linarith), abs_of_pos (by linarith)]
    linarith

/-- **`set_points`** finds the natural spline through the points, and there is no other. -/
theorem setPoints_iff (hn : 2 ≤ n) (hx : Increasing n x) (y a b c : ℕ → K) :
    Natural n x y a b c ↔ ∀ i < n, a i = (setPoints n x y).mA i ∧ b i = (setPoints n x y).mB i ∧
      c i = (setPoints n x y).mC i := by
  have hgaps : ∀ i, i + 1 < n → x (i + 1) - x i ≠ 0 := fun i hi ↦ (gap_pos hx hi).ne'
  have hdim : (matrix n x).dim = n := (sameShape_matrix n x).dim
  have hsolvable : (matrix n x).Solvable := by
    apply BandMatrix.solvable_of_dominated
    intro i hi
    rw [hdim] at hi ⊢
    exact dominated_matrix hn hx hi
  have hsolve := BandMatrix.luSolve_iff hsolvable (rhs n x y)
  rw [hdim] at hsolve
  have hfollow := follow_setPoints hn x y
  rw [natural_iff hn hgaps, hsolve b]
  constructor
  · intro ⟨h, hb⟩ i hi
    exact h.eq hn hfollow hb hi
  · intro h
    exact ⟨hfollow.congr hn h, fun i hi ↦ (h i hi).2.1⟩

/-- Three points on a straight line. -/
theorem setPoints_iff_three :
    Natural 3 (fun t ↦ (t : ℚ)) (fun t ↦ (t : ℚ)) (fun _ ↦ 0) (fun _ ↦ 0) (fun _ ↦ 1) ↔
      ∀ i < 3, 0 = (setPoints 3 (fun t ↦ (t : ℚ)) fun t ↦ (t : ℚ)).mA i ∧
        0 = (setPoints 3 (fun t ↦ (t : ℚ)) fun t ↦ (t : ℚ)).mB i ∧
        1 = (setPoints 3 (fun t ↦ (t : ℚ)) fun t ↦ (t : ℚ)).mC i :=
  setPoints_iff (by decide) (increasing_natCast 3) _ _ _ _

theorem natural_setPoints (hn : 2 ≤ n) (hx : Increasing n x) (y : ℕ → K) :
    Natural n x y (setPoints n x y).mA (setPoints n x y).mB (setPoints n x y).mC :=
  (setPoints_iff hn hx y _ _ _).mpr fun _ _ ↦ ⟨rfl, rfl, rfl⟩

end Solution


end Spline

end Vsys.Sl
