import Mathlib
import Vsys.Num.Numerals
import Vsys.Num.Pieces
import Vsys.Sl.Spline

/-!
# The curve of a spline

Over the real numbers the curve that `get_point` draws after `set_points` is twice continuously
differentiable, goes through the points, and is straight outside of them.  `ProcessSingleFrm` asks
it for the correlation of two microphones at the delay of every direction; the delays lie between
the points, so that no curve is ever continued beyond them.
-/

namespace Vsys.Sl

open Vsys.Num

attribute [local instance] atLeastTwo_two atLeastTwo_three

namespace Spline

/-- The slope of a piece. -/
def pieceSlope (s : Spline ℝ) : ℕ → ℝ → ℝ
  | 0, t => 2 * s.mB 0 * (t - s.mX 0) + s.mC 0
  | k + 1, t => 3 * s.mA k * (t - s.mX k) ^ 2 + 2 * s.mB k * (t - s.mX k) + s.mC k

/-- The second derivative of a piece. -/
def pieceCurvature (s : Spline ℝ) : ℕ → ℝ → ℝ
  | 0, _ => 2 * s.mB 0
  | k + 1, t => 6 * s.mA k * (t - s.mX k) + 2 * s.mB k

variable {s : Spline ℝ} {n : ℕ} {x : ℕ → ℝ}

theorem hasDerivAt_piece (s : Spline ℝ) (k : ℕ) (t : ℝ) :
    HasDerivAt (s.piece k) (s.pieceSlope k t) t := by
  cases k with
  | zero =>
      have hsub := (hasDerivAt_id t).sub_const (s.mX 0)
      have hpoly := ((((hsub.const_mul (s.mB 0)).add_const (s.mC 0)).mul hsub).add_const (s.mY 0))
      refine hpoly.congr_deriv ?_
      simp only [pieceSlope, id]
      ring
  | succ k =>
      have hsub := (hasDerivAt_id t).sub_const (s.mX k)
      have hquad := ((hsub.const_mul (s.mA k)).add_const (s.mB k)).mul hsub
      have hpoly := ((hquad.add_const (s.mC k)).mul hsub).add_const (s.mY k)
      refine hpoly.congr_deriv ?_
      simp only [pieceSlope, id, Pi.mul_apply]
      ring

theorem hasDerivAt_pieceSlope (s : Spline ℝ) (k : ℕ) (t : ℝ) :
    HasDerivAt (s.pieceSlope k) (s.pieceCurvature k t) t := by
  cases k with
  | zero =>
      have hsub := (hasDerivAt_id t).sub_const (s.mX 0)
      refine ((hsub.const_mul (2 * s.mB 0)).add_const (s.mC 0)).congr_deriv ?_
      exact mul_one _
  | succ k =>
      have hsub := (hasDerivAt_id t).sub_const (s.mX k)
      have hpoly := (((hsub.pow 2).const_mul (3 * s.mA k)).add
        (hsub.const_mul (2 * s.mB k))).add_const (s.mC k)
      refine hpoly.congr_deriv ?_
      simp only [pieceCurvature, id]
      ring

theorem continuous_pieceCurvature (s : Spline ℝ) (k : ℕ) : Continuous (s.pieceCurvature k) := by
  cases k with
  | zero => exact continuous_const
  | succ k =>
      change Continuous fun t ↦ 6 * s.mA k * (t - s.mX k) + 2 * s.mB k
      fun_prop

/-- The derivatives of the pieces meet as well. -/
theorem meet_piece (h : Natural s.n s.mX s.mY s.mA s.mB s.mC) :
    Meet s.n s.mX s.piece ∧ Meet s.n s.mX s.pieceSlope ∧ Meet s.n s.mX s.pieceCurvature := by
  refine ⟨fun k hk ↦ ?_, fun k hk ↦ ?_, fun k hk ↦ ?_⟩
  · obtain ⟨hbefore, hbehind⟩ := piece_meets h hk
    exact hbefore.trans hbehind.symm
  · have hbehind : s.pieceSlope (k + 1) (s.mX k) = s.mC k := by
      rw [pieceSlope, sub_self]
      ring
    rw [hbehind]
    cases k with
    | zero => rw [pieceSlope, sub_self, mul_zero, zero_add]
    | succ k => exact h.slope_eq k hk
  · have hbehind : s.pieceCurvature (k + 1) (s.mX k) = 2 * s.mB k := by
      rw [pieceCurvature, sub_self, mul_zero, zero_add]
    rw [hbehind]
    cases k with
    | zero => rfl
    | succ k => exact h.curvature_eq k hk

/-- **Smoothness.** -/
theorem contDiff_getPoint (hn : 1 ≤ s.n) (hx : Increasing s.n s.mX)
    (h : Natural s.n s.mX s.mY s.mA s.mB s.mC) : ContDiff ℝ 2 s.getPoint := by
  have hcurve : s.getPoint = joined s.mX s.n s.piece := funext fun t ↦
    getPoint_eq hn hx h.straight t
  obtain ⟨hmeet, hmeet', hmeet''⟩ := meet_piece h
  rw [hcurve]
  exact contDiff_two_joined hx hmeet hmeet' hmeet'' (hasDerivAt_piece s) (hasDerivAt_pieceSlope s)
    (continuous_pieceCurvature s)

/-- **The curve** after `set_points`. -/
theorem setPoints_curve (hn : 2 ≤ n) (hx : Increasing n x) (y : ℕ → ℝ) :
    ContDiff ℝ 2 (setPoints n x y).getPoint ∧
      (∀ i < n, (setPoints n x y).getPoint (x i) = y i) ∧
      (∀ t ≤ x 0, (setPoints n x y).getPoint t = (setPoints n x y).mC 0 * (t - x 0) + y 0) ∧
      ∀ t, x (n - 1) ≤ t → (setPoints n x y).getPoint t =
        (setPoints n x y).mC (n - 1) * (t - x (n - 1)) + y (n - 1) := by
  have h := natural_setPoints hn hx y
  have hone : 1 ≤ (setPoints n x y).n := (Nat.le_succ 1).trans hn
  exact ⟨contDiff_getPoint hone hx h, fun i hi ↦ getPoint_point hone hx h hi,
    fun t ht ↦ getPoint_of_le hone hx h ht, fun t ht ↦ getPoint_of_ge hone hx h ht⟩

/-- Three points on a straight line. -/
theorem setPoints_curve_three :
    ContDiff ℝ 2 (setPoints 3 (fun t ↦ (t : ℝ)) fun t ↦ (t : ℝ)).getPoint ∧
      (∀ i : ℕ, i < 3 → (setPoints 3 (fun t ↦ (t : ℝ)) fun t ↦ (t : ℝ)).getPoint i = i) ∧
      (∀ t ≤ ((0 : ℕ) : ℝ), (setPoints 3 (fun t ↦ (t : ℝ)) fun t ↦ (t : ℝ)).getPoint t =
        (setPoints 3 (fun t ↦ (t : ℝ)) fun t ↦ (t : ℝ)).mC 0 * (t - ((0 : ℕ) : ℝ)) +
          ((0 : ℕ) : ℝ)) ∧
      ∀ t, ((3 - 1 : ℕ) : ℝ) ≤ t →
        (setPoints 3 (fun t ↦ (t : ℝ)) fun t ↦ (t : ℝ)).getPoint t =
          (setPoints 3 (fun t ↦ (t : ℝ)) fun t ↦ (t : ℝ)).mC (3 - 1) *
            (t - ((3 - 1 : ℕ) : ℝ)) + ((3 - 1 : ℕ) : ℝ) :=
  setPoints_curve (by decide) (increasing_natCast 3) fun t ↦ (t : ℝ)

end Spline

/-! ## The delays -/

section Delays

variable {K : Type*} [Field K] [LinearOrder K] [FloorSemiring K]

/-- `m_iFFT`. -/
def slFFT : ℕ := 1024

/-- A round of the loop over the delays in `init`. -/
def shiftRound (maxShiftPoint : ℕ) (d : K) : ℕ :=
  if (maxShiftPoint : K) < |d| then ⌊|d|⌋₊ else maxShiftPoint

/-- `m_iMaxShiftPoint` after `init`; the delays are those of all pairs and sectors. -/
def maxShiftPoint (delays : List K) : ℕ := delays.foldl shiftRound 0 + 1

/-- A row of `m_pMat_SP`: the correlation around the lag zero, which the transform puts at the two
ends. -/
def spRow (shift : ℕ) (phat : ℕ → K) (t : ℕ) : K :=
  (if t < shift then phat (slFFT - shift + t) else phat (t - shift)) * (1 / slFFT)

/-- The score of a sector in `ProcessSingleFrm`: `delay i` is its delay for pair `i`. -/
def sectorScore (shift pairNum : ℕ) (phat : ℕ → ℕ → K) (delay : ℕ → K) : K :=
  ∑ i ∈ Finset.range pairNum,
    (Spline.setPoints (shift * 2 + 1) (fun t ↦ (t : K)) (spRow shift (phat i))).getPoint
      (delay i + shift)

variable [IsStrictOrderedRing K] {delays : List K} {d : K}

theorem le_shiftRound (m : ℕ) (d : K) : m ≤ shiftRound m d ∧ ⌊|d|⌋₊ ≤ shiftRound m d := by
  rw [shiftRound]
  split_ifs with hlt
  · exact ⟨Nat.le_floor hlt.le, le_rfl⟩
  · exact ⟨le_rfl, Nat.floor_le_of_le (not_lt.mp hlt)⟩

theorem le_foldl_shiftRound (delays : List K) (m : ℕ) :
    m ≤ delays.foldl shiftRound m ∧ ∀ d ∈ delays, ⌊|d|⌋₊ ≤ delays.foldl shiftRound m := by
  induction delays generalizing m with
  | nil => exact ⟨le_rfl, fun d hd ↦ absurd hd List.not_mem_nil⟩
  | cons d delays ih =>
      obtain ⟨hm, hd⟩ := le_shiftRound m d
      obtain ⟨hstart, hrest⟩ := ih (shiftRound m d)
      refine ⟨hm.trans hstart, fun d' hd' ↦ ?_⟩
      rcases List.mem_cons.mp hd' with rfl | hmem
      · exact hd.trans hstart
      · exact hrest d' hmem

/-- No delay reaches the largest shift. -/
theorem abs_lt_maxShiftPoint (hd : d ∈ delays) : |d| < maxShiftPoint delays := by
  have hfloor := (le_foldl_shiftRound delays 0).2 d hd
  calc
    |d| < ⌊|d|⌋₊ + 1 := Nat.lt_floor_add_one _
    _ ≤ (maxShiftPoint delays : K) := by
      rw [maxShiftPoint]
      exact_mod_cast Nat.succ_le_succ hfloor

omit [LinearOrder K] [FloorSemiring K] [IsStrictOrderedRing K] in
/-- A row of `m_pMat_SP` has the correlation at a lag in the place of the delay. -/
theorem spRow_lag {shift : ℕ} (hshift : shift ≤ slFFT) (phat : ℕ → K) {lag : ℤ}
    (hlow : -(shift : ℤ) < lag) (hhigh : lag < shift) :
    spRow shift phat (lag + shift).toNat = phat (lag % slFFT).toNat * (1 / slFFT) := by
  have hindex : (if (lag + shift).toNat < shift then slFFT - shift + (lag + shift).toNat
      else (lag + shift).toNat - shift) = (lag % slFFT).toNat := by
    rw [slFFT] at hshift ⊢
    split_ifs <;> omega
  rw [spRow, ← hindex, apply_ite phat]

/-- **Directions.** The curve is asked between its points only, and where the delays of a sector are
whole numbers of samples, its score is the sum of the correlations at these lags. -/
theorem sectorScore_eq (hshift : maxShiftPoint delays ≤ slFFT) (pairNum : ℕ) (phat : ℕ → ℕ → K)
    (delay : ℕ → K) (hdelay : ∀ i < pairNum, delay i ∈ delays) :
    (∀ i < pairNum, 0 < delay i + maxShiftPoint delays ∧
      delay i + maxShiftPoint delays < (maxShiftPoint delays * 2 : ℕ)) ∧
    ∀ lag : ℕ → ℤ, (∀ i < pairNum, delay i = lag i) →
      sectorScore (maxShiftPoint delays) pairNum phat delay =
        ∑ i ∈ Finset.range pairNum, phat i (lag i % slFFT).toNat * (1 / slFFT) := by
  constructor
  · intro i hi
    have habs := abs_lt.mp (abs_lt_maxShiftPoint (hdelay i hi))
    push_cast
    constructor <;> linarith
  · intro lag hlag
    apply Finset.sum_congr rfl
    intro i hi
    have hin := Finset.mem_range.mp hi
    set shift := maxShiftPoint delays with hdef
    have habs := abs_lt.mp (abs_lt_maxShiftPoint (hdelay i hin))
    rw [hlag i hin, ← hdef] at habs
    have hlow : -(shift : ℤ) < lag i := by exact_mod_cast habs.1
    have hhigh : lag i < shift := by exact_mod_cast habs.2
    have hpoint : delay i + shift = (((lag i + shift).toNat : ℕ) : K) := by
      have hcast : (((lag i + shift).toNat : ℕ) : ℤ) = lag i + shift :=
        Int.toNat_of_nonneg (by omega)
      calc
        delay i + shift = ((lag i + shift : ℤ) : K) := by
          rw [hlag i hin, Int.cast_add, Int.cast_natCast]
        _ = (((lag i + shift).toNat : ℤ) : K) := by rw [hcast]
        _ = (((lag i + shift).toNat : ℕ) : K) := Int.cast_natCast _
    have hpositive : 1 ≤ shift := Nat.succ_le_succ (Nat.zero_le _)
    have hx := Spline.increasing_natCast (K := K) (shift * 2 + 1)
    have hnatural := Spline.natural_setPoints (by omega) hx (spRow shift (phat i))
    have hlast : (lag i + shift).toNat < shift * 2 + 1 := by omega
    rw [hpoint, ← spRow_lag hshift (phat i) hlow hhigh]
    exact Spline.getPoint_point (Nat.succ_le_succ (Nat.zero_le _)) hx hnatural hlast

end Delays

/-- The delays of two pairs of microphones. -/
def twoDelays (i : ℕ) : ℚ := if i = 0 then 1 else -2

theorem maxShiftPoint_two : maxShiftPoint [(1 : ℚ), -2] = 3 := by decide +kernel

theorem sectorScore_eq_two :
    (∀ i : ℕ, i < 2 → 0 < twoDelays i + (maxShiftPoint [(1 : ℚ), -2] : ℚ) ∧
      twoDelays i + (maxShiftPoint [(1 : ℚ), -2] : ℚ) < (maxShiftPoint [(1 : ℚ), -2] * 2 : ℕ)) ∧
    ∀ lag : ℕ → ℤ, (∀ i : ℕ, i < 2 → twoDelays i = lag i) →
      sectorScore (maxShiftPoint [(1 : ℚ), -2]) 2 (fun i t ↦ (i + t : ℚ)) twoDelays =
        ∑ i ∈ Finset.range 2, ((i : ℚ) + ((lag i % slFFT).toNat : ℚ)) * (1 / slFFT) := by
  have hshift : maxShiftPoint [(1 : ℚ), -2] ≤ slFFT := by
    rw [maxShiftPoint_two]
    decide
  refine sectorScore_eq hshift 2 _ twoDelays fun i hi ↦ ?_
  rw [twoDelays]
  split_ifs
  · exact List.mem_cons_self
  · exact List.mem_cons_of_mem _ (List.mem_singleton_self _)

end Vsys.Sl
