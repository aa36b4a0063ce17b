import Mathlib
import Vsys.Num.Numerals
import Vsys.Num.Toeplitz

/-!
# Linear prediction

`felib/Pitch.cpp` predicts a window of samples: it takes the autocorrelation of the window, makes
it a little whiter and runs Durbin's recursion on it.  Whatever the window, the recursion divides by
positive numbers only, and gives the prediction with the least error.

Numbers are exact here.  The arrays are functions of the index.
-/

namespace Vsys.Felib

open Vsys.Num

attribute [local instance] atLeastTwo_two atLeastTwo_ten atLeastTwo_hundred atLeastTwo_million

variable {K : Type*} [Field K]

/-- `BIGSORD`. -/
def bigsord : ℕ := 100

/-- What is used of the mathematical library. -/
structure Libm (K : Type*) [Field K] [LinearOrder K] where
  cos : K → K
  sqrt : K → K
  exp : K → K
  log : K → K
  exp_nonneg : ∀ x, 0 ≤ exp x

/-! ## Windows -/

/-- The angle of an entry of the tables. -/
def windAngle (n i : ℕ) : K := (1 / 2 + i) * (31415927 / 10000000 * 2 / n)

section Window

variable [LinearOrder K]

/-- The window types. -/
inductive WindowType
  | rectangular
  | hamming
  | cos4
  | hanning
  deriving DecidableEq

/-- `xrwindow`. -/
def xrwindow (din : ℕ → K) (preemp : K) : ℕ → K := fun i ↦
  if preemp ≠ 0 then din (i + 1) - preemp * din i else din i

/-- The loops of the other windows, with the table `wind`. -/
def taper (wind din : ℕ → K) (preemp : K) : ℕ → K := fun i ↦
  if preemp ≠ 0 then wind i * (din (i + 1) - preemp * din i) else wind i * din i

/-- `xcwindow`. -/
def xcwindow (m : Libm K) (din : ℕ → K) (n : ℕ) (preemp : K) : ℕ → K :=
  taper (fun i ↦
    let co := 1 / 2 * (1 - m.cos (windAngle n i))
    co * co * co * co) din preemp

/-- `xhwindow`. -/
def xhwindow (m : Libm K) (din : ℕ → K) (n : ℕ) (preemp : K) : ℕ → K :=
  taper (fun i ↦ 54 / 100 - 46 / 100 * m.cos (windAngle n i)) din preemp

/-- `xhnwindow`. -/
def xhnwindow (m : Libm K) (din : ℕ → K) (n : ℕ) (preemp : K) : ℕ → K :=
  taper (fun i ↦ 1 / 2 - 1 / 2 * m.cos (windAngle n i)) din preemp

/-- `window`. -/
def window (m : Libm K) (din : ℕ → K) (n : ℕ) (preemp : K) : WindowType → ℕ → K
  | .rectangular => xrwindow din preemp
  | .hamming => xhwindow m din n preemp
  | .cos4 => xcwindow m din n preemp
  | .hanning => xhnwindow m din n preemp

end Window

/-! ## The analysis -/

/-- What `xdurbin` has computed. -/
structure Durbin (K : Type*) where
  k : ℕ → K
  a : ℕ → K
  e : K

/-- `xdurbin`, before its loop. -/
def durbinStart (r : ℕ → K) : Durbin K :=
  let k := -r 1 / r 0
  { k := Function.update (fun _ ↦ 0) 0 k
    a := Function.update (fun _ ↦ 0) 0 k
    e := r 0 * (1 - k * k) }

/-- A round of the loop; `b` is the copy of `a`. -/
def durbinRound (r : ℕ → K) (d : Durbin K) (i : ℕ) : Durbin K :=
  let s := (List.range i).foldl (fun s j ↦ s - d.a j * r (i - j)) 0
  let k := (s - r (i + 1)) / d.e
  let b := Function.update d.a i k
  { k := Function.update d.k i k
    a := fun j ↦ if j < i then b j + k * b (i - j - 1) else b j
    e := d.e * (1 - k * k) }

/-- `xdurbin`. -/
def xdurbin (r : ℕ → K) (p : ℕ) : Durbin K :=
  (List.range' 1 (p - 1)).foldl (durbinRound r) (durbinStart r)

/-- What `xlpc` returns: predictors, autocorrelation, reflections, error and energy. -/
structure Lpc (K : Type*) where
  a : ℕ → K
  rho : ℕ → K
  k : ℕ → K
  normerr : K
  rms : K

/-- The correction of the energy for a window. -/
def wfact : WindowType → K
  | .rectangular => 1
  | .hamming => 630397 / 1000000
  | .cos4 => 443149 / 1000000
  | .hanning => 612372 / 1000000

section Analysis

variable [LinearOrder K]

/-- `xautoc`: the normalized autocorrelation and the energy; `r` has as many lags as are asked
for. -/
def xautoc (m : Libm K) (windowsize : ℕ) (s : ℕ → K) : (ℕ → K) × K :=
  let sum0 := (List.range windowsize).foldl (fun sum i ↦ sum + s i * s i) 0
  if sum0 = 0 then (fun i ↦ if i = 0 then 1 else 0, 1)
  else
    (fun i ↦
      if i = 0 then 1
      else (List.range (windowsize - i)).foldl (fun sum j ↦ sum + s j * s (j + i)) 0 * (1 / sum0),
      m.sqrt (sum0 / windowsize))

/-- The factor for the lags that makes the analysis stable. -/
def ffact (m : Libm K) (lpcStabl : K) : K := 1 / (1 + m.exp (-lpcStabl / 20 * m.log 10))

/-- The autocorrelation with a little added to its diagonal. -/
def whiten (m : Libm K) (lpcStabl : K) (r : ℕ → K) : ℕ → K :=
  if 1 < lpcStabl then fun i ↦ if i = 0 then r 0 else ffact m lpcStabl * r i else r

/-- `xlpc`, with all results. -/
def xlpc (m : Libm K) (lpcOrd : ℕ) (lpcStabl : K) (wsize : ℕ) (data : ℕ → K) (preemp : K)
    (type : WindowType) : Option (Lpc K) :=
  if wsize = 0 ∨ bigsord < lpcOrd then none
  else
    let dwind := window m data wsize preemp type
    let auto := xautoc m wsize dwind
    let r := whiten m lpcStabl auto.1
    let d := xdurbin r lpcOrd
    some {
      a := fun j ↦ if j = 0 then 1 else d.a (j - 1)
      rho := r
      k := d.k
      normerr := d.e
      rms := auto.2 / wfact type }

end Analysis

/-! ## The autocorrelation is positive -/

theorem foldl_range_add (f : ℕ → K) (n : ℕ) :
    (List.range n).foldl (fun sum i ↦ sum + f i) 0 = ∑ i ∈ Finset.range n, f i := by
  induction n with
  | zero => rfl
  | succ n ih => rw [List.range_succ, List.foldl_append, ih, Finset.sum_range_succ]; rfl

theorem foldl_range_sub (f : ℕ → K) (n : ℕ) :
    (List.range n).foldl (fun sum i ↦ sum - f i) 0 = -∑ i ∈ Finset.range n, f i := by
  induction n with
  | zero => simp
  | succ n ih =>
      rw [List.range_succ, List.foldl_append, ih, Finset.sum_range_succ, neg_add]
      exact sub_eq_add_neg _ _

theorem autocorrelation_zero (s : ℕ → K) (N : ℕ) :
    autocorrelation s N 0 = ∑ j ∈ Finset.range N, s j * s j := rfl

section Autoc

variable [LinearOrder K] (m : Libm K)

/-- The lags of a window that is not silent. -/
theorem xautoc_of_ne (windowsize : ℕ) (s : ℕ → K) (h : autocorrelation s windowsize 0 ≠ 0) (i : ℕ) :
    (xautoc m windowsize s).1 i =
      1 / autocorrelation s windowsize 0 * autocorrelation s windowsize i := by
  have hsum : (List.range windowsize).foldl (fun sum i ↦ sum + s i * s i) 0 =
      autocorrelation s windowsize 0 := foldl_range_add (fun i ↦ s i * s i) windowsize
  rw [xautoc]
  simp only [hsum]
  rw [if_neg h]
  dsimp only
  split_ifs with hi
  · rw [hi, one_div, inv_mul_cancel₀ h]
  · rw [foldl_range_add (fun j ↦ s j * s (j + i)), mul_comm]
    rfl

variable [IsStrictOrderedRing K]

/-- **The lags make a positive form**, silent windows included. -/
theorem positive_xautoc (windowsize : ℕ) (s : ℕ → K) (n : ℕ) :
    Positive (xautoc m windowsize s).1 n ∧ (xautoc m windowsize s).1 0 = 1 := by
  by_cases h : autocorrelation s windowsize 0 = 0
  · have hsum : (List.range windowsize).foldl (fun sum i ↦ sum + s i * s i) 0 = 0 :=
      (foldl_range_add (fun i ↦ s i * s i) windowsize).trans h
    have hunit : (xautoc m windowsize s).1 = unitSequence := by
      rw [xautoc]
      simp only [hsum]
      rfl
    rw [hunit]
    exact ⟨positive_unitSequence n, if_pos rfl⟩
  · have hlags : (xautoc m windowsize s).1 = fun i ↦
        1 / autocorrelation s windowsize 0 * autocorrelation s windowsize i :=
      funext (xautoc_of_ne m windowsize s h)
    have hsignal : ∃ j < windowsize, s j ≠ 0 := by
      by_contra hnone
      apply h
      rw [autocorrelation_zero]
      apply Finset.sum_eq_zero
      intro j hj
      have hzero : s j = 0 := by
        by_contra hne
        exact hnone ⟨j, Finset.mem_range.mp hj, hne⟩
      rw [hzero, zero_mul]
    have hpos : 0 < autocorrelation s windowsize 0 := by
      have hnonneg : 0 ≤ autocorrelation s windowsize 0 :=
        Finset.sum_nonneg fun j _ ↦ mul_self_nonneg (s j)
      exact lt_of_le_of_ne hnonneg (Ne.symm h)
    rw [hlags]
    refine ⟨(positive_autocorrelation s windowsize hsignal n).smul (one_div_pos.mpr hpos), ?_⟩
    exact one_div_mul_cancel h

theorem ffact_mem (lpcStabl : K) : 0 ≤ ffact m lpcStabl ∧ ffact m lpcStabl ≤ 1 := by
  have hexp := m.exp_nonneg (-lpcStabl / 20 * m.log 10)
  have hpos : 0 < 1 + m.exp (-lpcStabl / 20 * m.log 10) := by linarith
  refine ⟨(one_div_pos.mpr hpos).le, ?_⟩
  rw [ffact, div_le_one hpos]
  linarith

theorem positive_whiten {r : ℕ → K} {n : ℕ} (hr : Positive r n) (hr0 : r 0 = 1) (lpcStabl : K) :
    Positive (whiten m lpcStabl r) n ∧ whiten m lpcStabl r 0 = 1 := by
  rw [whiten]
  split_ifs
  · have hmix : (fun i ↦ if i = 0 then r 0 else ffact m lpcStabl * r i) =
        fun i ↦ ffact m lpcStabl * r i + (1 - ffact m lpcStabl) * unitSequence i := by
      funext i
      rw [unitSequence]
      split_ifs with hi
      · rw [hi, hr0]
        ring
      · ring
    rw [hmix]
    obtain ⟨hnonneg, hle⟩ := ffact_mem m lpcStabl
    refine ⟨hr.mix hnonneg hle, ?_⟩
    calc
      ffact m lpcStabl * r 0 + (1 - ffact m lpcStabl) * unitSequence 0 =
          ffact m lpcStabl * 1 + (1 - ffact m lpcStabl) * 1 := by rw [hr0, unitSequence, if_pos rfl]
      _ = 1 := by ring
  · exact ⟨hr, hr0⟩

end Autoc

/-! ## Durbin's recursion -/

/-- The vector of the first `i` predictors, behind the one for the sample itself. -/
def predictor (a : ℕ → K) (i : ℕ) : ℕ → K := fun j ↦
  if j = 0 then 1 else if j ≤ i then a (j - 1) else 0

section Recursion

variable {r a : ℕ → K} {i p : ℕ}

theorem predictor_zero (a : ℕ → K) (i : ℕ) : predictor a i 0 = 1 := if_pos rfl

theorem predictor_succ_of_lt {j : ℕ} (h : j < i) : predictor a i (j + 1) = a j :=
  (if_neg (Nat.succ_ne_zero j)).trans (if_pos h)

theorem predictor_of_gt {j : ℕ} (h : i < j) : predictor a i j = 0 :=
  (if_neg (Nat.ne_of_gt (Nat.lt_of_le_of_lt (Nat.zero_le i) h))).trans
    (if_neg (Nat.not_le.mpr h))

theorem xdurbin_succ (r : ℕ → K) (hi : 0 < i) :
    xdurbin r (i + 1) = durbinRound r (xdurbin r i) i := by
  obtain ⟨n, rfl⟩ := Nat.exists_eq_succ_of_ne_zero (Nat.ne_of_gt hi)
  rw [xdurbin, Nat.add_sub_cancel, List.range'_concat, List.foldl_append, xdurbin,
    Nat.succ_eq_add_one, Nat.add_sub_cancel, Nat.one_mul, Nat.add_comm 1 n]
  rfl

/-- Before the loop. -/
theorem normal_durbinStart (hr : r 0 ≠ 0) :
    Normal r (predictor (durbinStart r).a 1) 1 (durbinStart r).e := by
  have hrow (l : ℕ) : toeplitzRow r (predictor (fun _ ↦ 0) 0) 0 l = r (Nat.dist l 0) := by
    rw [toeplitzRow, Finset.sum_range_one, predictor_zero, one_mul]
  have hzero : Normal r (predictor (fun _ ↦ 0) 0) 0 (r 0) :=
    ⟨rfl, hrow 0, fun l hpos hl ↦ absurd hl (Nat.not_le.mpr hpos)⟩
  have hk : -r 1 / r 0 = -toeplitzRow r (predictor (fun _ ↦ 0) 0) 0 1 / r 0 := by rw [hrow]; rfl
  refine (hzero.step hr (predictor_of_gt Nat.one_pos) hk).congr fun j hj ↦ ?_
  interval_cases j
  · rw [predictor_zero, predictor_zero, predictor_of_gt (by decide), mul_zero, add_zero]
  · rw [predictor_succ_of_lt Nat.one_pos, predictor_of_gt Nat.one_pos, Nat.sub_self, predictor_zero,
      mul_one, zero_add]
    rfl

/-- A round of the loop is a step of the recursion. -/
theorem normal_durbinRound {d : Durbin K} (h : Normal r (predictor d.a i) i d.e) (he : d.e ≠ 0) :
    Normal r (predictor (durbinRound r d i).a (i + 1)) (i + 1) (durbinRound r d i).e ∧
      (durbinRound r d i).e = d.e * (1 - (durbinRound r d i).k i * (durbinRound r d i).k i) := by
  have hs : (List.range i).foldl (fun s j ↦ s - d.a j * r (i - j)) 0 - r (i + 1) =
      -toeplitzRow r (predictor d.a i) i (i + 1) := by
    have hterm : ∑ j ∈ Finset.range i, predictor d.a i (j + 1) * r (Nat.dist (i + 1) (j + 1)) =
        ∑ j ∈ Finset.range i, d.a j * r (i - j) := by
      apply Finset.sum_congr rfl
      intro j hj
      have hlt := Finset.mem_range.mp hj
      rw [predictor_succ_of_lt hlt, Nat.dist_succ_succ, Nat.dist_eq_sub_of_le_right hlt.le]
    rw [foldl_range_sub (fun j ↦ d.a j * r (i - j)), toeplitzRow, Finset.sum_range_succ', hterm,
      predictor_zero, Nat.dist_zero_right]
    ring
  have hk : (durbinRound r d i).k i = -toeplitzRow r (predictor d.a i) i (i + 1) / d.e := by
    rw [← hs]
    exact Function.update_self ..
  have he' : (durbinRound r d i).e =
      d.e * (1 - (durbinRound r d i).k i * (durbinRound r d i).k i) := by
    rw [hk, ← hs]
    rfl
  have ha : (durbinRound r d i).a = fun j ↦
      if j < i then
        Function.update d.a i ((durbinRound r d i).k i) j +
          (durbinRound r d i).k i * Function.update d.a i ((durbinRound r d i).k i) (i - j - 1)
      else Function.update d.a i ((durbinRound r d i).k i) j := by
    rw [hk, ← hs]
    rfl
  refine ⟨?_, he'⟩
  rw [he']
  refine (h.step he (predictor_of_gt (Nat.lt_succ_self i)) hk).congr fun j hj ↦ ?_
  generalize (durbinRound r d i).k i = k at ha
  cases j with
  | zero =>
      rw [predictor_zero, predictor_zero, Nat.sub_zero, predictor_of_gt (Nat.lt_succ_self i),
        mul_zero, add_zero]
  | succ j =>
      rw [predictor_succ_of_lt hj, ha]
      dsimp only
      rcases Nat.lt_or_ge j i with hlt | hge
      · have hother : i + 1 - (j + 1) = i - j - 1 + 1 := by omega
        rw [if_pos hlt, predictor_succ_of_lt hlt, hother, predictor_succ_of_lt (by omega),
          Function.update_of_ne (Nat.ne_of_lt hlt), Function.update_of_ne (by omega)]
      · obtain rfl : j = i := Nat.le_antisymm (Nat.lt_succ_iff.mp hj) hge
        rw [if_neg (Nat.lt_irrefl j), Function.update_self, predictor_of_gt (Nat.lt_succ_self j),
          Nat.sub_self, predictor_zero, mul_one, zero_add]

theorem normal_zero (r : ℕ → K) : Normal r (predictor (fun _ ↦ 0) 0) 0 (r 0) := by
  have hrow : toeplitzRow r (predictor (fun _ ↦ 0) 0) 0 0 = r 0 := by
    rw [toeplitzRow, Finset.sum_range_one, predictor_zero, one_mul, Nat.dist_self]
  exact ⟨rfl, hrow, fun l hpos hl ↦ absurd hl (Nat.not_le.mpr hpos)⟩

variable [LinearOrder K] [IsStrictOrderedRing K]

/-- **`xdurbin`.** On a positive form the recursion gives the vector of the normal equations in each
round, and all reflections are less than one. -/
theorem xdurbin_spec (hr : Positive r p) (hi : 1 ≤ i) (hip : i ≤ p) :
    Normal r (predictor (xdurbin r i).a i) i (xdurbin r i).e ∧
      ∀ j < i, |(xdurbin r i).k j| < 1 := by
  induction i, hi using Nat.le_induction with
  | base =>
      have hr0 : 0 < r 0 := (normal_zero r).pos (hr.of_le (Nat.zero_le p))
      have hnormal := normal_durbinStart hr0.ne'
      refine ⟨hnormal, fun j hj ↦ ?_⟩
      obtain rfl : j = 0 := Nat.lt_one_iff.mp hj
      exact abs_lt_one_of_pos hr0 (hnormal.pos (hr.of_le hip))
  | succ i hi ih =>
      obtain ⟨hnormal, hk⟩ := ih (Nat.le_of_succ_le hip)
      have he := hnormal.pos (hr.of_le (Nat.le_of_succ_le hip))
      rw [xdurbin_succ r hi]
      obtain ⟨hnext, henergy⟩ := normal_durbinRound hnormal he.ne'
      refine ⟨hnext, fun j hj ↦ ?_⟩
      rcases Nat.lt_succ_iff_lt_or_eq.mp hj with hlt | rfl
      · have hsame : (durbinRound r (xdurbin r i) i).k j = (xdurbin r i).k j :=
          Function.update_of_ne (Nat.ne_of_lt hlt) ..
        rw [hsame]
        exact hk j hlt
      · apply abs_lt_one_of_pos he
        rw [← henergy]
        exact hnext.pos (hr.of_le hip)

end Recursion

/-! ## The prediction -/

section Prediction

variable [LinearOrder K] [IsStrictOrderedRing K] (m : Libm K) {lpcOrd wsize : ℕ}
  (lpcStabl preemp : K) (data : ℕ → K) (type : WindowType)

/-- What `xlpc` gives. -/
structure Lpc.Predicts (l : Lpc K) (p : ℕ) : Prop where
  positive : Positive l.rho p
  rho_zero : l.rho 0 = 1
  normal : Normal l.rho l.a p l.normerr
  divisors : ∀ i, 0 < i → i ≤ p → 0 < (xdurbin l.rho i).e
  reflections : ∀ j < p, |l.k j| < 1

theorem xlpc_isSome (h : 0 < lpcOrd ∧ lpcOrd ≤ bigsord ∧ lpcOrd ≤ wsize) :
    ∃ l, xlpc m lpcOrd lpcStabl wsize data preemp type = some l ∧ l.Predicts lpcOrd := by
  obtain ⟨hpos, hmax, hwin⟩ := h
  have hlegal : ¬ (wsize = 0 ∨ bigsord < lpcOrd) := by omega
  obtain ⟨hauto, hauto0⟩ := positive_xautoc m wsize (window m data wsize preemp type) lpcOrd
  obtain ⟨hrho, hrho0⟩ := positive_whiten m hauto hauto0 lpcStabl
  obtain ⟨hnormal, hk⟩ := xdurbin_spec hrho hpos (Nat.le_refl lpcOrd)
  refine ⟨_, if_neg hlegal, hrho, hrho0, hnormal.congr fun j hj ↦ ?_, fun i hi hip ↦ ?_, hk⟩
  · rw [predictor]
    split_ifs with hj0
    · exact if_pos hj0
    · exact if_neg hj0
  · exact (xdurbin_spec hrho hi hip).1.pos (hrho.of_le hip)

/-- **`xlpc`.** Every window is analysed without a division by zero: the errors of the recursion are
positive.  The reflections are less than one, the predictors solve the normal equations, and no
other predictors have as little error. -/
theorem xlpc_predicts (h : 0 < lpcOrd ∧ lpcOrd ≤ bigsord ∧ lpcOrd ≤ wsize) :
    ∃ l, xlpc m lpcOrd lpcStabl wsize data preemp type = some l ∧ l.rho 0 = 1 ∧ l.a 0 = 1 ∧
      (∀ i, 0 < i → i ≤ lpcOrd → 0 < (xdurbin l.rho i).e) ∧ (∀ j < lpcOrd, |l.k j| < 1) ∧
      (∀ i, 0 < i → i ≤ lpcOrd →
        ∑ j ∈ Finset.range (lpcOrd + 1), l.a j * l.rho (Nat.dist i j) = 0) ∧
      ∀ x : ℕ → K, x 0 = 1 →
        l.normerr ≤ ∑ i ∈ Finset.range (lpcOrd + 1), ∑ j ∈ Finset.range (lpcOrd + 1),
          x i * x j * l.rho (Nat.dist i j) ∧
        (∑ i ∈ Finset.range (lpcOrd + 1), ∑ j ∈ Finset.range (lpcOrd + 1),
          x i * x j * l.rho (Nat.dist i j) = l.normerr ↔ ∀ j ≤ lpcOrd, x j = l.a j) := by
  obtain ⟨l, hl, hpredicts⟩ := xlpc_isSome m lpcStabl preemp data type h
  refine ⟨l, hl, hpredicts.rho_zero, hpredicts.normal.lead, hpredicts.divisors,
    hpredicts.reflections, hpredicts.normal.rest, fun x hx ↦ ?_⟩
  rw [← toeplitzForm_eq_sum]
  exact hpredicts.normal.least hpredicts.positive hx

end Prediction

/-- The library of the real numbers. -/
noncomputable def realLibm : Libm ℝ where
  cos := Real.cos
  sqrt := Real.sqrt
  exp := Real.exp
  log := Real.log
  exp_nonneg x := (Real.exp_pos x).le

theorem xlpc_predicts_three :
    ∃ l, xlpc realLibm 2 30 3 (fun i ↦ (i : ℝ)) (2 / 5) .hanning = some l ∧
      (∀ j < 2, |l.k j| < 1) ∧ ∑ j ∈ Finset.range 3, l.a j * l.rho (Nat.dist 1 j) = 0 := by
  obtain ⟨l, hl, -, -, -, hk, hnormal, -⟩ :=
    xlpc_predicts realLibm 30 (2 / 5) (fun i ↦ (i : ℝ)) .hanning
      (by decide : 0 < 2 ∧ 2 ≤ bigsord ∧ 2 ≤ 3)
  exact ⟨l, hl, hk, hnormal 1 Nat.one_pos (by decide)⟩

end Vsys.Felib
