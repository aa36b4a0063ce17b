import Mathlib.Algebra.BigOperators.Intervals
import Mathlib.Data.List.GetD

/-!
# Convolution of a stream

A window of weights that slides over a list (`windowed`) gives the same whether the list comes at
once or in pieces, if all but one of the last entries of the window's length are kept between them
(`windowed_append`).  Behind as many zeros it is the convolution with the reversed weights
(`windowed_reverse`).
-/

namespace Vsys.Stream

variable {F : Type*} [CommSemiring F]

/-- The weighted sum of the first entries. -/
def weigh (weights l : List F) : F := (List.zipWith (· * ·) weights l).sum

/-- The weighted sums of all windows. -/
def windowed (weights l : List F) : List F :=
  (List.range (l.length + 1 - weights.length)).map fun i ↦ weigh weights (l.drop i)

/-- The convolution of a stream that is 0 before its start. -/
def convolved (coeffs stream : List F) : List F :=
  (List.range stream.length).map fun n ↦
    ∑ t ∈ Finset.range coeffs.length,
      coeffs.getD t 0 * if t ≤ n then stream.getD (n - t) 0 else 0

variable {weights l : List F}

@[simp]
theorem length_windowed (weights l : List F) :
    (windowed weights l).length = l.length + 1 - weights.length := by
  rw [windowed, List.length_map, List.length_range]

@[simp]
theorem length_convolved (coeffs stream : List F) :
    (convolved coeffs stream).length = stream.length := by
  rw [convolved, List.length_map, List.length_range]

theorem weigh_append (h : weights.length ≤ l.length) (later : List F) :
    weigh weights (l ++ later) = weigh weights l := by
  have hzip : List.zipWith (· * ·) weights (l ++ later) = List.zipWith (· * ·) weights l := by
    induction weights generalizing l with
    | nil => rfl
    | cons w weights ih =>
        cases l with
        | nil => exact absurd h (by simp)
        | cons a l =>
            rw [List.cons_append, List.zipWith_cons_cons, List.zipWith_cons_cons,
              ih (Nat.le_of_succ_le_succ h)]
  rw [weigh, weigh, hzip]

/-- A list in two pieces: the second one is met with what the window still needs of the first. -/
theorem windowed_append (hpos : 0 < weights.length) (h : weights.length ≤ l.length + 1)
    (later : List F) :
    windowed weights (l ++ later) =
      windowed weights l ++ windowed weights (l.drop (l.length + 1 - weights.length) ++ later) := by
  set done := l.length + 1 - weights.length with hdone
  have hle : done ≤ l.length := by omega
  have htotal : (l ++ later).length + 1 - weights.length = done + later.length := by
    rw [List.length_append]
    omega
  have hrest : (l.drop done ++ later).length + 1 - weights.length = later.length := by
    rw [List.length_append, List.length_drop]
    omega
  rw [windowed, htotal, List.range_add, List.map_append, List.map_map]
  congr 1
  · apply List.map_congr_left
    intro i hi
    rw [List.mem_range] at hi
    rw [List.drop_append_of_le_length (by omega), weigh_append (by rw [List.length_drop]; omega)]
  · rw [windowed, hrest]
    apply List.map_congr_left
    intro i _
    rw [Function.comp_apply, ← List.drop_drop, List.drop_append_of_le_length hle]

theorem weigh_eq_sum (h : weights.length ≤ l.length) :
    weigh weights l = ∑ j ∈ Finset.range weights.length, weights.getD j 0 * l.getD j 0 := by
  induction weights generalizing l with
  | nil => rfl
  | cons w weights ih =>
      cases l with
      | nil => exact absurd h (by simp)
      | cons a l =>
          have hrest := ih (l := l) (Nat.le_of_succ_le_succ h)
          calc
            weigh (w :: weights) (a :: l) = w * a + weigh weights l := by
              rw [weigh, List.zipWith_cons_cons, List.sum_cons, weigh]
            _ = _ := by
              rw [hrest, List.length_cons, Finset.sum_range_succ']
              simp only [List.getD_cons_succ, List.getD_cons_zero]
              exact add_comm _ _

/-- An entry behind zeros. -/
theorem getD_zeros_append (count : ℕ) (stream : List F) (n : ℕ) :
    (List.replicate count (0 : F) ++ stream).getD n 0 =
      if count ≤ n then stream.getD (n - count) 0 else 0 := by
  split_ifs with h
  · rw [List.getD_append_right _ _ _ _ (by simpa using h), List.length_replicate]
  · have hlt : n < (List.replicate count (0 : F)).length := by
      rw [List.length_replicate]
      omega
    rw [List.getD_append _ _ _ _ hlt, List.getD_eq_getElem _ _ hlt, List.getElem_replicate]

/-- **A sliding window convolves.** -/
theorem windowed_reverse {coeffs : List F} (hpos : 0 < coeffs.length) (stream : List F) :
    windowed coeffs.reverse (List.replicate (coeffs.length - 1) 0 ++ stream) =
      convolved coeffs stream := by
  set padded := List.replicate (coeffs.length - 1) (0 : F) ++ stream with hpadded
  have hlength : padded.length = coeffs.length - 1 + stream.length := by
    rw [hpadded, List.length_append, List.length_replicate]
  have hcount : padded.length + 1 - coeffs.reverse.length = stream.length := by
    rw [hlength, List.length_reverse]
    omega
  rw [windowed, convolved, hcount]
  apply List.map_congr_left
  intro n hn
  rw [List.mem_range] at hn
  have hwindow : coeffs.reverse.length ≤ (padded.drop n).length := by
    rw [List.length_drop, hlength, List.length_reverse]
    omega
  rw [weigh_eq_sum hwindow, List.length_reverse, ← Finset.sum_range_reflect]
  apply Finset.sum_congr rfl
  intro t ht
  rw [Finset.mem_range] at ht
  have hcoeff : coeffs.reverse.getD (coeffs.length - 1 - t) 0 = coeffs.getD t 0 := by
    have hlt : coeffs.length - 1 - t < coeffs.reverse.length := by
      rw [List.length_reverse]
      omega
    rw [List.getD_eq_getElem _ _ hlt, List.getElem_reverse, List.getD_eq_getElem _ _ ht]
    congr 1
    omega
  have hentry : (padded.drop n).getD (coeffs.length - 1 - t) 0 =
      if t ≤ n then stream.getD (n - t) 0 else 0 := by
    rw [List.getD_eq_getElem?_getD, List.getElem?_drop, ← List.getD_eq_getElem?_getD, hpadded,
      getD_zeros_append]
    by_cases hle : t ≤ n
    · rw [if_pos (by omega), if_pos hle]
      congr 1
      omega
    · rw [if_neg (by omega), if_neg hle]
  rw [hcoeff, hentry]

end Vsys.Stream
