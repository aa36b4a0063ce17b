import Mathlib

/-!
# Toeplitz forms

A sequence gives a symmetric form whose coefficients depend on the distance of the indices alone.
For a vector that starts with one and on which all rows but the first vanish, the first row is its
energy.  The vector for one more index is a combination of it and its reflection.

If the form is positive, the energies are, and the vector is the only one with the least energy
among those that start with one.  The autocorrelation of a signal gives a positive form.
-/

namespace Vsys.Num

open Finset

variable {K : Type*}

section Ring

variable [CommRing K] (r : ℕ → K)

/-- A row of the form, on the indices up to `n`. -/
def toeplitzRow (c : ℕ → K) (n l : ℕ) : K := ∑ j ∈ range (n + 1), c j * r (Nat.dist l j)

/-- The form on the indices up to `n`. -/
def toeplitzForm (x y : ℕ → K) (n : ℕ) : K := ∑ l ∈ range (n + 1), x l * toeplitzRow r y n l

theorem toeplitzRow_add (c d : ℕ → K) (k : K) (n l : ℕ) :
    toeplitzRow r (fun j ↦ c j + k * d j) n l = toeplitzRow r c n l + k * toeplitzRow r d n l := by
  rw [toeplitzRow, toeplitzRow, toeplitzRow, mul_sum, ← sum_add_distrib]
  apply sum_congr rfl
  intro j _
  ring

/-- The reflected vector has the rows in reverse order. -/
theorem toeplitzRow_reflect (c : ℕ → K) {n l : ℕ} (hl : l ≤ n) :
    toeplitzRow r (fun j ↦ c (n - j)) n l = toeplitzRow r c n (n - l) := by
  rw [toeplitzRow, toeplitzRow, ← sum_range_reflect]
  apply sum_congr rfl
  intro j hj
  have hjn : j ≤ n := Nat.lt_succ_iff.mp (mem_range.mp hj)
  have hindex : n - (n + 1 - 1 - j) = j := by omega
  have hdist : Nat.dist l (n + 1 - 1 - j) = Nat.dist (n - l) j := by
    rw [Nat.dist, Nat.dist]
    omega
  rw [hindex, hdist]

theorem toeplitzRow_succ_of_zero {c : ℕ → K} {n : ℕ} (hc : c (n + 1) = 0) (l : ℕ) :
    toeplitzRow r c (n + 1) l = toeplitzRow r c n l := by
  rw [toeplitzRow, sum_range_succ, hc, zero_mul, add_zero, toeplitzRow]

theorem toeplitzForm_eq_sum (x y : ℕ → K) (n : ℕ) :
    toeplitzForm r x y n =
      ∑ l ∈ range (n + 1), ∑ j ∈ range (n + 1), x l * y j * r (Nat.dist l j) := by
  apply sum_congr rfl
  intro l _
  rw [toeplitzRow, mul_sum]
  apply sum_congr rfl
  intro j _
  ring

theorem toeplitzForm_comm (x y : ℕ → K) (n : ℕ) : toeplitzForm r x y n = toeplitzForm r y x n := by
  rw [toeplitzForm_eq_sum, toeplitzForm_eq_sum, sum_comm]
  apply sum_congr rfl
  intro l _
  apply sum_congr rfl
  intro j _
  rw [Nat.dist_comm]
  ring

theorem toeplitzForm_sub_left (x y z : ℕ → K) (n : ℕ) :
    toeplitzForm r (fun j ↦ x j - y j) z n = toeplitzForm r x z n - toeplitzForm r y z n := by
  rw [toeplitzForm, toeplitzForm, toeplitzForm, ← sum_sub_distrib]
  apply sum_congr rfl
  intro l _
  ring

theorem toeplitzForm_sub_self (x y : ℕ → K) (n : ℕ) :
    toeplitzForm r (fun j ↦ x j - y j) (fun j ↦ x j - y j) n =
      toeplitzForm r x x n - 2 * toeplitzForm r x y n + toeplitzForm r y y n := by
  rw [toeplitzForm_sub_left, toeplitzForm_comm r x, toeplitzForm_comm r y, toeplitzForm_sub_left,
    toeplitzForm_sub_left, toeplitzForm_comm r y x]
  ring

/-- A form of two sequences. -/
theorem toeplitzForm_mix (s : ℕ → K) (f g : K) (x : ℕ → K) (n : ℕ) :
    toeplitzForm (fun i ↦ f * r i + g * s i) x x n =
      f * toeplitzForm r x x n + g * toeplitzForm s x x n := by
  simp only [toeplitzForm_eq_sum, mul_sum, ← sum_add_distrib]
  apply sum_congr rfl
  intro l _
  apply sum_congr rfl
  intro j _
  ring

/-- One more index. -/
theorem toeplitzForm_succ (x : ℕ → K) (n : ℕ) :
    toeplitzForm r x x (n + 1) =
      toeplitzForm r x x n + 2 * x (n + 1) * toeplitzRow r x n (n + 1) + x (n + 1) ^ 2 * r 0 := by
  have hlast : toeplitzRow r x (n + 1) (n + 1) = toeplitzRow r x n (n + 1) + x (n + 1) * r 0 := by
    rw [toeplitzRow, sum_range_succ, Nat.dist_self, toeplitzRow]
  have hrow (l : ℕ) :
      toeplitzRow r x (n + 1) l = toeplitzRow r x n l + x (n + 1) * r (Nat.dist l (n + 1)) := by
    rw [toeplitzRow, sum_range_succ, toeplitzRow]
  have hcross : ∑ l ∈ range (n + 1), x l * (x (n + 1) * r (Nat.dist l (n + 1))) =
      x (n + 1) * toeplitzRow r x n (n + 1) := by
    rw [toeplitzRow, mul_sum]
    apply sum_congr rfl
    intro l _
    rw [Nat.dist_comm]
    ring
  calc
    toeplitzForm r x x (n + 1) =
        ∑ l ∈ range (n + 1), x l * toeplitzRow r x (n + 1) l +
          x (n + 1) * toeplitzRow r x (n + 1) (n + 1) := sum_range_succ _ _
    _ = toeplitzForm r x x n + x (n + 1) * toeplitzRow r x n (n + 1) +
          x (n + 1) * (toeplitzRow r x n (n + 1) + x (n + 1) * r 0) := by
      rw [hlast]
      simp only [hrow, mul_add, sum_add_distrib, hcross, toeplitzForm]
    _ = _ := by ring

/-- The form by distances. -/
theorem toeplitzForm_eq_lags (x : ℕ → K) (n : ℕ) :
    toeplitzForm r x x n = r 0 * ∑ j ∈ range (n + 1), x j ^ 2 +
      2 * ∑ i ∈ range n, r (i + 1) * ∑ j ∈ range (n - i), x j * x (j + (i + 1)) := by
  induction n with
  | zero =>
      simp only [toeplitzForm, toeplitzRow, Nat.zero_add, sum_range_one, sum_range_zero,
        Nat.dist_self]
      ring
  | succ n ih =>
      have hinner : ∑ i ∈ range (n + 1), r (i + 1) *
            ∑ j ∈ range (n + 1 - i), x j * x (j + (i + 1)) =
          (∑ i ∈ range n, r (i + 1) * ∑ j ∈ range (n - i), x j * x (j + (i + 1))) +
            x (n + 1) * ∑ i ∈ range (n + 1), r (i + 1) * x (n - i) := by
        have hterm : ∀ i ∈ range (n + 1), r (i + 1) *
            ∑ j ∈ range (n + 1 - i), x j * x (j + (i + 1)) =
              r (i + 1) * (∑ j ∈ range (n - i), x j * x (j + (i + 1))) +
                x (n + 1) * (r (i + 1) * x (n - i)) := by
          intro i hi
          have hin : i ≤ n := Nat.lt_succ_iff.mp (mem_range.mp hi)
          have hsub : n + 1 - i = n - i + 1 := by omega
          have hsum : n - i + (i + 1) = n + 1 := by omega
          rw [hsub, sum_range_succ, hsum]
          ring
        rw [sum_congr rfl hterm, sum_add_distrib, ← mul_sum, sum_range_succ _ n, Nat.sub_self,
          sum_range_zero, mul_zero, add_zero]
      have hrow : toeplitzRow r x n (n + 1) = ∑ i ∈ range (n + 1), r (i + 1) * x (n - i) := by
        rw [toeplitzRow, ← sum_range_reflect]
        apply sum_congr rfl
        intro i hi
        have hin : i ≤ n := Nat.lt_succ_iff.mp (mem_range.mp hi)
        have hdist : Nat.dist (n + 1) (n + 1 - 1 - i) = i + 1 := by
          rw [Nat.dist]
          omega
        rw [hdist, Nat.add_sub_cancel]
        ring
      rw [toeplitzForm_succ, ih, hinner, hrow, sum_range_succ _ (n + 1)]
      ring

/-- The sequence that is zero from index one on. -/
def unitSequence (i : ℕ) : K := if i = 0 then 1 else 0

theorem toeplitzForm_unitSequence (x : ℕ → K) (n : ℕ) :
    toeplitzForm unitSequence x x n = ∑ l ∈ range (n + 1), x l ^ 2 := by
  apply sum_congr rfl
  intro l hl
  have hrow : toeplitzRow unitSequence x n l = x l := by
    rw [toeplitzRow, sum_eq_single_of_mem l hl]
    · rw [Nat.dist_self, unitSequence, if_pos rfl, mul_one]
    · intro j _ hj
      have hne : Nat.dist l j ≠ 0 := fun h ↦ hj (Nat.eq_of_dist_eq_zero h).symm
      rw [unitSequence, if_neg hne, mul_zero]
  rw [hrow]
  ring

end Ring

/-! ## Normal equations -/

section Normal

variable [Field K] {r c x : ℕ → K} {n : ℕ} {e : K}

/-- The vector starts with one, the first row on it is the energy, and the others vanish. -/
structure Normal (r c : ℕ → K) (n : ℕ) (e : K) : Prop where
  lead : c 0 = 1
  first : toeplitzRow r c n 0 = e
  rest : ∀ l, 0 < l → l ≤ n → toeplitzRow r c n l = 0

/-- Only the coefficients up to `n` count. -/
theorem Normal.congr {c' : ℕ → K} (h : Normal r c n e) (hc : ∀ j ≤ n, c' j = c j) :
    Normal r c' n e := by
  have hrow (l : ℕ) : toeplitzRow r c' n l = toeplitzRow r c n l := by
    apply sum_congr rfl
    intro j hj
    rw [hc j (Nat.lt_succ_iff.mp (mem_range.mp hj))]
  refine ⟨(hc 0 (Nat.zero_le n)).trans h.lead, (hrow 0).trans h.first, fun l hpos hl ↦ ?_⟩
  exact (hrow l).trans (h.rest l hpos hl)

/-- **One step of the recursion.** -/
theorem Normal.step (h : Normal r c n e) (he : e ≠ 0) (hc : c (n + 1) = 0) {k : K}
    (hk : k = -toeplitzRow r c n (n + 1) / e) :
    Normal r (fun j ↦ c j + k * c (n + 1 - j)) (n + 1) (e * (1 - k * k)) := by
  have hke : k * e = -toeplitzRow r c n (n + 1) := by rw [hk, div_mul_cancel₀ _ he]
  have hrow (l : ℕ) (hl : l ≤ n + 1) :
      toeplitzRow r (fun j ↦ c j + k * c (n + 1 - j)) (n + 1) l =
        toeplitzRow r c n l + k * toeplitzRow r c n (n + 1 - l) := by
    rw [toeplitzRow_add, toeplitzRow_reflect r c hl, toeplitzRow_succ_of_zero r hc,
      toeplitzRow_succ_of_zero r hc]
  refine ⟨?_, ?_, fun l hpos hl ↦ ?_⟩
  · rw [Nat.sub_zero, hc, h.lead]
    ring
  · rw [hrow 0 (Nat.zero_le _), Nat.sub_zero, h.first]
    linear_combination k * hke
  · rw [hrow l hl]
    rcases Nat.lt_or_ge n l with hlast | hle
    · obtain rfl : l = n + 1 := Nat.le_antisymm hl hlast
      rw [Nat.sub_self, h.first]
      linear_combination hke
    · rw [h.rest l hpos hle, h.rest (n + 1 - l) (by omega) (by omega)]
      ring

/-- Against such a vector, only the first coefficient counts. -/
theorem Normal.form_eq (h : Normal r c n e) (x : ℕ → K) : toeplitzForm r x c n = x 0 * e := by
  have hrest : ∑ l ∈ range n, x (l + 1) * toeplitzRow r c n (l + 1) = 0 := by
    apply sum_eq_zero
    intro l hl
    rw [h.rest (l + 1) (Nat.succ_pos l) (mem_range.mp hl), mul_zero]
  rw [toeplitzForm, sum_range_succ', hrest, h.first, zero_add]

/-- The energy of another vector that starts with one. -/
theorem Normal.form_eq_add (h : Normal r c n e) (hx : x 0 = 1) :
    toeplitzForm r x x n = e + toeplitzForm r (fun j ↦ x j - c j) (fun j ↦ x j - c j) n := by
  rw [toeplitzForm_sub_self, h.form_eq, h.form_eq, h.lead, hx]
  ring

end Normal

/-! ## Positive forms -/

section Positive

variable [Field K] [LinearOrder K] [IsStrictOrderedRing K] {r c x : ℕ → K} {n : ℕ} {e : K}

/-- The form is positive definite on the indices up to `n`. -/
def Positive (r : ℕ → K) (n : ℕ) : Prop :=
  ∀ x : ℕ → K, (∃ j ≤ n, x j ≠ 0) → 0 < toeplitzForm r x x n

omit [IsStrictOrderedRing K] in
theorem Positive.of_le (h : Positive r n) {m : ℕ} (hm : m ≤ n) : Positive r m := by
  intro x hx
  obtain ⟨j, hj, hxj⟩ := hx
  have hout (i : ℕ) (hi : i ∉ range (m + 1)) : (if i ≤ m then x i else 0) = 0 :=
    if_neg fun hle ↦ hi (mem_range.mpr (Nat.lt_succ_of_le hle))
  have hin (i : ℕ) (hi : i ∈ range (m + 1)) : (if i ≤ m then x i else 0) = x i :=
    if_pos (Nat.lt_succ_iff.mp (mem_range.mp hi))
  have hsubset : range (m + 1) ⊆ range (n + 1) := range_subset_range.mpr (Nat.succ_le_succ hm)
  have hrow (l : ℕ) :
      toeplitzRow r (fun i ↦ if i ≤ m then x i else 0) n l = toeplitzRow r x m l := by
    rw [toeplitzRow, ← sum_subset hsubset fun i _ hi ↦ by rw [hout i hi, zero_mul]]
    exact sum_congr rfl fun i hi ↦ by rw [hin i hi]
  have hform : toeplitzForm r (fun i ↦ if i ≤ m then x i else 0)
      (fun i ↦ if i ≤ m then x i else 0) n = toeplitzForm r x x m := by
    rw [toeplitzForm, ← sum_subset hsubset fun i _ hi ↦ by rw [hout i hi, zero_mul]]
    exact sum_congr rfl fun i hi ↦ by rw [hin i hi, hrow]
  rw [← hform]
  exact h _ ⟨j, hj.trans hm, by rwa [if_pos hj]⟩

theorem Normal.pos (h : Normal r c n e) (hr : Positive r n) : 0 < e := by
  have hpos := hr c ⟨0, Nat.zero_le n, by rw [h.lead]; exact one_ne_zero⟩
  rwa [h.form_eq, h.lead, one_mul] at hpos

/-- The vector has the least energy, and no other one has. -/
theorem Normal.least (h : Normal r c n e) (hr : Positive r n) (hx : x 0 = 1) :
    e ≤ toeplitzForm r x x n ∧ (toeplitzForm r x x n = e ↔ ∀ j ≤ n, x j = c j) := by
  rw [h.form_eq_add hx]
  by_cases hsame : ∀ j ≤ n, x j = c j
  · have hzero : toeplitzForm r (fun j ↦ x j - c j) (fun j ↦ x j - c j) n = 0 := by
      apply sum_eq_zero
      intro l hl
      dsimp only
      rw [hsame l (Nat.lt_succ_iff.mp (mem_range.mp hl)), sub_self, zero_mul]
    rw [hzero, add_zero]
    exact ⟨le_refl e, iff_of_true rfl hsame⟩
  · obtain ⟨j, hj⟩ := not_forall.mp hsame
    obtain ⟨hjn, hne⟩ := Classical.not_imp.mp hj
    have hpos := hr (fun j ↦ x j - c j) ⟨j, hjn, sub_ne_zero.mpr hne⟩
    refine ⟨by linarith, iff_of_false ?_ hsame⟩
    intro heq
    linarith

/-- The coefficient of a step that keeps the energy positive. -/
theorem abs_lt_one_of_pos {k : K} (he : 0 < e) (hnext : 0 < e * (1 - k * k)) : |k| < 1 := by
  have hsq : 0 < 1 - k * k := (mul_pos_iff_of_pos_left he).mp hnext
  rw [← sq_lt_one_iff_abs_lt_one]
  linarith

theorem sum_sq_pos (hx : ∃ j ≤ n, x j ≠ 0) : 0 < ∑ l ∈ range (n + 1), x l ^ 2 := by
  obtain ⟨j, hj, hne⟩ := hx
  apply sum_pos' fun l _ ↦ sq_nonneg (x l)
  exact ⟨j, mem_range.mpr (Nat.lt_succ_of_le hj), sq_pos_of_ne_zero hne⟩

theorem positive_unitSequence (n : ℕ) : Positive (unitSequence (K := K)) n := by
  intro x hx
  rw [toeplitzForm_unitSequence]
  exact sum_sq_pos hx

theorem Positive.smul (h : Positive r n) {f : K} (hf : 0 < f) : Positive (fun i ↦ f * r i) n := by
  intro x hx
  have hform : toeplitzForm (fun i ↦ f * r i) x x n = f * toeplitzForm r x x n := by
    have hmix := toeplitzForm_mix r r f 0 x n
    simpa only [zero_mul, add_zero] using hmix
  rw [hform]
  exact mul_pos hf (h x hx)

/-- Between a positive form and the sum of squares. -/
theorem Positive.mix (h : Positive r n) {f : K} (hf : 0 ≤ f) (hf' : f ≤ 1) :
    Positive (fun i ↦ f * r i + (1 - f) * unitSequence i) n := by
  intro x hx
  rw [toeplitzForm_mix]
  have hr := h x hx
  have hunit := positive_unitSequence n x hx
  rcases hf.eq_or_lt with rfl | hpos
  · linarith
  · have hfirst := mul_pos hpos hr
    have hsecond := mul_nonneg (sub_nonneg.mpr hf') hunit.le
    linarith

end Positive

/-! ## Autocorrelation -/

section Autocorrelation

variable [Field K] (s : ℕ → K) (N : ℕ)

/-- The sum of the products of samples at a distance. -/
def autocorrelation (i : ℕ) : K := ∑ j ∈ range (N - i), s j * s (j + i)

/-- The signal moved by `j`. -/
def moved (t j : ℕ) : K := if j ≤ t ∧ t - j < N then s (t - j) else 0

/-- Two moved signals. -/
theorem sum_moved {n i j : ℕ} (hij : i ≤ j) (hj : j ≤ n) :
    ∑ t ∈ range (N + n), moved s N t i * moved s N t j = autocorrelation s N (j - i) := by
  have hsubset : Ico j (j + (N - (j - i))) ⊆ range (N + n) := by
    intro t ht
    rw [mem_Ico] at ht
    rw [mem_range]
    omega
  rw [← sum_subset hsubset, sum_Ico_eq_sum_range, Nat.add_sub_cancel_left, autocorrelation]
  · apply sum_congr rfl
    intro u hu
    rw [mem_range] at hu
    have hfirst : moved s N (j + u) i = s (u + (j - i)) := by
      have hindex : j + u - i = u + (j - i) := by omega
      rw [moved, if_pos ⟨by omega, by omega⟩, hindex]
    have hsecond : moved s N (j + u) j = s u := by
      rw [moved, if_pos ⟨by omega, by omega⟩, Nat.add_sub_cancel_left]
    rw [hfirst, hsecond, mul_comm]
  · intro t _ ht
    rw [mem_Ico] at ht
    by_cases hlow : j ≤ t
    · have hhigh : ¬ (i ≤ t ∧ t - i < N) := by omega
      rw [moved, if_neg hhigh, zero_mul]
    · have hout : ¬ (j ≤ t ∧ t - j < N) := fun h ↦ hlow h.1
      rw [mul_comm, moved, if_neg hout, zero_mul]

theorem sum_moved_dist {n i j : ℕ} (hi : i ≤ n) (hj : j ≤ n) :
    ∑ t ∈ range (N + n), moved s N t i * moved s N t j = autocorrelation s N (Nat.dist i j) := by
  rcases Nat.le_total i j with hij | hji
  · rw [sum_moved s N hij hj, Nat.dist_eq_sub_of_le hij]
  · rw [Nat.dist_eq_sub_of_le_right hji, ← sum_moved s N hji hi]
    exact sum_congr rfl fun t _ ↦ mul_comm _ _

/-- The form of an autocorrelation is the energy of the filtered signal. -/
theorem toeplitzForm_autocorrelation (x : ℕ → K) (n : ℕ) :
    toeplitzForm (autocorrelation s N) x x n =
      ∑ t ∈ range (N + n), (∑ j ∈ range (n + 1), x j * moved s N t j) ^ 2 := by
  have hsquare (t : ℕ) : (∑ j ∈ range (n + 1), x j * moved s N t j) ^ 2 =
      ∑ i ∈ range (n + 1), ∑ j ∈ range (n + 1), x i * x j * (moved s N t i * moved s N t j) := by
    rw [sq, sum_mul_sum]
    apply sum_congr rfl
    intro i _
    apply sum_congr rfl
    intro j _
    ring
  simp only [hsquare]
  symm
  rw [toeplitzForm_eq_sum, sum_comm]
  apply sum_congr rfl
  intro i hi
  rw [sum_comm]
  apply sum_congr rfl
  intro j hj
  rw [← mul_sum, sum_moved_dist s N (Nat.lt_succ_iff.mp (mem_range.mp hi))
    (Nat.lt_succ_iff.mp (mem_range.mp hj))]

/-- **The autocorrelation of a signal that is not zero is positive.** -/
theorem positive_autocorrelation [LinearOrder K] [IsStrictOrderedRing K]
    (hs : ∃ m < N, s m ≠ 0) (n : ℕ) : Positive (autocorrelation s N) n := by
  classical
  intro x hx
  rw [toeplitzForm_autocorrelation]
  apply sum_pos' fun t _ ↦ sq_nonneg _
  -- the first coefficient and the first sample that are not zero meet alone
  obtain ⟨hj, hxj⟩ := Nat.find_spec hx
  obtain ⟨hm, hsm⟩ := Nat.find_spec hs
  refine ⟨Nat.find hx + Nat.find hs, mem_range.mpr (by omega), sq_pos_of_ne_zero ?_⟩
  rw [sum_eq_single_of_mem (Nat.find hx) (mem_range.mpr (Nat.lt_succ_of_le hj))]
  · rw [moved, if_pos ⟨Nat.le_add_right _ _, by omega⟩, Nat.add_sub_cancel_left]
    exact mul_ne_zero hxj hsm
  · intro j hjn hne
    rcases Nat.lt_or_gt_of_ne hne with hless | hgreater
    · have hzero : x j = 0 := by
        by_contra hxj'
        exact Nat.find_min hx hless ⟨Nat.lt_succ_iff.mp (mem_range.mp hjn), hxj'⟩
      rw [hzero, zero_mul]
    · rw [moved]
      split_ifs with hin
      · have hzero : s (Nat.find hx + Nat.find hs - j) = 0 := by
          by_contra hne'
          exact Nat.find_min hs (by omega) ⟨hin.2, hne'⟩
        rw [hzero, mul_zero]
      · rw [mul_zero]

end Autocorrelation

end Vsys.Num
