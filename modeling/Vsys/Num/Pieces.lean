import Mathlib

/-!
# Functions made of pieces

The knots `x 0 < … < x (n - 1)` cut the line; from each knot to the next another function is taken,
and one before the first and one behind the last.  Where the pieces meet at the knots, the joined
function is continuous; where their derivatives meet too, it has a derivative, joined of theirs.
-/

namespace Vsys.Num

open Filter Topology

section Order

variable {α : Type*} [LinearOrder α] {n i j k : ℕ} {x : ℕ → α} {t u : α}

/-- Each knot lies before the next. -/
def Increasing (n : ℕ) (x : ℕ → α) : Prop := ∀ i, i + 1 < n → x i < x (i + 1)

theorem Increasing.lt (h : Increasing n x) (hij : i < j) (hj : j < n) : x i < x j := by
  induction j, hij using Nat.le_induction with
  | base => exact h i hj
  | succ j _ ih => exact (ih (by omega)).trans (h j hj)

theorem Increasing.le (h : Increasing n x) (hij : i ≤ j) (hj : j < n) : x i ≤ x j := by
  rcases hij.eq_or_lt with rfl | hlt
  · exact le_rfl
  · exact (h.lt hlt hj).le

/-- The number of knots before `t`. -/
def place (x : ℕ → α) (t : α) : ℕ → ℕ
  | 0 => 0
  | n + 1 => if x n < t then n + 1 else place x t n

theorem place_le (x : ℕ → α) (t : α) (n : ℕ) : place x t n ≤ n := by
  induction n with
  | zero => exact le_rfl
  | succ n ih =>
      rw [place]
      split_ifs
      · exact le_rfl
      · exact ih.trans (Nat.le_succ n)

/-- The knots before `t` are the first ones. -/
theorem lt_place_iff (hx : Increasing n x) (hi : i < n) : i < place x t n ↔ x i < t := by
  induction n with
  | zero => omega
  | succ n ih =>
      rw [place]
      split_ifs with hlast
      · exact iff_of_true hi ((hx.le (by omega) (Nat.lt_succ_self n)).trans_lt hlast)
      · rcases (Nat.lt_succ_iff.mp hi).eq_or_lt with rfl | hlt
        · exact iff_of_false (not_lt.mpr (place_le x t i)) hlast
        · exact ih (fun i hi ↦ hx i (by omega)) hlt

theorem place_eq (hx : Increasing n x) (hk : k ≤ n) (hlow : ∀ i < k, x i < t)
    (hhigh : k < n → t ≤ x k) : place x t n = k := by
  apply le_antisymm
  · by_contra hlt
    have hkn : k < n := (not_le.mp hlt).trans_le (place_le x t n)
    exact absurd ((lt_place_iff hx hkn).mp (not_le.mp hlt)) (not_lt.mpr (hhigh hkn))
  · by_contra hlt
    have hplace := not_le.mp hlt
    have hin : place x t n < n := hplace.trans_le hk
    exact absurd ((lt_place_iff hx hin).mpr (hlow _ hplace)) (lt_irrefl _)

end Order

/-- The function made of the pieces `g 0`, …, `g n`. -/
noncomputable def joined {α β : Type*} [LinearOrder α] (x : ℕ → α) (n : ℕ) (g : ℕ → α → β)
    (t : α) : β := g (place x t n) t

variable {n k : ℕ} {x : ℕ → ℝ} {g g' : ℕ → ℝ → ℝ} {t : ℝ}

/-- The pieces next to a knot agree in it. -/
def Meet (n : ℕ) (x : ℕ → ℝ) (g : ℕ → ℝ → ℝ) : Prop := ∀ k < n, g k (x k) = g (k + 1) (x k)

/-- To the left of a point there is one piece. -/
theorem joined_eventuallyEq_left (hx : Increasing n x) (g : ℕ → ℝ → ℝ) (t : ℝ) :
    joined x n g =ᶠ[𝓝[≤] t] g (place x t n) := by
  have hplace := place_le x t n
  have hlow : ∀ᶠ u in 𝓝 t, ∀ i ∈ Finset.range (place x t n), x i < u := by
    apply (Filter.eventually_all_finset _).mpr
    intro i hi
    have hlt := Finset.mem_range.mp hi
    exact eventually_gt_nhds ((lt_place_iff hx (hlt.trans_le hplace)).mp hlt)
  filter_upwards [hlow.filter_mono nhdsWithin_le_nhds, self_mem_nhdsWithin] with u hu hut
  rw [joined, place_eq hx hplace fun i hi ↦ hu i (Finset.mem_range.mpr hi)]
  intro hlt
  exact hut.trans (not_lt.mp fun h ↦ absurd ((lt_place_iff hx hlt).mpr h) (lt_irrefl _))

/-- To the right of a knot there is the next piece. -/
theorem joined_eventuallyEq_right_of_knot (hx : Increasing n x) (hmeet : Meet n x g)
    (hk : place x t n < n) (hknot : x (place x t n) = t) :
    joined x n g =ᶠ[𝓝[≥] t] g (place x t n + 1) := by
  set k := place x t n with hkdef
  have hhigh : ∀ᶠ u in 𝓝 t, k + 1 < n → u < x (k + 1) := by
    by_cases hin : k + 1 < n
    · filter_upwards [eventually_lt_nhds (hknot ▸ hx k hin)] with u hu _ using hu
    · exact Eventually.of_forall fun u h ↦ absurd h hin
  filter_upwards [hhigh.filter_mono nhdsWithin_le_nhds, self_mem_nhdsWithin] with u hu htu
  rcases (show t ≤ u from htu).eq_or_lt with rfl | hlt
  · calc
      joined x n g t = g k t := rfl
      _ = g (k + 1) t := by rw [← hknot, hmeet k hk]
  · rw [joined, place_eq hx hk (fun i hi ↦ ?_) fun h ↦ (hu h).le]
    exact ((hx.le (Nat.lt_succ_iff.mp hi) hk).trans_eq hknot).trans_lt hlt

theorem joined_eventuallyEq_right (hx : Increasing n x) (g : ℕ → ℝ → ℝ)
    (hnot : ∀ k < n, x k ≠ t) : joined x n g =ᶠ[𝓝[≥] t] g (place x t n) := by
  set k := place x t n with hkdef
  have hplace : k ≤ n := place_le x t n
  have hhigh : ∀ᶠ u in 𝓝 t, k < n → u < x k := by
    by_cases hin : k < n
    · have hle : t ≤ x k := not_lt.mp fun h ↦ absurd ((lt_place_iff hx hin).mpr h) (lt_irrefl _)
      filter_upwards [eventually_lt_nhds (hle.lt_of_ne (hnot k hin).symm)] with u hu _ using hu
    · exact Eventually.of_forall fun u h ↦ absurd h hin
  filter_upwards [hhigh.filter_mono nhdsWithin_le_nhds, self_mem_nhdsWithin] with u hu htu
  rw [joined, place_eq hx hplace (fun i hi ↦ ?_) fun h ↦ (hu h).le]
  exact ((lt_place_iff hx (hi.trans_le hplace)).mp hi).trans_le htu

/-- On both sides of a point there is a piece; if they are two, it is a knot. -/
theorem exists_right (hx : Increasing n x) (hmeet : Meet n x g) (t : ℝ) :
    ∃ l, joined x n g =ᶠ[𝓝[≥] t] g l ∧ ∀ f : ℕ → ℝ → ℝ, Meet n x f →
      f l t = f (place x t n) t := by
  by_cases hknot : ∃ k < n, x k = t
  · obtain ⟨k, hk, rfl⟩ := hknot
    have hplace : place x (x k) n = k :=
      place_eq hx hk.le (fun i hi ↦ hx.lt hi hk) fun _ ↦ le_rfl
    have hright := joined_eventuallyEq_right_of_knot hx hmeet (t := x k) (by rwa [hplace])
      (by rw [hplace])
    rw [hplace] at hright ⊢
    exact ⟨k + 1, hright, fun f hf ↦ (hf k hk).symm⟩
  · push Not at hknot
    exact ⟨_, joined_eventuallyEq_right hx g hknot, fun f _ ↦ rfl⟩

/-- **Continuity.** -/
theorem continuous_joined (hx : Increasing n x) (hmeet : Meet n x g)
    (hg : ∀ k, Continuous (g k)) : Continuous (joined x n g) := by
  rw [continuous_iff_continuousAt]
  intro t
  obtain ⟨l, hright, hsame⟩ := exists_right hx hmeet t
  have hvalue : joined x n g t = g l t := (hsame g hmeet).symm
  have hleft := joined_eventuallyEq_left hx g t
  have hunion := ((hg (place x t n)).continuousWithinAt.congr_of_eventuallyEq hleft rfl).union
    ((hg l).continuousWithinAt.congr_of_eventuallyEq hright hvalue)
  rwa [Set.Iic_union_Ici, continuousWithinAt_univ] at hunion

/-- **Derivatives.** -/
theorem hasDerivAt_joined (hx : Increasing n x) (hmeet : Meet n x g) (hmeet' : Meet n x g')
    (hg : ∀ k t, HasDerivAt (g k) (g' k t) t) (t : ℝ) :
    HasDerivAt (joined x n g) (joined x n g' t) t := by
  obtain ⟨l, hright, hsame⟩ := exists_right hx hmeet t
  have hvalue : joined x n g t = g l t := (hsame g hmeet).symm
  have hslope : g' l t = joined x n g' t := hsame g' hmeet'
  have hleft := joined_eventuallyEq_left hx g t
  have hderivLeft := (hg (place x t n) t).hasDerivWithinAt.congr_of_eventuallyEq hleft rfl
  have hderivRight := (hg l t).hasDerivWithinAt.congr_of_eventuallyEq hright hvalue
  rw [hslope] at hderivRight
  have hunion := hderivLeft.union hderivRight
  rwa [Set.Iic_union_Ici, hasDerivWithinAt_univ] at hunion

/-- **Twice.** Pieces that meet with their first two derivatives give a smooth function. -/
theorem contDiff_two_joined {g'' : ℕ → ℝ → ℝ} (hx : Increasing n x) (hmeet : Meet n x g)
    (hmeet' : Meet n x g') (hmeet'' : Meet n x g'') (hg : ∀ k t, HasDerivAt (g k) (g' k t) t)
    (hg' : ∀ k t, HasDerivAt (g' k) (g'' k t) t) (hg'' : ∀ k, Continuous (g'' k)) :
    ContDiff ℝ 2 (joined x n g) := by
  have hfirst := hasDerivAt_joined hx hmeet hmeet' hg
  have hsecond := hasDerivAt_joined hx hmeet' hmeet'' hg'
  have hderiv : deriv (joined x n g) = joined x n g' := funext fun t ↦ (hfirst t).deriv
  have hderiv' : deriv (joined x n g') = joined x n g'' := funext fun t ↦ (hsecond t).deriv
  rw [show (2 : WithTop ℕ∞) = 1 + 1 by norm_num, contDiff_succ_iff_deriv]
  refine ⟨fun t ↦ (hfirst t).differentiableAt, fun h ↦ by simp at h, ?_⟩
  rw [hderiv, contDiff_one_iff_deriv, hderiv']
  exact ⟨fun t ↦ (hsecond t).differentiableAt, continuous_joined hx hmeet'' hg''⟩

end Vsys.Num
