import Mathlib.Algebra.Order.Ring.Rat
import Mathlib.Order.UpperLower.Principal

/-!
# The best of some candidates

A loop keeps a candidate with its score and takes another one only if that is better.
-/

namespace Vsys.Align

variable {ι : Type*}

/-- The candidate a loop over `candidates` is left with. -/
def keepMax (first : ι × ℚ) (candidates : List (ι × ℚ)) : ι × ℚ :=
  candidates.foldl (fun best candidate ↦ if best.2 < candidate.2 then candidate else best) first

theorem keepMax_mem (first : ι × ℚ) (candidates : List (ι × ℚ)) :
    keepMax first candidates = first ∨ keepMax first candidates ∈ candidates := by
  induction candidates generalizing first with
  | nil => exact .inl rfl
  | cons candidate candidates ih =>
      rw [keepMax, List.foldl_cons, ← keepMax]
      obtain heq | hmem := ih (if first.2 < candidate.2 then candidate else first)
      · rw [heq]
        split_ifs
        · exact .inr (List.mem_cons_self ..)
        · exact .inl rfl
      · exact .inr (List.mem_cons_of_mem _ hmem)

theorem first_le_keepMax (first : ι × ℚ) (candidates : List (ι × ℚ)) :
    first.2 ≤ (keepMax first candidates).2 := by
  induction candidates generalizing first with
  | nil => exact le_refl _
  | cons candidate candidates ih =>
      rw [keepMax, List.foldl_cons, ← keepMax]
      refine le_trans ?_ (ih _)
      split_ifs with hless
      · exact hless.le
      · exact le_refl _

theorem le_keepMax (first : ι × ℚ) {candidates : List (ι × ℚ)} {candidate : ι × ℚ}
    (h : candidate ∈ candidates) : candidate.2 ≤ (keepMax first candidates).2 := by
  induction candidates generalizing first with
  | nil => exact absurd h List.not_mem_nil
  | cons other candidates ih =>
      rw [keepMax, List.foldl_cons, ← keepMax]
      obtain rfl | h := List.mem_cons.mp h
      · refine le_trans ?_ (first_le_keepMax _ candidates)
        split_ifs with hless
        · exact le_refl _
        · exact not_lt.mp hless
      · exact ih _ h

/-- If every candidate is better than the first one, one of them is kept. -/
theorem keepMax_mem_of_lt (first : ι × ℚ) {candidates : List (ι × ℚ)} (hne : candidates ≠ [])
    (h : ∀ candidate ∈ candidates, first.2 < candidate.2) : keepMax first candidates ∈ candidates := by
  obtain heq | hmem := keepMax_mem first candidates
  · obtain ⟨candidate, hcandidate⟩ := List.exists_mem_of_ne_nil _ hne
    have hle := le_keepMax first hcandidate
    rw [heq] at hle
    exact absurd hle (not_le.mpr (h candidate hcandidate))
  · exact hmem

/-! ## The greatest value -/

/-- The value a loop is left with that takes over every greater one. -/
def greatest (f : ι → ℚ) (first : ℚ) (candidates : List ι) : ℚ :=
  candidates.foldl (fun best candidate ↦ if best < f candidate then f candidate else best) first

/-- The greatest value is in a lower set if all values are. -/
theorem greatest_mem_iff {s : Set ℚ} (hs : IsLowerSet s) (f : ι → ℚ) (first : ℚ)
    (candidates : List ι) :
    greatest f first candidates ∈ s ↔ first ∈ s ∧ ∀ candidate ∈ candidates, f candidate ∈ s := by
  induction candidates generalizing first with
  | nil => simp [greatest]
  | cons candidate candidates ih =>
      rw [greatest, List.foldl_cons, ← greatest, ih, List.forall_mem_cons, ← and_assoc]
      apply and_congr_left
      intro _
      split_ifs with hless
      · exact ⟨fun h ↦ ⟨hs hless.le h, h⟩, And.right⟩
      · exact ⟨fun h ↦ ⟨h, hs (not_lt.mp hless) h⟩, And.left⟩

theorem greatest_lt_iff {f : ι → ℚ} {first b : ℚ} {candidates : List ι} :
    greatest f first candidates < b ↔ first < b ∧ ∀ candidate ∈ candidates, f candidate < b :=
  greatest_mem_iff (isLowerSet_Iio b) f first candidates

theorem greatest_le_iff {f : ι → ℚ} {first b : ℚ} {candidates : List ι} :
    greatest f first candidates ≤ b ↔ first ≤ b ∧ ∀ candidate ∈ candidates, f candidate ≤ b :=
  greatest_mem_iff (isLowerSet_Iic b) f first candidates

end Vsys.Align
