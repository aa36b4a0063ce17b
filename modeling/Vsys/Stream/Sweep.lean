import Mathlib.Data.List.Nodup
import Mathlib.Logic.Function.Basic

/-!
# Sweeps

A loop over a list of indices that sets one entry of a table in every round, from what the table
holds by then.  After the loop an entry is what its round has made of the entries before it.
-/

namespace Vsys.Stream

variable {ι α : Type*} [DecidableEq ι]

/-- The table after the loop. -/
def sweep (f : (ι → α) → ι → α) (table : ι → α) (is : List ι) : ι → α :=
  is.foldl (fun table i ↦ Function.update table i (f table i)) table

variable {f : (ι → α) → ι → α} {table : ι → α} {before later : List ι} {i j : ι}

@[simp]
theorem sweep_nil (f : (ι → α) → ι → α) (table : ι → α) : sweep f table [] = table := rfl

theorem sweep_cons (f : (ι → α) → ι → α) (table : ι → α) (i : ι) (is : List ι) :
    sweep f table (i :: is) = sweep f (Function.update table i (f table i)) is := rfl

theorem sweep_append (f : (ι → α) → ι → α) (table : ι → α) (before later : List ι) :
    sweep f table (before ++ later) = sweep f (sweep f table before) later := List.foldl_append

/-- The other entries stay. -/
theorem sweep_of_notMem (h : i ∉ later) : sweep f table later i = table i := by
  induction later generalizing table with
  | nil => rfl
  | cons k later ih =>
      rw [sweep_cons, ih fun hmem ↦ h (List.mem_cons_of_mem k hmem)]
      exact Function.update_of_ne (List.ne_of_not_mem_cons h) _ _

/-- An entry keeps what its round has set. -/
theorem sweep_at (h : i ∉ later) :
    sweep f table (before ++ i :: later) i = f (sweep f table before) i := by
  rw [sweep_append, sweep_cons, sweep_of_notMem h, Function.update_self]

/-- The entries before a round are final by then. -/
theorem sweep_before (hnodup : (before ++ later).Nodup) (hj : j ∈ before) :
    sweep f table (before ++ later) j = sweep f table before j := by
  rw [sweep_append]
  exact sweep_of_notMem fun hlater ↦ List.disjoint_of_nodup_append hnodup hj hlater

/-- **A sweep solves its equations**: an entry is what its round makes of the final table, when the
round looks at the entries before it only. -/
theorem sweep_eq (hnodup : (before ++ i :: later).Nodup)
    (hf : ∀ table table' : ι → α, (∀ j ∈ before, table j = table' j) → f table i = f table' i) :
    sweep f table (before ++ i :: later) i = f (sweep f table (before ++ i :: later)) i := by
  have hlast : i ∉ later := by
    have hrest := (List.nodup_append.mp hnodup).2.1
    exact (List.nodup_cons.mp hrest).1
  calc
    sweep f table (before ++ i :: later) i = f (sweep f table before) i := sweep_at hlast
    _ = f (sweep f table (before ++ i :: later)) i := by
      apply hf
      intro j hj
      exact (sweep_before hnodup hj).symm

/-! ## Sweeps over a range -/

theorem range_split {n k : ℕ} (h : k < n) :
    List.range n = List.range k ++ k :: List.range' (k + 1) (n - k - 1) := by
  have hcons : List.range' k (n - k) = k :: List.range' (k + 1) (n - k - 1) := by
    obtain ⟨d, hd⟩ := Nat.exists_eq_add_of_lt h
    rw [show n - k = d + 1 by omega, List.range'_succ, Nat.add_sub_cancel]
  rw [← hcons, List.range_eq_range', List.range_eq_range']
  calc
    List.range' 0 n = List.range' 0 (k + (n - k)) := by rw [Nat.add_sub_cancel' (Nat.le_of_lt h)]
    _ = List.range' 0 k ++ List.range' k (n - k) := by
      rw [← List.range'_append_1, Nat.zero_add]

variable {f : (ℕ → α) → ℕ → α} {table : ℕ → α} {n k : ℕ}

/-- Upwards: a round may look at the entries below. -/
theorem sweep_range_eq (hk : k < n)
    (hf : ∀ table table' : ℕ → α, (∀ j < k, table j = table' j) → f table k = f table' k) :
    sweep f table (List.range n) k = f (sweep f table (List.range n)) k := by
  have hnodup : (List.range n).Nodup := List.nodup_range
  rw [range_split hk] at hnodup ⊢
  apply sweep_eq hnodup
  intro table table' h
  exact hf table table' fun j hj ↦ h j (List.mem_range.mpr hj)

/-- Downwards: a round may look at the entries above. -/
theorem sweep_reverse_eq (hk : k < n)
    (hf : ∀ table table' : ℕ → α, (∀ j, k < j → j < n → table j = table' j) →
      f table k = f table' k) :
    sweep f table (List.range n).reverse k = f (sweep f table (List.range n).reverse) k := by
  have hnodup : (List.range n).reverse.Nodup := List.nodup_reverse.mpr List.nodup_range
  have hsplit : (List.range n).reverse =
      (List.range' (k + 1) (n - k - 1)).reverse ++ k :: (List.range k).reverse := by
    rw [range_split hk, List.reverse_append, List.reverse_cons, List.append_assoc,
      List.singleton_append]
  rw [hsplit] at hnodup ⊢
  apply sweep_eq hnodup
  intro table table' h
  apply hf
  intro j hkj hjn
  apply h
  rw [List.mem_reverse, List.mem_range'_1]
  omega

end Vsys.Stream
