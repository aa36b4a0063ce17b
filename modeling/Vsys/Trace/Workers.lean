import Mathlib.Algebra.BigOperators.Group.Finset.Basic
import Mathlib.Algebra.Order.BigOperators.Group.Finset
import Mathlib.Data.Fintype.BigOperators
import Mathlib.Algebra.Order.Group.Multiset

/-!
# Counting over the workers of a pool

A worker is somewhere in its program, and what it has in its hands depends on where it is: a number, or
a multiset of tasks.  `total` adds this up over all workers.  One worker moves at a time, and
`total_update` is what a move does to the sum; what no two workers share follows from a sum without
repetitions (`eq_of_mem_total`).
-/

namespace Vsys.Trace

variable {W Place M A : Type*} [Fintype W]

/-- What the workers have in their hands together. -/
def total [AddCommMonoid M] (hands : Place → M) (place : W → Place) : M := ∑ w, hands (place w)

section Sum

variable [AddCommMonoid M] {hands : Place → M} {place : W → Place}

theorem total_eq_zero (h : ∀ w, hands (place w) = 0) : total hands place = 0 :=
  Finset.sum_eq_zero fun w _ ↦ h w

/-- A move of one worker. -/
theorem total_update [DecidableEq W] (hands : Place → M) (place : W → Place) (w : W) (next : Place) :
    hands (place w) + total hands (Function.update place w next) =
      hands next + total hands place := by
  have hothers : ∑ v ∈ {w}ᶜ, hands (Function.update place w next v) =
      ∑ v ∈ {w}ᶜ, hands (place v) := by
    apply Finset.sum_congr rfl
    intro v hv
    rw [Finset.mem_compl, Finset.mem_singleton] at hv
    rw [Function.update_of_ne hv]
  calc
    hands (place w) + total hands (Function.update place w next) =
        hands (place w) + (hands next + ∑ v ∈ {w}ᶜ, hands (place v)) := by
      rw [total, Fintype.sum_eq_add_sum_compl w, hothers, Function.update_self]
    _ = hands next + (hands (place w) + ∑ v ∈ {w}ᶜ, hands (place v)) := add_left_comm ..
    _ = hands next + total hands place := by rw [total, Fintype.sum_eq_add_sum_compl w]

end Sum

theorem le_total (hands : Place → ℕ) (place : W → Place) (w : W) :
    hands (place w) ≤ total hands place := by
  classical
  rw [total, Fintype.sum_eq_add_sum_compl w]
  exact Nat.le_add_right _ _

theorem mem_total {hands : Place → Multiset A} {place : W → Place} {w : W} {a : A}
    (hw : a ∈ hands (place w)) : a ∈ total hands place := by
  classical
  rw [total, Fintype.sum_eq_add_sum_compl w]
  exact Multiset.mem_add.mpr (.inl hw)

/-- No two workers have the same in their hands, if nothing is there twice. -/
theorem eq_of_mem_total [DecidableEq W] {hands : Place → Multiset A} {place : W → Place}
    (hnodup : (total hands place).Nodup) {w w' : W} {a : A} (hw : a ∈ hands (place w))
    (hw' : a ∈ hands (place w')) : w = w' := by
  by_contra hne
  rw [total, Fintype.sum_eq_add_sum_compl w, Multiset.nodup_add] at hnodup
  have hmem : w' ∈ ({w}ᶜ : Finset W) := by simpa using fun h ↦ hne h.symm
  have hle : hands (place w') ≤ ∑ v ∈ {w}ᶜ, hands (place v) :=
    Finset.single_le_sum (fun _ _ ↦ Multiset.zero_le _) hmem
  exact Multiset.disjoint_left.mp hnodup.2.2 hw (Multiset.mem_of_le hle hw')

end Vsys.Trace
