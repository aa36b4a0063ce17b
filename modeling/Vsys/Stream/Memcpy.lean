import Mathlib.Data.Nat.Notation
import Mathlib.Logic.Function.Basic

/-!
# `memcpy` within one row

The C library says what `memcpy` does only if the two regions do not overlap.  `Memcpy` is any copy
with this contract; `downward` is one that goes from the last entry to the first, and
`downward_of_overlap` is what it does to a move towards the front by less than its length.
-/

namespace Vsys.Stream

variable {α : Type*}

/-- The row with `n` entries copied from `src` to `dst`. -/
def copied (row : ℕ → α) (dst src n : ℕ) : ℕ → α := fun j ↦
  if dst ≤ j ∧ j < dst + n then row (src + (j - dst)) else row j

/-- A copy within a row that keeps the contract of the C library. -/
structure Memcpy (α : Type*) where
  copy : (ℕ → α) → (dst src n : ℕ) → ℕ → α
  disjoint : ∀ row dst src n, dst + n ≤ src ∨ src + n ≤ dst → copy row dst src n = copied row dst src n

/-- The entries are copied one by one, the last one first. -/
def copyDown (row : ℕ → α) (dst src : ℕ) : ℕ → ℕ → α
  | 0 => row
  | n + 1 => copyDown (Function.update row (dst + n) (row (src + n))) dst src n

theorem copyDown_of_disjoint (row : ℕ → α) {dst src n : ℕ} (h : dst + n ≤ src ∨ src + n ≤ dst) :
    copyDown row dst src n = copied row dst src n := by
  induction n generalizing row with
  | zero =>
      funext j
      rw [copyDown, copied, if_neg (by omega)]
  | succ n ih =>
      funext j
      rw [copyDown, ih _ (by omega), copied, copied]
      by_cases hlast : j = dst + n
      · subst hlast
        rw [if_neg (by omega), if_pos (by omega), Function.update_self, Nat.add_sub_cancel_left]
      · by_cases hin : dst ≤ j ∧ j < dst + n
        · rw [if_pos hin, if_pos (by omega), Function.update_of_ne (by omega)]
        · rw [if_neg hin, if_neg (by omega), Function.update_of_ne hlast]

/-- The copy that goes down. -/
def Memcpy.downward : Memcpy α where
  copy := copyDown
  disjoint := fun row _ _ _ h ↦ copyDown_of_disjoint row h

theorem copyDown_of_le (row : ℕ → α) (src : ℕ) {n j : ℕ} (h : n ≤ j) :
    copyDown row 0 src n j = row j := by
  induction n generalizing row with
  | zero => rfl
  | succ n ih => rw [copyDown, ih _ (by omega), Function.update_of_ne (by omega)]

/-- An entry comes from where it stood, or from the copy that was made there before. -/
theorem copyDown_eq (row : ℕ → α) {src n j : ℕ} (hsrc : 0 < src) (hj : j < n) :
    copyDown row 0 src n j =
      if src + j < n then copyDown row 0 src n (src + j) else row (src + j) := by
  induction n generalizing row with
  | zero => omega
  | succ n ih =>
      rw [copyDown, Nat.zero_add]
      by_cases hlast : j = n
      · subst hlast
        rw [copyDown_of_le _ _ (Nat.le_refl j), Function.update_self, if_neg (by omega),
          Nat.add_comm src j]
      · rw [ih _ (by omega)]
        by_cases hend : src + j = n
        · rw [if_neg (by omega), if_pos (by omega), copyDown_of_le _ _ (by omega)]
        · by_cases hless : src + j < n
          · rw [if_pos hless, if_pos (by omega)]
          · rw [if_neg hless, if_neg (by omega), Function.update_of_ne hend]

/-- A move by less than its length: the first entry is taken from twice as far. -/
theorem downward_of_overlap (row : ℕ → α) {src n : ℕ} (hsrc : 0 < src) (hover : src < n)
    (hfar : n ≤ src + src) : Memcpy.downward.copy row 0 src n 0 = row (src + src) := by
  show copyDown row 0 src n 0 = _
  rw [copyDown_eq row hsrc (by omega), Nat.add_zero, if_pos hover, copyDown_eq row hsrc hover,
    if_neg (by omega)]

end Vsys.Stream
