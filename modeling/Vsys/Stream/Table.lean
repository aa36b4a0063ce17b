import Mathlib.Logic.Function.Basic
import Mathlib.Algebra.Ring.Int.Defs
import Mathlib.Data.List.Basic

/-!
# Tables with checked writes

A table of a fixed number of entries, as part of a memory that may be read at any index.  Writes
are checked: `store` and `memmove` fail when an entry outside the table would be written, so that a
computation which succeeds has kept to its tables.

`Tabulates table l` says that the table begins with the entries of `l`.  A store after the last of them
appends one, a `memmove` to the beginning of the table drops some.
-/

namespace Vsys.Stream

variable {α : Type*}

/-- Writes one entry. -/
def store (bound : ℤ) (table : ℤ → α) (i : ℤ) (value : α) : Option (ℤ → α) :=
  if 0 ≤ i ∧ i < bound then some (Function.update table i value) else none

/-- Moves `count` entries from index `n` to the beginning. -/
def memmove (bound : ℤ) (table : ℤ → α) (n count : ℤ) : Option (ℤ → α) :=
  if 0 ≤ n ∧ 0 ≤ count ∧ n + count ≤ bound then
    some fun i ↦ if 0 ≤ i ∧ i < count then table (i + n) else table i
  else none

theorem exists_memmove {bound : ℤ} (table : ℤ → α) {n count : ℤ}
    (h : 0 ≤ n ∧ 0 ≤ count ∧ n + count ≤ bound) :
    ∃ next, memmove bound table n count = some next :=
  ⟨_, if_pos h⟩

/-- The table begins with the entries of the list. -/
def Tabulates (table : ℤ → α) (l : List α) : Prop :=
  ∀ (i : ℕ) (x : α), l[i]? = some x → table i = x

variable {bound : ℤ} {table : ℤ → α} {l : List α}

theorem tabulates_nil (table : ℤ → α) : Tabulates table [] := by
  intro i x h
  simp at h

theorem Tabulates.get (h : Tabulates table l) {i : ℤ} {k : ℕ} (hi : i = k) (hk : k < l.length) :
    table i = l[k] := by
  subst hi
  exact h k l[k] (List.getElem?_eq_getElem hk)

/-- A store after the last entry. -/
theorem Tabulates.store (h : Tabulates table l) {i : ℤ} (hi : i = l.length) (hlt : i < bound) (value : α) :
    ∃ next, store bound table i value = some next ∧ Tabulates next (l ++ [value]) := by
  have hin : 0 ≤ i ∧ i < bound := by omega
  refine ⟨Function.update table i value, if_pos hin, ?_⟩
  intro k x hk
  by_cases hlast : k < l.length
  · rw [List.getElem?_append_left hlast] at hk
    have hne : (k : ℤ) ≠ i := by omega
    rw [Function.update_of_ne hne]
    exact h k x hk
  · rw [List.getElem?_append_right (Nat.le_of_not_lt hlast), List.getElem?_singleton] at hk
    split at hk
    case isTrue hzero =>
        have heq : (k : ℤ) = i := by omega
        rw [heq, Function.update_self]
        exact Option.some.inj hk
    case isFalse => exact absurd hk.symm (Option.some_ne_none x)

/-- The entries from `n` on moved to the beginning. -/
theorem Tabulates.memmove (h : Tabulates table l) {n : ℤ} {k : ℕ} (hn : n = k) (hk : k ≤ l.length)
    {count : ℤ} (hcount : n + count = l.length) (hle : n + count ≤ bound) :
    ∃ next, memmove bound table n count = some next ∧ Tabulates next (l.drop k) := by
  have hin : 0 ≤ n ∧ 0 ≤ count ∧ n + count ≤ bound := by omega
  refine ⟨_, if_pos hin, ?_⟩
  intro i x hi
  rw [List.getElem?_drop] at hi
  have hlt : k + i < l.length := (List.getElem?_eq_some_iff.mp hi).1
  have hmoved : (0 : ℤ) ≤ i ∧ (i : ℤ) < count := by omega
  have hindex : (i : ℤ) + n = (k + i : ℕ) := by omega
  calc (if (0 : ℤ) ≤ i ∧ (i : ℤ) < count then table (i + n) else table i)
      = table (i + n) := if_pos hmoved
    _ = table (k + i : ℕ) := by rw [hindex]
    _ = x := h (k + i) x hi

end Vsys.Stream
