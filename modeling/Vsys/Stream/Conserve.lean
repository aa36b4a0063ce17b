import Mathlib.Data.List.Flatten
import Vsys.Stream.Blocks

/-!
# Streams that are handed on

A consumer takes a stream in pieces and hands it on in pieces of its own; the rest it holds back.
`Conserves` says that nothing is lost, repeated or reordered on the way, with the number of entries
held back.  The pieces are often frames of one length; `flatten_blockAt` puts them together again.
-/

namespace Vsys.Stream

variable {α : Type*} {input handed rest : List α} {held : ℕ}

/-- What was handed on is the beginning of the input, and the other `held` entries are held back. -/
def Conserves (input handed : List α) (held : ℕ) : Prop :=
  handed <+: input ∧ handed.length + held = input.length

instance [DecidableEq α] (input handed : List α) (held : ℕ) : Decidable (Conserves input handed held) :=
  inferInstanceAs (Decidable (_ ∧ _))

/-- The rest is what is held back. -/
theorem conserves_of_append (h : handed ++ rest = input) (hlen : rest.length = held) :
    Conserves input handed held := by
  refine ⟨⟨rest, h⟩, ?_⟩
  rw [← h, List.length_append, hlen]

/-! ## Frames -/

/-- The first frames make up the beginning of the list. -/
theorem flatten_blockAt (n k : ℕ) (l : List α) :
    ((List.range k).map fun j ↦ blockAt n j l).flatten = l.take (k * n) := by
  induction k with
  | zero => simp
  | succ k ih =>
      rw [List.range_succ, List.map_append, List.flatten_append, ih, List.map_singleton,
        List.flatten_singleton, blockAt, Nat.add_mul, Nat.one_mul, List.take_add]

theorem length_blockAt {n k : ℕ} {l : List α} (h : (k + 1) * n ≤ l.length) :
    (blockAt n k l).length = n := by
  rw [Nat.add_mul, Nat.one_mul] at h
  rw [blockAt, List.length_take, List.length_drop]
  omega

/-- Frames `i`, …, `i + k - 1`. -/
def slices (n : ℕ) (l : List α) (i k : ℕ) : List (List α) :=
  (List.range' i k).map fun j ↦ blockAt n j l

theorem slices_succ (n : ℕ) (l : List α) (i k : ℕ) :
    slices n l i (k + 1) = blockAt n i l :: slices n l (i + 1) k := by
  rw [slices, slices, List.range'_succ, List.map_cons]

/-- Frames, and the frames after them. -/
theorem slices_add (n : ℕ) (l : List α) (i k m : ℕ) :
    slices n l i (k + m) = slices n l i k ++ slices n l (i + k) m := by
  induction k generalizing i with
  | zero => rw [Nat.zero_add, Nat.add_zero]; rfl
  | succ k ih =>
      rw [Nat.succ_add_eq_add_succ, Nat.add_succ, slices_succ, slices_succ, ih, List.cons_append,
        Nat.succ_add_eq_add_succ]

@[simp]
theorem length_slices (n : ℕ) (l : List α) (i k : ℕ) : (slices n l i k).length = k := by
  rw [slices, List.length_map, List.length_range']

theorem flatten_slices (n : ℕ) (l : List α) (k : ℕ) : (slices n l 0 k).flatten = l.take (k * n) := by
  rw [slices, ← List.range_eq_range', flatten_blockAt]

theorem length_of_mem_slices {n k : ℕ} {l frame : List α} (hk : k * n ≤ l.length)
    (hframe : frame ∈ slices n l 0 k) : frame.length = n := by
  obtain ⟨j, hj, rfl⟩ := List.mem_map.mp hframe
  rw [← List.range_eq_range', List.mem_range] at hj
  exact length_blockAt ((Nat.mul_le_mul_right _ hj).trans hk)

end Vsys.Stream
