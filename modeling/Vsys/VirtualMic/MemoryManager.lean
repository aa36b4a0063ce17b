import Vsys.Stream.Pool
import Mathlib.Tactic.Ring

/-!
# `MemoryManager`

The pool of blocks that a track of the virtual microphone stores its audio in
(`test/virtual_mic/MemoryManager.h`).  A block is known by the offset of its first byte in the
manager's memory.  Memory that was not written since `new char[]` reads as `none`.
-/

namespace Vsys.VirtualMic

open Vsys.Stream

/-- `class MemoryManager`. -/
structure MemoryManager where
  memory : ℕ → Option UInt8
  blockSize : ℕ
  blockUsage : List Bool

namespace MemoryManager

/-- The constructor. -/
def make (totalSize blockSize : ℕ) : MemoryManager where
  memory := fun _ ↦ none
  blockSize := blockSize
  blockUsage := List.replicate (totalSize / blockSize) false

/-- `blockUsage` is resized to `numBlocks` once and for all. -/
def numBlocks (m : MemoryManager) : ℕ := m.blockUsage.length

/-- The first unused block is marked as used; `none` if there is no unused block. -/
def allocate (m : MemoryManager) : Option ℕ × MemoryManager :=
  match firstFree m.blockUsage with
  | some i => (some (i * m.blockSize), { m with blockUsage := m.blockUsage.set i true })
  | none => (none, m)

/-- The block at an offset is marked as unused. -/
def deallocate (m : MemoryManager) (offset : ℕ) : MemoryManager :=
  let index := offset / m.blockSize
  if index < m.numBlocks then { m with blockUsage := m.blockUsage.set index false } else m

/-- `memcpy` into the memory. -/
def write (m : MemoryManager) (offset : ℕ) (data : List UInt8) : MemoryManager :=
  { m with
    memory := fun a ↦
      if offset ≤ a ∧ a < offset + data.length then data[a - offset]? else m.memory a }

/-- `memcpy` out of the memory. -/
def read (m : MemoryManager) (offset size : ℕ) : List (Option UInt8) :=
  (List.range size).map fun k ↦ m.memory (offset + k)

@[simp]
theorem write_blockSize (m : MemoryManager) (offset : ℕ) (data : List UInt8) :
    (m.write offset data).blockSize = m.blockSize := rfl

/-- What was written is read back. -/
theorem read_write_self (m : MemoryManager) (offset : ℕ) (data : List UInt8) :
    (m.write offset data).read offset data.length = data.map some := by
  apply List.ext_getElem
  · simp [read]
  · intro k hk _
    have hlt : k < data.length := by simpa [read] using hk
    simp [read, write, hlt]

/-- A write elsewhere is not seen. -/
theorem read_write_of_disjoint (m : MemoryManager) {offset other size : ℕ} {data : List UInt8}
    (h : other + size ≤ offset ∨ offset + data.length ≤ other) :
    (m.write offset data).read other size = m.read other size := by
  apply List.map_congr_left
  intro k hk
  have hlt := List.mem_range.mp hk
  exact if_neg (by omega)

/-- The blocks with numbers `held` are in use, and they hold `contents`. -/
structure Stores (m : MemoryManager) (held : List ℕ) (contents : List (List (Option UInt8))) :
    Prop where
  holds : InUse m.blockUsage held
  stored : held.map (fun i ↦ m.read (i * m.blockSize) m.blockSize) = contents

theorem make_stores (totalSize blockSize : ℕ) : (make totalSize blockSize).Stores [] [] where
  holds := inUse_replicate _
  stored := rfl

variable {m : MemoryManager} {held : List ℕ} {contents : List (List (Option UInt8))}

/-- A block is refused exactly when all blocks are in use. -/
theorem Stores.allocate_eq_none_iff (h : m.Stores held contents) :
    m.allocate.1 = none ↔ held.length = m.numBlocks := by
  rw [numBlocks, ← h.holds.firstFree_eq_none_iff, allocate]
  cases firstFree m.blockUsage <;> simp

/-- Two different blocks have no byte in common. -/
theorem block_disjoint {i j size : ℕ} (h : i ≠ j) :
    i * size + size ≤ j * size ∨ j * size + size ≤ i * size := by
  obtain hlt | hlt := Nat.lt_or_gt_of_ne h
  · left
    calc
      i * size + size = (i + 1) * size := by ring
      _ ≤ j * size := Nat.mul_le_mul_right size hlt
  · right
    calc
      j * size + size = (j + 1) * size := by ring
      _ ≤ i * size := Nat.mul_le_mul_right size hlt

/-- **Allocation.** A new block joins the end of the list; no stored block changes when it is
written. -/
theorem Stores.allocate (h : m.Stores held contents) {offset : ℕ} {m' : MemoryManager}
    (hnew : m.allocate = (some offset, m')) {data : List UInt8} (hdata : data.length = m.blockSize) :
    ∃ i, offset = i * m.blockSize ∧ (m'.write offset data).blockSize = m.blockSize ∧
      (m'.write offset data).numBlocks = m.numBlocks ∧
      (m'.write offset data).Stores (held ++ [i]) (contents ++ [data.map some]) := by
  rw [MemoryManager.allocate] at hnew
  cases hfree : firstFree m.blockUsage with
  | none => simp [hfree] at hnew
  | some i =>
      simp only [hfree, Prod.mk.injEq, Option.some.injEq] at hnew
      obtain ⟨rfl, rfl⟩ := hnew
      refine ⟨i, rfl, rfl, List.length_set, ⟨h.holds.allocate hfree, ?_⟩⟩
      rw [List.map_append, ← h.stored]
      congr 1
      · apply List.map_congr_left
        intro j hj
        have hne : j ≠ i := fun heq ↦ h.holds.notMem_of_firstFree hfree (heq ▸ hj)
        apply read_write_of_disjoint
        rw [hdata]
        exact block_disjoint hne
      · rw [List.map_singleton, write_blockSize, ← hdata, read_write_self]

/-- **Deallocation.** The block at the front of the list leaves it; the other blocks are kept. -/
theorem Stores.deallocate {i : ℕ} (h : m.Stores (i :: held) contents) (hsize : 0 < m.blockSize) :
    ∃ rest, contents = m.read (i * m.blockSize) m.blockSize :: rest ∧
      (m.deallocate (i * m.blockSize)).blockSize = m.blockSize ∧
      (m.deallocate (i * m.blockSize)).numBlocks = m.numBlocks ∧
      (m.deallocate (i * m.blockSize)).Stores held rest := by
  have hlt : i < m.numBlocks := h.holds.lt_length List.mem_cons_self
  have hdrop : m.deallocate (i * m.blockSize) =
      { m with blockUsage := m.blockUsage.set i false } := by
    simp only [MemoryManager.deallocate, Nat.mul_div_cancel i hsize]
    exact if_pos hlt
  refine ⟨held.map fun j ↦ m.read (j * m.blockSize) m.blockSize, h.stored.symm, ?_⟩
  rw [hdrop]
  exact ⟨rfl, List.length_set, ⟨h.holds.deallocate, rfl⟩⟩

end MemoryManager

end Vsys.VirtualMic
