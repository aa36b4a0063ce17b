import Mathlib.Data.Nat.Bitwise
import Vsys.Io.Reads
import Vsys.Stream.FreeList

/-!
# The memory pool of the A2B stack

`a2bstack/src/pool.c`: blocks of one size in a heap that the caller provides.  The free blocks are
chained through their own first words, which hold the number of the next free block; a block that
was never given out is chained by the call of `a2b_poolAlloc` that comes to it.

Memory is bytes by address, pointers are addresses with `0` for `A2B_NULL`, and the unsigned types
of the source wrap around.  A pool that is not there (`A2B_NULL == pool`) is left out.
-/

namespace Vsys.A2bStack

open Vsys.Io Vsys.Stream

abbrev Mem := ℕ → UInt8

/-- The platform's pointers: `ptrBytes` is `sizeof(a2b_UIntPtr)`.  An index of a block is an
`a2b_UInt32`, and it is stored as an `a2b_UIntPtr`. -/
structure Platform where
  ptrBytes : ℕ
  four_le : 4 ≤ ptrBytes

namespace Platform

/-- An `a2b_UIntPtr` wraps around here. -/
def ptrRange (p : Platform) : ℕ := 256 ^ p.ptrBytes

/-- `*((a2b_UIntPtr*)addr)`. -/
def load (p : Platform) (mem : Mem) (addr : ℕ) : ℕ :=
  natOf ((List.range p.ptrBytes).map fun k ↦ mem (addr + k))

/-- `*((a2b_UIntPtr*)addr) = value`. -/
def store (p : Platform) (mem : Mem) (addr value : ℕ) : Mem := fun a ↦
  if addr ≤ a ∧ a < addr + p.ptrBytes then (leBytes p.ptrBytes value).getD (a - addr) 0 else mem a

variable {p : Platform} {mem mem' : Mem} {addr value : ℕ}

theorem u32_le_ptrRange (p : Platform) : 2 ^ 32 ≤ p.ptrRange := by
  calc
    2 ^ 32 = 256 ^ 4 := by norm_num
    _ ≤ p.ptrRange := Nat.pow_le_pow_right (by norm_num) p.four_le

theorem load_store (h : value < p.ptrRange) : p.load (p.store mem addr value) addr = value := by
  have hbytes : (List.range p.ptrBytes).map (fun k ↦ p.store mem addr value (addr + k)) =
      leBytes p.ptrBytes value := by
    apply List.ext_getElem
    · simp
    · intro k hk hk'
      have hlt : k < p.ptrBytes := by simpa using hk
      simp [store, hlt]
  rw [load, hbytes, natOf_leBytes h]

theorem load_congr (h : ∀ k < p.ptrBytes, mem' (addr + k) = mem (addr + k)) :
    p.load mem' addr = p.load mem addr := by
  unfold load
  congr 1
  apply List.map_congr_left
  intro k hk
  exact h k (List.mem_range.mp hk)

theorem store_of_disjoint {a : ℕ} (h : a < addr ∨ addr + p.ptrBytes ≤ a) :
    p.store mem addr value a = mem a := if_neg (by omega)

end Platform

/-- `struct a2b_Pool`. -/
structure Pool where
  numBlocks : ℕ
  bytesPerBlock : ℕ
  heapStart : ℕ
  numFree : ℕ
  numInitialized : ℕ
  nextFree : ℕ
  maxAlloc : ℕ

/-- `A2B_CALC_PADDING`. -/
def calcPadding (offset align : ℕ) : ℕ := (align - (offset &&& (align - 1))) &&& (align - 1)

/-- `A2B_CALC_OFFSET`: the complement is one of an `a2b_UIntPtr`. -/
def calcOffset (p : Platform) (offset align : ℕ) : ℕ :=
  (offset + align - 1) % p.ptrRange &&& (p.ptrRange - 1 - (align - 1))

/-- `A2B_IS_POWER_OF_TWO`. -/
def isPowerOfTwo (value : ℕ) : Bool := value != 0 && value &&& (value - 1) == 0

/-- The blocks can hold the index of the next free block. -/
def atLeastPtr (p : Platform) (blockSize : ℕ) : ℕ :=
  if blockSize < p.ptrBytes then p.ptrBytes else blockSize

section Functions

variable (p : Platform)

/-- `a2b_poolIndexToAddr`. -/
def poolIndexToAddr (pool : Pool) (index : ℕ) : ℕ :=
  (pool.heapStart + index * pool.bytesPerBlock % p.ptrRange) % p.ptrRange

/-- `a2b_poolAddrToIndex`. -/
def poolAddrToIndex (pool : Pool) (addr : ℕ) : ℕ :=
  (addr + p.ptrRange - pool.heapStart) % p.ptrRange / pool.bytesPerBlock

/-- `a2b_poolCalcHeapSize`. -/
def poolCalcHeapSize (heapStart alignment blockSize numBlocks : ℕ) : ℕ :=
  if isPowerOfTwo alignment ∧ 0 < blockSize ∧ 0 < numBlocks then
    let newStart := calcOffset p heapStart alignment
    let paddedBlkSize := calcOffset p (atLeastPtr p blockSize) alignment % 2 ^ 32
    let heapEnd := (newStart + paddedBlkSize * numBlocks % p.ptrRange) % p.ptrRange
    (heapEnd + p.ptrRange - heapStart) % p.ptrRange % 2 ^ 32
  else 0

/-- `a2b_poolCreate`; `*blockSize` and `*numBlocks` get the pool's own values. -/
def poolCreate (heapStart heapSize alignment blockSize : ℕ) : Option Pool :=
  if isPowerOfTwo alignment then
    let padding := calcPadding heapStart alignment % 2 ^ 32
    let start := calcOffset p heapStart alignment
    let bytesPerBlock := calcOffset p (atLeastPtr p blockSize) alignment % 2 ^ 32
    let numBlocks := (heapSize + 2 ^ 32 - padding) % 2 ^ 32 / bytesPerBlock
    some
      { numBlocks := numBlocks
        bytesPerBlock := bytesPerBlock
        heapStart := start
        numFree := numBlocks
        numInitialized := 0
        nextFree := start
        maxAlloc := 0 }
  else none

/-- `a2b_poolDestroy`. -/
def poolDestroy : Pool where
  numBlocks := 0
  bytesPerBlock := 0
  heapStart := 0
  numFree := 0
  numInitialized := 0
  nextFree := 0
  maxAlloc := 0

/-- The first part of `a2b_poolAlloc`: the next block that was never used is chained. -/
def poolInitNext (pool : Pool) (mem : Mem) : Pool × Mem :=
  if pool.numInitialized < pool.numBlocks then
    ({ pool with numInitialized := pool.numInitialized + 1 },
      p.store mem (poolIndexToAddr p pool pool.numInitialized) (pool.numInitialized + 1))
  else (pool, mem)

/-- The second part: the block at the front of the chain is taken. -/
def poolTakeFree (pool : Pool) (mem : Mem) : ℕ × Pool :=
  if 0 < pool.numFree then
    let numFree := pool.numFree - 1
    let inUse := (pool.numBlocks + 2 ^ 32 - numFree) % 2 ^ 32
    (pool.nextFree,
      { pool with
        numFree := numFree
        maxAlloc := if pool.maxAlloc < inUse then inUse else pool.maxAlloc
        nextFree := if numFree ≠ 0 then poolIndexToAddr p pool (p.load mem pool.nextFree) else 0 })
  else (0, pool)

/-- `a2b_poolAlloc`. -/
def poolAlloc (pool : Pool) (mem : Mem) : ℕ × Pool × Mem :=
  let initialized := poolInitNext p pool mem
  let taken := poolTakeFree p initialized.1 initialized.2
  (taken.1, taken.2, initialized.2)

/-- `a2b_poolContainsPtr`. -/
def poolContainsPtr (pool : Pool) (ptr : ℕ) : Bool :=
  pool.heapStart ≤ ptr &&
    ptr < (pool.heapStart + pool.numBlocks * pool.bytesPerBlock % 2 ^ 32) % p.ptrRange

/-- `a2b_poolFree`. -/
def poolFree (pool : Pool) (mem : Mem) (ptr : ℕ) : Pool × Mem :=
  if poolContainsPtr p pool ptr then
    let index := if pool.nextFree ≠ 0 then poolAddrToIndex p pool pool.nextFree else pool.numBlocks
    ({ pool with nextFree := ptr, numFree := (pool.numFree + 1) % 2 ^ 32 }, p.store mem ptr index)
  else (pool, mem)

end Functions

/-- `a2b_poolMaxAlloc`. -/
def poolMaxAlloc (pool : Pool) : ℕ := pool.maxAlloc

end Vsys.A2bStack
