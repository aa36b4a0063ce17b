import Vsys.A2bStack.PoolBlocks
import Vsys.A2bStack.PoolDescriptors

/-!
# The memory manager of the A2B stack

`a2bstack/src/memmgr.c`: a heap that is cut into pools, one for every entry of the normalised table.
`descs` is that table and `alignment` is `A2B_CONF_MEMORY_ALIGNMENT`.  A heap of `gsStackHeaps` is
given by its pools; `a2b_memMgrInit` and `a2b_memMgrShutdown` do nothing.
-/

namespace Vsys.A2bStack

open Vsys.Num

/-- `struct a2b_PoolEntry`. -/
structure PoolEntry where
  pool : Pool
  blockSize : ℕ

/-- `struct a2b_StackHeap`; `numPools` is the number of its pools. -/
structure StackHeap where
  pools : List PoolEntry
  inUse : Bool

section Functions

variable (p : Platform) (alignment : ℕ)

/-- The loop of `a2b_memMgrGetMinHeapSize`. -/
def memMgrMinHeapSizeFrom : List PoolDescriptor → ℕ → ℕ → ℕ
  | [], _, heapSize => heapSize
  | d :: descs, heapStart, heapSize =>
      let poolSize := poolCalcHeapSize p heapStart alignment d.blockSize d.numBlocks
      memMgrMinHeapSizeFrom descs ((heapStart + poolSize) % p.ptrRange)
        ((heapSize + poolSize) % 2 ^ 32)

/-- `a2b_memMgrGetMinHeapSize`. -/
def memMgrGetMinHeapSize (descs : List PoolDescriptor) (heapStart : ℕ) : ℕ :=
  memMgrMinHeapSizeFrom p alignment descs heapStart 0

/-- The loop of `a2b_memMgrOpen` over the table; `none` where it gives up. -/
def memMgrOpenPools (heapSize : ℕ) : List PoolDescriptor → ℕ → ℕ → Option (List PoolEntry)
  | [], _, _ => some []
  | d :: descs, heap, accumSize =>
      let poolSize := poolCalcHeapSize p heap alignment d.blockSize d.numBlocks
      let accumSize := (accumSize + poolSize) % 2 ^ 32
      if accumSize ≤ heapSize then
        match poolCreate p heap poolSize alignment d.blockSize with
        | some pool =>
            let next := (heap + pool.bytesPerBlock * pool.numBlocks % 2 ^ 32) % p.ptrRange
            (memMgrOpenPools heapSize descs next accumSize).map
              ({ pool := pool, blockSize := pool.bytesPerBlock } :: ·)
        | none => none
      else none

/-- `a2b_memMgrOpen`: the first heap that is not in use gets the pools; the handle is its number,
`none` for `A2B_NULL`. -/
def memMgrOpen (descs : List PoolDescriptor) (heaps : List StackHeap) (heap heapSize : ℕ) :
    Option ℕ × List StackHeap :=
  match heaps.findIdx? (fun h ↦ !h.inUse) with
  | none => (none, heaps)
  | some hnd =>
      match memMgrOpenPools p alignment heapSize descs heap 0 with
      | some pools => (some hnd, heaps.set hnd { pools := pools, inUse := true })
      | none => (none, heaps)

/-- `a2b_memMgrMalloc` on the pools of a heap. -/
def memMgrMalloc (size : ℕ) : List PoolEntry → Mem → ℕ × List PoolEntry × Mem
  | [], mem => (0, [], mem)
  | e :: entries, mem =>
      if size ≤ e.blockSize then
        let called := poolAlloc p e.pool mem
        let entry := { e with pool := called.2.1 }
        if called.1 ≠ 0 then (called.1, entry :: entries, called.2.2)
        else
          let next := memMgrMalloc size entries called.2.2
          (next.1, entry :: next.2.1, next.2.2)
      else
        let next := memMgrMalloc size entries mem
        (next.1, e :: next.2.1, next.2.2)

/-- `a2b_memMgrFree` on the pools of a heap. -/
def memMgrFree (ptr : ℕ) : List PoolEntry → Mem → List PoolEntry × Mem
  | [], mem => ([], mem)
  | e :: entries, mem =>
      if poolContainsPtr p e.pool ptr then
        let called := poolFree p e.pool mem ptr
        ({ e with pool := called.1 } :: entries, called.2)
      else
        let next := memMgrFree ptr entries mem
        (e :: next.1, next.2)

end Functions

/-- `a2b_memMgrClose`; `false` for `A2B_EC_INVALID_PARAMETER`. -/
def memMgrClose (heaps : List StackHeap) (hnd : ℕ) : Bool × List StackHeap :=
  match heaps[hnd]? with
  | some h =>
      if h.inUse then
        (true, heaps.set hnd
          { pools := h.pools.map fun e ↦ { e with pool := poolDestroy }, inUse := false })
      else (false, heaps)
  | none => (false, heaps)

/-! ## Opening a heap -/

section Opening

variable {p : Platform} {alignment : ℕ}

/-- The bytes of a block, rounded up. -/
def paddedSize (p : Platform) (alignment : ℕ) (d : PoolDescriptor) : ℕ :=
  roundUp (atLeastPtr p d.blockSize) alignment

/-- The bytes of all blocks of the table. -/
def tableSize (p : Platform) (alignment : ℕ) (descs : List PoolDescriptor) : ℕ :=
  (descs.map fun d ↦ d.numBlocks * paddedSize p alignment d).sum

/-- A table and a heap whose sizes fit into their types, whatever `a2b_memMgrOpen` finds in the
heap: the padding in front of every pool included, the heap ends before the address space does. -/
structure Table (p : Platform) (alignment : ℕ) (descs : List PoolDescriptor) (heap : ℕ) :
    Prop where
  align_pos : isPowerOfTwo alignment = true
  sizes : ∀ d ∈ descs, 0 < d.blockSize ∧ 0 < d.numBlocks ∧
    atLeastPtr p d.blockSize + alignment ≤ 2 ^ 32
  end_lt : heap + tableSize p alignment descs + (descs.length + 1) * alignment < p.ptrRange
  size_lt : tableSize p alignment descs + (descs.length + 1) * alignment < 2 ^ 32

/-- The bytes in front of the first aligned address. -/
def padding (alignment heap : ℕ) : ℕ := roundUp heap alignment - heap

@[simp]
theorem tableSize_cons (p : Platform) (alignment : ℕ) (d : PoolDescriptor)
    (descs : List PoolDescriptor) : tableSize p alignment (d :: descs) =
      d.numBlocks * paddedSize p alignment d + tableSize p alignment descs := by
  simp [tableSize]

theorem add_padding (heap : ℕ) (h : 0 < alignment) :
    heap + padding alignment heap = roundUp heap alignment := by
  have hle := le_roundUp (x := heap) h
  rw [padding]
  omega

theorem padding_lt (heap : ℕ) (h : 0 < alignment) : padding alignment heap < alignment := by
  have hlt := roundUp_lt (x := heap) h
  rw [padding]
  omega

/-- Behind a number of blocks the padding is the same. -/
theorem padding_add_blocks {heap : ℕ} (h : 0 < alignment) (n : ℕ) (d : PoolDescriptor) :
    padding alignment (heap + n * paddedSize p alignment d) = padding alignment heap := by
  obtain ⟨m, hm⟩ := dvd_roundUp (atLeastPtr p d.blockSize) alignment
  have hsize : n * paddedSize p alignment d = n * m * alignment := by
    rw [paddedSize, hm]
    ring
  rw [padding, hsize, roundUp_add_mul h, padding]
  omega

theorem padding_of_dvd {heap : ℕ} (h : 0 < alignment) (hdvd : alignment ∣ heap) :
    padding alignment heap = 0 := by
  rw [padding, roundUp_eq_self h hdvd, Nat.sub_self]

theorem padding_eq_zero_iff {heap : ℕ} (h : 0 < alignment) :
    padding alignment heap = 0 ↔ alignment ∣ heap := by
  refine ⟨fun hzero ↦ ?_, padding_of_dvd h⟩
  have hadd := add_padding heap h
  rw [hzero, add_zero] at hadd
  exact hadd ▸ dvd_roundUp heap alignment

/-- One pool of the table: what is asked for it, and what it gets. -/
structure PoolFits (p : Platform) (alignment : ℕ) (d : PoolDescriptor) (heap : ℕ) : Prop where
  align_pos : isPowerOfTwo alignment = true
  block_pos : 0 < d.blockSize
  count_pos : 0 < d.numBlocks
  round_lt : atLeastPtr p d.blockSize + alignment ≤ 2 ^ 32
  end_lt : heap + d.numBlocks * paddedSize p alignment d + 2 * alignment < p.ptrRange
  size_lt : d.numBlocks * paddedSize p alignment d + 2 * alignment < 2 ^ 32

namespace PoolFits

variable {d : PoolDescriptor} {heap : ℕ}

theorem pos (h : PoolFits p alignment d heap) : 0 < alignment := by
  obtain ⟨k, rfl⟩ := Pool.isPowerOfTwo_iff.mp h.align_pos
  exact Nat.two_pow_pos k

/-- `a2b_poolCalcHeapSize`. -/
theorem calcHeapSize (h : PoolFits p alignment d heap) :
    poolCalcHeapSize p heap alignment d.blockSize d.numBlocks =
      padding alignment heap + d.numBlocks * paddedSize p alignment d := by
  have hpos := h.pos
  have hend := h.end_lt
  have hsize := h.size_lt
  have hround := h.round_lt
  have hadd := add_padding heap hpos
  have hpad := padding_lt heap hpos
  have hupBlock := roundUp_lt (x := atLeastPtr p d.blockSize) hpos
  have hblock : calcOffset p (atLeastPtr p d.blockSize) alignment % 2 ^ 32 =
      paddedSize p alignment d := by
    rw [Pool.calcOffset_eq h.align_pos (hround.trans p.u32_le_ptrRange),
      Nat.mod_eq_of_lt (by omega), paddedSize]
  rw [poolCalcHeapSize, if_pos ⟨h.align_pos, h.block_pos, h.count_pos⟩, hblock,
    Pool.calcOffset_eq h.align_pos (by omega), ← hadd]
  dsimp only
  rw [mul_comm (paddedSize p alignment d)]
  generalize d.numBlocks * paddedSize p alignment d = bytes at *
  have hend' : heap + padding alignment heap + bytes + p.ptrRange - heap =
      padding alignment heap + bytes + p.ptrRange := by omega
  rw [Nat.mod_eq_of_lt (a := bytes) (by omega),
    Nat.mod_eq_of_lt (a := heap + padding alignment heap + bytes) (by omega), hend',
    Nat.add_mod_right, Nat.mod_eq_of_lt (b := p.ptrRange) (by omega), Nat.mod_eq_of_lt (by omega)]

theorem request (h : PoolFits p alignment d heap) (hheap : 0 < heap) :
    Pool.Request p heap (padding alignment heap + d.numBlocks * paddedSize p alignment d) alignment
      d.blockSize where
  start_pos := hheap
  end_lt := by
    have hend := h.end_lt
    have hpad := padding_lt heap h.pos
    omega
  size_lt := by
    have hsize := h.size_lt
    have hpad := padding_lt heap h.pos
    omega
  align_pos := h.align_pos
  pad_le := by
    rw [Pool.calcPadding_eq h.align_pos, padding, roundUp_eq_add h.pos]
    omega
  round_lt := h.round_lt

/-- The pool has the blocks that the table asks for. -/
theorem create (h : PoolFits p alignment d heap) (hheap : 0 < heap) (mem : Mem) :
    ∃ pool, poolCreate p heap (poolCalcHeapSize p heap alignment d.blockSize d.numBlocks) alignment
        d.blockSize = some pool ∧ pool.heapStart = roundUp heap alignment ∧
      pool.numBlocks = d.numBlocks ∧ pool.bytesPerBlock = paddedSize p alignment d ∧
      pool.Holds p mem [] := by
  rw [h.calcHeapSize]
  have hrequest := h.request hheap
  have hsome : ∃ pool, poolCreate p heap
      (padding alignment heap + d.numBlocks * paddedSize p alignment d) alignment d.blockSize =
        some pool := by
    rw [poolCreate, if_pos h.align_pos]
    exact ⟨_, rfl⟩
  obtain ⟨pool, hpool⟩ := hsome
  obtain ⟨hcreated, hholds⟩ := Pool.create hrequest hpool mem
  have hbytes : pool.bytesPerBlock = paddedSize p alignment d := hcreated.bytesPerBlock_eq
  refine ⟨pool, hpool, hcreated.heapStart_eq, ?_, hbytes, hholds⟩
  have hroom : heap + (padding alignment heap + d.numBlocks * paddedSize p alignment d) -
      roundUp heap alignment = d.numBlocks * paddedSize p alignment d := by
    have hadd := add_padding heap h.pos
    omega
  rw [hcreated.numBlocks_eq, hcreated.heapStart_eq, hroom, hbytes,
    Nat.mul_div_cancel _ (hbytes ▸ hholds.bytes_pos)]

end PoolFits

namespace Table

variable {d : PoolDescriptor} {descs : List PoolDescriptor} {heap : ℕ}

theorem pos (h : Table p alignment descs heap) : 0 < alignment := by
  obtain ⟨k, rfl⟩ := Pool.isPowerOfTwo_iff.mp h.align_pos
  exact Nat.two_pow_pos k

theorem poolFits (h : Table p alignment (d :: descs) heap) : PoolFits p alignment d heap where
  align_pos := h.align_pos
  block_pos := (h.sizes d List.mem_cons_self).1
  count_pos := (h.sizes d List.mem_cons_self).2.1
  round_lt := (h.sizes d List.mem_cons_self).2.2
  end_lt := by
    have hend := h.end_lt
    rw [tableSize_cons, List.length_cons, add_mul, add_mul] at hend
    rw [two_mul]
    omega
  size_lt := by
    have hsize := h.size_lt
    rw [tableSize_cons, List.length_cons, add_mul, add_mul] at hsize
    rw [two_mul]
    omega

/-- The rest of the table fits behind the first pool. -/
theorem tail (h : Table p alignment (d :: descs) heap) :
    Table p alignment descs (heap + d.numBlocks * paddedSize p alignment d) where
  align_pos := h.align_pos
  sizes := fun e he ↦ h.sizes e (List.mem_cons_of_mem _ he)
  end_lt := by
    have hend := h.end_lt
    rw [tableSize_cons, List.length_cons, add_mul] at hend
    omega
  size_lt := by
    have hsize := h.size_lt
    rw [tableSize_cons, List.length_cons, add_mul] at hsize
    omega

/-- Where the next pool is put. -/
theorem next_eq (h : Table p alignment (d :: descs) heap) {pool : Pool}
    (hblocks : pool.numBlocks = d.numBlocks)
    (hbytes : pool.bytesPerBlock = paddedSize p alignment d) :
    (heap + pool.bytesPerBlock * pool.numBlocks % 2 ^ 32) % p.ptrRange =
      heap + d.numBlocks * paddedSize p alignment d := by
  have hfits := h.poolFits
  have hend := hfits.end_lt
  have hsize := hfits.size_lt
  rw [hblocks, hbytes, mul_comm, Nat.mod_eq_of_lt (b := 2 ^ 32) (by omega),
    Nat.mod_eq_of_lt (by omega)]

end Table

/-- The first round of `a2b_memMgrOpen`. -/
theorem Table.openPools_cons {d : PoolDescriptor} {descs : List PoolDescriptor} {heap : ℕ}
    (h : Table p alignment (d :: descs) heap) (hheap : 0 < heap) (mem : Mem) :
    ∃ pool : Pool, pool.heapStart = roundUp heap alignment ∧ pool.numBlocks = d.numBlocks ∧
      pool.bytesPerBlock = paddedSize p alignment d ∧ pool.Holds p mem [] ∧
      ∀ heapSize accumSize,
        accumSize + tableSize p alignment (d :: descs) + (d :: descs).length * alignment < 2 ^ 32 →
        memMgrOpenPools p alignment heapSize (d :: descs) heap accumSize =
          if accumSize + padding alignment heap + d.numBlocks * paddedSize p alignment d ≤ heapSize
          then (memMgrOpenPools p alignment heapSize descs
              (heap + d.numBlocks * paddedSize p alignment d)
              (accumSize + padding alignment heap + d.numBlocks * paddedSize p alignment d)).map
            ({ pool := pool, blockSize := pool.bytesPerBlock } :: ·)
          else none := by
  have hfits := h.poolFits
  obtain ⟨pool, hcreate, hstart, hblocks, hbytes, hholds⟩ := hfits.create hheap mem
  refine ⟨pool, hstart, hblocks, hbytes, hholds, fun heapSize accumSize haccum ↦ ?_⟩
  have hpad := padding_lt heap h.pos
  have hnext := h.next_eq hblocks hbytes
  rw [tableSize_cons, List.length_cons, add_mul, one_mul] at haccum
  have hmod : (accumSize + poolCalcHeapSize p heap alignment d.blockSize d.numBlocks) % 2 ^ 32 =
      accumSize + padding alignment heap + d.numBlocks * paddedSize p alignment d := by
    rw [hfits.calcHeapSize, ← add_assoc]
    apply Nat.mod_eq_of_lt
    omega
  rw [memMgrOpenPools]
  dsimp only
  rw [hmod, hcreate]
  dsimp only
  rw [hnext]

/-- **When a heap is opened.** The padding in front of the heap is counted for every pool. -/
theorem memMgrOpenPools_isSome_iff {descs : List PoolDescriptor} {heap heapSize accumSize : ℕ}
    (h : Table p alignment descs heap) (hheap : 0 < heap)
    (haccum : accumSize + tableSize p alignment descs + descs.length * alignment < 2 ^ 32) :
    (memMgrOpenPools p alignment heapSize descs heap accumSize).isSome = true ↔
      descs = [] ∨ accumSize + descs.length * padding alignment heap +
        tableSize p alignment descs ≤ heapSize := by
  induction descs generalizing heap accumSize with
  | nil => exact iff_of_true rfl (.inl rfl)
  | cons d descs ih =>
      obtain ⟨pool, -, -, -, -, hopen⟩ := h.openPools_cons hheap fun _ ↦ 0
      have hpad := padding_lt heap h.pos
      rw [hopen heapSize accumSize haccum, or_iff_right (List.cons_ne_nil d descs)]
      rw [tableSize_cons, List.length_cons, add_mul, one_mul] at haccum ⊢
      have hih := ih h.tail (Nat.add_pos_left hheap _)
        (show accumSize + padding alignment heap + d.numBlocks * paddedSize p alignment d +
          tableSize p alignment descs + descs.length * alignment < 2 ^ 32 by omega)
      rw [padding_add_blocks h.pos] at hih
      split
      · rw [Option.isSome_map, hih]
        constructor
        · rintro (rfl | hle)
          · rw [List.length_nil, zero_mul, tableSize, List.map_nil, List.sum_nil]
            omega
          · omega
        · intro hle
          exact .inr (by omega)
      · refine iff_of_false Bool.false_ne_true ?_
        omega

/-- The next pool is put behind the padding too where `a2b_memMgrGetMinHeapSize` counts. -/
theorem Table.minHeapSize_cons {d : PoolDescriptor} {descs : List PoolDescriptor}
    {heap heapSize : ℕ} (h : Table p alignment (d :: descs) heap)
    (hsize : heapSize + tableSize p alignment (d :: descs) + alignment < 2 ^ 32) :
    memMgrMinHeapSizeFrom p alignment (d :: descs) heap heapSize =
      memMgrMinHeapSizeFrom p alignment descs
        (roundUp heap alignment + d.numBlocks * paddedSize p alignment d)
        (heapSize + padding alignment heap + d.numBlocks * paddedSize p alignment d) := by
  have hfits := h.poolFits
  have hend := hfits.end_lt
  have hadd := add_padding heap h.pos
  have hpad := padding_lt heap h.pos
  rw [tableSize_cons] at hsize
  rw [memMgrMinHeapSizeFrom, hfits.calcHeapSize, Nat.mod_eq_of_lt (b := p.ptrRange) (by omega),
    Nat.mod_eq_of_lt (by omega), ← hadd, add_assoc, add_assoc]

/-- The table behind the first pool, from an aligned address on. -/
theorem Table.tail_aligned {d : PoolDescriptor} {descs : List PoolDescriptor} {heap : ℕ}
    (h : Table p alignment (d :: descs) heap) :
    Table p alignment descs (roundUp heap alignment + d.numBlocks * paddedSize p alignment d) where
  align_pos := h.align_pos
  sizes := h.tail.sizes
  end_lt := by
    have hend := h.end_lt
    have hlt := roundUp_lt (x := heap) h.pos
    rw [tableSize_cons, List.length_cons, add_mul (descs.length + 1) 1, one_mul] at hend
    omega
  size_lt := h.tail.size_lt

theorem memMgrMinHeapSizeFrom_aligned {descs : List PoolDescriptor} {heap heapSize : ℕ}
    (h : Table p alignment descs heap) (hdvd : alignment ∣ heap)
    (hsize : heapSize + tableSize p alignment descs + alignment < 2 ^ 32) :
    memMgrMinHeapSizeFrom p alignment descs heap heapSize =
      heapSize + tableSize p alignment descs := by
  induction descs generalizing heap heapSize with
  | nil => rfl
  | cons d descs ih =>
      rw [h.minHeapSize_cons hsize]
      have hnext : alignment ∣ roundUp heap alignment + d.numBlocks * paddedSize p alignment d :=
        Nat.dvd_add (dvd_roundUp _ _) ((dvd_roundUp _ _).mul_left _)
      rw [tableSize_cons] at hsize ⊢
      rw [padding_of_dvd h.pos hdvd, add_zero,
        ih h.tail_aligned hnext (by omega)]
      ring

/-- **`a2b_memMgrGetMinHeapSize`.** The padding in front of the heap is counted once. -/
theorem memMgrGetMinHeapSize_eq {descs : List PoolDescriptor} {heap : ℕ}
    (h : Table p alignment descs heap) (hne : descs ≠ []) :
    memMgrGetMinHeapSize p alignment descs heap =
      padding alignment heap + tableSize p alignment descs := by
  cases descs with
  | nil => exact absurd rfl hne
  | cons d descs =>
      have hsize := h.size_lt
      have hpad := padding_lt heap h.pos
      rw [List.length_cons, add_mul, one_mul, add_mul, one_mul] at hsize
      have hnext : alignment ∣ roundUp heap alignment + d.numBlocks * paddedSize p alignment d :=
        Nat.dvd_add (dvd_roundUp _ _) ((dvd_roundUp _ _).mul_left _)
      rw [memMgrGetMinHeapSize, h.minHeapSize_cons (by omega)]
      rw [tableSize_cons] at hsize ⊢
      rw [memMgrMinHeapSizeFrom_aligned h.tail_aligned hnext (by omega)]
      ring

/-- **The minimum heap size.** A heap of the size that `a2b_memMgrGetMinHeapSize` answers for its
address is opened exactly if the address is aligned or the table has one entry. -/
theorem memMgrOpen_minHeapSize {descs : List PoolDescriptor} {heap : ℕ} {heaps : List StackHeap}
    (h : Table p alignment descs heap) (hheap : 0 < heap) (hne : descs ≠ [])
    (hfree : ∃ slot ∈ heaps, slot.inUse = false) :
    (∀ heapSize, (memMgrOpen p alignment descs heaps heap heapSize).1 ≠ none ↔
        descs.length * padding alignment heap + tableSize p alignment descs ≤ heapSize) ∧
      memMgrGetMinHeapSize p alignment descs heap =
        padding alignment heap + tableSize p alignment descs ∧
      ((memMgrOpen p alignment descs heaps heap
          (memMgrGetMinHeapSize p alignment descs heap)).1 ≠ none ↔
        alignment ∣ heap ∨ descs.length = 1) := by
  have hopen : ∀ heapSize, (memMgrOpen p alignment descs heaps heap heapSize).1 ≠ none ↔
      descs.length * padding alignment heap + tableSize p alignment descs ≤ heapSize := by
    intro heapSize
    have hsize := h.size_lt
    rw [add_mul, one_mul] at hsize
    have haccum : 0 + tableSize p alignment descs + descs.length * alignment < 2 ^ 32 := by omega
    have hiff : (memMgrOpenPools p alignment heapSize descs heap 0).isSome = true ↔ _ :=
      memMgrOpenPools_isSome_iff h hheap haccum
    rw [or_iff_right hne, zero_add] at hiff
    rw [← hiff, memMgrOpen]
    cases hslot : heaps.findIdx? (fun slot ↦ !slot.inUse) with
    | none =>
        obtain ⟨slot, hmem, huse⟩ := hfree
        have hall := List.findIdx?_eq_none_iff.mp hslot slot hmem
        simp [huse] at hall
    | some hnd => cases memMgrOpenPools p alignment heapSize descs heap 0 <;> simp
  refine ⟨hopen, memMgrGetMinHeapSize_eq h hne, ?_⟩
  rw [hopen, memMgrGetMinHeapSize_eq h hne, ← padding_eq_zero_iff h.pos]
  have hlength : 0 < descs.length := List.length_pos_of_ne_nil hne
  obtain hzero | hpos := Nat.eq_zero_or_pos (padding alignment heap)
  · simp [hzero]
  · obtain hone | hmore := Nat.eq_or_lt_of_le (Nat.succ_le_of_lt hlength)
    · rw [← hone]
      simp
    · refine iff_of_false ?_ (by omega)
      have htwo : 2 * padding alignment heap ≤ descs.length * padding alignment heap :=
        Nat.mul_le_mul_right _ hmore
      omega

/-- A table of two sizes. -/
def smallTable : List PoolDescriptor := [⟨2, 6⟩, ⟨1, 20⟩]

theorem smallTable_fits : Table ⟨8, by decide⟩ 4 smallTable 4098 where
  align_pos := by decide
  sizes := by decide
  end_lt := by decide +kernel
  size_lt := by decide +kernel

theorem memMgrOpen_smallTable :
    (memMgrOpen ⟨8, by decide⟩ 4 smallTable [⟨[], false⟩] 4098
      (memMgrGetMinHeapSize ⟨8, by decide⟩ 4 smallTable 4098)).1 = none := by
  have h := memMgrOpen_minHeapSize smallTable_fits (by decide) (by decide)
    (show ∃ slot ∈ [(⟨[], false⟩ : StackHeap)], slot.inUse = false by simp)
  by_contra hne
  exact absurd (h.2.2.mp hne) (by decide)

end Opening

end Vsys.A2bStack
