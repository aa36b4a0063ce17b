import Vsys.A2bStack.Pool
import Vsys.Num.Aligned

/-!
# The blocks of a memory pool

`Pool.Holds` is what the calls of a pool keep: the chain of `FreeList` runs through the blocks that
are not held, by the numbers that are stored in them.  Every call has a theorem that says which
blocks are held behind it, and one that says which memory it leaves alone.
-/

namespace Vsys.A2bStack

open Vsys.Num Vsys.Stream

namespace Pool

/-- The bytes of all blocks. -/
def size (pool : Pool) : ℕ := pool.numBlocks * pool.bytesPerBlock

/-- The address of a block. -/
def block (pool : Pool) (i : ℕ) : ℕ := pool.heapStart + i * pool.bytesPerBlock

/-- The number in the first word of a block. -/
def link (p : Platform) (pool : Pool) (mem : Mem) (i : ℕ) : ℕ := p.load mem (pool.block i)

/-- The pool lies in memory, not at `A2B_NULL`, and its size is an `a2b_UInt32`. -/
structure Fits (p : Platform) (pool : Pool) : Prop where
  room : p.ptrBytes ≤ pool.bytesPerBlock
  start_pos : 0 < pool.heapStart
  end_lt : pool.heapStart + pool.size < p.ptrRange
  size_lt : pool.size < 2 ^ 32

/-- The address lies in a block that is not held. -/
def Owns (pool : Pool) (held : List ℕ) (a : ℕ) : Prop :=
  ∃ i < pool.numBlocks, i ∉ held ∧ pool.block i ≤ a ∧ a < pool.block i + pool.bytesPerBlock

/-- The blocks with numbers `held` are given out, the others are free. -/
structure Holds (p : Platform) (pool : Pool) (mem : Mem) (held : List ℕ) : Prop
    extends Fits p pool where
  chained : ∃ free, FreeList (pool.link p mem) pool.numInitialized held free ∧
    (0 < pool.numFree → pool.nextFree = pool.block (free.headD pool.numInitialized))
  init_le : pool.numInitialized ≤ pool.numBlocks
  count : held.length + pool.numFree = pool.numBlocks
  full : 0 < pool.numBlocks → pool.numFree = 0 → pool.nextFree = 0

variable {p : Platform} {pool : Pool} {mem mem' : Mem} {held : List ℕ} {i j a : ℕ}

/-! ## Places -/

/-- Two different blocks have no byte in common. -/
theorem block_apart (pool : Pool) (h : i ≠ j) :
    pool.block i + pool.bytesPerBlock ≤ pool.block j ∨
      pool.block j + pool.bytesPerBlock ≤ pool.block i := by
  have hstep : ∀ {m n : ℕ}, m < n → pool.block m + pool.bytesPerBlock ≤ pool.block n := by
    intro m n hmn
    calc
      pool.block m + pool.bytesPerBlock = pool.heapStart + (m + 1) * pool.bytesPerBlock := by
        rw [block]
        ring
      _ ≤ pool.block n := Nat.add_le_add_left (Nat.mul_le_mul_right _ hmn) _
  obtain hlt | hlt := Nat.lt_or_gt_of_ne h
  · exact .inl (hstep hlt)
  · exact .inr (hstep hlt)

theorem block_end_le (pool : Pool) (h : i < pool.numBlocks) :
    pool.block i + pool.bytesPerBlock ≤ pool.heapStart + pool.size := by
  calc
    pool.block i + pool.bytesPerBlock = pool.heapStart + (i + 1) * pool.bytesPerBlock := by
      rw [block]
      ring
    _ ≤ pool.heapStart + pool.size := Nat.add_le_add_left (Nat.mul_le_mul_right _ h) _

namespace Fits

theorem bytes_pos (h : pool.Fits p) : 0 < pool.bytesPerBlock := by
  have hfour := p.four_le
  have hroom := h.room
  omega

theorem block_le (h : i ≤ pool.numBlocks) : pool.block i ≤ pool.heapStart + pool.size :=
  Nat.add_le_add_left (Nat.mul_le_mul_right _ h) _

theorem block_pos (h : pool.Fits p) (i : ℕ) : 0 < pool.block i :=
  h.start_pos.trans_le (Nat.le_add_right _ _)

theorem block_injective (h : pool.Fits p) : Function.Injective pool.block := by
  intro i j hij
  by_contra hne
  have hpos := h.bytes_pos
  obtain hapart | hapart := pool.block_apart hne <;> omega

theorem numBlocks_lt (h : pool.Fits p) : pool.numBlocks < 2 ^ 32 :=
  (Nat.le_mul_of_pos_right _ h.bytes_pos).trans_lt h.size_lt

theorem indexToAddr (h : pool.Fits p) (hi : i ≤ pool.numBlocks) :
    poolIndexToAddr p pool i = pool.block i := by
  have hle : pool.heapStart + i * pool.bytesPerBlock ≤ pool.heapStart + pool.size := block_le hi
  have hend := h.end_lt
  rw [poolIndexToAddr, Nat.mod_eq_of_lt (a := i * pool.bytesPerBlock) (by omega),
    Nat.mod_eq_of_lt (by omega), block]

theorem addrToIndex (h : pool.Fits p) (hi : i ≤ pool.numBlocks) :
    poolAddrToIndex p pool (pool.block i) = i := by
  have hle : pool.heapStart + i * pool.bytesPerBlock ≤ pool.heapStart + pool.size := block_le hi
  have hend := h.end_lt
  have hsub : pool.block i + p.ptrRange - pool.heapStart =
      i * pool.bytesPerBlock + p.ptrRange := by
    rw [block]
    omega
  rw [poolAddrToIndex, hsub, Nat.add_mod_right, Nat.mod_eq_of_lt (by omega),
    Nat.mul_div_cancel _ h.bytes_pos]

theorem containsPtr_iff (h : pool.Fits p) :
    poolContainsPtr p pool a = true ↔ pool.heapStart ≤ a ∧ a < pool.heapStart + pool.size := by
  have hsize : pool.numBlocks * pool.bytesPerBlock < 2 ^ 32 := h.size_lt
  have hend : pool.heapStart + pool.numBlocks * pool.bytesPerBlock < p.ptrRange := h.end_lt
  rw [poolContainsPtr, Nat.mod_eq_of_lt hsize, Nat.mod_eq_of_lt hend]
  simp [size]

theorem containsPtr_block (h : pool.Fits p) (hi : i < pool.numBlocks) :
    poolContainsPtr p pool (pool.block i) = true := by
  have hend := pool.block_end_le hi
  have hpos := h.bytes_pos
  exact h.containsPtr_iff.mpr ⟨Nat.le_add_right _ _, by omega⟩

/-- A word is stored in a block, and no other block sees it. -/
theorem link_store_of_ne (h : pool.Fits p) (hne : i ≠ j) (value : ℕ) :
    pool.link p (p.store mem (pool.block j) value) i = pool.link p mem i := by
  apply Platform.load_congr
  intro k hk
  have hroom := h.room
  apply Platform.store_of_disjoint
  obtain hapart | hapart := pool.block_apart hne <;> omega

theorem link_store_self (h : pool.Fits p) {value : ℕ} (hvalue : value ≤ pool.numBlocks) :
    pool.link p (p.store mem (pool.block i) value) i = value := by
  apply Platform.load_store
  calc
    value ≤ pool.numBlocks := hvalue
    _ < 2 ^ 32 := h.numBlocks_lt
    _ ≤ p.ptrRange := p.u32_le_ptrRange

/-- Nothing outside a block changes. -/
theorem store_of_outside (h : pool.Fits p) (value : ℕ)
    (ha : a < pool.block i ∨ pool.block i + pool.bytesPerBlock ≤ a) :
    p.store mem (pool.block i) value a = mem a := by
  have hroom := h.room
  exact Platform.store_of_disjoint (by omega)

end Fits

/-! ## What one call does -/

namespace Holds

theorem lt_of_held (h : pool.Holds p mem held) (hi : i ∈ held) : i < pool.numBlocks := by
  obtain ⟨free, hfree, -⟩ := h.chained
  exact (hfree.lt_of_held hi).trans_le h.init_le

theorem held_nodup (h : pool.Holds p mem held) : held.Nodup := by
  obtain ⟨free, hfree, -⟩ := h.chained
  exact hfree.held_nodup

/-- What others write outside the free blocks does not touch the pool. -/
theorem congr (h : pool.Holds p mem held) (hmem : ∀ a, pool.Owns held a → mem' a = mem a) :
    pool.Holds p mem' held where
  toFits := h.toFits
  chained := by
    obtain ⟨free, hfree, hnext⟩ := h.chained
    refine ⟨free, hfree.congr fun i hi ↦ ?_, hnext⟩
    apply Platform.load_congr
    intro k hk
    have hroom := h.room
    have hlt : i < pool.numBlocks := (hfree.lt_of_free hi).trans_le h.init_le
    exact hmem _ ⟨i, hlt, hfree.notMem_held hi, by omega, by omega⟩
  init_le := h.init_le
  count := h.count
  full := h.full

/-- The next fresh block is chained at the end of the free list. -/
theorem initNext (h : pool.Holds p mem held) :
    (poolInitNext p pool mem).1.Holds p (poolInitNext p pool mem).2 held := by
  by_cases hlt : pool.numInitialized < pool.numBlocks
  · obtain ⟨free, hfree, hnext⟩ := h.chained
    rw [poolInitNext, if_pos hlt, h.indexToAddr hlt.le]
    have hlink : pool.link p (p.store mem (pool.block pool.numInitialized)
        (pool.numInitialized + 1)) pool.numInitialized = pool.numInitialized + 1 :=
      h.link_store_self hlt
    have hkeep : ∀ i ∈ free, pool.link p (p.store mem (pool.block pool.numInitialized)
        (pool.numInitialized + 1)) i = pool.link p mem i := by
      intro i hi
      exact h.link_store_of_ne (hfree.lt_of_free hi).ne _
    exact
      { toFits := { h.toFits with }
        chained := by
          refine ⟨free ++ [pool.numInitialized], (hfree.congr hkeep).grow hlink, fun hpos ↦ ?_⟩
          rw [FreeList.headD_grow]
          exact hnext hpos
        init_le := hlt
        count := h.count
        full := h.full }
  · rw [poolInitNext, if_neg hlt]
    exact h

/-- Behind it the free list is not empty while a block is free. -/
theorem initNext_ready (h : pool.Holds p mem held) (hpos : 0 < pool.numFree) :
    held.length < (poolInitNext p pool mem).1.numInitialized := by
  obtain ⟨free, hfree, -⟩ := h.chained
  have hlength := hfree.length_add_length
  have hcount := h.count
  have hinit := h.init_le
  rw [poolInitNext]
  split
  · dsimp only
    omega
  · dsimp only
    omega

theorem initNext_outside (h : pool.Holds p mem held) (ha : ¬ pool.Owns held a) :
    (poolInitNext p pool mem).2 a = mem a := by
  rw [poolInitNext]
  split
  · rename_i hlt
    obtain ⟨free, hfree, -⟩ := h.chained
    rw [h.indexToAddr hlt.le]
    apply h.store_of_outside
    by_contra hin
    refine ha ⟨pool.numInitialized, hlt, fun hheld ↦ ?_, by omega, by omega⟩
    exact (hfree.lt_of_held hheld).false
  · rfl

/-- **Taking a block.** The front of the chain is given out, and the chain goes on behind it. -/
theorem takeFree (h : pool.Holds p mem held) (hpos : 0 < pool.numFree)
    (hready : held.length < pool.numInitialized) :
    ∃ i, i ∉ held ∧ i < pool.numBlocks ∧ (poolTakeFree p pool mem).1 = pool.block i ∧
      (poolTakeFree p pool mem).2.Holds p mem (i :: held) := by
  obtain ⟨free, hfree, hnext⟩ := h.chained
  have hlength := hfree.length_add_length
  have hcount := h.count
  have hinit := h.init_le
  cases free with
  | nil =>
      rw [List.length_nil] at hlength
      omega
  | cons i free =>
      have hfront : pool.nextFree = pool.block i := hnext hpos
      have hi : i < pool.numBlocks := (hfree.lt_of_free List.mem_cons_self).trans_le hinit
      have hlink : p.load mem pool.nextFree = free.headD pool.numInitialized := by
        rw [hfront]
        exact hfree.next_front
      have hback : free.headD pool.numInitialized ≤ pool.numBlocks := by
        cases free with
        | nil => exact hinit
        | cons j free =>
            have hj : j ∈ i :: j :: free := List.mem_cons_of_mem _ List.mem_cons_self
            exact ((hfree.lt_of_free hj).trans_le hinit).le
      refine ⟨i, hfree.notMem_held List.mem_cons_self, hi, ?_, ?_⟩
      · rw [poolTakeFree, if_pos hpos]
        exact hfront
      · rw [poolTakeFree, if_pos hpos]
        exact
          { toFits := { h.toFits with }
            chained := by
              refine ⟨free, hfree.pop, fun hmore ↦ ?_⟩
              dsimp only at hmore ⊢
              rw [if_pos hmore.ne', hlink]
              exact h.indexToAddr hback
            init_le := hinit
            count := by
              dsimp only
              rw [List.length_cons]
              omega
            full := fun _ hnone ↦ if_neg (not_not.mpr hnone) }

/-- **`a2b_poolAlloc`.** No block is given out exactly if all are held; otherwise it is one of the
pool's blocks that was not held. -/
theorem alloc (h : pool.Holds p mem held) :
    (held.length = pool.numBlocks ∧ (poolAlloc p pool mem).1 = 0 ∧
        (poolAlloc p pool mem).2.1.Holds p (poolAlloc p pool mem).2.2 held) ∨
      ∃ i, i ∉ held ∧ i < pool.numBlocks ∧ (poolAlloc p pool mem).1 = pool.block i ∧
        (poolAlloc p pool mem).2.1.Holds p (poolAlloc p pool mem).2.2 (i :: held) := by
  have hinit := h.initNext
  have hfree : (poolInitNext p pool mem).1.numFree = pool.numFree := by
    rw [poolInitNext]
    split <;> rfl
  have hshape : (poolInitNext p pool mem).1.numBlocks = pool.numBlocks ∧
      (poolInitNext p pool mem).1.block = pool.block := by
    rw [poolInitNext]
    split <;> exact ⟨rfl, rfl⟩
  obtain hzero | hpos := Nat.eq_zero_or_pos pool.numFree
  · have hnone : ¬ 0 < (poolInitNext p pool mem).1.numFree := by omega
    have hcount := h.count
    refine .inl ⟨by omega, ?_, ?_⟩
    · rw [poolAlloc, poolTakeFree, if_neg hnone]
    · rw [poolAlloc, poolTakeFree, if_neg hnone]
      exact hinit
  · obtain ⟨i, hi, hlt, hblock, hholds⟩ :=
      hinit.takeFree (hfree.symm ▸ hpos) (h.initNext_ready hpos)
    exact .inr ⟨i, hi, hshape.1 ▸ hlt, hblock.trans (congrFun hshape.2 i), hholds⟩

/-- The largest number of blocks held is counted. -/
theorem alloc_maxAlloc (h : pool.Holds p mem held) (hpos : 0 < pool.numFree) :
    (poolAlloc p pool mem).2.1.maxAlloc = max pool.maxAlloc (held.length + 1) := by
  have hcount := h.count
  have hsmall := h.numBlocks_lt
  have hinit : (poolInitNext p pool mem).1.numFree = pool.numFree ∧
      (poolInitNext p pool mem).1.numBlocks = pool.numBlocks ∧
      (poolInitNext p pool mem).1.maxAlloc = pool.maxAlloc := by
    rw [poolInitNext]
    split <;> exact ⟨rfl, rfl, rfl⟩
  have hused : (pool.numBlocks + 2 ^ 32 - (pool.numFree - 1)) % 2 ^ 32 = held.length + 1 := by
    have hsplit : pool.numBlocks + 2 ^ 32 - (pool.numFree - 1) = held.length + 1 + 2 ^ 32 := by
      omega
    rw [hsplit, Nat.add_mod_right, Nat.mod_eq_of_lt (by omega)]
  rw [poolAlloc, poolTakeFree, hinit.1, if_pos hpos]
  dsimp only
  rw [hinit.2.1, hinit.2.2, hused]
  split <;> omega

theorem alloc_maxAlloc_full (p : Platform) (mem : Mem) (hzero : pool.numFree = 0) :
    (poolAlloc p pool mem).2.1.maxAlloc = pool.maxAlloc := by
  have hinit : (poolInitNext p pool mem).1.numFree = pool.numFree ∧
      (poolInitNext p pool mem).1.maxAlloc = pool.maxAlloc := by
    rw [poolInitNext]
    split <;> exact ⟨rfl, rfl⟩
  rw [poolAlloc, poolTakeFree, hinit.1, if_neg (by omega)]
  exact hinit.2

theorem alloc_outside (h : pool.Holds p mem held) (ha : ¬ pool.Owns held a) :
    (poolAlloc p pool mem).2.2 a = mem a := h.initNext_outside ha

/-- **`a2b_poolFree`.** The block is put in front of the chain. -/
theorem free (h : pool.Holds p mem held) (hi : i ∈ held) :
    (poolFree p pool mem (pool.block i)).1.Holds p (poolFree p pool mem (pool.block i)).2
      (held.erase i) := by
  obtain ⟨chain, hfree, hnext⟩ := h.chained
  have hcount := h.count
  have hsmall := h.numBlocks_lt
  have hlt := h.lt_of_held hi
  have hlength := hfree.length_add_length
  have hpos : 0 < held.length := List.length_pos_of_mem hi
  have hfront : chain.headD pool.numInitialized ≤ pool.numBlocks := by
    cases chain with
    | nil => exact h.init_le
    | cons j chain => exact ((hfree.lt_of_free List.mem_cons_self).trans_le h.init_le).le
  -- the number that is stored is the one of the front, also where the chain has run out
  have hindex : (if pool.nextFree ≠ 0 then poolAddrToIndex p pool pool.nextFree
      else pool.numBlocks) = chain.headD pool.numInitialized := by
    obtain hzero | hsome := Nat.eq_zero_or_pos pool.numFree
    · have hnil : chain = [] := by
        apply List.length_eq_zero_iff.mp
        have hinit := h.init_le
        omega
      have hall : pool.numInitialized = pool.numBlocks := by
        have hinit := h.init_le
        omega
      rw [if_neg (not_not.mpr (h.full (by omega) hzero)), hnil, List.headD_nil, hall]
    · have hblock := hnext hsome
      rw [if_pos (hblock ▸ (h.block_pos _).ne'), hblock, h.addrToIndex hfront]
  have hkeep : ∀ j ∈ chain, pool.link p (p.store mem (pool.block i)
      (chain.headD pool.numInitialized)) j = pool.link p mem j := by
    intro j hj
    have hne : j ≠ i := fun heq ↦ hfree.notMem_held hj (heq ▸ hi)
    exact h.link_store_of_ne hne _
  rw [poolFree, if_pos (h.containsPtr_block hlt), hindex]
  have hmod : (pool.numFree + 1) % 2 ^ 32 = pool.numFree + 1 := Nat.mod_eq_of_lt (by omega)
  exact
    { toFits := { h.toFits with }
      chained :=
        ⟨i :: chain, (hfree.congr hkeep).push hi (h.link_store_self hfront), fun _ ↦ rfl⟩
      init_le := h.init_le
      count := by
        dsimp only
        rw [List.length_erase_of_mem hi, hmod]
        omega
      full := fun _ hnone ↦ by
        dsimp only at hnone
        omega }

theorem free_outside (h : pool.Holds p mem held) (hi : i ∈ held)
    (ha : a < pool.block i ∨ pool.block i + pool.bytesPerBlock ≤ a) :
    (poolFree p pool mem (pool.block i)).2 a = mem a := by
  rw [poolFree, if_pos (h.containsPtr_block (h.lt_of_held hi))]
  exact h.store_of_outside _ ha

end Holds

/-! ## The shape of a pool -/

/-- The pools have the same blocks. -/
structure SameBlocks (pool pool' : Pool) : Prop where
  numBlocks : pool'.numBlocks = pool.numBlocks
  bytesPerBlock : pool'.bytesPerBlock = pool.bytesPerBlock
  heapStart : pool'.heapStart = pool.heapStart

namespace SameBlocks

variable {pool' : Pool}

theorem refl (pool : Pool) : SameBlocks pool pool := ⟨rfl, rfl, rfl⟩

theorem trans {pool'' : Pool} (h : SameBlocks pool pool') (h' : SameBlocks pool' pool'') :
    SameBlocks pool pool'' where
  numBlocks := h'.numBlocks.trans h.numBlocks
  bytesPerBlock := h'.bytesPerBlock.trans h.bytesPerBlock
  heapStart := h'.heapStart.trans h.heapStart

theorem block (h : SameBlocks pool pool') : pool'.block = pool.block := by
  funext i
  rw [Pool.block, Pool.block, h.heapStart, h.bytesPerBlock]

end SameBlocks

theorem initNext_sameBlocks (p : Platform) (pool : Pool) (mem : Mem) :
    SameBlocks pool (poolInitNext p pool mem).1 := by
  rw [poolInitNext]
  split <;> exact ⟨rfl, rfl, rfl⟩

theorem takeFree_sameBlocks (p : Platform) (pool : Pool) (mem : Mem) :
    SameBlocks pool (poolTakeFree p pool mem).2 := by
  rw [poolTakeFree]
  split <;> exact ⟨rfl, rfl, rfl⟩

theorem alloc_sameBlocks (p : Platform) (pool : Pool) (mem : Mem) :
    SameBlocks pool (poolAlloc p pool mem).2.1 :=
  (initNext_sameBlocks p pool mem).trans (takeFree_sameBlocks p _ _)

theorem free_sameBlocks (p : Platform) (pool : Pool) (mem : Mem) (ptr : ℕ) :
    SameBlocks pool (poolFree p pool mem ptr).1 := by
  rw [poolFree]
  split <;> exact ⟨rfl, rfl, rfl⟩

/-! ## A new pool -/

theorem isPowerOfTwo_iff {value : ℕ} : isPowerOfTwo value = true ↔ ∃ k, value = 2 ^ k := by
  rw [isPowerOfTwo, Bool.and_eq_true, bne_iff_ne, beq_iff_eq,
    Nat.ne_zero_and_sub_one_eq_zero_iff_isPowerOfTwo]
  exact Iff.rfl

theorem calcPadding_eq {align : ℕ} (h : isPowerOfTwo align = true) (offset : ℕ) :
    calcPadding offset align = (align - offset % align) % align := by
  obtain ⟨k, rfl⟩ := isPowerOfTwo_iff.mp h
  rw [calcPadding, Nat.and_two_pow_sub_one_eq_mod, Nat.and_two_pow_sub_one_eq_mod]

theorem calcOffset_eq {align offset : ℕ} (h : isPowerOfTwo align = true)
    (hlt : offset + align ≤ p.ptrRange) : calcOffset p offset align = roundUp offset align := by
  obtain ⟨k, rfl⟩ := isPowerOfTwo_iff.mp h
  have hrange : p.ptrRange = 2 ^ (8 * p.ptrBytes) := by
    rw [Platform.ptrRange, pow_mul]
    norm_num
  have hpos : 0 < 2 ^ k := Nat.two_pow_pos k
  rw [calcOffset, Nat.mod_eq_of_lt (by omega), hrange, and_complement_eq (by omega), roundUp]

/-- What a caller of `a2b_poolCreate` provides: memory that ends below the end of the address
space and is larger than the padding, and sizes that do not overflow when they are rounded up. -/
structure Request (p : Platform) (heapStart heapSize alignment blockSize : ℕ) : Prop where
  start_pos : 0 < heapStart
  end_lt : heapStart + heapSize < p.ptrRange
  size_lt : heapSize < 2 ^ 32
  align_pos : isPowerOfTwo alignment = true
  pad_le : calcPadding heapStart alignment ≤ heapSize
  round_lt : atLeastPtr p blockSize + alignment ≤ 2 ^ 32

namespace Request

variable {heapStart heapSize alignment blockSize : ℕ}

theorem pos (h : Request p heapStart heapSize alignment blockSize) : 0 < alignment := by
  obtain ⟨k, rfl⟩ := isPowerOfTwo_iff.mp h.align_pos
  exact Nat.two_pow_pos k

/-- The first aligned address is in the address space. -/
theorem roundUp_le (h : Request p heapStart heapSize alignment blockSize) :
    roundUp heapStart alignment ≤ heapStart + heapSize := by
  have hpad := h.pad_le
  rw [calcPadding_eq h.align_pos] at hpad
  rw [roundUp_eq_add h.pos]
  exact Nat.add_le_add_left hpad heapStart

theorem calcOffset_start (h : Request p heapStart heapSize alignment blockSize) :
    calcOffset p heapStart alignment = roundUp heapStart alignment := by
  apply calcOffset_eq h.align_pos
  have hle := h.roundUp_le
  have hend := h.end_lt
  have hround := h.round_lt
  have hwide := p.u32_le_ptrRange
  -- behind an aligned address in the address space there is room for another unit
  have hdvd : alignment ∣ p.ptrRange - roundUp heapStart alignment := by
    refine Nat.dvd_sub ?_ (dvd_roundUp _ _)
    obtain ⟨k, rfl⟩ := isPowerOfTwo_iff.mp h.align_pos
    have hrange : p.ptrRange = 2 ^ (8 * p.ptrBytes) := by
      rw [Platform.ptrRange, pow_mul]
      norm_num
    have hle : 2 ^ k ≤ 2 ^ (8 * p.ptrBytes) := by omega
    rw [hrange]
    exact Nat.pow_dvd_pow 2 ((Nat.pow_le_pow_iff_right (by norm_num)).mp hle)
  have hroom := Nat.le_of_dvd (by omega) hdvd
  have hup := le_roundUp (x := heapStart) h.pos
  omega

theorem calcOffset_block (h : Request p heapStart heapSize alignment blockSize) :
    calcOffset p (atLeastPtr p blockSize) alignment % 2 ^ 32 =
      roundUp (atLeastPtr p blockSize) alignment := by
  have hround := h.round_lt
  have hlt := roundUp_lt (x := atLeastPtr p blockSize) h.pos
  rw [calcOffset_eq h.align_pos (hround.trans p.u32_le_ptrRange), Nat.mod_eq_of_lt (by omega)]

end Request

theorem le_atLeastPtr (p : Platform) (blockSize : ℕ) : blockSize ≤ atLeastPtr p blockSize := by
  rw [atLeastPtr]
  split <;> omega

theorem ptrBytes_le_atLeastPtr (p : Platform) (blockSize : ℕ) :
    p.ptrBytes ≤ atLeastPtr p blockSize := by
  rw [atLeastPtr]
  split <;> omega

/-- What a new pool looks like. -/
structure Created (p : Platform) (heapStart heapSize alignment blockSize : ℕ) (pool : Pool) :
    Prop where
  heapStart_eq : pool.heapStart = roundUp heapStart alignment
  bytesPerBlock_eq : pool.bytesPerBlock = roundUp (atLeastPtr p blockSize) alignment
  numBlocks_eq : pool.numBlocks =
    (heapStart + heapSize - pool.heapStart) / pool.bytesPerBlock
  end_le : pool.heapStart + pool.size ≤ heapStart + heapSize
  maxAlloc_eq : pool.maxAlloc = 0

/-- **`a2b_poolCreate`.** The pool has as many aligned blocks as fit into the heap, and none of
them is held. -/
theorem create {heapStart heapSize alignment blockSize : ℕ}
    (h : Request p heapStart heapSize alignment blockSize)
    (hpool : poolCreate p heapStart heapSize alignment blockSize = some pool) (mem : Mem) :
    Created p heapStart heapSize alignment blockSize pool ∧ pool.Holds p mem [] := by
  have hstart := h.calcOffset_start
  have hblock := h.calcOffset_block
  have hupStart := le_roundUp (x := heapStart) h.pos
  have hupBlock := le_roundUp (x := atLeastPtr p blockSize) h.pos
  have hword := ptrBytes_le_atLeastPtr p blockSize
  have hfour := p.four_le
  have hpos := h.start_pos
  have hend := h.end_lt
  have hsize := h.size_lt
  have hpad := h.pad_le
  have hpadding : heapStart + calcPadding heapStart alignment = roundUp heapStart alignment := by
    rw [calcPadding_eq h.align_pos, ← roundUp_eq_add h.pos]
  have hroom : (heapSize + 2 ^ 32 - calcPadding heapStart alignment % 2 ^ 32) % 2 ^ 32 =
      heapStart + heapSize - roundUp heapStart alignment := by
    have hsplit : heapSize + 2 ^ 32 - calcPadding heapStart alignment =
        heapStart + heapSize - roundUp heapStart alignment + 2 ^ 32 := by omega
    rw [Nat.mod_eq_of_lt (a := calcPadding heapStart alignment) (by omega), hsplit,
      Nat.add_mod_right, Nat.mod_eq_of_lt (by omega)]
  rw [poolCreate, if_pos h.align_pos, Option.some.injEq, hstart, hblock, hroom] at hpool
  subst hpool
  have hsizeLe := Nat.div_mul_le_self (heapStart + heapSize - roundUp heapStart alignment)
    (roundUp (atLeastPtr p blockSize) alignment)
  constructor
  · exact
      { heapStart_eq := rfl
        bytesPerBlock_eq := rfl
        numBlocks_eq := rfl
        end_le := by
          rw [size]
          dsimp only
          omega
        maxAlloc_eq := rfl }
  · exact
      { room := hword.trans hupBlock
        start_pos := hpos.trans_le hupStart
        end_lt := by
          rw [size]
          dsimp only
          omega
        size_lt := by
          rw [size]
          dsimp only
          omega
        chained := ⟨[], FreeList.empty _, fun _ ↦ by simp [block]⟩
        init_le := Nat.zero_le _
        count := Nat.zero_add _
        full := fun hsome hnone ↦ absurd hnone hsome.ne' }

end Pool

end Vsys.A2bStack
