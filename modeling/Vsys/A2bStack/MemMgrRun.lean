import Vsys.A2bStack.MemMgr
import Vsys.Trace.Run
import Mathlib.Data.List.Flatten
import Mathlib.Logic.Function.Basic

/-!
# Runs of the memory manager

The pools of an opened heap lie behind each other.  `Serves` says which blocks of which pool are
held; `a2b_memMgrMalloc` and `a2b_memMgrFree` work on one of the pools and leave the blocks of the
others alone.
-/

namespace Vsys.A2bStack

open Vsys.Num Vsys.Trace

/-- What calls leave of a pool: its place, its blocks and their size. -/
def PoolEntry.shape (e : PoolEntry) : ℕ × ℕ × ℕ × ℕ :=
  (e.pool.heapStart, e.pool.numBlocks, e.pool.bytesPerBlock, e.blockSize)

/-- The first address behind the pool. -/
def PoolEntry.stop (e : PoolEntry) : ℕ := e.pool.heapStart + e.pool.size

theorem PoolEntry.shape_of_sameBlocks {e : PoolEntry} {pool : Pool}
    (h : Pool.SameBlocks e.pool pool) : shape { e with pool := pool } = e.shape := by
  simp only [shape, h.heapStart, h.numBlocks, h.bytesPerBlock]

theorem PoolEntry.stop_of_sameBlocks {e e' : PoolEntry} (h : Pool.SameBlocks e.pool e'.pool) :
    e'.stop = e.stop := by
  rw [stop, stop, Pool.size, Pool.size, h.heapStart, h.numBlocks, h.bytesPerBlock]

/-- The pools of a heap, each with the numbers of its blocks that are held. -/
abbrev Served := List (PoolEntry × List ℕ)

namespace Served

/-- The addresses of the blocks that are held. -/
def blocks (served : Served) : List ℕ := served.flatMap fun x ↦ x.2.map x.1.pool.block

/-- The address lies in a block that is not held. -/
def Owns (served : Served) (a : ℕ) : Prop := ∃ x ∈ served, x.1.pool.Owns x.2 a

def shapes (served : Served) : List (ℕ × ℕ × ℕ × ℕ) := served.map fun x ↦ x.1.shape

@[simp]
theorem blocks_cons (x : PoolEntry × List ℕ) (served : Served) :
    blocks (x :: served) = x.2.map x.1.pool.block ++ served.blocks := rfl

theorem mem_blocks {served : Served} {ptr : ℕ} :
    ptr ∈ served.blocks ↔ ∃ x ∈ served, ∃ i ∈ x.2, x.1.pool.block i = ptr := by
  simp only [blocks, List.mem_flatMap, List.mem_map]

end Served

/-- The pools keep their invariants and lie behind each other. -/
structure Serves (p : Platform) (mem : Mem) (served : Served) : Prop where
  holds : ∀ x ∈ served, x.1.pool.Holds p mem x.2
  blockSize : ∀ x ∈ served, x.1.blockSize = x.1.pool.bytesPerBlock
  apart : served.Pairwise fun x y ↦ x.1.stop ≤ y.1.pool.heapStart

namespace Serves

variable {p : Platform} {mem mem' : Mem} {served : Served} {x y : PoolEntry × List ℕ} {a i j : ℕ}

theorem head (h : Serves p mem (x :: served)) : x.1.pool.Holds p mem x.2 :=
  h.holds x List.mem_cons_self

theorem tail (h : Serves p mem (x :: served)) : Serves p mem served where
  holds := fun y hy ↦ h.holds y (List.mem_cons_of_mem _ hy)
  blockSize := fun y hy ↦ h.blockSize y (List.mem_cons_of_mem _ hy)
  apart := (List.pairwise_cons.mp h.apart).2

/-- What others write outside the free blocks does not touch the pools. -/
theorem congr (h : Serves p mem served) (hmem : ∀ a, served.Owns a → mem' a = mem a) :
    Serves p mem' served where
  holds := fun x hx ↦ (h.holds x hx).congr fun a ha ↦ hmem a ⟨x, hx, ha⟩
  blockSize := h.blockSize
  apart := h.apart

theorem le_of_owns {pool : Pool} {held : List ℕ} (h : pool.Owns held a) :
    pool.heapStart ≤ a ∧ a < pool.heapStart + pool.size := by
  obtain ⟨i, hi, -, hlow, hhigh⟩ := h
  have hend := pool.block_end_le hi
  have hstart : pool.heapStart ≤ pool.block i := Nat.le_add_right _ _
  exact ⟨hstart.trans hlow, by omega⟩

theorem shapes_cons_of {x' : PoolEntry × List ℕ} {served' : Served}
    (hx : x'.1.shape = x.1.shape) (h : served'.shapes = served.shapes) :
    Served.shapes (x' :: served') = Served.shapes (x :: served) := by
  rw [Served.shapes, List.map_cons, hx]
  exact congrArg (x.1.shape :: ·) h

/-- A pool in front of others. -/
theorem cons (hx : x.1.pool.Holds p mem x.2) (hsize : x.1.blockSize = x.1.pool.bytesPerBlock)
    (hbehind : ∀ shape ∈ served.shapes, x.1.stop ≤ shape.1) (h : Serves p mem served) :
    Serves p mem (x :: served) where
  holds := by
    intro y hy
    obtain rfl | hy := List.mem_cons.mp hy
    · exact hx
    · exact h.holds y hy
  blockSize := by
    intro y hy
    obtain rfl | hy := List.mem_cons.mp hy
    · exact hsize
    · exact h.blockSize y hy
  apart := List.pairwise_cons.mpr
    ⟨fun _ hy ↦ hbehind _ (List.mem_map_of_mem (f := fun y ↦ y.1.shape) hy), h.apart⟩

theorem behind (h : Serves p mem (x :: served)) :
    ∀ shape ∈ served.shapes, x.1.stop ≤ shape.1 := by
  intro shape hshape
  obtain ⟨y, hy, rfl⟩ := List.mem_map.mp hshape
  exact (List.pairwise_cons.mp h.apart).1 y hy

/-- The free blocks of the first pool are not free blocks of the others. -/
theorem not_owns_tail (h : Serves p mem (x :: served)) (ha : a < x.1.stop) :
    ¬ Served.Owns served a := by
  rintro ⟨y, hy, howns⟩
  have hle := (List.pairwise_cons.mp h.apart).1 y hy
  have hlow := (le_of_owns howns).1
  omega

theorem apart_of_ne (h : Serves p mem served) (hx : x ∈ served) (hy : y ∈ served) (hne : x ≠ y) :
    x.1.stop ≤ y.1.pool.heapStart ∨ y.1.stop ≤ x.1.pool.heapStart := by
  induction served with
  | nil => exact absurd hx List.not_mem_nil
  | cons z served ih =>
      have hbehind := (List.pairwise_cons.mp h.apart).1
      obtain rfl | hx' := List.mem_cons.mp hx
      · obtain rfl | hy' := List.mem_cons.mp hy
        · exact absurd rfl hne
        · exact .inl (hbehind y hy')
      · obtain rfl | hy' := List.mem_cons.mp hy
        · exact .inr (hbehind x hx')
        · exact ih h.tail hx' hy'

/-- Two blocks that are held have no byte in common. -/
theorem block_apart (h : Serves p mem served) (hx : x ∈ served) (hi : i ∈ x.2) (hy : y ∈ served)
    (hj : j ∈ y.2) (hne : x.1.pool.block i ≠ y.1.pool.block j) :
    x.1.pool.block i + x.1.pool.bytesPerBlock ≤ y.1.pool.block j ∨
      y.1.pool.block j + y.1.pool.bytesPerBlock ≤ x.1.pool.block i := by
  have hendx := x.1.pool.block_end_le ((h.holds x hx).lt_of_held hi)
  have hendy := y.1.pool.block_end_le ((h.holds y hy).lt_of_held hj)
  have hstartx : x.1.pool.heapStart ≤ x.1.pool.block i := Nat.le_add_right _ _
  have hstarty : y.1.pool.heapStart ≤ y.1.pool.block j := Nat.le_add_right _ _
  by_cases hxy : x = y
  · subst hxy
    exact x.1.pool.block_apart fun heq ↦ hne (heq ▸ rfl)
  · have happ := h.apart_of_ne hx hy hxy
    rw [PoolEntry.stop, PoolEntry.stop] at happ
    omega

theorem not_owns_of_held (h : Serves p mem served) (hx : x ∈ served) (hi : i ∈ x.2)
    (hlow : x.1.pool.block i ≤ a) (hhigh : a < x.1.pool.block i + x.1.pool.bytesPerBlock) :
    ¬ Served.Owns served a := by
  rintro ⟨y, hy, howns⟩
  have hendx := x.1.pool.block_end_le ((h.holds x hx).lt_of_held hi)
  have hstartx : x.1.pool.heapStart ≤ x.1.pool.block i := Nat.le_add_right _ _
  have hbounds := le_of_owns howns
  by_cases hxy : x = y
  · subst hxy
    obtain ⟨j, -, hj, hlow', hhigh'⟩ := howns
    have hne : i ≠ j := fun heq ↦ hj (heq ▸ hi)
    obtain hapart | hapart := x.1.pool.block_apart hne <;> omega
  · have happ := h.apart_of_ne hx hy hxy
    rw [PoolEntry.stop, PoolEntry.stop] at happ
    omega

end Serves

theorem Serves.blocks_nodup {p : Platform} {mem : Mem} {served : Served}
    (h : Serves p mem served) : served.blocks.Nodup := by
  induction served with
  | nil => exact List.nodup_nil
  | cons x served ih =>
      rw [Served.blocks_cons]
      refine List.Nodup.append (h.head.held_nodup.map h.head.block_injective) (ih h.tail) ?_
      intro ptr hfirst hothers
      obtain ⟨i, hi, rfl⟩ := List.mem_map.mp hfirst
      obtain ⟨y, hy, j, -, hj⟩ := Served.mem_blocks.mp hothers
      have hend := x.1.pool.block_end_le (h.head.lt_of_held hi)
      have hpos := h.head.bytes_pos
      have hstart : y.1.pool.heapStart ≤ y.1.pool.block j := Nat.le_add_right _ _
      have hle := (List.pairwise_cons.mp h.apart).1 y hy
      rw [PoolEntry.stop] at hle
      omega

/-- Every block is held or free. -/
theorem Serves.count {p : Platform} {mem : Mem} {served : Served} (h : Serves p mem served) :
    served.blocks.length + (served.map fun x ↦ x.1.pool.numFree).sum =
      (served.map fun x ↦ x.1.pool.numBlocks).sum := by
  induction served with
  | nil => rfl
  | cons x served ih =>
      have hcount := h.head.count
      have hrest := ih h.tail
      rw [Served.blocks_cons, List.length_append, List.length_map, List.map_cons, List.map_cons,
        List.sum_cons, List.sum_cons]
      omega

/-- What a call of `a2b_memMgrMalloc` comes to. -/
structure Malloced (p : Platform) (size : ℕ) (mem : Mem) (served : Served)
    (called : ℕ × List PoolEntry × Mem) (served' : Served) : Prop where
  entries_eq : called.2.1 = served'.map Prod.fst
  shapes_eq : served'.shapes = served.shapes
  serves : Serves p called.2.2 served'
  outside : ∀ a, ¬ served.Owns a → called.2.2 a = mem a
  result : (called.1 = 0 ∧ served'.blocks = served.blocks ∧
      ∀ x ∈ served, size ≤ x.1.blockSize → x.1.pool.numFree = 0) ∨
    (called.1 ≠ 0 ∧ served'.blocks.Perm (called.1 :: served.blocks) ∧
      (∃ x ∈ served', size ≤ x.1.blockSize ∧ ∃ i ∈ x.2, x.1.pool.block i = called.1) ∧
      ∃ x ∈ served, size ≤ x.1.blockSize ∧ x.1.pool.numFree ≠ 0)

namespace Malloced

variable {p : Platform} {size : ℕ} {mem mem' : Mem} {x : PoolEntry × List ℕ}
  {served served' : Served} {called : ℕ × List PoolEntry × Mem}

/-- The others serve the request, and the first pool is as it was, as far as it is concerned. -/
theorem cons (x' : PoolEntry × List ℕ) (h : Serves p mem (x :: served))
    (hholds : x'.1.pool.Holds p mem' x.2)
    (hshape : x'.1.shape = x.1.shape) (hheld : x'.2 = x.2)
    (hskip : size ≤ x.1.blockSize → x.1.pool.numFree = 0)
    (hmem : ∀ a, ¬ x.1.pool.Owns x.2 a → mem' a = mem a)
    (hrest : Malloced p size mem' served called served') :
    Malloced p size mem (x :: served) (called.1, x'.1 :: called.2.1, called.2.2)
      (x' :: served') := by
  have hsame : Pool.SameBlocks x.1.pool x'.1.pool := by
    simp only [PoolEntry.shape, Prod.mk.injEq] at hshape
    exact ⟨hshape.2.1, hshape.2.2.1, hshape.1⟩
  have hsize : x'.1.blockSize = x'.1.pool.bytesPerBlock := by
    simp only [PoolEntry.shape, Prod.mk.injEq] at hshape
    rw [hshape.2.2.2, hshape.2.2.1]
    exact h.blockSize x List.mem_cons_self
  have hstop : x'.1.stop = x.1.stop := PoolEntry.stop_of_sameBlocks hsame
  have hholds' : x'.1.pool.Holds p called.2.2 x'.2 := by
    rw [hheld]
    refine hholds.congr fun a ha ↦ hrest.outside a ?_
    have hlt := (Serves.le_of_owns ha).2
    exact h.not_owns_tail (hstop ▸ hlt)
  constructor
  · dsimp only
    rw [hrest.entries_eq, List.map_cons]
  · exact Serves.shapes_cons_of hshape hrest.shapes_eq
  · refine Serves.cons hholds' hsize ?_ hrest.serves
    rw [hrest.shapes_eq, hstop]
    exact h.behind
  · intro a ha
    have hfirst : ¬ x.1.pool.Owns x.2 a := fun howns ↦ ha ⟨x, List.mem_cons_self, howns⟩
    have hothers : ¬ Served.Owns served a := by
      intro howns
      obtain ⟨y, hy, howns⟩ := howns
      exact ha ⟨y, List.mem_cons_of_mem _ hy, howns⟩
    exact (hrest.outside a hothers).trans (hmem a hfirst)
  · have hblocks : x'.2.map x'.1.pool.block = x.2.map x.1.pool.block := by
      rw [hheld, hsame.block]
    obtain ⟨hnull, hsameBlocks, hfull⟩ | ⟨hsome, hperm, ⟨y, hy, hfits⟩, z, hz, hfree⟩ :=
      hrest.result
    · refine .inl ⟨hnull, ?_, fun y hy ↦ ?_⟩
      · rw [Served.blocks_cons, Served.blocks_cons, hblocks, hsameBlocks]
      · obtain rfl | hy := List.mem_cons.mp hy
        · exact hskip
        · exact hfull y hy
    · refine .inr ⟨hsome, ?_, ⟨y, List.mem_cons_of_mem _ hy, hfits⟩,
        z, List.mem_cons_of_mem _ hz, hfree⟩
      rw [Served.blocks_cons, Served.blocks_cons, hblocks]
      exact (hperm.append_left _).trans List.perm_middle

end Malloced

/-- **`a2b_memMgrMalloc`.** The first pool with blocks that are large enough and with a free one
gives out a block. -/
theorem Serves.malloc {p : Platform} {mem : Mem} {served : Served} (size : ℕ)
    (h : Serves p mem served) :
    ∃ served', Malloced p size mem served (memMgrMalloc p size (served.map Prod.fst) mem)
      served' := by
  induction served generalizing mem with
  | nil =>
      refine ⟨[], rfl, rfl, h, fun _ _ ↦ rfl, .inl ⟨rfl, rfl, fun x hx ↦ ?_⟩⟩
      exact absurd hx List.not_mem_nil
  | cons x served ih =>
      rw [List.map_cons, memMgrMalloc]
      by_cases hsize : size ≤ x.1.blockSize
      · rw [if_pos hsize]
        dsimp only
        have hsame := Pool.alloc_sameBlocks p x.1.pool mem
        have hshape := PoolEntry.shape_of_sameBlocks hsame
        have hcount := h.head.count
        have htail : Serves p (poolAlloc p x.1.pool mem).2.2 served := by
          refine h.tail.congr fun a ⟨y, hy, howns⟩ ↦ h.head.alloc_outside fun hfirst ↦ ?_
          exact h.not_owns_tail (Serves.le_of_owns hfirst).2 ⟨y, hy, howns⟩
        obtain ⟨hfull, hnull, hholds⟩ | ⟨i, hi, hlt, hptr, hholds⟩ := h.head.alloc
        · rw [if_neg (not_not.mpr hnull)]
          obtain ⟨served', hrest⟩ := ih htail
          exact ⟨({ x.1 with pool := (poolAlloc p x.1.pool mem).2.1 }, x.2) :: served',
            Malloced.cons ({ x.1 with pool := (poolAlloc p x.1.pool mem).2.1 }, x.2) h hholds
              hshape rfl (fun _ ↦ by omega) (fun a ha ↦ h.head.alloc_outside ha) hrest⟩
        · have hsome : (poolAlloc p x.1.pool mem).1 ≠ 0 := hptr ▸ (h.head.block_pos i).ne'
          rw [if_pos hsome]
          have hstop : PoolEntry.stop { x.1 with pool := (poolAlloc p x.1.pool mem).2.1 } =
              x.1.stop := PoolEntry.stop_of_sameBlocks hsame
          refine ⟨({ x.1 with pool := (poolAlloc p x.1.pool mem).2.1 }, i :: x.2) :: served, rfl,
            Serves.shapes_cons_of hshape rfl, ?_, fun a ha ↦ ?_, .inr ⟨hsome, ?_, ?_, ?_⟩⟩
          · refine Serves.cons hholds ?_ ?_ htail
            · exact (h.blockSize x List.mem_cons_self).trans hsame.bytesPerBlock.symm
            · rw [hstop]
              exact h.behind
          · exact h.head.alloc_outside fun howns ↦ ha ⟨x, List.mem_cons_self, howns⟩
          · rw [Served.blocks_cons, Served.blocks_cons, hsame.block, List.map_cons, hptr]
            exact List.Perm.refl _
          · refine ⟨_, List.mem_cons_self, hsize, i, List.mem_cons_self, ?_⟩
            rw [hsame.block, hptr]
          · refine ⟨x, List.mem_cons_self, hsize, fun hzero ↦ hsome ?_⟩
            have hnew := hholds.count
            have hblocks : (poolAlloc p x.1.pool mem).2.1.numBlocks = x.1.pool.numBlocks :=
              hsame.numBlocks
            rw [List.length_cons] at hnew
            omega
      · rw [if_neg hsize]
        obtain ⟨served', hrest⟩ := ih h.tail
        exact ⟨x :: served', Malloced.cons x h h.head rfl rfl (fun hle ↦ absurd hle hsize)
          (fun _ _ ↦ rfl) hrest⟩

/-- What a call of `a2b_memMgrFree` comes to. -/
structure Freed (p : Platform) (ptr : ℕ) (mem : Mem) (served : Served)
    (called : List PoolEntry × Mem) (served' : Served) : Prop where
  entries_eq : called.1 = served'.map Prod.fst
  shapes_eq : served'.shapes = served.shapes
  serves : Serves p called.2 served'
  blocks_perm : served.blocks.Perm (ptr :: served'.blocks)
  outside : ∃ x ∈ served, ptr ∈ x.2.map x.1.pool.block ∧
    ∀ a, a < ptr ∨ ptr + x.1.pool.bytesPerBlock ≤ a → called.2 a = mem a

namespace Freed

variable {p : Platform} {mem : Mem} {x : PoolEntry × List ℕ} {served served' : Served} {i ptr : ℕ}
  {called : List PoolEntry × Mem}

/-- The first pool gets its block back. -/
theorem here (h : Serves p mem (x :: served)) (hi : i ∈ x.2) :
    Freed p (x.1.pool.block i) mem (x :: served)
      ({ x.1 with pool := (poolFree p x.1.pool mem (x.1.pool.block i)).1 } ::
        served.map Prod.fst, (poolFree p x.1.pool mem (x.1.pool.block i)).2)
      (({ x.1 with pool := (poolFree p x.1.pool mem (x.1.pool.block i)).1 }, x.2.erase i) ::
        served) := by
  have hsame := Pool.free_sameBlocks p x.1.pool mem (x.1.pool.block i)
  have hend := x.1.pool.block_end_le (h.head.lt_of_held hi)
  have hstart : x.1.pool.heapStart ≤ x.1.pool.block i := Nat.le_add_right _ _
  have hstop : PoolEntry.stop
      { x.1 with pool := (poolFree p x.1.pool mem (x.1.pool.block i)).1 } = x.1.stop :=
    PoolEntry.stop_of_sameBlocks hsame
  constructor
  · rfl
  · exact Serves.shapes_cons_of (PoolEntry.shape_of_sameBlocks hsame) rfl
  · refine Serves.cons (h.head.free hi) ?_ ?_ (h.tail.congr fun a ha ↦ ?_)
    · exact (h.blockSize x List.mem_cons_self).trans hsame.bytesPerBlock.symm
    · rw [hstop]
      exact h.behind
    · apply h.head.free_outside hi
      right
      by_contra hlow
      refine h.not_owns_tail ?_ ha
      rw [PoolEntry.stop]
      omega
  · rw [Served.blocks_cons, Served.blocks_cons, hsame.block]
    exact ((List.perm_cons_erase hi).map _).append_right _
  · exact ⟨x, List.mem_cons_self, List.mem_map_of_mem hi, fun a ha ↦ h.head.free_outside hi ha⟩

/-- The block lies behind the first pool, which stays as it was. -/
theorem cons (h : Serves p mem (x :: served)) (hrest : Freed p ptr mem served called served') :
    Freed p ptr mem (x :: served) (x.1 :: called.1, called.2) (x :: served') := by
  obtain ⟨z, hz, hzptr, hzout⟩ := hrest.outside
  have hbehind : ∀ a, a < x.1.stop → called.2 a = mem a := by
    intro a ha
    obtain ⟨i, -, rfl⟩ := List.mem_map.mp hzptr
    have hle := (List.pairwise_cons.mp h.apart).1 z hz
    have hstart : z.1.pool.heapStart ≤ z.1.pool.block i := Nat.le_add_right _ _
    exact hzout a (.inl (by omega))
  constructor
  · dsimp only
    rw [hrest.entries_eq, List.map_cons]
  · exact Serves.shapes_cons_of rfl hrest.shapes_eq
  · refine Serves.cons (h.head.congr fun a ha ↦ hbehind a (Serves.le_of_owns ha).2)
      (h.blockSize x List.mem_cons_self) ?_ hrest.serves
    rw [hrest.shapes_eq]
    exact h.behind
  · rw [Served.blocks_cons, Served.blocks_cons]
    exact (hrest.blocks_perm.append_left _).trans List.perm_middle
  · exact ⟨z, List.mem_cons_of_mem _ hz, hzptr, hzout⟩

end Freed

/-- A held block that lies in the first pool is one of its blocks. -/
theorem Serves.exists_block_of_containsPtr {p : Platform} {mem : Mem} {x : PoolEntry × List ℕ}
    {served : Served} {ptr : ℕ} (h : Serves p mem (x :: served))
    (hptr : ptr ∈ Served.blocks (x :: served)) (hin : poolContainsPtr p x.1.pool ptr = true) :
    ∃ i ∈ x.2, x.1.pool.block i = ptr := by
  have hbounds := h.head.containsPtr_iff.mp hin
  rw [Served.blocks_cons] at hptr
  obtain hptr | hptr := List.mem_append.mp hptr
  · exact List.mem_map.mp hptr
  · obtain ⟨y, hy, j, -, rfl⟩ := Served.mem_blocks.mp hptr
    have hle := (List.pairwise_cons.mp h.apart).1 y hy
    have hstart : y.1.pool.heapStart ≤ y.1.pool.block j := Nat.le_add_right _ _
    rw [PoolEntry.stop] at hle
    omega

/-- **`a2b_memMgrFree`.** The pool that the pointer lies in gets its block back. -/
theorem Serves.free {p : Platform} {mem : Mem} {served : Served} {ptr : ℕ}
    (h : Serves p mem served) (hptr : ptr ∈ served.blocks) :
    ∃ served', Freed p ptr mem served (memMgrFree p ptr (served.map Prod.fst) mem) served' := by
  induction served with
  | nil => exact absurd hptr List.not_mem_nil
  | cons x served ih =>
      rw [List.map_cons, memMgrFree]
      by_cases hin : poolContainsPtr p x.1.pool ptr = true
      · rw [if_pos hin]
        obtain ⟨i, hi, rfl⟩ := h.exists_block_of_containsPtr hptr hin
        exact ⟨_, Freed.here h hi⟩
      · rw [if_neg hin]
        have hothers : ptr ∈ Served.blocks served := by
          rw [Served.blocks_cons] at hptr
          obtain hptr | hptr := List.mem_append.mp hptr
          · obtain ⟨i, hi, rfl⟩ := List.mem_map.mp hptr
            exact absurd (h.head.containsPtr_block (h.head.lt_of_held hi)) hin
          · exact hptr
        obtain ⟨served', hrest⟩ := ih h.tail hothers
        exact ⟨x :: served', Freed.cons h hrest⟩

/-! ## Runs -/

/-- The pools of an opened heap, the memory, and what was given out and not freed: the pointers
with the sizes that were asked for, the latest first. -/
structure HeapState where
  entries : List PoolEntry
  mem : Mem
  held : List (ℕ × ℕ)

inductive HeapOp
  | malloc (size : ℕ)
  | free (ptr : ℕ)
  | write (addr : ℕ) (byte : UInt8)
  deriving DecidableEq

/-- The grant lies in a pool of this shape, whose blocks are large enough for it. -/
def InShape (shape : ℕ × ℕ × ℕ × ℕ) (grant : ℕ × ℕ) : Prop :=
  shape.1 ≤ grant.1 ∧ grant.1 < shape.1 + shape.2.1 * shape.2.2.1 ∧ grant.2 ≤ shape.2.2.2

namespace HeapState

def step (p : Platform) (s : HeapState) : HeapOp → HeapState
  | .malloc size =>
      let called := memMgrMalloc p size s.entries s.mem
      { entries := called.2.1
        mem := called.2.2
        held := if called.1 = 0 then s.held else (called.1, size) :: s.held }
  | .free ptr =>
      let called := memMgrFree p ptr s.entries s.mem
      { entries := called.1, mem := called.2, held := s.held.eraseP fun g ↦ g.1 = ptr }
  | .write addr byte => { s with mem := Function.update s.mem addr byte }

/-- What a caller may do: free what it holds, and write into what it asked for or outside the
pools. -/
def Allowed (s : HeapState) : HeapOp → Prop
  | .malloc _ => True
  | .free ptr => ptr ∈ s.held.map Prod.fst
  | .write addr _ =>
      (∃ g ∈ s.held, g.1 ≤ addr ∧ addr < g.1 + g.2) ∨
        ∀ e ∈ s.entries, addr < e.pool.heapStart ∨ e.stop ≤ addr

instance (s : HeapState) : ∀ op, Decidable (s.Allowed op)
  | .malloc _ => inferInstanceAs (Decidable True)
  | .free _ => inferInstanceAs (Decidable (_ ∈ _))
  | .write _ _ => inferInstanceAs (Decidable (_ ∨ _))

/-- The pools serve what is held. -/
structure Safe (p : Platform) (opened : List PoolEntry) (s : HeapState) : Prop where
  shapes_eq : s.entries.map PoolEntry.shape = opened.map PoolEntry.shape
  served : ∃ served : Served, s.entries = served.map Prod.fst ∧ Serves p s.mem served ∧
    (s.held.map Prod.fst).Perm served.blocks
  sized : ∀ g ∈ s.held, ∃ shape ∈ opened.map PoolEntry.shape, InShape shape g

theorem shapes_eq_map (served : Served) :
    served.shapes = (served.map Prod.fst).map PoolEntry.shape := by
  rw [List.map_map]
  rfl

/-- The grant of a pointer is taken off the list. -/
theorem perm_eraseP_fst {held : List (ℕ × ℕ)} {ptr : ℕ} (h : ptr ∈ held.map Prod.fst) :
    (held.map Prod.fst).Perm (ptr :: (held.eraseP fun g ↦ g.1 = ptr).map Prod.fst) := by
  induction held with
  | nil => exact absurd h List.not_mem_nil
  | cons g held ih =>
      by_cases hg : g.1 = ptr
      · rw [List.eraseP_cons_of_pos (by simpa using hg), List.map_cons, hg]
      · rw [List.eraseP_cons_of_neg (by simpa using hg), List.map_cons, List.map_cons]
        rw [List.map_cons, List.mem_cons, or_iff_right (Ne.symm hg)] at h
        exact ((ih h).cons _).trans (List.Perm.swap _ _ _)

/-- A grant is at the start of a block that is large enough. -/
theorem exists_block {p : Platform} {opened : List PoolEntry} {s : HeapState} {served : Served}
    (h : Safe p opened s) (hentries : s.entries = served.map Prod.fst)
    (hserves : Serves p s.mem served) (hperm : (s.held.map Prod.fst).Perm served.blocks)
    {g : ℕ × ℕ} (hg : g ∈ s.held) :
    ∃ x ∈ served, ∃ i ∈ x.2, x.1.pool.block i = g.1 ∧ g.2 ≤ x.1.pool.bytesPerBlock := by
  have hblock := hperm.mem_iff.mp (List.mem_map_of_mem hg)
  obtain ⟨x, hx, i, hi, heq⟩ := Served.mem_blocks.mp hblock
  obtain ⟨shape, hshape, hlow, hhigh, hsize⟩ := h.sized g hg
  rw [← h.shapes_eq, hentries, ← shapes_eq_map] at hshape
  obtain ⟨y, hy, rfl⟩ := List.mem_map.mp hshape
  refine ⟨x, hx, i, hi, heq, ?_⟩
  -- the pool that the grant lies in is the one whose block it is
  have hxy : x = y := by
    by_contra hne
    have hend := x.1.pool.block_end_le ((hserves.holds x hx).lt_of_held hi)
    have hpos := (hserves.holds x hx).bytes_pos
    have hstart : x.1.pool.heapStart ≤ x.1.pool.block i := Nat.le_add_right _ _
    have hhigh' : g.1 < y.1.pool.heapStart + y.1.pool.size := hhigh
    have hlow' : y.1.pool.heapStart ≤ g.1 := hlow
    have happ := hserves.apart_of_ne hx hy hne
    rw [PoolEntry.stop, PoolEntry.stop] at happ
    omega
  subst hxy
  exact hsize.trans_eq (hserves.blockSize x hx)

namespace Safe

variable {p : Platform} {opened : List PoolEntry} {s : HeapState} {ptr a : ℕ}

theorem malloc (h : Safe p opened s) (size : ℕ) : Safe p opened (s.step p (.malloc size)) := by
  obtain ⟨served, hentries, hserves, hperm⟩ := h.served
  obtain ⟨served', hcall⟩ := hserves.malloc size
  rw [← hentries] at hcall
  have hshapes : (s.step p (.malloc size)).entries.map PoolEntry.shape =
      opened.map PoolEntry.shape := by
    rw [← h.shapes_eq, hentries, ← shapes_eq_map, ← hcall.shapes_eq, shapes_eq_map,
      ← hcall.entries_eq]
    rfl
  obtain ⟨hnull, hblocks, -⟩ | ⟨hsome, hblocks, ⟨x, hx, hsize, i, hi, hptr⟩, -⟩ := hcall.result
  · have hheld : (s.step p (.malloc size)).held = s.held := if_pos hnull
    refine ⟨hshapes, ⟨served', hcall.entries_eq, hcall.serves, ?_⟩, ?_⟩
    · rw [hheld, hblocks]
      exact hperm
    · rw [hheld]
      exact h.sized
  · have hheld : (s.step p (.malloc size)).held =
        ((memMgrMalloc p size s.entries s.mem).1, size) :: s.held := if_neg hsome
    refine ⟨hshapes, ⟨served', hcall.entries_eq, hcall.serves, ?_⟩, ?_⟩
    · rw [hheld, List.map_cons]
      exact (hperm.cons _).trans hblocks.symm
    · rw [hheld]
      intro g hg
      obtain rfl | hg := List.mem_cons.mp hg
      · refine ⟨x.1.shape, ?_, ?_, ?_, hsize⟩
        · rw [← hshapes]
          have hmem : x.1 ∈ (memMgrMalloc p size s.entries s.mem).2.1 := by
            rw [hcall.entries_eq]
            exact List.mem_map_of_mem hx
          exact List.mem_map_of_mem hmem
        · rw [← hptr]
          exact Nat.le_add_right _ _
        · have hend := x.1.pool.block_end_le ((hcall.serves.holds x hx).lt_of_held hi)
          have hpos := (hcall.serves.holds x hx).bytes_pos
          rw [Pool.size] at hend
          dsimp only [PoolEntry.shape]
          omega
      · exact h.sized g hg

theorem free (h : Safe p opened s) (hptr : ptr ∈ s.held.map Prod.fst) :
    Safe p opened (s.step p (.free ptr)) := by
  obtain ⟨served, hentries, hserves, hperm⟩ := h.served
  obtain ⟨served', hcall⟩ := hserves.free (hperm.mem_iff.mp hptr)
  rw [← hentries] at hcall
  refine ⟨?_, ⟨served', hcall.entries_eq, hcall.serves, ?_⟩, fun g hg ↦ ?_⟩
  · rw [← h.shapes_eq, hentries, ← shapes_eq_map, ← hcall.shapes_eq, shapes_eq_map,
      ← hcall.entries_eq]
    rfl
  · apply List.Perm.cons_inv (a := ptr)
    calc
      (ptr :: (s.step p (.free ptr)).held.map Prod.fst).Perm (s.held.map Prod.fst) :=
        (perm_eraseP_fst hptr).symm
      List.Perm _ served.blocks := hperm
      List.Perm _ (ptr :: served'.blocks) := hcall.blocks_perm
  · exact h.sized g (List.mem_of_mem_eraseP hg)

theorem write (h : Safe p opened s) {addr : ℕ} {byte : UInt8}
    (hallowed : s.Allowed (.write addr byte)) : Safe p opened (s.step p (.write addr byte)) := by
  obtain ⟨served, hentries, hserves, hperm⟩ := h.served
  refine ⟨h.shapes_eq, ⟨served, hentries, hserves.congr fun a ha ↦ ?_, hperm⟩, h.sized⟩
  apply Function.update_of_ne
  rintro rfl
  obtain ⟨g, hg, hlow, hhigh⟩ | hout := hallowed
  · obtain ⟨x, hx, i, hi, heq, hsize⟩ := exists_block h hentries hserves hperm hg
    exact hserves.not_owns_of_held hx hi (by omega) (by omega) ha
  · obtain ⟨x, hx, howns⟩ := ha
    have hbounds := Serves.le_of_owns howns
    have hside := hout x.1 (hentries ▸ List.mem_map_of_mem hx)
    rw [PoolEntry.stop] at hside
    omega

theorem step (h : Safe p opened s) (op : HeapOp) (hop : s.Allowed op) :
    Safe p opened (s.step p op) := by
  cases op with
  | malloc size => exact h.malloc size
  | free ptr => exact h.free hop
  | write addr byte => exact h.write hop

end Safe

/-! ## Whole runs of an opened heap -/

/-- The pools of a heap that is not aligned. -/
def smallPools : List PoolEntry :=
  [{ pool :=
      { numBlocks := 2
        bytesPerBlock := 8
        heapStart := 4100
        numFree := 2
        numInitialized := 0
        nextFree := 4100
        maxAlloc := 0 }
     blockSize := 8 },
    { pool :=
      { numBlocks := 1
        bytesPerBlock := 20
        heapStart := 4116
        numFree := 1
        numInitialized := 0
        nextFree := 4116
        maxAlloc := 0 }
      blockSize := 20 }]

/-- The third request goes to the larger blocks. -/
def smallHeapRun : List HeapOp :=
  [.malloc 5, .malloc 6, .malloc 3, .write 4117 9, .free 4100, .malloc 8]

theorem smallPools_opened :
    memMgrOpenPools ⟨8, by decide⟩ 4 64 smallTable 4098 0 = some smallPools := rfl

theorem smallHeapRun_allowed :
    Along (step ⟨8, by decide⟩) Allowed ⟨smallPools, fun _ ↦ 0, []⟩ smallHeapRun := by
  decide +kernel

variable {p : Platform} {alignment : ℕ} {descs : List PoolDescriptor} {heap heapSize : ℕ}
  {opened : List PoolEntry}

/-- The pools of an opened heap: where they are, and that none of their blocks is held. -/
structure Opened (p : Platform) (alignment : ℕ) (descs : List PoolDescriptor) (heap : ℕ)
    (mem : Mem) (opened : List PoolEntry) : Prop where
  serves : Serves p mem (opened.map fun e ↦ (e, []))
  aligned : ∀ e ∈ opened, alignment ∣ e.pool.heapStart ∧ alignment ∣ e.pool.bytesPerBlock
  above : ∀ e ∈ opened, roundUp heap alignment ≤ e.pool.heapStart
  below : ∀ e ∈ opened, e.stop ≤ roundUp heap alignment + tableSize p alignment descs
  blocks : (opened.map fun e ↦ e.pool.numBlocks) = descs.map PoolDescriptor.numBlocks
  sizes : (opened.map PoolEntry.blockSize) = descs.map (paddedSize p alignment)

/-- A pool put where the first descriptor says, before the opened pools of the others. -/
theorem Opened.cons {d : PoolDescriptor} {pool : Pool} {mem : Mem} (hpos : 0 < alignment)
    (hstart : pool.heapStart = roundUp heap alignment) (hblocks : pool.numBlocks = d.numBlocks)
    (hbytes : pool.bytesPerBlock = paddedSize p alignment d) (hholds : pool.Holds p mem [])
    (hnext : Opened p alignment descs (heap + d.numBlocks * paddedSize p alignment d) mem opened) :
    Opened p alignment (d :: descs) heap mem
      ({ pool := pool, blockSize := pool.bytesPerBlock } :: opened) := by
  have hstep : roundUp (heap + d.numBlocks * paddedSize p alignment d) alignment =
      roundUp heap alignment + d.numBlocks * paddedSize p alignment d := by
    rw [← add_padding _ hpos, padding_add_blocks hpos, ← add_padding heap hpos]
    ring
  have hsize : pool.size = d.numBlocks * paddedSize p alignment d := by
    rw [Pool.size, hblocks, hbytes]
  constructor
  · refine Serves.cons hholds rfl ?_ hnext.serves
    intro shape hshape
    obtain ⟨x, hx, rfl⟩ := List.mem_map.mp hshape
    obtain ⟨e, he, rfl⟩ := List.mem_map.mp hx
    have habove := hnext.above e he
    rw [hstep] at habove
    rw [PoolEntry.stop, hstart, hsize]
    exact habove
  · intro e he
    obtain rfl | he := List.mem_cons.mp he
    · dsimp only
      rw [hstart, hbytes]
      exact ⟨dvd_roundUp _ _, dvd_roundUp _ _⟩
    · exact hnext.aligned e he
  · intro e he
    obtain rfl | he := List.mem_cons.mp he
    · exact hstart.ge
    · have habove := hnext.above e he
      omega
  · intro e he
    rw [tableSize_cons]
    obtain rfl | he := List.mem_cons.mp he
    · rw [PoolEntry.stop, hstart, hsize]
      omega
    · have hbelow := hnext.below e he
      omega
  · rw [List.map_cons, List.map_cons, hnext.blocks, hblocks]
  · rw [List.map_cons, List.map_cons, hnext.sizes, hbytes]

theorem opened_of_openPools {accumSize : ℕ} (h : Table p alignment descs heap) (hheap : 0 < heap)
    (haccum : accumSize + tableSize p alignment descs + descs.length * alignment < 2 ^ 32)
    (hopen : memMgrOpenPools p alignment heapSize descs heap accumSize = some opened)
    (mem : Mem) : Opened p alignment descs heap mem opened := by
  induction descs generalizing heap accumSize opened with
  | nil =>
      obtain rfl : opened = [] := by simpa [memMgrOpenPools] using hopen.symm
      exact
        { serves := ⟨by simp, by simp, List.Pairwise.nil⟩
          aligned := by simp
          above := by simp
          below := by simp
          blocks := rfl
          sizes := rfl }
  | cons d descs ih =>
      obtain ⟨pool, hstart, hblocks, hbytes, hholds, hloop⟩ := h.openPools_cons hheap mem
      have hpad := padding_lt heap h.pos
      rw [hloop heapSize accumSize haccum] at hopen
      rw [tableSize_cons, List.length_cons, add_mul, one_mul] at haccum
      split at hopen
      · obtain ⟨rest, hrest, rfl⟩ := Option.map_eq_some_iff.mp hopen
        have hnext := ih h.tail (Nat.add_pos_left hheap _) (by omega) hrest
        exact Opened.cons h.pos hstart hblocks hbytes hholds hnext
      · cases hopen

theorem safe_open (h : Table p alignment descs heap) (hheap : 0 < heap)
    (hopen : memMgrOpenPools p alignment heapSize descs heap 0 = some opened) (mem : Mem) :
    Opened p alignment descs heap mem opened ∧ Safe p opened ⟨opened, mem, []⟩ := by
  have hsize := h.size_lt
  rw [add_mul, one_mul] at hsize
  have hopened := opened_of_openPools h hheap (by omega) hopen mem
  refine ⟨hopened, rfl, ⟨opened.map fun e ↦ (e, []), ?_, hopened.serves, ?_⟩, ?_⟩
  · rw [List.map_map]
    exact (List.map_id opened).symm
  · rw [Served.blocks, List.flatMap_map]
    simp
  · exact fun g hg ↦ absurd hg List.not_mem_nil

theorem safe_run (h : Table p alignment descs heap) (hheap : 0 < heap)
    (hopen : memMgrOpenPools p alignment heapSize descs heap 0 = some opened) (mem : Mem)
    {ops : List HeapOp} (hops : Along (step p) Allowed ⟨opened, mem, []⟩ ops) :
    Safe p opened (run (step p) ⟨opened, mem, []⟩ ops) :=
  run_invariant (fun _ op hsafe hop ↦ hsafe.step op hop) (safe_open h hheap hopen mem).2 hops

/-- What is given out at the same time has no byte in common. -/
theorem Safe.apart {s : HeapState} (h : Safe p opened s) :
    s.held.Pairwise fun g g' ↦ g.1 ≠ g'.1 ∧ (g.1 + g.2 ≤ g'.1 ∨ g'.1 + g'.2 ≤ g.1) := by
  obtain ⟨served, hentries, hserves, hperm⟩ := h.served
  have hnodup : (s.held.map Prod.fst).Nodup := hperm.nodup_iff.mpr hserves.blocks_nodup
  have hne : s.held.Pairwise fun g g' ↦ g.1 ≠ g'.1 := List.pairwise_map.mp hnodup
  refine hne.imp_of_mem fun {g g'} hg hg' hdiff ↦ ⟨hdiff, ?_⟩
  obtain ⟨x, hx, i, hi, heq, hsize⟩ := exists_block h hentries hserves hperm hg
  obtain ⟨y, hy, j, hj, heq', hsize'⟩ := exists_block h hentries hserves hperm hg'
  rw [← heq, ← heq'] at hdiff
  obtain hapart | hapart := hserves.block_apart hx hi hy hj hdiff <;> omega

/-- The pools end within the heap. -/
theorem Opened.stop_le {mem : Mem} (hopened : Opened p alignment descs heap mem opened)
    (h : Table p alignment descs heap) (hheap : 0 < heap)
    (hopen : memMgrOpenPools p alignment heapSize descs heap 0 = some opened) :
    ∀ e ∈ opened, e.stop ≤ heap + heapSize := by
  intro e he
  have hbelow := hopened.below e he
  have hfits : 0 + descs.length * padding alignment heap + tableSize p alignment descs ≤
      heapSize := by
    have hlength := h.size_lt
    rw [add_mul, one_mul] at hlength
    have hiff : (memMgrOpenPools p alignment heapSize descs heap 0).isSome = true ↔ _ :=
      memMgrOpenPools_isSome_iff h hheap (by omega)
    rw [hopen] at hiff
    obtain rfl | hle := hiff.mp rfl
    · have hnil := hopened.blocks
      rw [List.map_nil, List.map_eq_nil_iff] at hnil
      exact absurd (hnil ▸ he) List.not_mem_nil
    · exact hle
  have hone : 1 * padding alignment heap ≤ descs.length * padding alignment heap := by
    apply Nat.mul_le_mul_right
    have hlength : opened.length = descs.length := by
      simpa using congrArg List.length hopened.blocks
    rw [← hlength]
    exact List.length_pos_of_mem he
  have hadd := add_padding heap h.pos
  omega

/-- What is given out is aligned and lies in the heap. -/
theorem Safe.placed {s : HeapState} {mem : Mem} (h : Safe p opened s)
    (hopened : Opened p alignment descs heap mem opened) (hpos : 0 < alignment)
    (hstop : ∀ e ∈ opened, e.stop ≤ heap + heapSize) :
    ∀ g ∈ s.held, alignment ∣ g.1 ∧ heap ≤ g.1 ∧ g.1 + g.2 ≤ heap + heapSize := by
  intro g hg
  obtain ⟨served, hentries, hserves, hperm⟩ := h.served
  obtain ⟨x, hx, i, hi, heq, hsize⟩ := exists_block h hentries hserves hperm hg
  have hmem : x.1.shape ∈ s.entries.map PoolEntry.shape := by
    rw [hentries]
    exact List.mem_map_of_mem (List.mem_map_of_mem hx)
  rw [h.shapes_eq] at hmem
  obtain ⟨e, he, hsame⟩ := List.mem_map.mp hmem
  simp only [PoolEntry.shape, Prod.mk.injEq] at hsame
  obtain ⟨hstart, hblocks, hbytes, -⟩ := hsame
  have hend := x.1.pool.block_end_le ((hserves.holds x hx).lt_of_held hi)
  have habove := hopened.above e he
  have hin := hstop e he
  have haligned := hopened.aligned e he
  rw [PoolEntry.stop, Pool.size, hstart, hblocks, hbytes] at hin
  rw [Pool.size] at hend
  rw [hstart] at habove
  rw [hstart, hbytes] at haligned
  refine ⟨?_, ?_, by omega⟩
  · rw [← heq]
    exact Nat.dvd_add haligned.1 (haligned.2.mul_left i)
  · calc
      heap ≤ roundUp heap alignment := le_roundUp hpos
      _ ≤ x.1.pool.heapStart := habove
      _ ≤ x.1.pool.block i := Nat.le_add_right _ _
      _ = g.1 := heq

/-- Every block is held or free. -/
theorem Safe.count {s : HeapState} {mem : Mem} (h : Safe p opened s)
    (hopened : Opened p alignment descs heap mem opened) :
    s.held.length + (s.entries.map fun e ↦ e.pool.numFree).sum =
      (descs.map PoolDescriptor.numBlocks).sum := by
  obtain ⟨served, hentries, hserves, hperm⟩ := h.served
  have hlength : s.held.length = served.blocks.length := by
    rw [← hperm.length_eq, List.length_map]
  have hblocks : (served.map fun x ↦ x.1.pool.numBlocks) =
      descs.map PoolDescriptor.numBlocks := by
    calc
      (served.map fun x ↦ x.1.pool.numBlocks) =
          (s.entries.map PoolEntry.shape).map fun shape ↦ shape.2.1 := by
        rw [hentries, List.map_map, List.map_map]
        rfl
      _ = opened.map fun e ↦ e.pool.numBlocks := by
        rw [h.shapes_eq, List.map_map]
        rfl
      _ = descs.map PoolDescriptor.numBlocks := hopened.blocks
  have hfree : (s.entries.map fun e ↦ e.pool.numFree) =
      served.map fun x ↦ x.1.pool.numFree := by
    rw [hentries, List.map_map]
    rfl
  rw [hlength, hfree, hserves.count, hblocks]

/-- When a request is refused. -/
theorem Safe.malloc_eq_zero_iff {s : HeapState} (h : Safe p opened s) (size : ℕ) :
    (memMgrMalloc p size s.entries s.mem).1 = 0 ↔
      ∀ e ∈ s.entries, size ≤ e.blockSize → e.pool.numFree = 0 := by
  obtain ⟨served, hentries, hserves, -⟩ := h.served
  obtain ⟨served', hcall⟩ := hserves.malloc size
  rw [hentries]
  obtain ⟨hnull, -, hfull⟩ | ⟨hsome, -, -, x, hx, hsize, hfree⟩ := hcall.result
  · refine iff_of_true hnull fun e he hsize ↦ ?_
    obtain ⟨x, hx, rfl⟩ := List.mem_map.mp he
    exact hfull x hx hsize
  · refine iff_of_false hsome fun hall ↦ ?_
    exact hfree (hall x.1 (List.mem_map_of_mem hx) hsize)

/-- **The heap as a whole.** At any time what is given out is aligned, lies in the heap and has no
byte in common; every block is held or free; a request is refused exactly when all pools with
blocks that are large enough for it are used up. -/
theorem run_grants (h : Table p alignment descs heap) (hheap : 0 < heap)
    (hopen : memMgrOpenPools p alignment heapSize descs heap 0 = some opened) (mem : Mem)
    {ops : List HeapOp} (hops : Along (step p) Allowed ⟨opened, mem, []⟩ ops) :
    let s := run (step p) ⟨opened, mem, []⟩ ops
    s.held.Pairwise (fun g g' ↦ g.1 ≠ g'.1 ∧ (g.1 + g.2 ≤ g'.1 ∨ g'.1 + g'.2 ≤ g.1)) ∧
      (∀ g ∈ s.held, alignment ∣ g.1 ∧ heap ≤ g.1 ∧ g.1 + g.2 ≤ heap + heapSize) ∧
      s.held.length + (s.entries.map fun e ↦ e.pool.numFree).sum =
        (descs.map PoolDescriptor.numBlocks).sum ∧
      ∀ size, (memMgrMalloc p size s.entries s.mem).1 = 0 ↔
        ∀ e ∈ s.entries, size ≤ e.blockSize → e.pool.numFree = 0 := by
  intro s
  have hsafe : Safe p opened s := safe_run h hheap hopen mem hops
  have hopened := (safe_open h hheap hopen mem).1
  have hplaced := hsafe.placed hopened h.pos (hopened.stop_le h hheap hopen)
  exact ⟨hsafe.apart, hplaced, hsafe.count hopened, hsafe.malloc_eq_zero_iff⟩

theorem run_grants_smallTable :
    let s := run (step ⟨8, by decide⟩) ⟨smallPools, fun _ ↦ 0, []⟩ smallHeapRun
    s.held.Pairwise (fun g g' ↦ g.1 ≠ g'.1 ∧ (g.1 + g.2 ≤ g'.1 ∨ g'.1 + g'.2 ≤ g.1)) ∧
      s.held = [(4100, 8), (4116, 3), (4108, 6)] := by
  have h := run_grants smallTable_fits (by decide) smallPools_opened (fun _ ↦ 0)
    smallHeapRun_allowed
  exact ⟨h.1, by decide +kernel⟩

/-- One operation keeps what is stored in a grant that it does not free or write. -/
theorem Safe.keeps {s : HeapState} {ptr size a : ℕ} (h : Safe p opened s) {op : HeapOp}
    (hop : s.Allowed op) (hptr : (ptr, size) ∈ s.held) (hfree : op ≠ .free ptr) (hlow : ptr ≤ a)
    (hhigh : a < ptr + size) (hwrite : ∀ byte, op ≠ .write a byte) :
    (ptr, size) ∈ (s.step p op).held ∧ (s.step p op).mem a = s.mem a := by
  obtain ⟨served, hentries, hserves, hperm⟩ := h.served
  obtain ⟨x, hx, i, hi, heq, hsize⟩ := exists_block h hentries hserves hperm hptr
  dsimp only at heq hsize
  cases op with
  | malloc more =>
      constructor
      · rw [HeapState.step]
        dsimp only
        split
        · exact hptr
        · exact List.mem_cons_of_mem _ hptr
      · obtain ⟨served', hcall⟩ := hserves.malloc more
        rw [← hentries] at hcall
        exact hcall.outside a (hserves.not_owns_of_held hx hi (by omega) (by omega))
  | free other =>
      have hne : ptr ≠ other := fun hsame ↦ hfree (hsame ▸ rfl)
      constructor
      · exact (List.mem_eraseP_of_neg (by simpa using hne)).mpr hptr
      · obtain ⟨served', hcall⟩ := hserves.free (hperm.mem_iff.mp hop)
        rw [← hentries] at hcall
        obtain ⟨y, hy, hother, hout⟩ := hcall.outside
        obtain ⟨j, hj, rfl⟩ := List.mem_map.mp hother
        apply hout
        rw [← heq] at hne
        obtain hapart | hapart := hserves.block_apart hx hi hy hj hne <;> omega
  | write addr byte =>
      refine ⟨hptr, Function.update_of_ne ?_ _ _⟩
      rintro rfl
      exact hwrite byte rfl

/-- **What is stored in the heap stays there** until it is freed or its holder writes it. -/
theorem run_contents (h : Table p alignment descs heap) (hheap : 0 < heap)
    (hopen : memMgrOpenPools p alignment heapSize descs heap 0 = some opened) (mem : Mem)
    {first later : List HeapOp}
    (hops : Along (step p) Allowed ⟨opened, mem, []⟩ (first ++ later)) {ptr size a : ℕ}
    (hptr : (ptr, size) ∈ (run (step p) ⟨opened, mem, []⟩ first).held)
    (hfree : .free ptr ∉ later) (hlow : ptr ≤ a) (hhigh : a < ptr + size)
    (hwrite : ∀ byte, .write a byte ∉ later) :
    (ptr, size) ∈ (run (step p) ⟨opened, mem, []⟩ (first ++ later)).held ∧
      (run (step p) ⟨opened, mem, []⟩ (first ++ later)).mem a =
        (run (step p) ⟨opened, mem, []⟩ first).mem a := by
  obtain ⟨hfirst, hlater⟩ := along_append_iff.mp hops
  have hsafe := safe_run h hheap hopen mem hfirst
  rw [run_append]
  have hclear : ∀ op ∈ later, op ≠ .free ptr ∧ ∀ byte, op ≠ .write a byte := fun op hop ↦
    ⟨fun heq ↦ hfree (heq ▸ hop), fun byte heq ↦ hwrite byte (heq ▸ hop)⟩
  have hkeep : ∀ s op,
      (Safe p opened s ∧ (ptr, size) ∈ s.held ∧
        s.mem a = (run (step p) ⟨opened, mem, []⟩ first).mem a) →
      (s.Allowed op ∧ op ≠ .free ptr ∧ ∀ byte, op ≠ .write a byte) →
      Safe p opened (s.step p op) ∧ (ptr, size) ∈ (s.step p op).held ∧
        (s.step p op).mem a = (run (step p) ⟨opened, mem, []⟩ first).mem a := by
    intro s op ⟨hs, hheld, hbyte⟩ ⟨hop, hnofree, hnowrite⟩
    obtain ⟨hheld', hbyte'⟩ := hs.keeps hop hheld hnofree hlow hhigh hnowrite
    exact ⟨hs.step op hop, hheld', hbyte'.trans hbyte⟩
  exact (run_invariant hkeep ⟨hsafe, hptr, rfl⟩ (hlater.and_forall hclear)).2

theorem run_contents_smallTable :
    (run (step ⟨8, by decide⟩) ⟨smallPools, fun _ ↦ 0, []⟩ smallHeapRun).mem 4117 = 9 := by
  have hops : Along (step ⟨8, by decide⟩) Allowed ⟨smallPools, fun _ ↦ 0, []⟩
      (smallHeapRun.take 4 ++ smallHeapRun.drop 4) := smallHeapRun_allowed
  have hheld : (4116, 3) ∈
      (run (step ⟨8, by decide⟩) ⟨smallPools, fun _ ↦ 0, []⟩ (smallHeapRun.take 4)).held := by
    decide +kernel
  have hfree : HeapOp.free 4116 ∉ smallHeapRun.drop 4 := by decide
  have h := run_contents smallTable_fits (by decide) smallPools_opened (fun _ ↦ 0) hops hheld hfree
    (show 4116 ≤ 4117 by decide) (by decide) (by simp [smallHeapRun])
  exact h.2

end HeapState

end Vsys.A2bStack
