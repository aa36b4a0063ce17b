import Mathlib.Data.List.Infix
import Mathlib.Logic.Function.Basic
import Mathlib.Order.Bounds.Defs
import Vsys.A2bStack.PoolBlocks
import Vsys.Trace.Run

/-!
# Runs of a memory pool

A pool is used by calls of `a2b_poolAlloc` and `a2b_poolFree` in any order, with writes into memory
between them.  The caller frees only pointers that it holds, and it does not write into blocks that
it does not hold; nothing else is asked of it.
-/

namespace Vsys.A2bStack

open Vsys.Num Vsys.Trace

/-- A pool, the memory, and the pointers that were given out and not freed, the latest first. -/
structure PoolState where
  pool : Pool
  mem : Mem
  held : List ℕ

inductive PoolOp
  | alloc
  | free (ptr : ℕ)
  | write (addr : ℕ) (byte : UInt8)
  deriving DecidableEq

namespace PoolState

def step (p : Platform) (s : PoolState) : PoolOp → PoolState
  | .alloc =>
      let called := poolAlloc p s.pool s.mem
      { pool := called.2.1
        mem := called.2.2
        held := if called.1 = 0 then s.held else called.1 :: s.held }
  | .free ptr =>
      let called := poolFree p s.pool s.mem ptr
      { pool := called.1, mem := called.2, held := s.held.erase ptr }
  | .write addr byte => { s with mem := Function.update s.mem addr byte }

/-- The address lies in a block that the caller holds. -/
def InHeld (s : PoolState) (a : ℕ) : Prop :=
  ∃ ptr ∈ s.held, ptr ≤ a ∧ a < ptr + s.pool.bytesPerBlock

/-- What a caller may do. -/
def Allowed (s : PoolState) : PoolOp → Prop
  | .alloc => True
  | .free ptr => ptr ∈ s.held
  | .write addr _ =>
      s.InHeld addr ∨ addr < s.pool.heapStart ∨ s.pool.heapStart + s.pool.size ≤ addr

instance (s : PoolState) (a : ℕ) : Decidable (s.InHeld a) :=
  inferInstanceAs (Decidable (∃ ptr ∈ s.held, _))

instance (s : PoolState) : ∀ op, Decidable (s.Allowed op)
  | .alloc => inferInstanceAs (Decidable True)
  | .free _ => inferInstanceAs (Decidable (_ ∈ _))
  | .write _ _ => inferInstanceAs (Decidable (_ ∨ _))

/-- The pointers that are held point to the blocks that `Pool.Holds` speaks of. -/
structure Safe (p : Platform) (created : Pool) (s : PoolState) : Prop where
  same : Pool.SameBlocks created s.pool
  blocks : ∃ held, s.held = held.map s.pool.block ∧ s.pool.Holds p s.mem held

namespace Safe

variable {p : Platform} {created : Pool} {s : PoolState} {ptr a : ℕ}

/-- **A call for a block.** -/
theorem alloc (h : Safe p created s) :
    Safe p created (s.step p .alloc) ∧
      ((poolAlloc p s.pool s.mem).1 = 0 ↔ s.held.length = s.pool.numBlocks) ∧
      (poolAlloc p s.pool s.mem).1 ∉ s.held := by
  obtain ⟨held, hheld, hholds⟩ := h.blocks
  have hsame := Pool.alloc_sameBlocks p s.pool s.mem
  have hlength : s.held.length = held.length := by rw [hheld, List.length_map]
  obtain ⟨hfull, hnull, hnext⟩ | ⟨i, hi, hlt, hptr, hnext⟩ := hholds.alloc
  · refine ⟨⟨h.same.trans hsame, held, ?_, hnext⟩, ?_, ?_⟩
    · rw [step, if_pos hnull, hsame.block]
      exact hheld
    · exact iff_of_true hnull (hlength.trans hfull)
    · rw [hnull, hheld]
      intro hmem
      obtain ⟨j, -, hj⟩ := List.mem_map.mp hmem
      exact (hholds.block_pos j).ne' hj
  · have hsome : (poolAlloc p s.pool s.mem).1 ≠ 0 := hptr ▸ (hholds.block_pos i).ne'
    have hlist : (s.step p .alloc).held = (i :: held).map s.pool.block := by
      rw [step, if_neg hsome, hptr, hheld]
      rfl
    refine ⟨⟨h.same.trans hsame, i :: held, ?_, hnext⟩, ?_, ?_⟩
    · rw [hlist]
      exact congrArg (fun block ↦ (i :: held).map block) hsame.block.symm
    · have hcount := hnext.count
      have hblocks : (poolAlloc p s.pool s.mem).2.1.numBlocks = s.pool.numBlocks := hsame.numBlocks
      rw [List.length_cons] at hcount
      exact iff_of_false hsome (by omega)
    · rw [hptr, hheld, List.mem_map_of_injective hholds.block_injective]
      exact hi

theorem free (h : Safe p created s) (hptr : ptr ∈ s.held) :
    Safe p created (s.step p (.free ptr)) := by
  obtain ⟨held, hheld, hholds⟩ := h.blocks
  obtain ⟨i, hi, rfl⟩ := List.mem_map.mp (hheld ▸ hptr)
  have hsame := Pool.free_sameBlocks p s.pool s.mem (s.pool.block i)
  refine ⟨h.same.trans hsame, held.erase i, ?_, hholds.free hi⟩
  calc
    s.held.erase (s.pool.block i) = (held.map s.pool.block).erase (s.pool.block i) := by rw [hheld]
    _ = (held.erase i).map s.pool.block := (List.map_erase hholds.block_injective ..).symm
    _ = (held.erase i).map (s.step p (.free (s.pool.block i))).pool.block :=
      congrArg (fun block ↦ (held.erase i).map block) hsame.block.symm

/-- A byte of a block that is held is not the pool's. -/
theorem not_owns_of_inHeld {held : List ℕ}
    (hheld : s.held = held.map s.pool.block) (ha : s.InHeld a) : ¬ s.pool.Owns held a := by
  rintro ⟨j, -, hj, hlow, hhigh⟩
  obtain ⟨ptr, hptr, hlow', hhigh'⟩ := ha
  obtain ⟨i, hi, rfl⟩ := List.mem_map.mp (hheld ▸ hptr)
  have hne : i ≠ j := fun heq ↦ hj (heq ▸ hi)
  obtain hapart | hapart := s.pool.block_apart hne <;> omega

theorem not_owns_of_outside (held : List ℕ)
    (ha : a < s.pool.heapStart ∨ s.pool.heapStart + s.pool.size ≤ a) : ¬ s.pool.Owns held a := by
  rintro ⟨j, hj, -, hlow, hhigh⟩
  have hend := s.pool.block_end_le hj
  have hstart : s.pool.heapStart ≤ s.pool.block j := Nat.le_add_right _ _
  omega

theorem write (h : Safe p created s) {addr : ℕ} {byte : UInt8}
    (hallowed : s.Allowed (.write addr byte)) : Safe p created (s.step p (.write addr byte)) := by
  obtain ⟨held, hheld, hholds⟩ := h.blocks
  refine ⟨h.same, held, hheld, hholds.congr fun a ha ↦ Function.update_of_ne ?_ _ _⟩
  rintro rfl
  obtain hin | hout := hallowed
  · exact not_owns_of_inHeld hheld hin ha
  · exact not_owns_of_outside held hout ha

theorem step (h : Safe p created s) (op : PoolOp) (hop : s.Allowed op) :
    Safe p created (s.step p op) := by
  cases op with
  | alloc => exact h.alloc.1
  | free ptr => exact h.free hop
  | write addr byte => exact h.write hop

/-- **What is stored.** A block that is not freed stays held, and a byte of it changes only when
the caller writes it. -/
theorem keeps (h : Safe p created s) {op : PoolOp} (hop : s.Allowed op) (hptr : ptr ∈ s.held)
    (hfree : op ≠ .free ptr) (hlow : ptr ≤ a) (hhigh : a < ptr + s.pool.bytesPerBlock)
    (hwrite : ∀ byte, op ≠ .write a byte) :
    ptr ∈ (s.step p op).held ∧ (s.step p op).mem a = s.mem a := by
  obtain ⟨held, hheld, hholds⟩ := h.blocks
  cases op with
  | alloc =>
      constructor
      · rw [PoolState.step]
        dsimp only
        split
        · exact hptr
        · exact List.mem_cons_of_mem _ hptr
      · exact hholds.alloc_outside (not_owns_of_inHeld hheld ⟨ptr, hptr, hlow, hhigh⟩)
  | free other =>
      have hne : ptr ≠ other := fun heq ↦ hfree (heq ▸ rfl)
      refine ⟨(List.mem_erase_of_ne hne).mpr hptr, ?_⟩
      obtain ⟨i, hi, rfl⟩ := List.mem_map.mp (hheld ▸ hptr)
      have hother : other ∈ s.held := hop
      obtain ⟨j, hj, rfl⟩ := List.mem_map.mp (hheld ▸ hother)
      apply hholds.free_outside hj
      have hij : i ≠ j := fun heq ↦ hne (heq ▸ rfl)
      obtain hapart | hapart := s.pool.block_apart hij <;> omega
  | write addr byte =>
      refine ⟨hptr, Function.update_of_ne ?_ _ _⟩
      rintro rfl
      exact hwrite byte rfl

end Safe

/-! ## Whole runs -/

/-- A heap that is not aligned, for blocks that are smaller than a pointer. -/
def smallPool : Pool where
  numBlocks := 7
  bytesPerBlock := 8
  heapStart := 4100
  numFree := 7
  numInitialized := 0
  nextFree := 4100
  maxAlloc := 0

def smallRun : List PoolOp :=
  [.alloc, .alloc, .write 4101 7, .free 4100, .alloc, .write 4109 9, .alloc]

theorem smallPool_created : poolCreate ⟨8, by decide⟩ 4098 64 4 6 = some smallPool := rfl

theorem smallPool_request : Pool.Request ⟨8, by decide⟩ 4098 64 4 6 where
  start_pos := by decide
  end_lt := by decide
  size_lt := by decide
  align_pos := by decide
  pad_le := by decide
  round_lt := by decide

theorem smallRun_allowed :
    Along (step ⟨8, by decide⟩) Allowed ⟨smallPool, fun _ ↦ 0, []⟩ smallRun := by decide +kernel

variable {p : Platform} {heapStart heapSize alignment blockSize : ℕ} {pool : Pool}

/-- The blocks of a created pool, none of which is held. -/
theorem safe_create (h : Pool.Request p heapStart heapSize alignment blockSize)
    (hpool : poolCreate p heapStart heapSize alignment blockSize = some pool) (mem : Mem) :
    Safe p pool ⟨pool, mem, []⟩ where
  same := Pool.SameBlocks.refl pool
  blocks := ⟨[], rfl, (Pool.create h hpool mem).2⟩

theorem safe_run (h : Pool.Request p heapStart heapSize alignment blockSize)
    (hpool : poolCreate p heapStart heapSize alignment blockSize = some pool) (mem : Mem)
    {ops : List PoolOp} (hops : Along (step p) Allowed ⟨pool, mem, []⟩ ops) :
    Safe p pool (run (step p) ⟨pool, mem, []⟩ ops) :=
  run_invariant (fun _ op hsafe hop ↦ hsafe.step op hop) (safe_create h hpool mem) hops

/-- **No block is given out twice.** At any time the blocks that are held are aligned, lie in the
heap and have no byte in common; a call gives out none exactly when all are held, and otherwise one
that is not held. -/
theorem run_blocks (h : Pool.Request p heapStart heapSize alignment blockSize)
    (hpool : poolCreate p heapStart heapSize alignment blockSize = some pool) (mem : Mem)
    {ops : List PoolOp} (hops : Along (step p) Allowed ⟨pool, mem, []⟩ ops) :
    let s := run (step p) ⟨pool, mem, []⟩ ops
    s.held.Pairwise (fun q r ↦ q + pool.bytesPerBlock ≤ r ∨ r + pool.bytesPerBlock ≤ q) ∧
      (∀ q ∈ s.held, alignment ∣ q ∧ heapStart ≤ q ∧
        q + pool.bytesPerBlock ≤ heapStart + heapSize) ∧
      blockSize ≤ pool.bytesPerBlock ∧ s.held.length + s.pool.numFree = pool.numBlocks ∧
      ((poolAlloc p s.pool s.mem).1 = 0 ↔ s.held.length = pool.numBlocks) ∧
      (poolAlloc p s.pool s.mem).1 ∉ s.held := by
  intro s
  have hsafe : Safe p pool s := safe_run h hpool mem hops
  obtain ⟨hcreated, -⟩ := Pool.create h hpool mem
  obtain ⟨held, hheld, hholds⟩ := hsafe.blocks
  have hsame := hsafe.same
  have hblock : ∀ i, s.pool.block i =
      roundUp heapStart alignment + i * roundUp (atLeastPtr p blockSize) alignment := by
    intro i
    rw [hsame.block, Pool.block, hcreated.heapStart_eq, hcreated.bytesPerBlock_eq]
  refine ⟨?_, ?_, ?_, ?_, ?_, hsafe.alloc.2.2⟩
  · rw [hheld, List.pairwise_map, ← hsame.bytesPerBlock]
    exact hholds.held_nodup.imp fun hne ↦ s.pool.block_apart hne
  · intro q hq
    obtain ⟨i, hi, rfl⟩ := List.mem_map.mp (hheld ▸ hq)
    refine ⟨?_, ?_, ?_⟩
    · rw [hblock]
      exact Nat.dvd_add (dvd_roundUp _ _) ((dvd_roundUp _ _).mul_left i)
    · calc
        heapStart ≤ roundUp heapStart alignment := le_roundUp h.pos
        _ ≤ s.pool.block i := by rw [hblock]; exact Nat.le_add_right _ _
    · have hend := s.pool.block_end_le (hholds.lt_of_held hi)
      have hsize : s.pool.heapStart + s.pool.size = pool.heapStart + pool.size := by
        rw [Pool.size, Pool.size, hsame.heapStart, hsame.numBlocks, hsame.bytesPerBlock]
      rw [← hsame.bytesPerBlock]
      exact (hend.trans_eq hsize).trans hcreated.end_le
  · rw [hcreated.bytesPerBlock_eq]
    exact (Pool.le_atLeastPtr p blockSize).trans (le_roundUp h.pos)
  · rw [hheld, List.length_map, ← hsame.numBlocks]
    exact hholds.count
  · rw [← hsame.numBlocks]
    exact hsafe.alloc.2.1

theorem run_blocks_smallPool :
    let s := run (step ⟨8, by decide⟩) ⟨smallPool, fun _ ↦ 0, []⟩ smallRun
    s.held.Pairwise (fun q r ↦ q + 8 ≤ r ∨ r + 8 ≤ q) ∧ s.held = [4116, 4100, 4108] := by
  have h := run_blocks smallPool_request smallPool_created (fun _ ↦ 0) smallRun_allowed
  exact ⟨h.1, by decide +kernel⟩

/-- **What is stored in a block stays there.** Whatever calls are made in between, a byte of a
block that is not freed is what its holder wrote last. -/
theorem run_keeps (h : Pool.Request p heapStart heapSize alignment blockSize)
    (hpool : poolCreate p heapStart heapSize alignment blockSize = some pool) (mem : Mem)
    {first later : List PoolOp}
    (hops : Along (step p) Allowed ⟨pool, mem, []⟩ (first ++ later)) {ptr a : ℕ}
    (hptr : ptr ∈ (run (step p) ⟨pool, mem, []⟩ first).held) (hfree : .free ptr ∉ later)
    (hlow : ptr ≤ a) (hhigh : a < ptr + pool.bytesPerBlock)
    (hwrite : ∀ byte, .write a byte ∉ later) :
    ptr ∈ (run (step p) ⟨pool, mem, []⟩ (first ++ later)).held ∧
      (run (step p) ⟨pool, mem, []⟩ (first ++ later)).mem a =
        (run (step p) ⟨pool, mem, []⟩ first).mem a := by
  obtain ⟨hfirst, hlater⟩ := along_append_iff.mp hops
  have hsafe := safe_run h hpool mem hfirst
  rw [run_append]
  have hclear : ∀ op ∈ later, op ≠ .free ptr ∧ ∀ byte, op ≠ .write a byte := fun op hop ↦
    ⟨fun heq ↦ hfree (heq ▸ hop), fun byte heq ↦ hwrite byte (heq ▸ hop)⟩
  have hkeep : ∀ s op,
      (Safe p pool s ∧ ptr ∈ s.held ∧ s.mem a = (run (step p) ⟨pool, mem, []⟩ first).mem a) →
      (s.Allowed op ∧ op ≠ .free ptr ∧ ∀ byte, op ≠ .write a byte) →
      Safe p pool (s.step p op) ∧ ptr ∈ (s.step p op).held ∧
        (s.step p op).mem a = (run (step p) ⟨pool, mem, []⟩ first).mem a := by
    intro s op ⟨hs, hheld, hbyte⟩ ⟨hop, hnofree, hnowrite⟩
    obtain ⟨hheld', hbyte'⟩ :=
      hs.keeps hop hheld hnofree hlow (hs.same.bytesPerBlock ▸ hhigh) hnowrite
    exact ⟨hs.step op hop, hheld', hbyte'.trans hbyte⟩
  exact (run_invariant hkeep ⟨hsafe, hptr, rfl⟩ (hlater.and_forall hclear)).2

theorem run_keeps_smallPool :
    (run (step ⟨8, by decide⟩) ⟨smallPool, fun _ ↦ 0, []⟩ smallRun).mem 4109 = 9 := by
  have hheld : 4108 ∈
      (run (step ⟨8, by decide⟩) ⟨smallPool, fun _ ↦ 0, []⟩ (smallRun.take 6)).held := by
    decide +kernel
  have hfree : PoolOp.free 4108 ∉ smallRun.drop 6 := by decide
  have hops : Along (step ⟨8, by decide⟩) Allowed ⟨smallPool, fun _ ↦ 0, []⟩
      (smallRun.take 6 ++ smallRun.drop 6) := smallRun_allowed
  have h := run_keeps smallPool_request smallPool_created (fun _ ↦ 0) hops hheld hfree
    (show 4108 ≤ 4109 by decide) (by decide) (by simp [smallRun])
  exact h.2

/-- One call of any kind leaves the count of the most blocks held where it belongs. -/
theorem Safe.maxAlloc {created : Pool} {s : PoolState} (h : Safe p created s) (op : PoolOp)
    (hle : s.held.length ≤ s.pool.maxAlloc) :
    (s.step p op).pool.maxAlloc = max s.pool.maxAlloc (s.step p op).held.length := by
  cases op with
  | alloc =>
      obtain ⟨held, hheld, hholds⟩ := h.blocks
      have hlength : s.held.length = held.length := by rw [hheld, List.length_map]
      have hcount := hholds.count
      obtain hzero | hpos := Nat.eq_zero_or_pos s.pool.numFree
      · have hnull : (poolAlloc p s.pool s.mem).1 = 0 := h.alloc.2.1.mpr (by omega)
        have hheld' : (s.step p .alloc).held = s.held := if_pos hnull
        rw [hheld', Nat.max_eq_left hle]
        exact Pool.Holds.alloc_maxAlloc_full p s.mem hzero
      · have hsome : (poolAlloc p s.pool s.mem).1 ≠ 0 := fun hnull ↦ by
          have hfull := h.alloc.2.1.mp hnull
          omega
        have hheld' : (s.step p .alloc).held = (poolAlloc p s.pool s.mem).1 :: s.held :=
          if_neg hsome
        rw [hheld', List.length_cons, hlength]
        exact hholds.alloc_maxAlloc hpos
  | free ptr =>
      have hmax : (s.step p (.free ptr)).pool.maxAlloc = s.pool.maxAlloc := by
        dsimp only [PoolState.step]
        rw [poolFree]
        split <;> rfl
      have hshorter : (s.step p (.free ptr)).held.length ≤ s.held.length :=
        List.erase_sublist.length_le
      rw [hmax, Nat.max_eq_left (hshorter.trans hle)]
  | write addr byte => exact (Nat.max_eq_left hle).symm

/-- **High water.** `a2b_poolMaxAlloc` answers the most blocks that were ever held at a time. -/
theorem run_maxAlloc (h : Pool.Request p heapStart heapSize alignment blockSize)
    (hpool : poolCreate p heapStart heapSize alignment blockSize = some pool) (mem : Mem)
    {ops : List PoolOp} (hops : Along (step p) Allowed ⟨pool, mem, []⟩ ops) :
    IsGreatest {n | ∃ first, first <+: ops ∧ (run (step p) ⟨pool, mem, []⟩ first).held.length = n}
      (poolMaxAlloc (run (step p) ⟨pool, mem, []⟩ ops).pool) := by
  induction ops using List.reverseRecOn with
  | nil =>
      have hzero : pool.maxAlloc = 0 := (Pool.create h hpool mem).1.maxAlloc_eq
      constructor
      · exact ⟨[], List.nil_prefix, hzero.symm⟩
      · rintro n ⟨first, hfirst, rfl⟩
        rw [List.prefix_nil.mp hfirst]
        exact Nat.zero_le _
  | append_singleton ops op ih =>
      obtain ⟨hfirst, -⟩ := along_append_iff.mp hops
      obtain ⟨⟨peak, hpeak, hheld⟩, hupper⟩ := ih hfirst
      have hsafe := safe_run h hpool mem hfirst
      have hstep := hsafe.maxAlloc op (hupper ⟨ops, List.prefix_rfl, rfl⟩)
      have hnext : run (step p) ⟨pool, mem, []⟩ (ops ++ [op]) =
          (run (step p) ⟨pool, mem, []⟩ ops).step p op := by
        rw [run_append, run_cons, run_nil]
      have hmax : poolMaxAlloc (run (step p) ⟨pool, mem, []⟩ (ops ++ [op])).pool =
          max (poolMaxAlloc (run (step p) ⟨pool, mem, []⟩ ops).pool)
            (run (step p) ⟨pool, mem, []⟩ (ops ++ [op])).held.length := by
        rw [hnext]
        exact hstep
      rw [hmax]
      constructor
      · obtain hle | hlt := Nat.le_total
            (run (step p) ⟨pool, mem, []⟩ (ops ++ [op])).held.length
            (poolMaxAlloc (run (step p) ⟨pool, mem, []⟩ ops).pool)
        · rw [Nat.max_eq_left hle]
          exact ⟨peak, hpeak.trans (List.prefix_append _ _), hheld⟩
        · rw [Nat.max_eq_right hlt]
          exact ⟨ops ++ [op], List.prefix_rfl, rfl⟩
      · rintro n ⟨first, hprefix, rfl⟩
        obtain rfl | hbefore := List.prefix_concat_iff.mp hprefix
        · exact Nat.le_max_right _ _
        · exact (hupper ⟨first, hbefore, rfl⟩).trans (Nat.le_max_left _ _)

theorem run_maxAlloc_smallPool :
    IsGreatest {n | ∃ first, first <+: smallRun ∧
      (run (step ⟨8, by decide⟩) ⟨smallPool, fun _ ↦ 0, []⟩ first).held.length = n} 3 := by
  have hmax : poolMaxAlloc
      (run (step ⟨8, by decide⟩) ⟨smallPool, fun _ ↦ 0, []⟩ smallRun).pool = 3 := by
    decide +kernel
  rw [← hmax]
  exact run_maxAlloc smallPool_request smallPool_created (fun _ ↦ 0) smallRun_allowed

end PoolState

end Vsys.A2bStack
