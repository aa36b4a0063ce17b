import Mathlib.Data.List.Nodup
import Mathlib.Data.List.Range
import Mathlib.Data.List.Perm.Subperm

/-!
# A free list that grows into fresh places

The places below `fresh` have been used before.  Those of them that are free are chained: each
names the one behind it, and the last one names `fresh`, the first place that was never used.  The
places that are not free are held.

A place joins the chain at its end when it is used for the first time (`grow`), leaves it at the
front (`pop`) and comes back to the front (`push`).
-/

namespace Vsys.Stream

/-- The free places are chained in this order, and they are the ones that are not held. -/
structure FreeList (next : ℕ → ℕ) (fresh : ℕ) (held free : List ℕ) : Prop where
  perm : (held ++ free).Perm (List.range fresh)
  chain : (free ++ [fresh]).IsChain fun i j ↦ next i = j

namespace FreeList

variable {next : ℕ → ℕ} {fresh i : ℕ} {held free : List ℕ}

theorem empty (next : ℕ → ℕ) : FreeList next 0 [] [] where
  perm := List.Perm.refl _
  chain := List.isChain_singleton 0

theorem nodup (h : FreeList next fresh held free) : (held ++ free).Nodup :=
  h.perm.nodup_iff.mpr List.nodup_range

theorem held_nodup (h : FreeList next fresh held free) : held.Nodup := h.nodup.of_append_left

theorem length_add_length (h : FreeList next fresh held free) :
    held.length + free.length = fresh := by
  rw [← List.length_append, h.perm.length_eq, List.length_range]

theorem lt_of_held (h : FreeList next fresh held free) (hi : i ∈ held) : i < fresh :=
  List.mem_range.mp (h.perm.mem_iff.mp (List.mem_append_left free hi))

theorem lt_of_free (h : FreeList next fresh held free) (hi : i ∈ free) : i < fresh :=
  List.mem_range.mp (h.perm.mem_iff.mp (List.mem_append_right held hi))

theorem notMem_held (h : FreeList next fresh held free) (hi : i ∈ free) : i ∉ held :=
  fun hheld ↦ List.disjoint_of_nodup_append h.nodup hheld hi

/-- The chain only reads the free places. -/
theorem congr {next' : ℕ → ℕ} (h : FreeList next fresh held free)
    (hnext : ∀ i ∈ free, next' i = next i) : FreeList next' fresh held free where
  perm := h.perm
  chain := by
    have hchain := h.chain
    rw [List.isChain_append] at hchain ⊢
    refine ⟨?_, List.isChain_singleton fresh, fun i hi j hj ↦ ?_⟩
    · apply hchain.1.imp_of_mem_imp
      intro i j hi _ hij
      rw [hnext i hi, hij]
    · rw [hnext i (List.mem_of_mem_getLast? hi)]
      exact hchain.2.2 i hi j hj

/-- The first fresh place joins the chain at its end. -/
theorem grow (h : FreeList next fresh held free) (hnext : next fresh = fresh + 1) :
    FreeList next (fresh + 1) held (free ++ [fresh]) where
  perm := by
    rw [List.range_succ, ← List.append_assoc]
    exact h.perm.append_right [fresh]
  chain := by
    rw [List.isChain_append]
    refine ⟨h.chain, List.isChain_singleton _, fun i hi j hj ↦ ?_⟩
    obtain rfl : fresh = i := by simpa using hi
    obtain rfl : fresh + 1 = j := by simpa using hj
    exact hnext

/-- The front of the chain stays where it is when a place joins the chain at its end. -/
theorem headD_grow (free : List ℕ) (fresh : ℕ) :
    (free ++ [fresh]).headD (fresh + 1) = free.headD fresh := by
  cases free <;> rfl

/-- The place at the front of the chain is given out. -/
theorem pop (h : FreeList next fresh held (i :: free)) : FreeList next fresh (i :: held) free where
  perm := List.perm_middle.symm.trans h.perm
  chain := (List.isChain_cons.mp h.chain).2

/-- It names the new front. -/
theorem next_front (h : FreeList next fresh held (i :: free)) : next i = free.headD fresh := by
  apply (List.isChain_cons.mp h.chain).1
  cases free <;> rfl

/-- A place comes back to the front of the chain. -/
theorem push (h : FreeList next fresh held free) (hi : i ∈ held)
    (hnext : next i = free.headD fresh) : FreeList next fresh (held.erase i) (i :: free) where
  perm := by
    calc
      (held.erase i ++ i :: free).Perm (i :: held.erase i ++ free) := List.perm_middle
      List.Perm _ (held ++ free) := (List.perm_cons_erase hi).symm.append_right free
      List.Perm _ (List.range fresh) := h.perm
  chain := by
    rw [List.cons_append, List.isChain_cons]
    refine ⟨fun j hj ↦ ?_, h.chain⟩
    rw [hnext]
    cases free with
    | nil => simpa using hj
    | cons front free => simpa using hj

end FreeList

end Vsys.Stream
