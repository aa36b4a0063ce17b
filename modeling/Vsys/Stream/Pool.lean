import Mathlib.Data.List.Nodup
import Mathlib.Data.List.Range
import Mathlib.Data.List.Perm.Subperm

/-!
# A first-fit pool

A pool marks each of its places as used or free and gives out the first free one.  `InUse` says
that the places in use are exactly those of a list without repetition; giving out and taking back
a place keep it, and a place is refused exactly when the list fills the pool.
-/

namespace Vsys.Stream

/-- The first place that is free. -/
def firstFree (usage : List Bool) : Option ℕ := usage.findIdx? fun used ↦ !used

/-- The places in use are those of the list, each once. -/
structure InUse (usage : List Bool) (held : List ℕ) : Prop where
  nodup : held.Nodup
  used_iff : ∀ i, usage[i]? = some true ↔ i ∈ held

variable {usage : List Bool} {held : List ℕ} {i : ℕ}

theorem inUse_replicate (n : ℕ) : InUse (List.replicate n false) [] where
  nodup := List.nodup_nil
  used_iff := fun i ↦ by simp [List.getElem?_replicate]

theorem InUse.lt_length (h : InUse usage held) (hi : i ∈ held) : i < usage.length := by
  have hused := (h.used_iff i).mpr hi
  exact (List.getElem?_eq_some_iff.mp hused).1

theorem firstFree_eq_some (h : firstFree usage = some i) : usage[i]? = some false := by
  obtain ⟨hlt, hfree, -⟩ := List.findIdx?_eq_some_iff_getElem.mp h
  rw [List.getElem?_eq_getElem hlt]
  simpa using hfree

theorem InUse.notMem_of_firstFree (h : InUse usage held) (hfree : firstFree usage = some i) :
    i ∉ held := by
  rw [← h.used_iff, firstFree_eq_some hfree]
  simp

/-- A pool holds no more places than it has. -/
theorem InUse.length_le (h : InUse usage held) : held.length ≤ usage.length := by
  have hsub : held ⊆ List.range usage.length := fun i hi ↦ List.mem_range.mpr (h.lt_length hi)
  calc
    held.length ≤ (List.range usage.length).length := (h.nodup.subperm hsub).length_le
    _ = usage.length := List.length_range

/-- **A full pool.** No place is given out exactly if the list fills the pool. -/
theorem InUse.firstFree_eq_none_iff (h : InUse usage held) :
    firstFree usage = none ↔ held.length = usage.length := by
  constructor
  · intro hnone
    have hall : ∀ used ∈ usage, used = true := by
      simpa [firstFree] using hnone
    have hsub : List.range usage.length ⊆ held := by
      intro i hi
      have hlt := List.mem_range.mp hi
      refine (h.used_iff i).mp ?_
      rw [List.getElem?_eq_getElem hlt, hall _ (List.getElem_mem hlt)]
    have hle := (List.nodup_range.subperm hsub).length_le
    rw [List.length_range] at hle
    exact Nat.le_antisymm h.length_le hle
  · intro hfull
    cases hfree : firstFree usage with
    | none => rfl
    | some i =>
        have hi := h.notMem_of_firstFree hfree
        have hlt : i < usage.length :=
          (List.getElem?_eq_some_iff.mp (firstFree_eq_some hfree)).1
        have hsub : i :: held ⊆ List.range usage.length := by
          intro j hj
          obtain rfl | hj := List.mem_cons.mp hj
          · exact List.mem_range.mpr hlt
          · exact List.mem_range.mpr (h.lt_length hj)
        have hle := ((List.nodup_cons.mpr ⟨hi, h.nodup⟩).subperm hsub).length_le
        rw [List.length_range, List.length_cons] at hle
        omega

/-- Giving out the first free place. -/
theorem InUse.allocate (h : InUse usage held) (hfree : firstFree usage = some i) :
    InUse (usage.set i true) (held ++ [i]) where
  nodup := by
    rw [← List.concat_eq_append]
    exact h.nodup.concat (h.notMem_of_firstFree hfree)
  used_iff := by
    intro j
    have hlt : i < usage.length := (List.getElem?_eq_some_iff.mp (firstFree_eq_some hfree)).1
    by_cases hj : j = i
    · subst hj
      simp [List.getElem?_set_self hlt]
    · rw [List.getElem?_set_ne (Ne.symm hj), h.used_iff]
      simp [hj]

/-- Taking back the place at the front of the list. -/
theorem InUse.deallocate (h : InUse usage (i :: held)) : InUse (usage.set i false) held where
  nodup := (List.nodup_cons.mp h.nodup).2
  used_iff := by
    intro j
    have hlt : i < usage.length := h.lt_length List.mem_cons_self
    by_cases hj : j = i
    · subst hj
      simp [List.getElem?_set_self hlt, (List.nodup_cons.mp h.nodup).1]
    · rw [List.getElem?_set_ne (Ne.symm hj), h.used_iff]
      simp [hj]

end Vsys.Stream
