import Mathlib.Data.List.Nodup
import Mathlib.Data.List.Perm.Basic

/-!
# Maps in slots

A table whose slots are free or hold a key with a value.  Looking up goes through the slots in
order; with every key in one slot only, writing a slot changes one entry of the map.
-/

namespace Vsys.Stream

variable {α β : Type*} [DecidableEq α]

/-- The value in a slot, if it holds the key. -/
def slotValue (k : α) (slot : Option (α × β)) : Option β :=
  slot.bind fun entry ↦ if entry.1 = k then some entry.2 else none

/-- The value of the first slot with the key. -/
def slotsLookup (slots : List (Option (α × β))) (k : α) : Option β := slots.findSome? (slotValue k)

/-- The keys in the slots. -/
def slotKeys (slots : List (Option (α × β))) : List α := slots.filterMap (Option.map Prod.fst)

variable {first later slots : List (Option (α × β))} {k k' : α} {v w : β}

@[simp]
theorem slotValue_none (k : α) : slotValue k (none : Option (α × β)) = none := rfl

@[simp]
theorem slotValue_some (k k' : α) (v : β) :
    slotValue k' (some (k, v)) = if k = k' then some v else none := rfl

theorem slotsLookup_append (first later : List (Option (α × β))) (slot : Option (α × β)) (k : α) :
    slotsLookup (first ++ slot :: later) k =
      (slotsLookup first k).or ((slotValue k slot).or (slotsLookup later k)) := by
  rw [slotsLookup, List.findSome?_append, List.findSome?_cons]
  cases slotValue k slot <;> rfl

theorem slotsLookup_eq_none_iff : slotsLookup slots k = none ↔ k ∉ slotKeys slots := by
  rw [slotsLookup, List.findSome?_eq_none_iff, slotKeys, List.mem_filterMap]
  constructor
  · intro h hmem
    obtain ⟨slot, hslot, hkey⟩ := hmem
    cases slot with
    | none => simp at hkey
    | some entry =>
        obtain rfl : entry.1 = k := by simpa using hkey
        exact absurd (h _ hslot) (by simp [slotValue])
  · intro h slot hslot
    cases slot with
    | none => rfl
    | some entry =>
        refine if_neg fun hkey ↦ h ⟨some entry, hslot, ?_⟩
        simp [hkey]

omit [DecidableEq α] in
theorem slotKeys_append (first later : List (Option (α × β))) (slot : Option (α × β)) :
    slotKeys (first ++ slot :: later) =
      slotKeys first ++ ((slot.map Prod.fst).toList ++ slotKeys later) := by
  rw [slotKeys, List.filterMap_append, List.filterMap_cons]
  cases slot <;> rfl

omit [DecidableEq α] in
/-- A key is held by one slot. -/
theorem notMem_of_nodup (h : (slotKeys (first ++ some (k, v) :: later)).Nodup) :
    k ∉ slotKeys first ∧ k ∉ slotKeys later := by
  rw [slotKeys_append] at h
  obtain ⟨-, hrest, hdisjoint⟩ := List.nodup_append.mp h
  refine ⟨fun hmem ↦ hdisjoint k hmem k ?_ rfl, ?_⟩
  · exact List.mem_append_left _ (List.mem_singleton_self k)
  · exact (List.nodup_cons.mp hrest).1

/-- With every key in one slot, looking up finds what is in the slots. -/
theorem slotsLookup_eq_some_iff (h : (slotKeys slots).Nodup) :
    slotsLookup slots k = some v ↔ some (k, v) ∈ slots := by
  constructor
  · intro hlookup
    obtain ⟨slot, hslot, hvalue⟩ := List.exists_of_findSome?_eq_some hlookup
    cases slot with
    | none => exact absurd hvalue (Option.some_ne_none v).symm
    | some entry =>
        rw [slotValue, Option.bind_some] at hvalue
        split_ifs at hvalue with hk
        obtain rfl := Option.some.inj hvalue
        exact hk ▸ hslot
  · intro hmem
    obtain ⟨first, later, rfl⟩ := List.append_of_mem hmem
    rw [slotsLookup_append, slotsLookup_eq_none_iff.mpr (notMem_of_nodup h).1, slotValue_some,
      if_pos rfl]
    rfl

/-- The value of a key is replaced. -/
theorem slotsLookup_replace (h : (slotKeys (first ++ some (k, v) :: later)).Nodup) (k' : α) :
    slotsLookup (first ++ some (k, w) :: later) k' =
      if k' = k then some w else slotsLookup (first ++ some (k, v) :: later) k' := by
  rw [slotsLookup_append, slotsLookup_append, slotValue_some, slotValue_some]
  by_cases hk : k' = k
  · rw [hk, slotsLookup_eq_none_iff.mpr (notMem_of_nodup h).1, if_pos rfl, if_pos rfl]
    rfl
  · rw [if_neg (Ne.symm hk), if_neg (Ne.symm hk), if_neg hk]

/-- A free slot takes a new key. -/
theorem slotsLookup_insert (h : k ∉ slotKeys (first ++ none :: later)) (k' : α) :
    slotsLookup (first ++ some (k, w) :: later) k' =
      if k' = k then some w else slotsLookup (first ++ none :: later) k' := by
  rw [slotsLookup_append, slotsLookup_append, slotValue_some, slotValue_none]
  rw [slotKeys_append, List.mem_append, not_or] at h
  by_cases hk : k' = k
  · rw [hk, slotsLookup_eq_none_iff.mpr h.1, if_pos rfl, if_pos rfl]
    rfl
  · rw [if_neg (Ne.symm hk), if_neg hk]

/-- A slot is freed. -/
theorem slotsLookup_erase (h : (slotKeys (first ++ some (k, v) :: later)).Nodup) (k' : α) :
    slotsLookup (first ++ none :: later) k' =
      if k' = k then none else slotsLookup (first ++ some (k, v) :: later) k' := by
  rw [slotsLookup_append, slotsLookup_append, slotValue_some, slotValue_none]
  obtain ⟨hfirst, hlater⟩ := notMem_of_nodup h
  by_cases hk : k' = k
  · rw [hk, slotsLookup_eq_none_iff.mpr hfirst, slotsLookup_eq_none_iff.mpr hlater, if_pos rfl]
    rfl
  · rw [if_neg (Ne.symm hk), if_neg hk]

omit [DecidableEq α] in
theorem nodup_replace (h : (slotKeys (first ++ some (k, v) :: later)).Nodup) (w : β) :
    (slotKeys (first ++ some (k, w) :: later)).Nodup := by
  rw [slotKeys_append] at h ⊢
  exact h

omit [DecidableEq α] in
theorem nodup_insert (hnew : k ∉ slotKeys (first ++ none :: later))
    (h : (slotKeys (first ++ none :: later)).Nodup) (w : β) :
    (slotKeys (first ++ some (k, w) :: later)).Nodup := by
  rw [slotKeys_append] at h hnew ⊢
  exact (List.perm_middle.nodup_iff).mpr (List.nodup_cons.mpr ⟨hnew, h⟩)

omit [DecidableEq α] in
theorem nodup_erase (h : (slotKeys (first ++ some (k, v) :: later)).Nodup) :
    (slotKeys (first ++ none :: later)).Nodup := by
  rw [slotKeys_append] at h ⊢
  exact (List.nodup_cons.mp (List.perm_middle.nodup_iff.mp h)).2

end Vsys.Stream
