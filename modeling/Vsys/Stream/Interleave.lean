import Mathlib.Data.List.GetD
import Mathlib.Data.List.Range

/-!
# Interleaved channels

`interleaved len rows` has the first entry of every row, then the second entry of every row, and so
on; `channel cn len i` takes row `i` out of such a list again.
-/

namespace Vsys.Stream

variable {α β : Type*} (d : α)

/-- The entries of the rows, one frame after the other. -/
def interleaved (len : ℕ) (rows : List (List α)) : List α :=
  (List.range len).flatMap fun j ↦ rows.map fun row ↦ row.getD j d

/-- Every `cn`-th entry from `i` on, `len` of them. -/
def channel (cn len i : ℕ) (l : List α) : List α :=
  (List.range len).map fun j ↦ l.getD (j * cn + i) d

@[simp] theorem channel_length (cn len i : ℕ) (l : List α) : (channel d cn len i l).length = len := by
  simp [channel]

@[simp] theorem interleaved_length (len : ℕ) (rows : List (List α)) :
    (interleaved d len rows).length = len * rows.length := by
  simp [interleaved, List.length_flatMap]

/-- An entry of frames of one length. -/
theorem getElem?_flatMap_range {n : ℕ} {f : ℕ → List β} (hf : ∀ j, (f j).length = n) {len j i : ℕ}
    (hj : j < len) (hi : i < n) : ((List.range len).flatMap f)[j * n + i]? = (f j)[i]? := by
  induction len generalizing j f with
  | zero => exact absurd hj (Nat.not_lt_zero j)
  | succ len ih =>
      rw [List.range_succ_eq_map, List.flatMap_cons, List.flatMap_map]
      cases j with
      | zero =>
          rw [Nat.zero_mul, Nat.zero_add, List.getElem?_append_left (by rw [hf]; exact hi)]
      | succ j =>
          have hskip : (j + 1) * n + i - (f 0).length = j * n + i := by
            rw [hf, Nat.succ_mul]
            omega
          rw [List.getElem?_append_right (by rw [hf, Nat.succ_mul]; omega), hskip]
          exact ih (fun j ↦ hf (j + 1)) (Nat.lt_of_succ_lt_succ hj)

theorem getElem?_interleaved {len : ℕ} {rows : List (List α)} {j i : ℕ} (hj : j < len)
    (hi : i < rows.length) :
    (interleaved d len rows)[j * rows.length + i]? = some (rows[i].getD j d) := by
  rw [interleaved, getElem?_flatMap_range (fun _ ↦ List.length_map _) hj hi, List.getElem?_map,
    List.getElem?_eq_getElem hi, Option.map_some]

/-- **Interleaved rows come back.** -/
theorem channels_interleaved {len : ℕ} {rows : List (List α)}
    (hrows : ∀ row ∈ rows, row.length = len) :
    ((List.range rows.length).map fun i ↦
      channel d rows.length len i (interleaved d len rows)) = rows := by
  apply List.ext_getElem
  · simp
  · intro i _ hi
    rw [List.getElem_map, List.getElem_range]
    apply List.ext_getElem
    · rw [channel_length, hrows _ (List.getElem_mem hi)]
    · intro j hj hrow
      rw [channel_length] at hj
      simp only [channel, List.getElem_map, List.getElem_range]
      rw [List.getD_eq_getElem?_getD, getElem?_interleaved d hj hi, Option.getD_some, List.getD_eq_getElem _ _ hrow]

/-- Every entry of a row is an entry of the interleaved rows. -/
theorem mem_interleaved_iff {len : ℕ} {rows : List (List α)}
    (hrows : ∀ row ∈ rows, row.length = len) {a : α} :
    a ∈ interleaved d len rows ↔ ∃ row ∈ rows, a ∈ row := by
  simp only [interleaved, List.mem_flatMap, List.mem_range, List.mem_map]
  constructor
  · rintro ⟨j, hj, row, hrow, rfl⟩
    rw [← hrows row hrow] at hj
    exact ⟨row, hrow, by rw [List.getD_eq_getElem _ _ hj]; exact List.getElem_mem hj⟩
  · rintro ⟨row, hrow, ha⟩
    obtain ⟨j, hj, rfl⟩ := List.mem_iff_getElem.mp ha
    exact ⟨j, hrows row hrow ▸ hj, row, hrow, List.getD_eq_getElem _ _ hj⟩

end Vsys.Stream
