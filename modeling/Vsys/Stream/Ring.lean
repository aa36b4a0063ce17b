import Mathlib.Data.List.Basic
import Mathlib.Logic.Function.Basic

/-!
# Rings that hold the end of a stream

A ring of `cap` cells is written at `pos`, and `pos` goes round.  `Holds` relates it to the stream
written so far: the cell `d` places before `pos` is the `d`-th last entry.  `Holds.append` is the
rule for a write of several cells and `Holds.push` for a write of one; `Holds.read` says what a
read of the cells between two distances gives.
-/

namespace Vsys.Stream

variable {α : Type*}

/-- The cell `d` places before `pos` in a ring of `cap` cells. -/
def back (cap pos d : ℕ) : ℕ := if d ≤ pos then pos - d else pos + cap - d

/-- The cell `n` places after `pos`. -/
def ahead (cap pos n : ℕ) : ℕ := if pos + n < cap then pos + n else pos + n - cap

/-- The entries at the distances `start`, …, `stop + 1` from the end. -/
def tailSlice (l : List α) (start stop : ℕ) : List α :=
  (l.drop (l.length - start)).take (start - stop)

/-- The ring holds the end of the list. -/
def Holds (cap pos : ℕ) (cells : ℕ → α) (l : List α) : Prop :=
  ∀ d, 1 ≤ d → d ≤ cap → d ≤ l.length → l[l.length - d]? = some (cells (back cap pos d))

variable {cap pos : ℕ} {cells cells' : ℕ → α} {l more : List α}

theorem ahead_lt {n : ℕ} (hpos : pos < cap) (hn : n ≤ cap) : ahead cap pos n < cap := by
  rw [ahead]
  split_ifs <;> omega

/-- The cells before `pos` are the cells before a later place, further away. -/
theorem back_ahead {n d : ℕ} (hpos : pos < cap) (hd : n < d) (hcap : d ≤ cap) :
    back cap (ahead cap pos n) d = back cap pos (d - n) := by
  rw [back, back, ahead]
  split_ifs <;> omega

theorem holds_nil (cap pos : ℕ) (cells : ℕ → α) : Holds cap pos cells [] := by
  intro d hd _ hlen
  simp at hlen
  omega

/-- A write of the cells before the new place that leaves the others as they are. -/
theorem Holds.append (h : Holds cap pos cells l) (hpos : pos < cap)
    (hnew : ∀ d, 1 ≤ d → d ≤ more.length →
      more[more.length - d]? = some (cells' (back cap (ahead cap pos more.length) d)))
    (hold : ∀ d, more.length < d → d ≤ cap →
      cells' (back cap (ahead cap pos more.length) d) =
        cells (back cap (ahead cap pos more.length) d)) :
    Holds cap (ahead cap pos more.length) cells' (l ++ more) := by
  intro d hd hcap hlen
  rw [List.length_append] at hlen ⊢
  by_cases hmore : d ≤ more.length
  · have hindex : l.length + more.length - d = l.length + (more.length - d) := by omega
    rw [hindex, List.getElem?_append_right (Nat.le_add_right _ _), Nat.add_sub_cancel_left]
    exact hnew d hd hmore
  · have hindex : l.length + more.length - d = l.length - (d - more.length) := by omega
    rw [hindex, List.getElem?_append_left (by omega), hold d (by omega) hcap,
      back_ahead hpos (by omega) hcap]
    exact h (d - more.length) (by omega) (by omega) (by omega)

theorem Holds.push (h : Holds cap pos cells l) (hpos : pos < cap) (x : α) :
    Holds cap (ahead cap pos 1) (Function.update cells pos x) (l ++ [x]) := by
  refine h.append hpos (fun d hd hlen ↦ ?_) fun d hd hcap ↦ ?_
  · obtain rfl : d = 1 := Nat.le_antisymm hlen hd
    have hback : back cap (ahead cap pos 1) 1 = pos := by
      rw [back, ahead]
      split_ifs <;> omega
    simp [hback]
  · have hback : back cap (ahead cap pos 1) d ≠ pos := by
      rw [back, ahead]
      simp only [List.length_singleton] at hd
      split_ifs <;> omega
    exact Function.update_of_ne hback x cells

/-- Every ring holds what was written over all its cells at once. -/
theorem holds_of_whole (hlen : l.length = cap)
    (h : ∀ k, k < cap → l[k]? = some (cells k)) : Holds cap 0 cells l := by
  intro d hd hcap _
  have hback : back cap 0 d = l.length - d := by
    rw [back, if_neg (by omega)]
    omega
  rw [hback]
  exact h _ (by omega)

/-- Entries near the end do not depend on the beginning. -/
theorem holds_append_left (front : List α) (h : Holds cap pos cells l) (hlen : cap ≤ l.length) :
    Holds cap pos cells (front ++ l) := by
  intro d hd hcap _
  have hindex : (front ++ l).length - d = front.length + (l.length - d) := by
    rw [List.length_append]
    omega
  rw [hindex, List.getElem?_append_right (Nat.le_add_right _ _), Nat.add_sub_cancel_left]
  exact h d hd hcap (Nat.le_trans hcap hlen)

/-- What stands in the cells between two distances. -/
theorem Holds.read (h : Holds cap pos cells l) {start stop : ℕ} (hcap : start ≤ cap)
    (hlen : start ≤ l.length) :
    (List.range (start - stop)).map (fun k ↦ cells (back cap pos (start - k))) =
      tailSlice l start stop := by
  apply List.ext_getElem?
  intro k
  rw [List.getElem?_map, tailSlice, List.getElem?_take]
  by_cases hk : k < start - stop
  · have hindex : l.length - start + k = l.length - (start - k) := by omega
    rw [List.getElem?_range hk, if_pos hk, List.getElem?_drop, hindex,
      h (start - k) (by omega) (by omega) (by omega)]
    rfl
  · rw [if_neg hk, List.getElem?_eq_none (by simpa using hk)]
    rfl

theorem tailSlice_append_right (front : List α) {start : ℕ} (hlen : start ≤ l.length) (stop : ℕ) :
    tailSlice (front ++ l) start stop = tailSlice l start stop := by
  have hdrop : (front ++ l).length - start = front.length + (l.length - start) := by
    rw [List.length_append]
    omega
  rw [tailSlice, hdrop, ← List.drop_drop, List.drop_left, ← tailSlice]

end Vsys.Stream
