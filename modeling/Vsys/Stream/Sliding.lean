import Mathlib.Algebra.BigOperators.Group.Finset.Basic
import Mathlib.Algebra.BigOperators.Intervals
import Mathlib.Tactic.Ring
import Vsys.Stream.Table

/-!
# Scans with a sliding sum

A scan goes over the indices of a table with a running sum of the last `w` entries: each entry is
added when it is passed and taken off again `w` indices later.  From the first index that has `w`
entries of the scan behind it on, the sum is tested, and the scan ends at the first hit.

`slide_eq_some_iff` and `slide_eq_none_iff` say what a scan returns without the running sum: the
first index at which the test holds of the sum of the `w` entries before it.
-/

namespace Vsys.Stream

open scoped BigOperators

variable {A : Type*} [AddCommGroup A]

/-- The scan of `n` more indices from `i` on, with the sum `acc`; `start` is where it began. -/
def slide (f : ℤ → A) (w start : ℤ) (hit : ℤ → A → Bool) : ℕ → ℤ → A → Option ℤ
  | 0, _, _ => none
  | n + 1, i, acc =>
      if start + w ≤ i then
        if hit i acc then some i
        else slide f w start hit n (i + 1) (acc - f (i - w) + f i)
      else slide f w start hit n (i + 1) (acc + f i)

/-- The sum of the `w` entries before `i`. -/
def windowSum (f : ℤ → A) (w : ℕ) (i : ℤ) : A :=
  ∑ k ∈ Finset.range w, f (i - w + k)

variable {f : ℤ → A} {w : ℕ}

theorem windowSum_succ (f : ℤ → A) (w : ℕ) (i : ℤ) :
    windowSum f w (i + 1) = windowSum f w i - f (i - w) + f i := by
  have hfirst := Finset.sum_range_succ' (fun k : ℕ ↦ f (i - w + k)) w
  have hlast := Finset.sum_range_succ (fun k : ℕ ↦ f (i - w + k)) w
  have hshift : windowSum f w (i + 1) = ∑ k ∈ Finset.range w, f (i - w + (k + 1 : ℕ)) := by
    apply Finset.sum_congr rfl
    intro k _
    congr 1
    omega
  rw [Nat.cast_zero, add_zero] at hfirst
  rw [sub_add_cancel] at hlast
  rw [hshift, windowSum, sub_add_eq_add_sub, ← hlast, hfirst, add_sub_cancel_right]

/-- While the window is filling, the sum has the entries since the start. -/
theorem windowSum_eq_add (f : ℤ → A) (n : ℕ) (start : ℤ) :
    windowSum f (n + 1) (start + n + 1) = windowSum f n (start + n) + f (start + n) := by
  have hstart : ∀ m : ℕ, windowSum f m (start + m) = ∑ k ∈ Finset.range m, f (start + k) := by
    intro m
    rw [windowSum, add_sub_cancel_right]
  have hnext := hstart (n + 1)
  rw [Nat.cast_add_one, ← add_assoc] at hnext
  rw [hnext, hstart n, Finset.sum_range_succ]

/-- The sum over a window of a table that begins with a list. -/
theorem windowSum_eq_sum {l : List A} (h : Tabulates f l) {j : ℕ} (hw : w ≤ j) (hj : j ≤ l.length) :
    windowSum f w j = ((l.drop (j - w)).take w).sum := by
  have hsum : ∀ n a : ℕ, a + n ≤ l.length →
      ∑ k ∈ Finset.range n, f (a + k : ℕ) = ((l.drop a).take n).sum := by
    intro n a hle
    induction n with
    | zero => simp
    | succ n ih =>
        have hlt : a + n < l.length := by omega
        have hnext : (l.drop a)[n]? = some l[a + n] := by
          rw [List.getElem?_drop, List.getElem?_eq_getElem hlt]
        rw [Finset.sum_range_succ, ih (by omega), List.take_add_one, hnext, List.sum_append,
          h.get rfl hlt]
        simp
  rw [← hsum w (j - w) (by omega), windowSum]
  apply Finset.sum_congr rfl
  intro k _
  congr 1
  omega

/-! ## What a scan returns -/

/-- The scan's sum at an index: the entries since the start, at most `w` of them. -/
def scanSum (f : ℤ → A) (w : ℕ) (start : ℤ) (k : ℕ) : A :=
  windowSum f (min w k) (start + k)

theorem scanSum_of_le (f : ℤ → A) (start : ℤ) {k : ℕ} (h : w ≤ k) :
    scanSum f w start k = windowSum f w (start + k) := by
  rw [scanSum, Nat.min_eq_left h]

theorem scanSum_succ_of_lt (f : ℤ → A) (start : ℤ) {k : ℕ} (h : k < w) :
    scanSum f w start (k + 1) = scanSum f w start k + f (start + k) := by
  rw [scanSum, scanSum, Nat.min_eq_right h.le, Nat.min_eq_right (Nat.succ_le_of_lt h), Nat.cast_add_one, ← add_assoc,
    windowSum_eq_add]

theorem scanSum_succ_of_le (f : ℤ → A) (start : ℤ) {k : ℕ} (h : w ≤ k) :
    scanSum f w start (k + 1) =
      scanSum f w start k - f (start + k - w) + f (start + k) := by
  rw [scanSum_of_le f start h, scanSum_of_le f start (Nat.le_add_right_of_le h), Nat.cast_add_one,
    ← add_assoc, windowSum_succ]

/-- A scan that is at its `k`-th index with the right sum returns the first hit from there. -/
theorem slide_eq_find (f : ℤ → A) (w : ℕ) (start : ℤ) (hit : ℤ → A → Bool) (n k : ℕ) :
    slide f w start hit n (start + k) (scanSum f w start k) =
      ((List.range' k n).find? fun j ↦
        decide (w ≤ j) && hit (start + j) (windowSum f w (start + j))).map fun j : ℕ ↦ start + (j : ℤ) := by
  induction n generalizing k with
  | zero => rfl
  | succ n ih =>
      have hnext : start + (k : ℤ) + 1 = start + (k + 1 : ℕ) := by
        rw [Nat.cast_add_one, add_assoc]
      rw [slide, List.range'_succ, List.find?_cons, hnext]
      by_cases hw : w ≤ k
      · have hle : start + (w : ℤ) ≤ start + k := by omega
        rw [if_pos hle, ← scanSum_succ_of_le f start hw, scanSum_of_le f start hw, ih]
        simp only [hw, decide_true, Bool.true_and]
        cases hit (start + k) (windowSum f w (start + k)) with
        | true => rfl
        | false => rfl
      · have hlt : ¬ start + (w : ℤ) ≤ start + k := by omega
        rw [if_neg hlt, ← scanSum_succ_of_lt f start (Nat.lt_of_not_le hw), ih]
        simp only [hw, decide_false, Bool.false_and]

/-- **The scan.**  From its start, a scan of `n` indices returns the first that has a full window
behind it and passes the test. -/
theorem slide_start (f : ℤ → A) (w : ℕ) (start : ℤ) (hit : ℤ → A → Bool) (n : ℕ) :
    slide f w start hit n start 0 =
      ((List.range n).find? fun j ↦
        decide (w ≤ j) && hit (start + j) (windowSum f w (start + j))).map fun j : ℕ ↦ start + (j : ℤ) := by
  have h := slide_eq_find f w start hit n 0
  rw [Nat.cast_zero, add_zero] at h
  rw [List.range_eq_range', ← h]
  simp [scanSum, windowSum]

/-- A scan returns one of its indices. -/
theorem slide_lt {f : ℤ → A} {w start : ℤ} {hit : ℤ → A → Bool} {n : ℕ} {i j : ℤ} {acc : A}
    (h : slide f w start hit n i acc = some j) : j < i + n := by
  induction n generalizing i acc with
  | zero => exact absurd h.symm (Option.some_ne_none j)
  | succ n ih =>
      rw [slide] at h
      split_ifs at h with hfull hhit
      · have heq := Option.some.inj h
        omega
      · have hlt := ih h
        omega
      · have hlt := ih h
        omega

/-! ## The turns of a scan -/

/-- The turns of a scan, up to its first hit: the index of each, and the sum that it finds. -/
def slideTurns (f : ℤ → A) (w start : ℤ) (hit : ℤ → A → Bool) : ℕ → ℤ → A → List (ℤ × A)
  | 0, _, _ => []
  | n + 1, i, acc =>
      (i, acc) ::
        if start + w ≤ i then
          if hit i acc then []
          else slideTurns f w start hit n (i + 1) (acc - f (i - w) + f i)
        else slideTurns f w start hit n (i + 1) (acc + f i)

/-- The first of some indices, or one behind it. -/
theorem exists_first_or_later {p q : ℕ → Prop} {n k : ℕ} :
    (∃ j, k ≤ j ∧ j < k + (n + 1) ∧ p j ∧ ∀ t, k ≤ t → t < j → q t) ↔
      p k ∨ q k ∧ ∃ j, k + 1 ≤ j ∧ j < k + 1 + n ∧ p j ∧ ∀ t, k + 1 ≤ t → t < j → q t := by
  constructor
  · rintro ⟨j, hk, hj, hp, hbefore⟩
    obtain rfl | hlt := hk.eq_or_lt
    · exact .inl hp
    · exact .inr ⟨hbefore k le_rfl hlt, j, hlt, by omega, hp, fun t ht ↦ hbefore t (by omega)⟩
  · rintro (hp | ⟨hq, j, hk, hj, hp, hbefore⟩)
    · exact ⟨k, le_rfl, by omega, hp, fun t ht htk ↦ by omega⟩
    · refine ⟨j, by omega, by omega, hp, fun t ht htj ↦ ?_⟩
      obtain rfl | hlt := ht.eq_or_lt
      · exact hq
      · exact hbefore t hlt htj

theorem mem_slideTurns_from_iff (f : ℤ → A) (w : ℕ) (start : ℤ) (hit : ℤ → A → Bool) (n k : ℕ)
    (turn : ℤ × A) :
    turn ∈ slideTurns f w start hit n (start + k) (scanSum f w start k) ↔
      ∃ j : ℕ, k ≤ j ∧ j < k + n ∧ turn = (start + (j : ℤ), scanSum f w start j) ∧
        ∀ t : ℕ, k ≤ t → t < j → w ≤ t → hit (start + t) (windowSum f w (start + t)) = false := by
  induction n generalizing k with
  | zero =>
      constructor
      · exact fun h ↦ absurd h List.not_mem_nil
      · rintro ⟨j, hk, hj, -⟩
        omega
  | succ n ih =>
      have hnext : start + (k : ℤ) + 1 = start + (k + 1 : ℕ) := by
        rw [Nat.cast_add_one, add_assoc]
      rw [slideTurns, List.mem_cons, exists_first_or_later, hnext]
      apply or_congr_right
      by_cases hw : w ≤ k
      · have hle : start + (w : ℤ) ≤ start + k := by omega
        rw [if_pos hle, ← scanSum_succ_of_le f start hw, scanSum_of_le f start hw]
        cases hhere : hit (start + k) (windowSum f w (start + k)) with
        | true => simp [hw]
        | false => simpa using ih (k + 1)
      · have hlt : ¬ start + (w : ℤ) ≤ start + k := by omega
        rw [if_neg hlt, ← scanSum_succ_of_lt f start (Nat.lt_of_not_le hw)]
        simpa [hw] using ih (k + 1)

/-- **The turns.** A scan comes to an index if nothing before it is a hit. -/
theorem mem_slideTurns_iff (f : ℤ → A) (w : ℕ) (start : ℤ) (hit : ℤ → A → Bool) (n : ℕ)
    (turn : ℤ × A) :
    turn ∈ slideTurns f w start hit n start 0 ↔
      ∃ j : ℕ, j < n ∧ turn = (start + (j : ℤ), scanSum f w start j) ∧
        ∀ t < j, w ≤ t → hit (start + t) (windowSum f w (start + t)) = false := by
  have h := mem_slideTurns_from_iff f w start hit n 0 turn
  have hzero : scanSum f w start 0 = 0 := by simp [scanSum, windowSum]
  rw [hzero, Nat.cast_zero, add_zero, Nat.zero_add] at h
  rw [h]
  simp only [Nat.zero_le, true_and, forall_const]

/-! ## First hits -/

/-- A search that begins where the first hit can be. -/
theorem find?_range_shift {p : ℕ → Bool} {a : ℕ} (h : ∀ t < a, p t = false) (n : ℕ) :
    (List.range n).find? p = ((List.range (n - a)).find? fun j ↦ p (a + j)).map fun j ↦ a + j := by
  have hbefore : ∀ m, m ≤ a → (List.range m).find? p = none := by
    intro m hm
    rw [List.find?_range_eq_none]
    intro t ht
    rw [h t (ht.trans_le hm)]
    rfl
  by_cases hle : a ≤ n
  · obtain ⟨k, rfl⟩ := Nat.exists_eq_add_of_le hle
    rw [Nat.add_sub_cancel_left, List.range_add, List.find?_append, hbefore a le_rfl,
      List.find?_map]
    rfl
  · rw [hbefore n (Nat.le_of_not_le hle), Nat.sub_eq_zero_of_le (Nat.le_of_not_le hle)]
    rfl

end Vsys.Stream
