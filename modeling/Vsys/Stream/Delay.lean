import Mathlib.Data.List.Basic

/-!
# Filters and delayed results

A filter with a state takes the items of a stream one by one and gives one for each (`filtered`).  A
result about an item that needs `d` later items is ready when these have come.  `delayed d f` lists
the results of a stream that are ready, each as it was when it became so.
-/

namespace Vsys.Stream

variable {S α β : Type*}

/-! ## Filters -/

/-- The state of a filter after the items, and what it gives for them. -/
def filtered (f : S → α → S × β) : S → List α → S × List β
  | s, [] => (s, [])
  | s, a :: l => ((filtered f (f s a).1 l).1, (f s a).2 :: (filtered f (f s a).1 l).2)

@[simp]
theorem length_filtered (f : S → α → S × β) (s : S) (l : List α) :
    (filtered f s l).2.length = l.length := by
  induction l generalizing s with
  | nil => rfl
  | cons a l ih => rw [filtered, List.length_cons, ih, List.length_cons]

theorem filtered_concat (f : S → α → S × β) (s : S) (l : List α) (a : α) :
    filtered f s (l ++ [a]) =
      ((f (filtered f s l).1 a).1, (filtered f s l).2 ++ [(f (filtered f s l).1 a).2]) := by
  induction l generalizing s with
  | nil => rfl
  | cons b l ih => rw [List.cons_append, filtered, ih, filtered, List.cons_append]

/-! ## Delayed results -/

/-- The results that are ready: that of item `i` when `d` more items had come. -/
def delayed (d : ℕ) (f : List α → ℕ → β) (l : List α) : List β :=
  (List.range (l.length - d)).map fun i ↦ f (l.take (i + d + 1)) i

variable {d : ℕ} {f : List α → ℕ → β} {l : List α}

@[simp]
theorem length_delayed (d : ℕ) (f : List α → ℕ → β) (l : List α) :
    (delayed d f l).length = l.length - d := by
  rw [delayed, List.length_map, List.length_range]

theorem delayed_getElem? {i : ℕ} (h : i + d < l.length) :
    (delayed d f l)[i]? = some (f (l.take (i + d + 1)) i) := by
  have hi : i < l.length - d := by omega
  rw [delayed, List.getElem?_map, List.getElem?_range hi]
  rfl

/-- One more item: the results that become ready are appended. -/
theorem delayed_concat (d : ℕ) (f : List α → ℕ → β) (l : List α) (a : α) :
    delayed d f (l ++ [a]) = delayed d f l ++
      (List.range' (l.length - d) ((l ++ [a]).length - d - (l.length - d))).map (f (l ++ [a])) := by
  have hold : (List.range (l.length - d)).map (fun i ↦ f ((l ++ [a]).take (i + d + 1)) i) =
      delayed d f l := by
    apply List.map_congr_left
    intro i hi
    rw [List.mem_range] at hi
    rw [List.take_append_of_le_length (by omega)]
  rw [delayed, List.length_append, List.length_singleton]
  by_cases hready : d ≤ l.length
  · have hnext : l.length + 1 - d = l.length - d + 1 := by omega
    have hone : l.length - d + 1 - (l.length - d) = 1 := by omega
    have hall : (l ++ [a]).take (l.length - d + d + 1) = l ++ [a] := by
      apply List.take_of_length_le
      rw [List.length_append, List.length_singleton]
      omega
    calc (List.range (l.length + 1 - d)).map (fun i ↦ f ((l ++ [a]).take (i + d + 1)) i)
        = (List.range (l.length - d)).map (fun i ↦ f ((l ++ [a]).take (i + d + 1)) i) ++
            [f ((l ++ [a]).take (l.length - d + d + 1)) (l.length - d)] := by
          rw [hnext, List.range_succ, List.map_append, List.map_singleton]
      _ = delayed d f l ++ [f (l ++ [a]) (l.length - d)] := by rw [hold, hall]
      _ = _ := by
          rw [hnext, hone]
          rfl
  · have hnone : l.length + 1 - d = 0 := by omega
    have hbefore : l.length - d = 0 := by omega
    rw [delayed, hnone, hbefore]
    rfl

end Vsys.Stream
