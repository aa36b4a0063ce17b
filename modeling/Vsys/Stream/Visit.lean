import Mathlib.Data.List.Pairwise
import Mathlib.Data.List.Range

/-!
# Loops with a break

A loop over a list that may be left visits the entries up to the first at which it is left.  What a
loop assigns is what it assigns last, and a check that each turn makes holds throughout if it holds
in every turn.
-/

namespace Vsys.Stream

variable {ι σ α : Type*}

/-! ## The entries that are visited -/

/-- The entries up to the first that stops, itself included. -/
def upTo (stop : ι → Prop) [DecidablePred stop] : List ι → List ι
  | [] => []
  | i :: rest => if stop i then [i] else i :: upTo stop rest

section UpTo

variable (stop : ι → Prop) [DecidablePred stop]

variable {stop}

theorem upTo_cons_of_pos {i : ι} {rest : List ι} (hi : stop i) : upTo stop (i :: rest) = [i] :=
  if_pos hi

theorem upTo_cons_of_neg {i : ι} {rest : List ι} (hi : ¬ stop i) :
    upTo stop (i :: rest) = i :: upTo stop rest :=
  if_neg hi

theorem upTo_sublist (l : List ι) : (upTo stop l).Sublist l := by
  induction l with
  | nil => exact List.Sublist.refl _
  | cons i rest ih =>
      rw [upTo]
      split_ifs
      · exact (List.nil_sublist rest).cons_cons i
      · exact ih.cons_cons i

/-- In an ordered list: an entry is visited if none before stops. -/
theorem mem_upTo_iff {r : ι → ι → Prop} {l : List ι} (hl : l.Pairwise r)
    (hirrefl : ∀ i, ¬ r i i) (hasymm : ∀ i j, r i j → ¬ r j i) {k : ι} :
    k ∈ upTo stop l ↔ k ∈ l ∧ ∀ j ∈ l, r j k → ¬ stop j := by
  induction l with
  | nil => simp [upTo]
  | cons i rest ih =>
      obtain ⟨hfirst, hrest⟩ := List.pairwise_cons.1 hl
      have hhead : ∀ j ∈ i :: rest, ¬ r j i := by
        intro j hj
        rcases List.mem_cons.1 hj with rfl | hj
        · exact hirrefl j
        · exact fun h ↦ hasymm i j (hfirst j hj) h
      by_cases hstop : stop i
      · rw [upTo_cons_of_pos hstop, List.mem_singleton]
        constructor
        · rintro rfl
          exact ⟨List.mem_cons_self, fun j hj hbefore ↦ absurd hbefore (hhead j hj)⟩
        · rintro ⟨hk, hnone⟩
          rcases List.mem_cons.1 hk with rfl | hk
          · rfl
          · exact absurd hstop (hnone i List.mem_cons_self (hfirst k hk))
      · rw [upTo_cons_of_neg hstop, List.mem_cons, List.mem_cons, ih hrest, List.forall_mem_cons]
        constructor
        · rintro (rfl | ⟨hk, hnone⟩)
          · refine ⟨.inl rfl, fun h ↦ absurd h (hirrefl k), fun j hj hbefore ↦ ?_⟩
            exact absurd hbefore (hasymm k j (hfirst j hj))
          · exact ⟨.inr hk, fun _ ↦ hstop, hnone⟩
        · rintro ⟨rfl | hk, -, hnone⟩
          · exact .inl rfl
          · exact .inr ⟨hk, hnone⟩

end UpTo

/-! ## Counting down -/

/-- The numbers from `n` down to 1. -/
def down : ℕ → List ℕ
  | 0 => []
  | n + 1 => (n + 1) :: down n

theorem mem_down_iff {n k : ℕ} : k ∈ down n ↔ 1 ≤ k ∧ k ≤ n := by
  induction n with
  | zero =>
      rw [down]
      simp only [List.not_mem_nil, false_iff]
      omega
  | succ n ih =>
      rw [down, List.mem_cons, ih]
      omega

theorem down_pairwise (n : ℕ) : (down n).Pairwise (· > ·) := by
  induction n with
  | zero => exact List.Pairwise.nil
  | succ n ih =>
      refine List.pairwise_cons.2 ⟨fun k hk ↦ ?_, ih⟩
      exact Nat.lt_succ_of_le (mem_down_iff.1 hk).2

theorem mem_upTo_down_iff {stop : ℕ → Prop} [DecidablePred stop] {n k : ℕ} :
    k ∈ upTo stop (down n) ↔ (1 ≤ k ∧ k ≤ n) ∧ ∀ j, k < j → j ≤ n → ¬ stop j := by
  rw [mem_upTo_iff (down_pairwise n) (fun i ↦ lt_irrefl i) (fun i j h ↦ lt_asymm h), mem_down_iff]
  apply and_congr_right
  intro hk
  constructor
  · exact fun h j hkj hjn ↦ h j (mem_down_iff.2 ⟨hk.1.trans hkj.le, hjn⟩) hkj
  · exact fun h j hj hkj ↦ h j hkj (mem_down_iff.1 hj).2

/-! ## What a loop assigns -/

/-- The last assignment stays. -/
theorem foldl_assign {step : σ → ι → σ} (get : σ → α) {assigns : ι → Prop} {value : ι → α}
    (hassign : ∀ s i, assigns i → get (step s i) = value i)
    (hkeep : ∀ s i, ¬ assigns i → get (step s i) = get s) (l : List ι) (s : σ) :
    (∃ before i after, l = before ++ i :: after ∧ assigns i ∧ (∀ j ∈ after, ¬ assigns j) ∧
        get (l.foldl step s) = value i) ∨
      (∀ i ∈ l, ¬ assigns i) ∧ get (l.foldl step s) = get s := by
  induction l using List.reverseRecOn with
  | nil => exact .inr ⟨List.forall_mem_nil _, rfl⟩
  | append_singleton l i ih =>
      rw [List.foldl_append, List.foldl_cons, List.foldl_nil]
      by_cases hi : assigns i
      · refine .inl ⟨l, i, [], rfl, hi, List.forall_mem_nil _, hassign _ i hi⟩
      · rw [hkeep _ i hi]
        rcases ih with ⟨before, k, after, rfl, hk, hafter, hget⟩ | ⟨hnone, hget⟩
        · refine .inl ⟨before, k, after ++ [i], by simp, hk, fun j hj ↦ ?_, hget⟩
          rcases List.mem_append.1 hj with hj | hj
          · exact hafter j hj
          · rwa [List.mem_singleton.1 hj]
        · refine .inr ⟨fun j hj ↦ ?_, hget⟩
          rcases List.mem_append.1 hj with hj | hj
          · exact hnone j hj
          · rwa [List.mem_singleton.1 hj]

/-- In an ordered list: the last assignment is that of an entry behind which none assigns. -/
theorem foldl_assign_of_pairwise {step : σ → ι → σ} (get : σ → α) {assigns : ι → Prop}
    {value : ι → α} (hassign : ∀ s i, assigns i → get (step s i) = value i)
    (hkeep : ∀ s i, ¬ assigns i → get (step s i) = get s) {r : ι → ι → Prop} {l : List ι}
    (hl : l.Pairwise r) (hirrefl : ∀ i, ¬ r i i) (hasymm : ∀ i j, r i j → ¬ r j i) (s : σ) :
    (∃ i ∈ l, assigns i ∧ (∀ j ∈ l, r i j → ¬ assigns j) ∧ get (l.foldl step s) = value i) ∨
      (∀ i ∈ l, ¬ assigns i) ∧ get (l.foldl step s) = get s := by
  rcases foldl_assign get hassign hkeep l s with ⟨before, i, after, rfl, hi, hafter, hget⟩ | hnone
  · refine .inl ⟨i, by simp, hi, fun j hj hbehind ↦ ?_, hget⟩
    rcases List.mem_append.1 hj with hj | hj
    · have hbefore : r j i := (List.pairwise_append.1 hl).2.2 j hj i List.mem_cons_self
      exact absurd hbehind (hasymm j i hbefore)
    · rcases List.mem_cons.1 hj with rfl | hj
      · exact absurd hbehind (hirrefl j)
      · exact hafter j hj
  · exact .inr hnone

/-- What no turn changes is kept. -/
theorem foldl_keep {step : σ → ι → σ} (get : σ → α) (hkeep : ∀ s i, get (step s i) = get s)
    (l : List ι) (s : σ) : get (l.foldl step s) = get s := by
  induction l generalizing s with
  | nil => rfl
  | cons i rest ih => rw [List.foldl_cons, ih, hkeep]

/-- What a turn cannot make right. -/
theorem foldl_of_ok {step : σ → ι → σ} {ok : σ → Prop} {l : List ι}
    (hstep : ∀ s, ∀ i ∈ l, ok (step s i) → ok s) {s : σ} (h : ok (l.foldl step s)) : ok s := by
  induction l generalizing s with
  | nil => exact h
  | cons i rest ih =>
      apply hstep s i List.mem_cons_self
      exact ih (fun s i hi ↦ hstep s i (List.mem_cons_of_mem _ hi)) h

/-- A check of every turn. -/
theorem foldl_check {step : σ → ι → σ} (ok : σ → Prop) (check : ι → Prop) {l : List ι}
    (hstep : ∀ s, ∀ i ∈ l, ok (step s i) ↔ ok s ∧ check i) (s : σ) :
    ok (l.foldl step s) ↔ ok s ∧ ∀ i ∈ l, check i := by
  induction l generalizing s with
  | nil => simp
  | cons i rest ih =>
      have hrest : ∀ s, ∀ i ∈ rest, ok (step s i) ↔ ok s ∧ check i :=
        fun s i hi ↦ hstep s i (List.mem_cons_of_mem _ hi)
      rw [List.foldl_cons, ih hrest, hstep s i List.mem_cons_self, List.forall_mem_cons, and_assoc]

end Vsys.Stream
