import Mathlib.Algebra.Order.Group.Defs
import Mathlib.Data.List.Forall2
import Mathlib.Data.List.Induction

/-!
# Cheapest chains

Each layer of a trellis has candidates with a cost, and an edge between candidates of neighbouring
layers has one.  A column keeps for each candidate of its layer the cost of the cheapest chain that
ends there, and the candidate before it in that chain.

Tracing back from the cheapest candidate of the last layer gives a cheapest chain.  Where the chains
of all candidates meet, what is behind is settled for every later layer.

Layers, columns and chains stand with the newest first.
-/

namespace Vsys.Align

variable {α K : Type*}

/-- How many candidates a layer has, and what candidates and edges cost; the edge goes from a
candidate of the layer before. -/
structure Trellis (α K : Type*) where
  width : α → ℕ
  node : α → ℕ → K
  edge : α → α → ℕ → ℕ → K

/-- What is kept of a layer. -/
structure Column (α K : Type*) where
  layer : α
  total : ℕ → K
  back : ℕ → ℕ

/-! ## Tracing back -/

/-- The chain of a candidate. -/
def traceback : List (Column α K) → ℕ → List ℕ
  | [], _ => []
  | c :: cs, k => k :: traceback cs (c.back k)

/-- The candidate of the next layer behind these columns. -/
def ancestor : List (Column α K) → ℕ → ℕ
  | [], k => k
  | c :: cs, k => ancestor cs (c.back k)

/-- Goes back until all candidates have the same ancestor. -/
def meet : List ℕ → List (Column α K) → Option (List (Column α K) × ℕ)
  | _, [] => none
  | ks, c :: cs =>
      if ks.all (· == ks.headD 0) then some (c :: cs, ks.headD 0) else meet (ks.map c.back) cs

@[simp]
theorem length_traceback (cs : List (Column α K)) (k : ℕ) :
    (traceback cs k).length = cs.length := by
  induction cs generalizing k with
  | nil => rfl
  | cons c cs ih => exact congrArg (· + 1) (ih _)

theorem traceback_append (first cs : List (Column α K)) (k : ℕ) :
    traceback (first ++ cs) k = traceback first k ++ traceback cs (ancestor first k) := by
  induction first generalizing k with
  | nil => rfl
  | cons c first ih => exact congrArg (k :: ·) (ih _)

/-- Where the chains meet. -/
theorem meet_eq_some {ks : List ℕ} {cs rest : List (Column α K)} {j : ℕ}
    (h : meet ks cs = some (rest, j)) :
    rest ≠ [] ∧ ∃ first, cs = first ++ rest ∧ ∀ k ∈ ks, ancestor first k = j := by
  induction cs generalizing ks with
  | nil => exact absurd h (Option.some_ne_none _).symm
  | cons c cs ih =>
      rw [meet] at h
      split_ifs at h with hall
      · obtain ⟨rfl, rfl⟩ := Prod.mk.inj (Option.some.inj h)
        refine ⟨List.cons_ne_nil _ _, [], rfl, fun k hk ↦ ?_⟩
        exact beq_iff_eq.mp (List.all_eq_true.mp hall k hk)
      · obtain ⟨hne, first, rfl, hfirst⟩ := ih h
        exact ⟨hne, c :: first, rfl, fun k hk ↦ hfirst _ (List.mem_map_of_mem hk)⟩

/-! ## Costs -/

namespace Trellis

variable [AddCommGroup K] (T : Trellis α K)

/-- A candidate of each layer. -/
def IsChain (layers : List α) (ks : List ℕ) : Prop :=
  List.Forall₂ (fun l k ↦ k < T.width l) layers ks

/-- What a chain costs. -/
def cost : List α → List ℕ → K
  | l :: l' :: ls, k :: j :: ks => T.edge l' l j k + cost (l' :: ls) (j :: ks) + T.node l k
  | l :: _, k :: _ => T.node l k
  | _, _ => 0

variable [LinearOrder K]

/-- The column goes on with the cheapest candidates of the column before. -/
structure Extends (c c' : Column α K) : Prop where
  back_lt : ∀ k < T.width c.layer, c.back k < T.width c'.layer
  total_eq : ∀ k < T.width c.layer,
    c.total k = T.edge c'.layer c.layer (c.back k) k + c'.total (c.back k) + T.node c.layer k
  least : ∀ k < T.width c.layer, ∀ j < T.width c'.layer,
    T.edge c'.layer c.layer (c.back k) k + c'.total (c.back k) ≤
      T.edge c'.layer c.layer j k + c'.total j

/-- All columns do. -/
def Solved : List (Column α K) → Prop
  | [] => True
  | [c] => ∀ k < T.width c.layer, c.total k = T.node c.layer k
  | c :: c' :: cs => T.Extends c c' ∧ Solved (c' :: cs)

variable {T} {c : Column α K} {cs : List (Column α K)} {k : ℕ}

theorem Solved.isChain (h : T.Solved (c :: cs)) (hk : k < T.width c.layer) :
    T.IsChain ((c :: cs).map Column.layer) (traceback (c :: cs) k) := by
  induction cs generalizing c k with
  | nil => exact .cons hk .nil
  | cons c' cs ih => exact .cons hk (ih h.2 (h.1.back_lt k hk))

theorem Solved.of_append {first : List (Column α K)} (h : T.Solved (first ++ cs)) :
    T.Solved cs := by
  induction first with
  | nil => exact h
  | cons b first ih =>
      apply ih
      rw [List.cons_append] at h
      cases hrest : first ++ cs with
      | nil => trivial
      | cons b' rest =>
          rw [hrest] at h
          exact h.2

/-- Each candidate has an ancestor in every layer. -/
theorem Solved.ancestor_lt {first : List (Column α K)} (h : T.Solved (first ++ c :: cs))
    (hk : ∀ b ∈ (first ++ c :: cs).head?, k < T.width b.layer) :
    ancestor first k < T.width c.layer := by
  induction first generalizing k with
  | nil => exact hk c rfl
  | cons b first ih =>
      have hb : k < T.width b.layer := hk b rfl
      rw [List.cons_append] at h
      cases hrest : first ++ c :: cs with
      | nil => exact absurd hrest (List.append_ne_nil_of_right_ne_nil first (List.cons_ne_nil _ _))
      | cons b' rest =>
          rw [hrest] at h ih
          refine ih h.2 fun b'' hb'' ↦ ?_
          obtain rfl := Option.some.inj hb''
          exact h.1.back_lt k hb

/-- Some layers of a chain. -/
theorem Solved.isChain_part {later : List (Column α K)} (h : T.Solved (c :: cs ++ later))
    (hk : k < T.width c.layer) :
    T.IsChain ((c :: cs).map Column.layer) (traceback (c :: cs) k) := by
  have hwhole : T.IsChain ((c :: cs ++ later).map Column.layer) (traceback (c :: cs ++ later) k) :=
    Solved.isChain h hk
  have hall := List.forall₂_take (c :: cs).length hwhole
  rw [List.map_append, traceback_append, List.take_left' (by rw [List.length_map]),
    List.take_left' (length_traceback _ _)] at hall
  exact hall

/-- The chain of a candidate costs what its column says. -/
theorem Solved.cost_traceback (h : T.Solved (c :: cs)) (hk : k < T.width c.layer) :
    T.cost ((c :: cs).map Column.layer) (traceback (c :: cs) k) = c.total k := by
  induction cs generalizing c k with
  | nil => exact (h k hk).symm
  | cons c' cs ih =>
      have hrest := ih h.2 (h.1.back_lt k hk)
      rw [h.1.total_eq k hk, ← hrest]
      rfl

/-- No chain to the candidate costs less. -/
theorem Solved.total_le [IsOrderedAddMonoid K] (h : T.Solved (c :: cs)) {ks : List ℕ}
    (hks : T.IsChain ((c :: cs).map Column.layer) (k :: ks)) :
    c.total k ≤ T.cost ((c :: cs).map Column.layer) (k :: ks) := by
  induction cs generalizing c k ks with
  | nil =>
      obtain ⟨hk, hrest⟩ := List.forall₂_cons.mp hks
      obtain rfl := List.forall₂_nil_left_iff.mp hrest
      exact le_of_eq (h k hk)
  | cons c' cs ih =>
      obtain ⟨hk, hrest⟩ := List.forall₂_cons.mp hks
      cases ks with
      | nil => exact nomatch hrest
      | cons j ks =>
          have hj : j < T.width c'.layer := (List.forall₂_cons.mp hrest).1
          have hbefore := ih h.2 hrest
          calc
            c.total k = T.edge c'.layer c.layer (c.back k) k + c'.total (c.back k) +
                T.node c.layer k := h.1.total_eq k hk
            _ ≤ T.edge c'.layer c.layer j k + c'.total j + T.node c.layer k :=
              add_le_add_left (h.1.least k hk j hj) _
            _ ≤ T.edge c'.layer c.layer j k + T.cost ((c' :: cs).map Column.layer) (j :: ks) +
                T.node c.layer k := add_le_add_left (add_le_add_right hbefore _) _
            _ = T.cost ((c :: c' :: cs).map Column.layer) (k :: j :: ks) := rfl

/-- **Tracing back from a cheapest candidate gives a cheapest chain.** -/
theorem Solved.cost_traceback_le [IsOrderedAddMonoid K] (h : T.Solved (c :: cs))
    (hk : k < T.width c.layer) (hbest : ∀ j < T.width c.layer, c.total k ≤ c.total j)
    {ks : List ℕ} (hks : T.IsChain ((c :: cs).map Column.layer) ks) :
    T.cost ((c :: cs).map Column.layer) (traceback (c :: cs) k) ≤
      T.cost ((c :: cs).map Column.layer) ks := by
  rw [h.cost_traceback hk]
  cases ks with
  | nil => exact nomatch hks
  | cons j ks => exact (hbest j (List.forall₂_cons.mp hks).1).trans (h.total_le hks)

end Trellis

/-! ## The first of the smallest -/

section Least

variable [LinearOrder K]

/-- The value that a loop keeps that takes over every smaller one, with its index. -/
def firstLeast (l : List K) : Option (K × ℕ) :=
  l.zipIdx.foldl (fun best e ↦
    match best with
    | none => some e
    | some b => if e.1 < b.1 then some e else some b) none

theorem firstLeast_concat (l : List K) (v : K) :
    firstLeast (l ++ [v]) =
      match firstLeast l with
      | none => some (v, l.length)
      | some b => if v < b.1 then some (v, l.length) else some b := by
  rw [firstLeast, List.zipIdx_append, List.foldl_append, firstLeast]
  simp only [List.zipIdx_singleton, Nat.zero_add, List.foldl_cons, List.foldl_nil]

theorem firstLeast_spec {l : List K} (hne : l ≠ []) :
    ∃ v i, firstLeast l = some (v, i) ∧ l[i]? = some v ∧ ∀ u ∈ l, v ≤ u := by
  induction l using List.reverseRecOn with
  | nil => exact absurd rfl hne
  | append_singleton l u ih =>
      rw [firstLeast_concat]
      by_cases hl : l = []
      · rw [hl]
        refine ⟨u, 0, rfl, rfl, fun x hx ↦ ?_⟩
        exact le_of_eq (List.mem_singleton.mp hx).symm
      · obtain ⟨v, i, hleast, hi, hv⟩ := ih hl
        obtain ⟨hlt, -⟩ := List.getElem?_eq_some_iff.mp hi
        rw [hleast]
        dsimp only
        split_ifs with hless
        · refine ⟨u, l.length, rfl, List.getElem?_concat_length, fun x hx ↦ ?_⟩
          rcases List.mem_append.mp hx with hx | hx
          · exact hless.le.trans (hv x hx)
          · exact le_of_eq (List.mem_singleton.mp hx).symm
        · refine ⟨v, i, rfl, by rw [List.getElem?_append_left hlt, hi], fun x hx ↦ ?_⟩
          rcases List.mem_append.mp hx with hx | hx
          · exact hv x hx
          · rw [List.mem_singleton.mp hx]
            exact not_lt.mp hless

end Least

end Vsys.Align
