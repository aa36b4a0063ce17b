import Mathlib.Algebra.BigOperators.Group.List.Basic
import Mathlib.Data.List.Perm.Basic
import Mathlib.Data.List.Range
import Mathlib.Tactic.Ring

/-!
# The table of pools of the memory manager

`a2b_memMgrNormPoolDescriptors` of `a2bstack/src/memmgr.c` sorts the table by block size and joins
the entries of one size, both in place; behind the entries it counts, the table keeps what was left
over.
-/

namespace Vsys.A2bStack

/-- `struct a2b_PoolDescriptor`. -/
structure PoolDescriptor where
  numBlocks : ℕ
  blockSize : ℕ
  deriving DecidableEq

/-- The inner loop of the sort: the entry `j` goes down while the one below it is larger. -/
def sinkDescriptor (items : List PoolDescriptor) : ℕ → List PoolDescriptor
  | 0 => items
  | j + 1 =>
      match items[j]?, items[j + 1]? with
      | some below, some item =>
          if below.blockSize > item.blockSize then
            sinkDescriptor ((items.set (j + 1) below).set j item) j
          else items
      | _, _ => items

def sortDescriptors (items : List PoolDescriptor) : List PoolDescriptor :=
  (List.range' 1 (items.length - 1)).foldl sinkDescriptor items

/-- The variables of the second loop. -/
structure Combining where
  items : List PoolDescriptor
  j : ℕ
  count : ℕ

def combineStep (c : Combining) (i : ℕ) : Combining :=
  match c.items[c.j]?, c.items[i]? with
  | some last, some item =>
      if last.blockSize = item.blockSize then
        { c with
          items := c.items.set c.j
            { last with numBlocks := (last.numBlocks + item.numBlocks) % 2 ^ 32 } }
      else { items := c.items.set (c.j + 1) item, j := c.j + 1, count := c.count + 1 }
  | _, _ => c

/-- `a2b_memMgrNormPoolDescriptors`: the table behind it, and the number of entries that count. -/
def memMgrNormPoolDescriptors (items : List PoolDescriptor) : List PoolDescriptor × ℕ :=
  let start : Combining :=
    { items := sortDescriptors items, j := 0, count := if 0 < items.length then 1 else 0 }
  let done := (List.range' 1 (items.length - 1)).foldl combineStep start
  (done.items, done.count)

/-- `a2b_memMgrGetPoolDescriptors`: the entries that its callers go through. -/
def memMgrGetPoolDescriptors (items : List PoolDescriptor) : List PoolDescriptor :=
  (memMgrNormPoolDescriptors items).1.take (memMgrNormPoolDescriptors items).2

/-- The blocks of one size. -/
def blocksOfSize (items : List PoolDescriptor) (size : ℕ) : ℕ :=
  ((items.filter fun d ↦ d.blockSize = size).map PoolDescriptor.numBlocks).sum

/-! ## Sorting -/

/-- The entry behind a sorted front goes to its place. -/
theorem sinkDescriptor_sorted (front : List PoolDescriptor) (item : PoolDescriptor)
    (rest : List PoolDescriptor)
    (hfront : front.Pairwise fun d e ↦ d.blockSize ≤ e.blockSize) :
    ∃ front', sinkDescriptor (front ++ item :: rest) front.length = front' ++ rest ∧
      front'.Perm (front ++ [item]) ∧
      front'.Pairwise fun d e ↦ d.blockSize ≤ e.blockSize := by
  induction front using List.reverseRecOn generalizing rest with
  | nil => exact ⟨[item], rfl, List.Perm.refl _, List.pairwise_singleton _ _⟩
  | append_singleton front below ih =>
      obtain ⟨hsorted, -, hbelow⟩ := List.pairwise_append.mp hfront
      have hbelow' : ∀ d ∈ front, d.blockSize ≤ below.blockSize := fun d hd ↦
        hbelow d hd below (List.mem_singleton_self below)
      have hget : (front ++ [below] ++ item :: rest)[front.length]? = some below := by simp
      have hget' : (front ++ [below] ++ item :: rest)[front.length + 1]? = some item := by simp
      rw [List.length_append, List.length_singleton, sinkDescriptor]
      simp only [hget, hget']
      by_cases hlt : below.blockSize > item.blockSize
      · have hswap : ((front ++ [below] ++ item :: rest).set (front.length + 1) below).set
            front.length item = front ++ item :: below :: rest := by
          simp
        obtain ⟨front', hsink, hperm, hfront'⟩ := ih (below :: rest) hsorted
        rw [if_pos hlt, hswap]
        refine ⟨front' ++ [below], ?_, ?_, ?_⟩
        · rw [hsink, List.append_assoc, List.singleton_append]
        · calc
            (front' ++ [below]).Perm (front ++ [item] ++ [below]) := hperm.append_right _
            List.Perm _ (front ++ [below] ++ [item]) := by
              rw [List.append_assoc, List.append_assoc]
              exact (List.Perm.swap below item []).append_left front
        · refine List.pairwise_append.mpr ⟨hfront', List.pairwise_singleton _ _, ?_⟩
          intro d hd e he
          rw [List.mem_singleton.mp he]
          obtain hd | hd := List.mem_append.mp (hperm.mem_iff.mp hd)
          · exact hbelow' d hd
          · rw [List.mem_singleton.mp hd]
            exact hlt.le
      · rw [if_neg hlt]
        refine ⟨front ++ [below] ++ [item], by simp, List.Perm.refl _, ?_⟩
        refine List.pairwise_append.mpr ⟨hfront, List.pairwise_singleton _ _, ?_⟩
        intro d hd e he
        rw [List.mem_singleton.mp he]
        have hle : below.blockSize ≤ item.blockSize := Nat.not_lt.mp hlt
        obtain hd | hd := List.mem_append.mp hd
        · exact (hbelow' d hd).trans hle
        · rwa [List.mem_singleton.mp hd]

theorem foldl_sinkDescriptor (front rest : List PoolDescriptor)
    (hfront : front.Pairwise fun d e ↦ d.blockSize ≤ e.blockSize) :
    ((List.range' front.length rest.length).foldl sinkDescriptor (front ++ rest)).Perm
        (front ++ rest) ∧
      ((List.range' front.length rest.length).foldl sinkDescriptor (front ++ rest)).Pairwise
        fun d e ↦ d.blockSize ≤ e.blockSize := by
  induction rest generalizing front with
  | nil =>
      rw [List.append_nil]
      exact ⟨List.Perm.refl _, hfront⟩
  | cons item rest ih =>
      obtain ⟨front', hsink, hperm, hsorted⟩ := sinkDescriptor_sorted front item rest hfront
      have hlength : front.length + 1 = front'.length := by
        rw [hperm.length_eq, List.length_append, List.length_singleton]
      rw [List.length_cons, List.range'_succ, List.foldl_cons, hsink, hlength]
      obtain ⟨hperm', hsorted'⟩ := ih front' hsorted
      refine ⟨hperm'.trans ?_, hsorted'⟩
      calc
        (front' ++ rest).Perm (front ++ [item] ++ rest) := hperm.append_right rest
        List.Perm _ (front ++ item :: rest) := by simp

/-- The sort. -/
theorem sortDescriptors_spec (items : List PoolDescriptor) :
    (sortDescriptors items).Perm items ∧
      (sortDescriptors items).Pairwise fun d e ↦ d.blockSize ≤ e.blockSize := by
  cases items with
  | nil => exact ⟨List.Perm.refl _, List.Pairwise.nil⟩
  | cons item items => exact foldl_sinkDescriptor [item] items (List.pairwise_singleton _ _)

/-! ## Joining -/

@[simp]
theorem blocksOfSize_nil (size : ℕ) : blocksOfSize [] size = 0 := rfl

@[simp]
theorem blocksOfSize_append (items more : List PoolDescriptor) (size : ℕ) :
    blocksOfSize (items ++ more) size = blocksOfSize items size + blocksOfSize more size := by
  simp [blocksOfSize]

@[simp]
theorem blocksOfSize_singleton (d : PoolDescriptor) (size : ℕ) :
    blocksOfSize [d] size = if d.blockSize = size then d.numBlocks else 0 := by
  by_cases h : d.blockSize = size <;> simp [blocksOfSize, h]

theorem blocksOfSize_eq_zero {items : List PoolDescriptor} {size : ℕ}
    (h : size ∉ items.map PoolDescriptor.blockSize) : blocksOfSize items size = 0 := by
  have hnil : items.filter (fun d ↦ d.blockSize = size) = [] := by
    apply List.filter_eq_nil_iff.mpr
    intro d hd
    simp only [decide_eq_true_eq]
    rintro rfl
    exact h (List.mem_map_of_mem hd)
  rw [blocksOfSize, hnil, List.map_nil, List.sum_nil]

theorem blocksOfSize_perm {items items' : List PoolDescriptor} (h : items.Perm items')
    (size : ℕ) : blocksOfSize items size = blocksOfSize items' size :=
  ((h.filter _).map _).sum_eq

/-- The front of the table counts, the gap is left over from entries that were joined, and the
rest is still to come. -/
structure Joined (sorted : List PoolDescriptor) (c : Combining) (i : ℕ)
    (front : List PoolDescriptor) (last : PoolDescriptor) (gap rest : List PoolDescriptor) :
    Prop where
  items_eq : c.items = front ++ last :: gap ++ rest
  j_eq : c.j = front.length
  count_eq : c.count = front.length + 1
  i_eq : i = front.length + 1 + gap.length
  rest_eq : rest = sorted.drop i
  increasing : (front ++ [last]).Pairwise fun d e ↦ d.blockSize < e.blockSize
  above : ∀ d ∈ rest, last.blockSize ≤ d.blockSize
  counted : ∀ size, blocksOfSize (front ++ [last]) size = blocksOfSize (sorted.take i) size % 2 ^ 32
  sizes : ∀ size, size ∈ (front ++ [last]).map PoolDescriptor.blockSize ↔
    size ∈ (sorted.take i).map PoolDescriptor.blockSize

namespace Joined

variable {sorted : List PoolDescriptor} {c : Combining} {i : ℕ} {front : List PoolDescriptor}
  {last item : PoolDescriptor} {gap rest : List PoolDescriptor}

theorem get_last (h : Joined sorted c i front last gap rest) : c.items[c.j]? = some last := by
  rw [h.items_eq, h.j_eq]
  simp

theorem get_item (h : Joined sorted c i front last gap (item :: rest)) :
    c.items[i]? = some item := by
  rw [h.items_eq, h.i_eq]
  have hlength : front.length + 1 + gap.length = (front ++ last :: gap).length := by
    simp
    ring
  rw [hlength, List.getElem?_append_right le_rfl, Nat.sub_self]
  rfl

theorem take_succ (h : Joined sorted c i front last gap (item :: rest)) :
    sorted.take (i + 1) = sorted.take i ++ [item] ∧ rest = sorted.drop (i + 1) := by
  have hdrop := h.rest_eq
  have hlt : i < sorted.length := by
    by_contra hge
    rw [List.drop_eq_nil_of_le (Nat.not_lt.mp hge)] at hdrop
    exact List.cons_ne_nil _ _ hdrop
  rw [List.drop_eq_getElem_cons hlt, List.cons.injEq] at hdrop
  refine ⟨?_, hdrop.2⟩
  rw [hdrop.1, List.take_succ_eq_append_getElem hlt]

theorem front_lt (h : Joined sorted c i front last gap rest) :
    ∀ d ∈ front, d.blockSize < last.blockSize := by
  obtain ⟨-, -, hlast⟩ := List.pairwise_append.mp h.increasing
  exact fun d hd ↦ hlast d hd last (List.mem_singleton_self last)

/-- An entry of the size of the last one is joined with it. -/
theorem combine_same (h : Joined sorted c i front last gap (item :: rest))
    (hsize : last.blockSize = item.blockSize) (hrest : ∀ d ∈ rest, item.blockSize ≤ d.blockSize) :
    Joined sorted (combineStep c i) (i + 1) front
      { last with numBlocks := (last.numBlocks + item.numBlocks) % 2 ^ 32 } (gap ++ [item])
      rest := by
  obtain ⟨htake, hrest'⟩ := h.take_succ
  have hstep : combineStep c i =
      { c with
        items := c.items.set c.j
          { last with numBlocks := (last.numBlocks + item.numBlocks) % 2 ^ 32 } } := by
    rw [combineStep, h.get_last, h.get_item]
    exact if_pos hsize
  rw [hstep]
  exact
    { items_eq := by
        dsimp only
        rw [h.items_eq, h.j_eq]
        simp
      j_eq := h.j_eq
      count_eq := h.count_eq
      i_eq := by
        rw [h.i_eq, List.length_append, List.length_singleton]
        ring
      rest_eq := hrest'
      increasing := by
        obtain ⟨hfront, -, -⟩ := List.pairwise_append.mp h.increasing
        refine List.pairwise_append.mpr ⟨hfront, List.pairwise_singleton _ _, fun d hd e he ↦ ?_⟩
        rw [List.mem_singleton.mp he]
        exact h.front_lt d hd
      above := fun d hd ↦ hsize ▸ hrest d hd
      counted := fun size ↦ by
        have hcounted := h.counted size
        rw [htake, blocksOfSize_append, blocksOfSize_append, blocksOfSize_singleton,
          blocksOfSize_singleton]
        rw [blocksOfSize_append, blocksOfSize_singleton] at hcounted
        dsimp only
        rw [← hsize]
        by_cases heq : last.blockSize = size
        · -- no other entry in front has this size
          have hzero : blocksOfSize front size = 0 := by
            apply blocksOfSize_eq_zero
            intro hin
            obtain ⟨d, hd, hdsize⟩ := List.mem_map.mp hin
            have hlt := h.front_lt d hd
            omega
          rw [if_pos heq] at hcounted
          rw [if_pos heq, if_pos heq, hzero, zero_add, Nat.add_mod (blocksOfSize _ _), ← hcounted,
            hzero, zero_add, Nat.add_mod_mod]
        · rw [if_neg heq] at hcounted
          rw [if_neg heq, if_neg heq, add_zero (blocksOfSize (List.take i sorted) size), hcounted]
      sizes := fun size ↦ by
        have hsizes := h.sizes size
        simp only [htake, List.map_append, List.mem_append, List.map_singleton,
          List.mem_singleton] at hsizes ⊢
        rw [← hsizes, ← hsize]
        tauto }

/-- All that is kept is smaller than an entry of another size. -/
theorem kept_lt (h : Joined sorted c i front last gap (item :: rest))
    (hsize : last.blockSize ≠ item.blockSize) :
    ∀ d ∈ front ++ [last], d.blockSize < item.blockSize := by
  have hlt : last.blockSize < item.blockSize :=
    lt_of_le_of_ne (h.above item List.mem_cons_self) hsize
  intro d hd
  obtain hd | hd := List.mem_append.mp hd
  · exact (h.front_lt d hd).trans hlt
  · rwa [List.mem_singleton.mp hd]

/-- An entry of another size is larger, and it is put behind the last one. -/
theorem combine_larger (h : Joined sorted c i front last gap (item :: rest))
    (hsize : last.blockSize ≠ item.blockSize) (hrest : ∀ d ∈ rest, item.blockSize ≤ d.blockSize)
    (hitem : item.numBlocks < 2 ^ 32) :
    ∃ gap', Joined sorted (combineStep c i) (i + 1) (front ++ [last]) item gap' rest := by
  obtain ⟨htake, hrest'⟩ := h.take_succ
  have hstep : combineStep c i =
      { items := c.items.set (c.j + 1) item, j := c.j + 1, count := c.count + 1 } := by
    rw [combineStep, h.get_last, h.get_item]
    exact if_neg hsize
  have hset : ∃ gap', c.items.set (c.j + 1) item = front ++ [last] ++ item :: gap' ++ rest ∧
      gap'.length = gap.length := by
    rw [h.items_eq, h.j_eq]
    cases gap with
    | nil => exact ⟨[], by simp, rfl⟩
    | cons spare gap => exact ⟨gap ++ [item], by simp, by simp⟩
  obtain ⟨gap', hset, hgap⟩ := hset
  rw [hstep]
  refine ⟨gap', ?_⟩
  exact
    { items_eq := hset
      j_eq := by
        dsimp only
        rw [h.j_eq, List.length_append, List.length_singleton]
      count_eq := by
        dsimp only
        rw [h.count_eq, List.length_append, List.length_singleton]
      i_eq := by
        rw [h.i_eq, List.length_append, List.length_singleton, hgap]
        ring
      rest_eq := hrest'
      increasing := by
        refine List.pairwise_append.mpr
          ⟨h.increasing, List.pairwise_singleton _ _, fun d hd e he ↦ ?_⟩
        rw [List.mem_singleton.mp he]
        exact h.kept_lt hsize d hd
      above := hrest
      counted := fun size ↦ by
        rw [htake, blocksOfSize_append, h.counted size, blocksOfSize_append,
          blocksOfSize_singleton]
        by_cases heq : item.blockSize = size
        · -- the entries before it are smaller
          have hzero : blocksOfSize (sorted.take i) size = 0 := by
            apply blocksOfSize_eq_zero
            intro hin
            obtain ⟨d, hd, hdsize⟩ := List.mem_map.mp ((h.sizes size).mpr hin)
            have hlt := h.kept_lt hsize d hd
            omega
          rw [if_pos heq, hzero, Nat.zero_mod, zero_add, Nat.mod_eq_of_lt hitem]
        · rw [if_neg heq, add_zero, add_zero]
      sizes := fun size ↦ by
        have hsizes := h.sizes size
        rw [htake, List.map_append, List.mem_append, hsizes, List.map_append, List.mem_append] }

end Joined

/-- One round of the loop. -/
theorem Joined.combineStep {sorted : List PoolDescriptor} {c : Combining} {i : ℕ}
    {front : List PoolDescriptor} {last item : PoolDescriptor} {gap rest : List PoolDescriptor}
    (h : Joined sorted c i front last gap (item :: rest))
    (hsorted : (item :: rest).Pairwise fun d e ↦ d.blockSize ≤ e.blockSize)
    (hitem : item.numBlocks < 2 ^ 32) :
    ∃ front' last' gap', Joined sorted (combineStep c i) (i + 1) front' last' gap' rest := by
  have hrest := (List.pairwise_cons.mp hsorted).1
  by_cases hsize : last.blockSize = item.blockSize
  · exact ⟨_, _, _, h.combine_same hsize hrest⟩
  · obtain ⟨gap', h'⟩ := h.combine_larger hsize hrest hitem
    exact ⟨_, _, gap', h'⟩

theorem Joined.foldl {sorted : List PoolDescriptor} {c : Combining} {i : ℕ}
    {front : List PoolDescriptor} {last : PoolDescriptor} {gap rest : List PoolDescriptor}
    (h : Joined sorted c i front last gap rest)
    (hsorted : rest.Pairwise fun d e ↦ d.blockSize ≤ e.blockSize)
    (hsmall : ∀ d ∈ rest, d.numBlocks < 2 ^ 32) :
    ∃ front' last' gap', Joined sorted ((List.range' i rest.length).foldl A2bStack.combineStep c)
      (i + rest.length) front' last' gap' [] := by
  induction rest generalizing c i front last gap with
  | nil => exact ⟨front, last, gap, h⟩
  | cons item rest ih =>
      obtain ⟨front', last', gap', h'⟩ :=
        h.combineStep hsorted (hsmall item List.mem_cons_self)
      have hlength : i + (item :: rest).length = i + 1 + rest.length := by
        rw [List.length_cons]
        ring
      rw [List.length_cons, List.range'_succ, List.foldl_cons, ← List.length_cons, hlength]
      exact ih h' (List.pairwise_cons.mp hsorted).2 fun d hd ↦
        hsmall d (List.mem_cons_of_mem _ hd)

/-- The state before the loop. -/
theorem joined_start {last : PoolDescriptor} {rest : List PoolDescriptor}
    (hsorted : ∀ d ∈ rest, last.blockSize ≤ d.blockSize) (hlast : last.numBlocks < 2 ^ 32) :
    Joined (last :: rest) { items := last :: rest, j := 0, count := 1 } 1 [] last [] rest :=
  { items_eq := rfl
    j_eq := rfl
    count_eq := rfl
    i_eq := rfl
    rest_eq := rfl
    increasing := List.pairwise_singleton _ _
    above := hsorted
    counted := fun size ↦ by
      rw [List.nil_append, List.take_succ_cons, List.take_zero, blocksOfSize_singleton]
      split
      · exact (Nat.mod_eq_of_lt hlast).symm
      · rfl
    sizes := fun size ↦ Iff.rfl }

/-- The table is what the loop has joined. -/
theorem memMgrGetPoolDescriptors_eq {items rest front gap : List PoolDescriptor}
    {last final : PoolDescriptor} {i : ℕ} (hsort : sortDescriptors items = last :: rest)
    (hlength : items.length = rest.length + 1)
    (h : Joined (last :: rest) ((List.range' 1 rest.length).foldl combineStep
      { items := last :: rest, j := 0, count := 1 }) i front final gap []) :
    memMgrGetPoolDescriptors items = front ++ [final] := by
  have hnorm : memMgrNormPoolDescriptors items =
      (((List.range' 1 rest.length).foldl combineStep
          { items := last :: rest, j := 0, count := 1 }).items,
        ((List.range' 1 rest.length).foldl combineStep
          { items := last :: rest, j := 0, count := 1 }).count) := by
    rw [memMgrNormPoolDescriptors, hsort, hlength]
    rfl
  rw [memMgrGetPoolDescriptors, hnorm]
  dsimp only
  rw [h.items_eq, h.count_eq, List.append_nil]
  have hcount : front.length + 1 = (front ++ [final]).length := by simp
  have hsplit : front ++ final :: gap = front ++ [final] ++ gap := by simp
  rw [hcount, hsplit, List.take_left]

/-- **The normalised table.** Its block sizes are those of the table, each once and in increasing
order, and there are as many blocks of each size as before, as far as an `a2b_UInt32` counts. -/
theorem memMgrGetPoolDescriptors_spec {items : List PoolDescriptor}
    (hitems : ∀ d ∈ items, d.numBlocks < 2 ^ 32) :
    (memMgrGetPoolDescriptors items).Pairwise (fun d e ↦ d.blockSize < e.blockSize) ∧
      (∀ size, size ∈ (memMgrGetPoolDescriptors items).map PoolDescriptor.blockSize ↔
        size ∈ items.map PoolDescriptor.blockSize) ∧
      ∀ size, blocksOfSize (memMgrGetPoolDescriptors items) size =
        blocksOfSize items size % 2 ^ 32 := by
  obtain ⟨hperm, hsorted⟩ := sortDescriptors_spec items
  cases hsort : sortDescriptors items with
  | nil =>
      have hnil : items = [] := by
        rw [hsort] at hperm
        exact List.nil_perm.mp hperm
      subst hnil
      exact ⟨List.Pairwise.nil, fun _ ↦ Iff.rfl, fun _ ↦ rfl⟩
  | cons last rest =>
      rw [hsort] at hperm hsorted
      have hsmall : ∀ d ∈ last :: rest, d.numBlocks < 2 ^ 32 := fun d hd ↦
        hitems d (hperm.mem_iff.mp hd)
      have hlength : items.length = rest.length + 1 := by
        rw [← hperm.length_eq, List.length_cons]
      obtain ⟨hfirst, hrest⟩ := List.pairwise_cons.mp hsorted
      have hstart := joined_start hfirst (hsmall last List.mem_cons_self)
      obtain ⟨front, final, gap, h⟩ := hstart.foldl hrest fun d hd ↦
        hsmall d (List.mem_cons_of_mem _ hd)
      have hall : (last :: rest).take (1 + rest.length) = last :: rest := by
        rw [add_comm]
        exact List.take_of_length_le le_rfl
      have hsizes := h.sizes
      have hcounted := h.counted
      rw [hall] at hsizes hcounted
      rw [memMgrGetPoolDescriptors_eq hsort hlength h]
      refine ⟨h.increasing, fun size ↦ ?_, fun size ↦ ?_⟩
      · rw [hsizes size]
        exact (hperm.map _).mem_iff
      · rw [hcounted size, blocksOfSize_perm hperm]

theorem memMgrGetPoolDescriptors_example :
    (memMgrGetPoolDescriptors [⟨2, 40⟩, ⟨5, 16⟩, ⟨4, 40⟩]).Pairwise
        (fun d e ↦ d.blockSize < e.blockSize) ∧
      blocksOfSize (memMgrGetPoolDescriptors [⟨2, 40⟩, ⟨5, 16⟩, ⟨4, 40⟩]) 40 = 6 := by
  have hitems : ∀ d ∈ ([⟨2, 40⟩, ⟨5, 16⟩, ⟨4, 40⟩] : List PoolDescriptor),
      d.numBlocks < 2 ^ 32 := by decide
  have h := memMgrGetPoolDescriptors_spec hitems
  exact ⟨h.1, h.2.2 40⟩

end Vsys.A2bStack
