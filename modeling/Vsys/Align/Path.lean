import Mathlib.Algebra.BigOperators.Group.List.Basic
import Mathlib.Algebra.Order.Field.Rat
import Mathlib.Data.List.Chain
import Mathlib.Tactic.Linarith
import Mathlib.Tactic.Ring

/-!
# Paths through a chain of states

A path goes through the states `0, 1, 2, …`, one state for each frame, and stays or goes on by one.
The states are divided into blocks by `block`, which counts them.  A frame gives a score to every
state, so a path has scores, and a mean of them in each block.  Frames and paths stand with the
newest first.

`Part` builds the paths of which all blocks but the last one are closed, step by step and with the
sum of the last block and the total of the means before it.  `PartOf` says the same in terms of the
whole path, and each step of the one is a step of the other (`Part.partOf`, `PartOf.part`).
-/

namespace Vsys.Align

/-- The scores of the states in a frame. -/
abbrev Frame := ℕ → ℚ

/-- The mean of some scores. -/
def mean (scores : List ℚ) : ℚ := scores.sum / scores.length

/-- How long a block may be, and what its mean has to exceed. -/
structure Bounds where
  minLen : ℕ
  maxLen : ℕ
  minScore : ℚ

/-- The scores of a path in one block. -/
def blockScores (block : ℕ → ℕ) (b : ℕ) : List Frame → List ℕ → List ℚ
  | frame :: past, state :: path =>
      if block state = b then frame state :: blockScores block b past path
      else blockScores block b past path
  | _, _ => []

/-- A path over the last frames from state `0` to `state`. -/
structure IsPath (past : List Frame) (path : List ℕ) (state : ℕ) : Prop where
  length_le : path.length ≤ past.length
  head : path.head? = some state
  last : path.getLast? = some 0
  chain : path.IsChain fun newer older ↦ newer = older ∨ newer = older + 1

/-- The length of a block is within the bounds and its mean is large enough. -/
structure Closed (bounds : Bounds) (scores : List ℚ) : Prop where
  minLen_lt : bounds.minLen < scores.length
  le_maxLen : scores.length ≤ bounds.maxLen
  minScore_lt : bounds.minScore < mean scores

/-- A path to `state` with all blocks closed before the last one, which has `j + 1` frames; `score`
is the sum of that block and `total` the sum of the means before it. -/
inductive Part (block : ℕ → ℕ) (bounds : Bounds) :
    List Frame → List ℕ → (state j : ℕ) → (score total : ℚ) → Prop
  | start {frame : Frame} {past : List Frame} (hlen : 0 < bounds.maxLen) :
      Part block bounds (frame :: past) [0] 0 0 (frame 0) 0
  | within {frame : Frame} {past : List Frame} {path : List ℕ} {state older j : ℕ} {score total : ℚ}
      (h : Part block bounds past path older j score total)
      (hstep : state = older ∨ state = older + 1) (hblock : block state = block older)
      (hlen : j + 1 < bounds.maxLen) :
      Part block bounds (frame :: past) (state :: path) state (j + 1) (score + frame state) total
  | next {frame : Frame} {past : List Frame} {path : List ℕ} {older j : ℕ} {score total : ℚ}
      (h : Part block bounds past path older j score total)
      (hblock : block (older + 1) = block older + 1) (hlen : bounds.minLen ≤ j)
      (hscore : bounds.minScore < score / (j + 1 : ℕ)) :
      Part block bounds (frame :: past) ((older + 1) :: path) (older + 1) 0 (frame (older + 1))
        (total + score / (j + 1 : ℕ))

/-- A numbering of blocks along the chain. -/
structure Numbers (block : ℕ → ℕ) : Prop where
  zero : block 0 = 0
  succ : ∀ state, block (state + 1) = block state ∨ block (state + 1) = block state + 1

/-! ## The blocks of a path -/

section
variable {block : ℕ → ℕ} {past : List Frame} {path : List ℕ} {state : ℕ}

theorem Numbers.mono (hnumbers : Numbers block) {a b : ℕ} (h : a ≤ b) : block a ≤ block b := by
  induction b, h using Nat.le_induction with
  | base => exact Nat.le_refl _
  | succ b _ ih =>
      obtain heq | heq := hnumbers.succ b
      · omega
      · omega

/-- Two states that end the same block are the same. -/
theorem Numbers.eq_of_succ (hnumbers : Numbers block) {a b : ℕ} (ha : block (a + 1) = block a + 1)
    (hb : block (b + 1) = block b + 1) (h : block (a + 1) = block (b + 1)) : a = b := by
  obtain hlt | heq | hlt := Nat.lt_trichotomy a b
  · have hmono : block (a + 1) ≤ block b := hnumbers.mono hlt
    omega
  · exact heq
  · have hmono : block (b + 1) ≤ block a := hnumbers.mono hlt
    omega

theorem blockScores_nil (b : ℕ) (past : List Frame) : blockScores block b past [] = [] := by
  cases past <;> rfl

theorem blockScores_cons_self (frame : Frame) (past : List Frame) (path : List ℕ) (state : ℕ) :
    blockScores block (block state) (frame :: past) (state :: path) =
      frame state :: blockScores block (block state) past path := by
  rw [blockScores, if_pos rfl]

theorem blockScores_cons_of_ne (frame : Frame) (past : List Frame) (path : List ℕ) {state b : ℕ}
    (hne : block state ≠ b) :
    blockScores block b (frame :: past) (state :: path) = blockScores block b past path := by
  rw [blockScores, if_neg hne]

/-- A path never goes back. -/
theorem IsPath.mem_le (h : IsPath past path state) {a : ℕ} (ha : a ∈ path) : a ≤ state := by
  obtain ⟨-, hhead, -, hchain⟩ := h
  induction path generalizing state with
  | nil => exact absurd ha List.not_mem_nil
  | cons newer path ih =>
      obtain rfl : newer = state := by simpa using hhead
      obtain rfl | ha := List.mem_cons.mp ha
      · exact Nat.le_refl _
      · cases path with
        | nil => exact absurd ha List.not_mem_nil
        | cons older path =>
            obtain ⟨hstep, hrest⟩ := List.isChain_cons_cons.mp hchain
            have hle := ih ha rfl hrest
            omega

theorem blockScores_eq_nil {b : ℕ} (h : ∀ a ∈ path, block a ≠ b) :
    blockScores block b past path = [] := by
  induction path generalizing past with
  | nil => exact blockScores_nil b past
  | cons state path ih =>
      cases past with
      | nil => rfl
      | cons frame past =>
          rw [blockScores_cons_of_ne _ _ _ (h state (List.mem_cons_self ..))]
          exact ih fun a ha ↦ h a (List.mem_cons_of_mem _ ha)

theorem isPath_singleton {frame : Frame} : IsPath (frame :: past) [0] 0 where
  length_le := by simp
  head := rfl
  last := rfl
  chain := .singleton _

theorem IsPath.cons (h : IsPath past path state) (frame : Frame) {newer : ℕ}
    (hstep : newer = state ∨ newer = state + 1) : IsPath (frame :: past) (newer :: path) newer := by
  obtain ⟨hlength, hhead, hlast, hchain⟩ := h
  cases path with
  | nil => exact nomatch hhead
  | cons older path =>
      obtain rfl : older = state := by simpa using hhead
      refine ⟨Nat.succ_le_succ hlength, rfl, ?_, List.isChain_cons_cons.mpr ⟨hstep, hchain⟩⟩
      rw [List.getLast?_cons_cons]
      exact hlast

/-- A path is one frame in state `0`, or it goes on from a path. -/
theorem IsPath.cases {frames : List Frame} (h : IsPath frames path state) :
    ∃ frame past, frames = frame :: past ∧ (path = [0] ∧ state = 0 ∨
      ∃ older tail, path = state :: tail ∧ IsPath past tail older ∧
        (state = older ∨ state = older + 1)) := by
  obtain ⟨hlength, hhead, hlast, hchain⟩ := h
  cases path with
  | nil => exact nomatch hhead
  | cons newer tail =>
      obtain rfl : newer = state := by simpa using hhead
      cases frames with
      | nil => exact absurd hlength (Nat.not_succ_le_zero _)
      | cons frame past =>
          refine ⟨frame, past, rfl, ?_⟩
          cases tail with
          | nil =>
              have hzero : newer = 0 := by simpa using hlast
              exact .inl ⟨by rw [hzero], hzero⟩
          | cons older tail =>
              obtain ⟨hstep, hrest⟩ := List.isChain_cons_cons.mp hchain
              rw [List.getLast?_cons_cons] at hlast
              exact .inr ⟨older, older :: tail, rfl,
                ⟨Nat.le_of_succ_le_succ hlength, rfl, hlast, hrest⟩, hstep⟩

/-- The block of the last state has a frame. -/
theorem IsPath.exists_length_eq (h : IsPath past path state) (block : ℕ → ℕ) :
    ∃ j, (blockScores block (block state) past path).length = j + 1 := by
  obtain ⟨frame, past, rfl, ⟨rfl, rfl⟩ | ⟨older, tail, rfl, -, -⟩⟩ := h.cases
  · rw [blockScores_cons_self]
    exact ⟨_, List.length_cons⟩
  · rw [blockScores_cons_self]
    exact ⟨_, List.length_cons⟩

/-- The blocks behind the last state have no frame. -/
theorem IsPath.blockScores_eq_nil (h : IsPath past path state) (hnumbers : Numbers block) {b : ℕ}
    (hb : block state < b) : blockScores block b past path = [] := by
  apply Align.blockScores_eq_nil
  intro a ha
  have hle := hnumbers.mono (h.mem_le ha)
  omega

end

/-- The sum of the means of the first `n` blocks. -/
def sumOfMeans (block : ℕ → ℕ) (past : List Frame) (path : List ℕ) (n : ℕ) : ℚ :=
  ((List.range n).map fun b ↦ mean (blockScores block b past path)).sum

/-- What `Part` says, in terms of the whole path. -/
structure PartOf (block : ℕ → ℕ) (bounds : Bounds) (past : List Frame) (path : List ℕ) (state j : ℕ)
    (score total : ℚ) : Prop where
  isPath : IsPath past path state
  closed : ∀ b < block state, Closed bounds (blockScores block b past path)
  length_eq : (blockScores block (block state) past path).length = j + 1
  lt_maxLen : j < bounds.maxLen
  score_eq : score = (blockScores block (block state) past path).sum
  total_eq : total = sumOfMeans block past path (block state)

section
variable {block : ℕ → ℕ} {bounds : Bounds} {past : List Frame} {path : List ℕ} {state j n : ℕ}
  {score total : ℚ}

theorem sumOfMeans_congr {past' : List Frame} {path' : List ℕ}
    (h : ∀ b < n, blockScores block b past path = blockScores block b past' path') :
    sumOfMeans block past path n = sumOfMeans block past' path' n := by
  rw [sumOfMeans, sumOfMeans]
  congr 1
  apply List.map_congr_left
  intro b hb
  rw [h b (List.mem_range.mp hb)]

theorem sumOfMeans_succ (block : ℕ → ℕ) (past : List Frame) (path : List ℕ) (n : ℕ) :
    sumOfMeans block past path (n + 1) =
      sumOfMeans block past path n + mean (blockScores block n past path) := by
  rw [sumOfMeans, List.range_succ, List.map_append, List.sum_append, List.map_singleton,
    List.sum_singleton, ← sumOfMeans]

/-- A step does not touch the blocks before it. -/
theorem blockScores_cons_of_lt (frame : Frame) (past : List Frame) (path : List ℕ) {b : ℕ}
    (hb : b < block state) :
    blockScores block b (frame :: past) (state :: path) = blockScores block b past path :=
  blockScores_cons_of_ne _ _ _ (by omega)

theorem sumOfMeans_cons (frame : Frame) (past : List Frame) (path : List ℕ) (state : ℕ) :
    sumOfMeans block (frame :: past) (state :: path) (block state) =
      sumOfMeans block past path (block state) :=
  sumOfMeans_congr fun _ hb ↦ blockScores_cons_of_lt frame past path hb

theorem PartOf.mean_eq (h : PartOf block bounds past path state j score total) :
    mean (blockScores block (block state) past path) = score / (j + 1 : ℕ) := by
  rw [mean, h.score_eq, h.length_eq]

theorem PartOf.within (h : PartOf block bounds past path n j score total) (frame : Frame)
    (hstep : state = n ∨ state = n + 1) (hblock : block state = block n)
    (hlen : j + 1 < bounds.maxLen) :
    PartOf block bounds (frame :: past) (state :: path) state (j + 1) (score + frame state) total := by
  refine ⟨h.isPath.cons frame hstep, fun b hb ↦ ?_, ?_, hlen, ?_, ?_⟩
  · rw [blockScores_cons_of_lt _ _ _ hb]
    exact h.closed b (hblock ▸ hb)
  · rw [blockScores_cons_self, List.length_cons, hblock, h.length_eq]
  · rw [blockScores_cons_self, List.sum_cons, hblock, ← h.score_eq, add_comm]
  · rw [h.total_eq, ← hblock, sumOfMeans_cons]

theorem PartOf.next (hnumbers : Numbers block) (h : PartOf block bounds past path n j score total)
    (frame : Frame) (hblock : block (n + 1) = block n + 1) (hlen : bounds.minLen ≤ j)
    (hscore : bounds.minScore < score / (j + 1 : ℕ)) :
    PartOf block bounds (frame :: past) ((n + 1) :: path) (n + 1) 0 (frame (n + 1))
      (total + score / (j + 1 : ℕ)) := by
  have hnew : blockScores block (block (n + 1)) (frame :: past) ((n + 1) :: path) =
      [frame (n + 1)] := by
    rw [blockScores_cons_self, h.isPath.blockScores_eq_nil hnumbers (by omega)]
  have hlt := h.lt_maxLen
  refine ⟨h.isPath.cons frame (.inr rfl), fun b hb ↦ ?_, ?_, by omega, ?_, ?_⟩
  · rw [blockScores_cons_of_lt _ _ _ hb]
    obtain hb' | rfl : b < block n ∨ b = block n := by omega
    · exact h.closed b hb'
    · exact ⟨by rw [h.length_eq]; omega, by rw [h.length_eq]; omega, by rw [h.mean_eq]; exact hscore⟩
  · rw [hnew, List.length_singleton]
  · rw [hnew, List.sum_singleton]
  · rw [sumOfMeans_cons, hblock, sumOfMeans_succ, ← h.total_eq, h.mean_eq]

theorem Part.partOf (hnumbers : Numbers block) (h : Part block bounds past path state j score total) :
    PartOf block bounds past path state j score total := by
  induction h with
  | @start frame past hlen =>
      refine ⟨isPath_singleton, fun b hb ↦ ?_, ?_, hlen, ?_, ?_⟩
      · rw [hnumbers.zero] at hb
        exact absurd hb (Nat.not_lt_zero b)
      · rw [blockScores_cons_self, blockScores_nil, List.length_singleton]
      · rw [blockScores_cons_self, blockScores_nil, List.sum_singleton]
      · rw [hnumbers.zero]
        rfl
  | within h hstep hblock hlen ih => exact ih.within _ hstep hblock hlen
  | next h hblock hlen hscore ih => exact ih.next hnumbers _ hblock hlen hscore

/-- What a path had been before it stayed in a block. -/
theorem PartOf.of_within {frame : Frame}
    (h : PartOf block bounds (frame :: past) (state :: path) state j score total)
    (hpath : IsPath past path n) (hblock : block state = block n) :
    ∃ i before, PartOf block bounds past path n i before total ∧ j = i + 1 ∧
      score = before + frame state := by
  obtain ⟨-, hclosed, hlength, hlen, hscore, htotal⟩ := h
  rw [blockScores_cons_self, hblock] at hlength hscore
  rw [sumOfMeans_cons, hblock] at htotal
  obtain ⟨i, hi⟩ := hpath.exists_length_eq block
  rw [List.length_cons, hi] at hlength
  rw [List.sum_cons, add_comm] at hscore
  refine ⟨i, _, ⟨hpath, fun b hb ↦ ?_, hi, by omega, rfl, htotal⟩, by omega, hscore⟩
  rw [← blockScores_cons_of_lt frame past path (show b < block state by omega)]
  exact hclosed b (by omega)

/-- What a path had been before it went on to the next block. -/
theorem PartOf.of_next (hnumbers : Numbers block) {frame : Frame}
    (h : PartOf block bounds (frame :: past) ((n + 1) :: path) (n + 1) j score total)
    (hpath : IsPath past path n) (hblock : block (n + 1) = block n + 1) :
    ∃ i before total', PartOf block bounds past path n i before total' ∧ bounds.minLen ≤ i ∧
      bounds.minScore < before / (i + 1 : ℕ) ∧ j = 0 ∧ score = frame (n + 1) ∧
      total = total' + before / (i + 1 : ℕ) := by
  obtain ⟨-, hclosed, hlength, -, hscore, htotal⟩ := h
  rw [blockScores_cons_self, hpath.blockScores_eq_nil hnumbers (by omega)] at hlength hscore
  rw [sumOfMeans_cons, hblock, sumOfMeans_succ] at htotal
  obtain ⟨i, hi⟩ := hpath.exists_length_eq block
  -- the block that is left was closed
  have hlast := hclosed (block n) (by omega)
  rw [blockScores_cons_of_lt _ _ _ (by omega)] at hlast
  obtain ⟨hmin, hmax, hmean⟩ := hlast
  have hpart : PartOf block bounds past path n i (blockScores block (block n) past path).sum
      (sumOfMeans block past path (block n)) := by
    refine ⟨hpath, fun b hb ↦ ?_, hi, by omega, rfl, rfl⟩
    rw [← blockScores_cons_of_lt frame past path (show b < block (n + 1) by omega)]
    exact hclosed b (by omega)
  rw [hpart.mean_eq] at hmean htotal
  exact ⟨i, _, _, hpart, by omega, hmean, by simpa using hlength.symm, by simpa using hscore, htotal⟩

/-- A path whose blocks are closed is built step by step. -/
theorem PartOf.part (hnumbers : Numbers block)
    (h : PartOf block bounds past path state j score total) :
    Part block bounds past path state j score total := by
  induction past generalizing path state j score total with
  | nil =>
      obtain ⟨frame, past, hnil, -⟩ := h.isPath.cases
      exact nomatch hnil
  | cons frame past ih =>
      obtain ⟨_, _, hcons, ⟨rfl, rfl⟩ | ⟨older, tail, rfl, htail, hstep⟩⟩ := h.isPath.cases
      · obtain ⟨-, -, hlength, hlen, hscore, htotal⟩ := h
        rw [blockScores_cons_self, blockScores_nil] at hlength hscore
        rw [hnumbers.zero] at htotal
        obtain rfl : j = 0 := by simpa using hlength.symm
        rw [List.sum_singleton] at hscore
        rw [hscore, htotal]
        exact .start hlen
      · obtain ⟨rfl, rfl⟩ := List.cons.inj hcons
        obtain hblock | ⟨rfl, hblock⟩ : block state = block older ∨
            state = older + 1 ∧ block state = block older + 1 := by
          obtain rfl | rfl := hstep
          · exact .inl rfl
          · exact (hnumbers.succ older).imp_right fun hnext ↦ ⟨rfl, hnext⟩
        · obtain ⟨i, before, hbefore, rfl, rfl⟩ := h.of_within htail hblock
          exact .within (ih hbefore) hstep hblock h.lt_maxLen
        · obtain ⟨i, before, total', hbefore, hmin, hmean, rfl, rfl, rfl⟩ :=
            h.of_next hnumbers htail hblock
          exact .next (ih hbefore) hblock hmin hmean

theorem Part.lt_maxLen (h : Part block bounds past path state j score total) : j < bounds.maxLen := by
  induction h with
  | start hlen => exact hlen
  | within h hstep hblock hlen ih => exact hlen
  | next h hblock hlen hscore ih => omega

/-- Scores that are not too low add up to nothing too low. -/
theorem Part.low_lt (hnumbers : Numbers block) {low : ℚ} {top : ℕ}
    (h : Part block bounds past path state j score total) (htop : state ≤ top)
    (hlow : ∀ frame ∈ past, ∀ s ≤ top, -low < frame s) :
    -low * (j + 1 : ℕ) < score ∧ -low * block state ≤ total := by
  induction h with
  | @start frame past hlen =>
      have hfirst := hlow frame (List.mem_cons_self ..) 0 htop
      rw [hnumbers.zero]
      simpa using hfirst
  | @within frame past path state older j score total h hstep hblock hlen ih =>
      obtain ⟨hscore, htotal⟩ := ih (by omega) fun frame' hframe ↦
        hlow frame' (List.mem_cons_of_mem _ hframe)
      have hnew := hlow frame (List.mem_cons_self ..) state htop
      refine ⟨?_, hblock ▸ htotal⟩
      push_cast at hscore ⊢
      linarith
  | @next frame past path older j score total h hblock hlen hmean ih =>
      obtain ⟨hscore, htotal⟩ := ih (by omega) fun frame' hframe ↦
        hlow frame' (List.mem_cons_of_mem _ hframe)
      have hnew := hlow frame (List.mem_cons_self ..) (older + 1) htop
      have hlast : -low < score / (j + 1 : ℕ) := by
        rw [lt_div_iff₀ (by positivity)]
        exact hscore
      refine ⟨by simpa using hnew, ?_⟩
      rw [hblock]
      push_cast at htotal hlast ⊢
      linarith

/-- Two states of one block that begin it are the same. -/
theorem Part.eq_of_begin (hnumbers : Numbers block) {path' : List ℕ} {state' : ℕ} {score' total' : ℚ}
    (h : Part block bounds past path state 0 score total)
    (h' : Part block bounds past path' state' 0 score' total') (hblock : block state = block state') :
    state = state' := by
  cases h with
  | start hlen =>
      cases h' with
      | start hlen' => rfl
      | next h' hnext' hlen' hscore' =>
          rw [hnumbers.zero] at hblock
          omega
  | next h hnext hlen hscore =>
      cases h' with
      | start hlen' =>
          rw [hnumbers.zero] at hblock
          omega
      | next h' hnext' hlen' hscore' => rw [hnumbers.eq_of_succ hnext hnext' hblock]

/-- Paths that have been in one block for the same time entered it in the same frame, so what one
has before it the other can have as well. -/
theorem Part.transfer (hnumbers : Numbers block) {path' : List ℕ} {state' : ℕ} {score' total' : ℚ}
    (h : Part block bounds past path state j score total)
    (h' : Part block bounds past path' state' j score' total') (hblock : block state = block state') :
    ∃ path'' score'', Part block bounds past path'' state' j score'' total := by
  induction j generalizing past path state score total path' state' score' total' with
  | zero =>
      obtain rfl := h.eq_of_begin hnumbers h' hblock
      exact ⟨path, score, h⟩
  | succ j ih =>
      cases h with
      | within h hstep hsame hlen =>
          cases h' with
          | within h' hstep' hsame' hlen' =>
              obtain ⟨path'', score'', hpart⟩ := ih h h' (by omega)
              exact ⟨_, _, hpart.within hstep' hsame' hlen'⟩

/-! ## Alignments -/

/-- A path over the last frames from the first to the last state whose blocks are closed, except
that the mean of the last one may be the smallest one allowed. -/
structure Alignment (block : ℕ → ℕ) (bounds : Bounds) (blockNum final : ℕ) (past : List Frame)
    (path : List ℕ) : Prop where
  isPath : IsPath past path final
  minLen_lt : ∀ b < blockNum, bounds.minLen < (blockScores block b past path).length
  le_maxLen : ∀ b < blockNum, (blockScores block b past path).length ≤ bounds.maxLen
  minScore_le : ∀ b < blockNum, bounds.minScore < mean (blockScores block b past path) ∨
    b + 1 = blockNum ∧ bounds.minScore = mean (blockScores block b past path)

/-- The sum of the means of the blocks divided by their number. -/
def alignmentScore (block : ℕ → ℕ) (blockNum : ℕ) (past : List Frame) (path : List ℕ) : ℚ :=
  sumOfMeans block past path blockNum / blockNum

/-- An alignment is a path whose last block is closed as well. -/
theorem alignment_iff (hnumbers : Numbers block) {blockNum final : ℕ}
    (hfinal : block final + 1 = blockNum) (v : ℚ) :
    Alignment block bounds blockNum final past path ∧ alignmentScore block blockNum past path = v ↔
      ∃ j score total, Part block bounds past path final j score total ∧ bounds.minLen ≤ j ∧
        bounds.minScore ≤ score / (j + 1 : ℕ) ∧ (total + score / (j + 1 : ℕ)) / blockNum = v := by
  subst hfinal
  constructor
  · rintro ⟨⟨hpath, hmin, hmax, hmean⟩, rfl⟩
    have hlast := hmin (block final) (Nat.lt_succ_self _)
    obtain ⟨j, hj⟩ := hpath.exists_length_eq block
    have hmaxLast := hmax (block final) (Nat.lt_succ_self _)
    have hpart : PartOf block bounds past path final j _ _ :=
      { isPath := hpath
        closed := fun b hb ↦ ⟨hmin b (by omega), hmax b (by omega),
          (hmean b (by omega)).resolve_right fun hlast ↦ by omega⟩
        length_eq := hj
        lt_maxLen := by omega
        score_eq := rfl
        total_eq := rfl }
    refine ⟨j, _, _, hpart.part hnumbers, by omega, ?_, ?_⟩
    · rw [← hpart.mean_eq]
      obtain hlt | ⟨-, heq⟩ := hmean (block final) (Nat.lt_succ_self _)
      · exact hlt.le
      · exact heq.le
    · rw [← hpart.mean_eq, alignmentScore, sumOfMeans_succ]
  · rintro ⟨j, score, total, hpart, hlen, hscore, rfl⟩
    have h := hpart.partOf hnumbers
    have hlt := h.lt_maxLen
    refine ⟨⟨h.isPath, fun b hb ↦ ?_, fun b hb ↦ ?_, fun b hb ↦ ?_⟩, ?_⟩
    · obtain hb | rfl := Nat.lt_succ_iff_lt_or_eq.mp hb
      · exact (h.closed b hb).minLen_lt
      · rw [h.length_eq]
        omega
    · obtain hb | rfl := Nat.lt_succ_iff_lt_or_eq.mp hb
      · exact (h.closed b hb).le_maxLen
      · rw [h.length_eq]
        omega
    · obtain hb | rfl := Nat.lt_succ_iff_lt_or_eq.mp hb
      · exact .inl (h.closed b hb).minScore_lt
      · rw [h.mean_eq]
        obtain hlt | heq := lt_or_eq_of_le hscore
        · exact .inl hlt
        · exact .inr ⟨rfl, heq⟩
    · rw [alignmentScore, sumOfMeans_succ, h.mean_eq, ← h.total_eq]

end

end Vsys.Align
