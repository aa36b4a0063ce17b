import Mathlib.Data.List.Induction
import Mathlib.Order.Bounds.Defs
import Vsys.Align.Best
import Vsys.Align.Path
import Vsys.Trace.Run
import Vsys.Vt.Phones
import Vsys.Vt.Word

/-!
# The dynamic programming of `ZVtDet`

For every state of a word and every number of frames in its block there is a candidate, with the sum
of its block and the sum of the means of the blocks before.  `DynamicProgramming` computes the
candidates of a frame from those of the frame before, in a ring of 400 frames, and the best score of
the whole word.

The sentinel `-Z_FLT_MAX` stands for "no candidate", also where scores are compared.  As long as all
scores are above it, a candidate has the largest sum and the largest total of all paths that lead to
it (`rowOk_dpRow`), because all of them entered the block in the same frame.
-/

namespace Vsys.Vt

open Vsys.Align

/-- `Z_FLT_MAX`. -/
def fltMax : ℚ := 10 ^ 20

/-- `ZVtCand`. -/
structure ZVtCand where
  pre : ℤ
  score : ℚ
  blockscore : ℚ
  totalblockscoreAvg : ℚ
  deriving DecidableEq

/-- `SetInValidCand`. -/
def invalidCand : ZVtCand := ⟨-2, -fltMax, -fltMax, -fltMax⟩

/-- `fStateScore`; `frame i` is what stands at `pFrmScore[i]`. -/
def stateScore (frame : ℤ → ℚ) (state : ZVtState) : ℚ :=
  state.curStateLst.tail.foldl
    (fun best stateid ↦ if best < frame (stateid - 1) then frame (stateid - 1) else best)
    (frame (state.curStateLst.headD 0 - 1))

section
variable (word : ZVtWord) (states : List ZVtState)

/-- The candidates from which a block can begin. -/
def entryCands (last : ℕ → ZVtCand) (state : ZVtState) : List (ℤ × ℚ) :=
  state.preStateLst.tail.flatMap fun pre ↦
    (List.range' word.blockMinFrmLen (word.blockMaxFrmLen - word.blockMinFrmLen)).filterMap fun n ↦
      let pos2 := pre * word.blockMaxFrmLen + n
      if (last pos2).pre = -2 then none
      else if word.blockMinScore < (last pos2).blockscore then
        some ((pos2 : ℤ), (last pos2).blockscore + (last pos2).totalblockscoreAvg)
      else none

/-- The candidates from which a block can go on. -/
def stayCands (last : ℕ → ZVtCand) (state : ZVtState) (j : ℕ) : List (ℤ × ℚ) :=
  state.preStateLst.filterMap fun pre ↦
    let pos1 := pre * word.blockMaxFrmLen + j - 1
    if (last pos1).pre = -2 then none
    else some ((pos1 : ℤ), (last pos1).blockscore + (last pos1).totalblockscoreAvg)

/-- The first frame of a block. -/
def beginCand (last : ℕ → ZVtCand) (fStateScore : ℚ) (state : ZVtState) : ZVtCand :=
  if state.blockBegin then
    if state.wordBegin then ⟨-1, fStateScore, fStateScore, 0⟩
    else
      let best := keepMax (-1, -fltMax) (entryCands word last state)
      if best.1 = -1 then invalidCand else ⟨best.1, fStateScore, fStateScore, best.2⟩
  else invalidCand

/-- `preid` for the other frames of a block. -/
def stayPre (last : ℕ → ZVtCand) (state : ZVtState) (j : ℕ) : ℤ :=
  if state.blockBegin then
    let pos1 := state.preStateLst.headD 0 * word.blockMaxFrmLen + j - 1
    if -2 < (last pos1).pre then (pos1 : ℤ) else -1
  else (keepMax (-1, -fltMax) (stayCands word last state j)).1

/-- The other frames of a block. -/
def stayCand (last : ℕ → ZVtCand) (fStateScore : ℚ) (state : ZVtState) (j : ℕ) : ZVtCand :=
  let preid := stayPre word last state j
  if preid = -1 then invalidCand
  else
    let score := (last preid.toNat).score + fStateScore
    ⟨preid, score, score / (j + 1 : ℕ), (last preid.toNat).totalblockscoreAvg⟩

/-- The candidate of a state and a number of frames. -/
def dpCand (last : ℕ → ZVtCand) (fStateScore : ℚ) (state : ZVtState) (j : ℕ) : ZVtCand :=
  if j = 0 then beginCand word last fStateScore state else stayCand word last fStateScore state j

/-- The loops over the states and the numbers of frames. -/
def dpRow (last row : ℕ → ZVtCand) (frame : ℤ → ℚ) : ℕ → ZVtCand := fun iCandId ↦
  if iCandId < states.length * word.blockMaxFrmLen then
    match states[iCandId / word.blockMaxFrmLen]? with
    | some state =>
        dpCand word last (stateScore frame state) state (iCandId % word.blockMaxFrmLen)
    | none => row iCandId
  else row iCandId

/-- The candidates for the whole word, with their scores. -/
def bestCands (row : ℕ → ZVtCand) : List (ℤ × ℚ) :=
  (List.range states.length).flatMap fun i ↦
    if (states[i]?).any ZVtState.wordEnd then
      (List.range' word.blockMinFrmLen (word.blockMaxFrmLen - word.blockMinFrmLen)).filterMap fun j ↦
        let iCandId := i * word.blockMaxFrmLen + j
        if (row iCandId).blockscore < word.blockMinScore then none
        else some ((iCandId : ℤ),
          ((row iCandId).blockscore + (row iCandId).totalblockscoreAvg) / blockNum states)
    else []

end

/-- The tables of a detector. -/
structure DpState where
  frmIdCur : ℕ
  candLst : ℕ → ℕ → ZVtCand
  candScoreBest : ℕ → ℚ
  candIdBest : ℕ → ℤ

/-- `m_iCandLen_Total`. -/
def candLenTotal : ℕ := 400

namespace DpState

/-- `iCandId_Cur`. -/
def candIdCur (d : DpState) : ℕ := d.frmIdCur % candLenTotal

/-- `iCandId_Last`. -/
def candIdLast (d : DpState) : ℕ := (d.frmIdCur + candLenTotal - 1) % candLenTotal

/-- `Reset`, for the tables. -/
def reset (word : ZVtWord) (states : List ZVtState) (d : DpState) : DpState where
  frmIdCur := 0
  candLst := Function.update d.candLst ((0 + candLenTotal - 1) % candLenTotal) fun j ↦
    if j < states.length * word.blockMaxFrmLen then invalidCand
    else d.candLst ((0 + candLenTotal - 1) % candLenTotal) j
  candScoreBest := fun _ ↦ 0
  candIdBest := fun _ ↦ 0

/-- `DynamicProgramming`. -/
def dynamicProgramming (word : ZVtWord) (states : List ZVtState) (d : DpState) (frame : ℤ → ℚ) :
    DpState :=
  let row := dpRow word states (d.candLst d.candIdLast) (d.candLst d.candIdCur) frame
  let best := keepMax (-1, -fltMax) (bestCands word states row)
  { d with
    candLst := Function.update d.candLst d.candIdCur row
    candScoreBest := Function.update d.candScoreBest d.candIdCur best.2
    candIdBest := Function.update d.candIdBest d.candIdCur best.1 }

/-- A frame: the dynamic programming, and then `m_iFrmId_Cur` is counted. -/
def processFrame (word : ZVtWord) (states : List ZVtState) (d : DpState) (frame : ℤ → ℚ) : DpState :=
  let t := d.dynamicProgramming word states frame
  { t with frmIdCur := t.frmIdCur + 1 }

end DpState

/-! ## The candidates of a frame -/

section
variable {word : ZVtWord} {states : List ZVtState}

/-- The bounds of a word. -/
def ZVtWord.bounds (word : ZVtWord) : Bounds :=
  ⟨word.blockMinFrmLen, word.blockMaxFrmLen, word.blockMinScore⟩

/-- The scores of the states in a frame. -/
def frameScores (states : List ZVtState) (frame : ℤ → ℚ) : Frame := fun s ↦
  ((states[s]?).map (stateScore frame)).getD 0

/-- The paths to a state with `j + 1` frames in its block. -/
abbrev PartTo (word : ZVtWord) (states : List ZVtState) (past : List Frame) (path : List ℕ)
    (s j : ℕ) (score total : ℚ) : Prop :=
  Part (blockOf states) word.bounds past path s j score total

/-- A candidate has the largest sum and the largest total of all paths to it. -/
structure Optimal (word : ZVtWord) (states : List ZVtState) (past : List Frame) (s j : ℕ)
    (cand : ZVtCand) : Prop where
  pre_ge : -1 ≤ cand.pre
  blockscore_eq : cand.blockscore = cand.score / (j + 1 : ℕ)
  attained : ∃ path, PartTo word states past path s j cand.score cand.totalblockscoreAvg
  bound : ∀ path score total, PartTo word states past path s j score total →
    score ≤ cand.score ∧ total ≤ cand.totalblockscoreAvg

/-- A candidate is optimal, or it is invalid and there is no path to it. -/
def CandOk (word : ZVtWord) (states : List ZVtState) (past : List Frame) (s j : ℕ)
    (cand : ZVtCand) : Prop :=
  cand = invalidCand ∧ (∀ path score total, ¬ PartTo word states past path s j score total) ∨
    Optimal word states past s j cand

/-- All candidates of a frame. -/
def RowOk (word : ZVtWord) (states : List ZVtState) (past : List Frame) (row : ℕ → ZVtCand) : Prop :=
  ∀ s < states.length, ∀ j < word.blockMaxFrmLen,
    CandOk word states past s j (row (s * word.blockMaxFrmLen + j))

/-- No score is so low that the sum over the blocks would reach the sentinel. -/
def AboveSentinel (states : List ZVtState) (past : List Frame) : Prop :=
  ∀ frame ∈ past, ∀ s < states.length, -fltMax < blockNum states * frame s

theorem numbers_blockOf (states : List ZVtState) : Numbers (blockOf states) where
  zero := rfl
  succ := fun s ↦ by
    rw [blockOf_succ]
    split_ifs
    · exact .inr rfl
    · exact .inl rfl

variable {past : List Frame} {s j : ℕ} {cand : ZVtCand}

theorem AboveSentinel.tail {frame : Frame} (h : AboveSentinel states (frame :: past)) :
    AboveSentinel states past := fun earlier hearlier ↦
  h earlier (List.mem_cons_of_mem _ hearlier)

/-- The candidates of a state stand side by side. -/
theorem candId_lt (hs : s < states.length) (hj : j < word.blockMaxFrmLen) :
    s * word.blockMaxFrmLen + j < states.length * word.blockMaxFrmLen := by
  calc
    s * word.blockMaxFrmLen + j < s * word.blockMaxFrmLen + word.blockMaxFrmLen :=
      Nat.add_lt_add_left hj _
    _ = (s + 1) * word.blockMaxFrmLen := (Nat.succ_mul s word.blockMaxFrmLen).symm
    _ ≤ states.length * word.blockMaxFrmLen := Nat.mul_le_mul_right _ hs

theorem CandOk.optimal (h : CandOk word states past s j cand) (hpre : cand.pre ≠ -2) :
    Optimal word states past s j cand := by
  obtain ⟨rfl, -⟩ | hoptimal := h
  · exact absurd rfl hpre
  · exact hoptimal

theorem CandOk.no_part (h : CandOk word states past s j cand) (hpre : cand.pre = -2)
    {path : List ℕ} {score total : ℚ} : ¬ PartTo word states past path s j score total := by
  obtain ⟨-, hnone⟩ | hoptimal := h
  · exact hnone path score total
  · have hge := hoptimal.pre_ge
    omega

/-- A path makes its candidate optimal. -/
theorem CandOk.optimal_of_part (h : CandOk word states past s j cand) {path : List ℕ}
    {score total : ℚ} (hpart : PartTo word states past path s j score total) :
    Optimal word states past s j cand :=
  h.optimal fun hpre ↦ h.no_part hpre hpart

theorem Optimal.pre_ne (h : Optimal word states past s j cand) : cand.pre ≠ -2 := by
  have hge := h.pre_ge
  omega

theorem Optimal.div_le (h : Optimal word states past s j cand) {path : List ℕ} {score total : ℚ}
    (hpart : PartTo word states past path s j score total) :
    score / (j + 1 : ℕ) ≤ cand.blockscore := by
  rw [h.blockscore_eq]
  exact div_le_div_of_nonneg_right (h.bound path score total hpart).1 (by positivity)

/-- A path can be compared with the sentinel. -/
theorem Optimal.above (h : Optimal word states past s j cand) (hlinear : Linear states)
    (hs : s < states.length) (hpast : AboveSentinel states past) :
    -fltMax < cand.blockscore + cand.totalblockscoreAvg := by
  obtain ⟨path, hpart⟩ := h.attained
  have hblocks : blockOf states s + 1 ≤ blockNum states := by
    rw [← hlinear.blockNum_eq]
    have hmono := (numbers_blockOf states).mono (show s ≤ states.length - 1 by omega)
    omega
  have hnum : (0 : ℚ) < blockNum states := by
    rw [Nat.cast_pos]
    omega
  have hlow : ∀ frame ∈ past, ∀ i ≤ states.length - 1, -(fltMax / blockNum states) < frame i := by
    intro frame hframe i hi
    have hscore := hpast frame hframe i (by omega)
    rw [← neg_div, div_lt_iff₀ hnum, mul_comm]
    exact hscore
  obtain ⟨hscore, htotal⟩ := hpart.low_lt (numbers_blockOf states) (by omega) hlow
  have hmean : -(fltMax / blockNum states) < cand.blockscore := by
    rw [h.blockscore_eq, lt_div_iff₀ (by positivity)]
    exact hscore
  have hflt : (0 : ℚ) ≤ fltMax / blockNum states := div_nonneg (by norm_num [fltMax]) hnum.le
  have hcast : (blockOf states s : ℚ) + 1 ≤ blockNum states := by exact_mod_cast hblocks
  have hall : fltMax / blockNum states * (blockOf states s + 1) ≤ fltMax := by
    calc
      fltMax / blockNum states * (blockOf states s + 1) ≤
          fltMax / blockNum states * blockNum states := mul_le_mul_of_nonneg_left hcast hflt
      _ = fltMax := div_mul_cancel₀ _ hnum.ne'
  linarith

/-! ## The first frame of a block -/

variable {last : ℕ → ZVtCand} {frame : ℤ → ℚ} {state : ZVtState}

theorem frameScores_eq (hstate : states[s]? = some state) :
    frameScores states frame s = stateScore frame state := by
  rw [frameScores, hstate]
  rfl

theorem Linear.preStateLst_succ (hlinear : Linear states) (hstate : states[s + 1]? = some state) :
    state.preStateLst = [s + 1, s] := by
  rw [hlinear.preStateLst_eq _ _ hstate, if_neg (Nat.succ_ne_zero s), Nat.add_sub_cancel]

/-- The candidates of the frame before from which a block can begin. -/
theorem mem_entryCands_iff (cand : ℤ × ℚ) :
    cand ∈ entryCands word last state ↔
      ∃ older ∈ state.preStateLst.tail, ∃ n, word.blockMinFrmLen ≤ n ∧ n < word.blockMaxFrmLen ∧
        (last (older * word.blockMaxFrmLen + n)).pre ≠ -2 ∧
        word.blockMinScore < (last (older * word.blockMaxFrmLen + n)).blockscore ∧
        cand = (((older * word.blockMaxFrmLen + n : ℕ) : ℤ),
          (last (older * word.blockMaxFrmLen + n)).blockscore +
            (last (older * word.blockMaxFrmLen + n)).totalblockscoreAvg) := by
  simp only [entryCands, List.mem_flatMap, List.mem_filterMap, List.mem_range'_1]
  constructor
  · rintro ⟨older, holder, n, ⟨hmin, hmax⟩, hcand⟩
    split_ifs at hcand with hpre hscore
    exact ⟨older, holder, n, hmin, by omega, hpre, hscore, (Option.some_inj.mp hcand).symm⟩
  · rintro ⟨older, holder, n, hmin, hmax, hpre, hscore, rfl⟩
    refine ⟨older, holder, n, ⟨hmin, by omega⟩, ?_⟩
    rw [if_neg hpre, if_pos hscore]

/-- The paths that begin a block, in terms of the candidates of the frame before. -/
theorem mem_entryCands (hlinear : Linear states) (hstate : states[s + 1]? = some state)
    (cand : ℤ × ℚ) :
    cand ∈ entryCands word last state ↔
      ∃ n, word.blockMinFrmLen ≤ n ∧ n < word.blockMaxFrmLen ∧
        (last (s * word.blockMaxFrmLen + n)).pre ≠ -2 ∧
        word.blockMinScore < (last (s * word.blockMaxFrmLen + n)).blockscore ∧
        cand = (((s * word.blockMaxFrmLen + n : ℕ) : ℤ),
          (last (s * word.blockMaxFrmLen + n)).blockscore +
            (last (s * word.blockMaxFrmLen + n)).totalblockscoreAvg) := by
  rw [mem_entryCands_iff, hlinear.preStateLst_succ hstate]
  simp only [List.tail_cons, List.mem_singleton, exists_eq_left]

/-- A path that begins the block of a later state comes from the end of the block before. -/
theorem part_zero_succ {path : List ℕ} {score total : ℚ}
    (h : PartTo word states (frameScores states frame :: past) path (s + 1) 0 score total) :
    score = frameScores states frame (s + 1) ∧ blockOf states (s + 1) = blockOf states s + 1 ∧
      ∃ tail j older total', PartTo word states past tail s j older total' ∧
        word.blockMinFrmLen ≤ j ∧ word.blockMinScore < older / (j + 1 : ℕ) ∧
        total = total' + older / (j + 1 : ℕ) := by
  cases h with
  | next h hblock hlen hscore => exact ⟨rfl, hblock, _, _, _, _, h, hlen, hscore, rfl⟩

theorem beginCand_zero (hlinear : Linear states) (hstate : states[0]? = some state)
    (hlen : 0 < word.blockMaxFrmLen) :
    Optimal word states (frameScores states frame :: past) 0 0
      (beginCand word last (stateScore frame state) state) := by
  rw [beginCand, if_pos (hlinear.blockBegin_zero state hstate),
    if_pos ((hlinear.wordBegin_iff 0 state hstate).mpr rfl), ← frameScores_eq hstate]
  refine ⟨le_refl _, by simp, ⟨[0], .start hlen⟩, fun path score total hpart ↦ ?_⟩
  cases hpart with
  | start => exact ⟨le_refl _, le_refl _⟩

theorem RowOk.above_of_mem_entryCands (hlinear : Linear states) (hlast : RowOk word states past last)
    (hpast : AboveSentinel states past) (hstate : states[s + 1]? = some state) {cand : ℤ × ℚ}
    (hcand : cand ∈ entryCands word last state) : -fltMax < cand.2 := by
  have hlt := (List.getElem?_eq_some_iff.mp hstate).1
  obtain ⟨n, -, hn, hpre, -, rfl⟩ := (mem_entryCands hlinear hstate cand).mp hcand
  exact ((hlast s (by omega) n hn).optimal hpre).above hlinear (by omega) hpast

/-- A path that begins the block here is no better than one of the candidates. -/
theorem RowOk.le_of_part_zero_succ (hlinear : Linear states) (hlast : RowOk word states past last)
    (hstate : states[s + 1]? = some state) {path : List ℕ} {score total : ℚ}
    (hpart : PartTo word states (frameScores states frame :: past) path (s + 1) 0 score total) :
    score = frameScores states frame (s + 1) ∧ ∃ cand ∈ entryCands word last state, total ≤ cand.2 := by
  have hlt := (List.getElem?_eq_some_iff.mp hstate).1
  obtain ⟨rfl, -, tail, j, older, total', hbefore, hmin, hscore, rfl⟩ := part_zero_succ hpart
  have hoptimal := (hlast s (by omega) j hbefore.lt_maxLen).optimal_of_part hbefore
  have hmean := hoptimal.div_le hbefore
  refine ⟨rfl, _, (mem_entryCands hlinear hstate _).mpr ⟨j, hmin, hbefore.lt_maxLen,
    hoptimal.pre_ne, lt_of_lt_of_le hscore hmean, rfl⟩, ?_⟩
  dsimp only
  have htotal := (hoptimal.bound _ _ _ hbefore).2
  linarith

theorem beginCand_succ (hlinear : Linear states) (hlast : RowOk word states past last)
    (hpast : AboveSentinel states past) (hstate : states[s + 1]? = some state) :
    CandOk word states (frameScores states frame :: past) (s + 1) 0
      (beginCand word last (stateScore frame state) state) := by
  have hlt := (List.getElem?_eq_some_iff.mp hstate).1
  have hnotFirst : ¬ state.wordBegin = true := fun hfirst ↦
    Nat.succ_ne_zero s ((hlinear.wordBegin_iff _ state hstate).mp hfirst)
  have hblock := hlinear.blockOf_succ_eq hstate
  rw [beginCand, if_neg hnotFirst]
  by_cases hbegin : state.blockBegin = true
  · rw [if_pos hbegin] at hblock ⊢
    by_cases hnone : entryCands word last state = []
    · left
      rw [hnone]
      refine ⟨rfl, fun path score total hpart ↦ ?_⟩
      obtain ⟨-, cand, hcand, -⟩ := hlast.le_of_part_zero_succ hlinear hstate hpart
      rw [hnone] at hcand
      exact absurd hcand List.not_mem_nil
    · right
      obtain ⟨n, hmin, hn, hpre, hscore, hbest⟩ := (mem_entryCands hlinear hstate _).mp
        (keepMax_mem_of_lt (-1, -fltMax) hnone fun cand hcand ↦
          hlast.above_of_mem_entryCands hlinear hpast hstate hcand)
      have hoptimal := (hlast s (by omega) n hn).optimal hpre
      obtain ⟨path, hpart⟩ := hoptimal.attained
      have hid : ¬ (keepMax (-1, -fltMax) (entryCands word last state)).1 = -1 := by
        rw [hbest]
        dsimp only
        omega
      rw [if_neg hid, ← frameScores_eq hstate]
      refine ⟨?_, by simp, ⟨(s + 1) :: path, ?_⟩, fun path' score total hpart' ↦ ?_⟩
      · rw [hbest]
        dsimp only
        omega
      · rw [hbest]
        dsimp only
        rw [hoptimal.blockscore_eq, add_comm ((last (s * word.blockMaxFrmLen + n)).score / _)]
        exact hpart.next hblock hmin (hoptimal.blockscore_eq ▸ hscore)
      · obtain ⟨rfl, cand, hcand, hle⟩ := hlast.le_of_part_zero_succ hlinear hstate hpart'
        exact ⟨le_refl _, hle.trans (le_keepMax _ hcand)⟩
  · left
    rw [if_neg hbegin] at hblock ⊢
    refine ⟨rfl, fun path score total hpart ↦ ?_⟩
    have hnext := (part_zero_succ hpart).2.1
    omega

/-! ## The other frames of a block -/

/-- The states a path within a block comes from. -/
theorem part_succ {path : List ℕ} {score total : ℚ}
    (h : PartTo word states (frameScores states frame :: past) path s (j + 1) score total) :
    ∃ tail older before, PartTo word states past tail older j before total ∧
      (s = older ∨ s = older + 1) ∧ blockOf states s = blockOf states older ∧
      score = before + frameScores states frame s := by
  cases h with
  | within h hstep hblock hlen => exact ⟨_, _, _, h, hstep, hblock, rfl⟩

/-- A candidate that goes on from the best state there is. -/
theorem optimal_of_within {older : ℕ} {best : ZVtCand} (hbest : Optimal word states past older j best)
    (hstep : s = older ∨ s = older + 1) (hblock : blockOf states s = blockOf states older)
    (hj : j + 1 < word.blockMaxFrmLen)
    (hmost : ∀ path other score total, PartTo word states past path other j score total →
      (s = other ∨ s = other + 1) → blockOf states s = blockOf states other →
        score ≤ best.score ∧ total ≤ best.totalblockscoreAvg) (pre : ℕ) :
    Optimal word states (frameScores states frame :: past) s (j + 1)
      ⟨pre, best.score + frameScores states frame s,
        (best.score + frameScores states frame s) / (j + 1 + 1 : ℕ), best.totalblockscoreAvg⟩ := by
  obtain ⟨path, hpart⟩ := hbest.attained
  refine ⟨by dsimp only; omega, rfl, ⟨s :: path, hpart.within hstep hblock hj⟩,
    fun path' score total hpart' ↦ ?_⟩
  obtain ⟨tail, other, before, hbefore, hstep', hblock', rfl⟩ := part_succ hpart'
  obtain ⟨hscore, htotal⟩ := hmost tail other before total hbefore hstep' hblock'
  exact ⟨by dsimp only; linarith, htotal⟩

theorem stayCand_of_none {fStateScore : ℚ} (h : stayPre word last state j = -1) :
    stayCand word last fStateScore state j = invalidCand := by
  rw [stayCand, h]
  rfl

theorem stayCand_of_some {fStateScore : ℚ} {pos : ℕ} (h : stayPre word last state j = pos) :
    stayCand word last fStateScore state j =
      ⟨pos, (last pos).score + fStateScore, ((last pos).score + fStateScore) / (j + 1 : ℕ),
        (last pos).totalblockscoreAvg⟩ := by
  rw [stayCand, h]
  dsimp only
  rw [if_neg (by omega), Int.toNat_natCast]

/-- Two optimal candidates of one block and the same number of frames have the same total. -/
theorem Optimal.total_eq {older other : ℕ} {cand cand' : ZVtCand}
    (h : Optimal word states past older j cand) (h' : Optimal word states past other j cand')
    (hblock : blockOf states older = blockOf states other) :
    cand.totalblockscoreAvg = cand'.totalblockscoreAvg := by
  obtain ⟨path, hpart⟩ := h.attained
  obtain ⟨path', hpart'⟩ := h'.attained
  obtain ⟨_, _, hmoved⟩ := hpart.transfer (numbers_blockOf states) hpart' hblock
  obtain ⟨_, _, hmoved'⟩ := hpart'.transfer (numbers_blockOf states) hpart hblock.symm
  exact le_antisymm (h'.bound _ _ _ hmoved).2 (h.bound _ _ _ hmoved').2

/-- Inside a state that begins a block a path can only stay. -/
theorem stayCand_begin (hlinear : Linear states) (hlast : RowOk word states past last)
    (hstate : states[s]? = some state) (hbegin : state.blockBegin = true)
    (hj : j + 1 < word.blockMaxFrmLen) :
    CandOk word states (frameScores states frame :: past) s (j + 1)
      (stayCand word last (stateScore frame state) state (j + 1)) := by
  have hlt := (List.getElem?_eq_some_iff.mp hstate).1
  have hself : state.preStateLst.headD 0 = s := by
    rw [hlinear.preStateLst_eq s state hstate]
    split_ifs with hzero
    · rw [hzero]
      rfl
    · rfl
  have hfrom : ∀ other, (s = other ∨ s = other + 1) → blockOf states s = blockOf states other →
      other = s := by
    rintro other (rfl | rfl) hblock
    · rfl
    · rw [hlinear.blockOf_succ_eq hstate, if_pos hbegin] at hblock
      omega
  have hcand := hlast s hlt j (by omega)
  have hpre : stayPre word last state (j + 1) =
      if -2 < (last (s * word.blockMaxFrmLen + j)).pre then
        ((s * word.blockMaxFrmLen + j : ℕ) : ℤ) else -1 := by
    rw [stayPre, if_pos hbegin, hself]
    rfl
  by_cases hvalid : -2 < (last (s * word.blockMaxFrmLen + j)).pre
  · right
    have hoptimal := hcand.optimal (by omega)
    rw [if_pos hvalid] at hpre
    rw [stayCand_of_some hpre, ← frameScores_eq hstate]
    refine optimal_of_within hoptimal (.inl rfl) rfl hj (fun path other score total hpart hstep hblock ↦ ?_) _
    obtain rfl := hfrom other hstep hblock
    exact hoptimal.bound _ _ _ hpart
  · left
    rw [if_neg hvalid] at hpre
    refine ⟨stayCand_of_none hpre, fun path score total hpart ↦ ?_⟩
    obtain ⟨tail, other, before, hbefore, hstep, hblock, -⟩ := part_succ hpart
    obtain rfl := hfrom other hstep hblock
    have hge := (hcand.optimal_of_part hbefore).pre_ge
    omega

/-- The candidates of the frame before from which a block can go on. -/
theorem mem_stayCands_iff (cand : ℤ × ℚ) :
    cand ∈ stayCands word last state (j + 1) ↔
      ∃ older ∈ state.preStateLst, (last (older * word.blockMaxFrmLen + j)).pre ≠ -2 ∧
        cand = (((older * word.blockMaxFrmLen + j : ℕ) : ℤ),
          (last (older * word.blockMaxFrmLen + j)).blockscore +
            (last (older * word.blockMaxFrmLen + j)).totalblockscoreAvg) := by
  simp only [stayCands, List.mem_filterMap]
  constructor
  · rintro ⟨older, holder, hcand⟩
    split_ifs at hcand with hpre
    exact ⟨older, holder, hpre, (Option.some_inj.mp hcand).symm⟩
  · rintro ⟨older, holder, hpre, rfl⟩
    exact ⟨older, holder, if_neg hpre⟩

theorem mem_stayCands (hlinear : Linear states) (hstate : states[s + 1]? = some state)
    (cand : ℤ × ℚ) :
    cand ∈ stayCands word last state (j + 1) ↔
      ∃ older, (older = s + 1 ∨ older = s) ∧ (last (older * word.blockMaxFrmLen + j)).pre ≠ -2 ∧
        cand = (((older * word.blockMaxFrmLen + j : ℕ) : ℤ),
          (last (older * word.blockMaxFrmLen + j)).blockscore +
            (last (older * word.blockMaxFrmLen + j)).totalblockscoreAvg) := by
  rw [mem_stayCands_iff, hlinear.preStateLst_succ hstate]
  simp only [List.mem_cons, List.not_mem_nil, or_false]

/-- Inside any other state a path has stayed or gone on, and of the two the better one is kept. -/
theorem stayCand_inside (hlinear : Linear states) (hlast : RowOk word states past last)
    (hpast : AboveSentinel states past) (hstate : states[s + 1]? = some state)
    (hinside : ¬ state.blockBegin = true) (hj : j + 1 < word.blockMaxFrmLen) :
    CandOk word states (frameScores states frame :: past) (s + 1) (j + 1)
      (stayCand word last (stateScore frame state) state (j + 1)) := by
  have hlt := (List.getElem?_eq_some_iff.mp hstate).1
  have hblock : blockOf states (s + 1) = blockOf states s := by
    rw [hlinear.blockOf_succ_eq hstate, if_neg hinside, Nat.add_zero]
  have hcand : ∀ older, (older = s + 1 ∨ older = s) →
      CandOk word states past older j (last (older * word.blockMaxFrmLen + j)) := fun older holder ↦
    hlast older (by omega) j (by omega)
  have hpre : stayPre word last state (j + 1) =
      (keepMax (-1, -fltMax) (stayCands word last state (j + 1))).1 := by
    rw [stayPre, if_neg hinside]
  have habove : ∀ cand ∈ stayCands word last state (j + 1), -fltMax < cand.2 := by
    intro cand hmem
    obtain ⟨older, holder, hvalid, rfl⟩ := (mem_stayCands hlinear hstate cand).mp hmem
    exact ((hcand older holder).optimal hvalid).above hlinear (by omega) hpast
  by_cases hnone : stayCands word last state (j + 1) = []
  · left
    rw [hnone] at hpre
    refine ⟨stayCand_of_none hpre, fun path score total hpart ↦ ?_⟩
    obtain ⟨tail, older, before, hbefore, hstep, -, -⟩ := part_succ hpart
    have hoptimal := (hcand older (by omega)).optimal_of_part hbefore
    have hmem := (mem_stayCands hlinear hstate _).mpr ⟨older, by omega, hoptimal.pre_ne, rfl⟩
    rw [hnone] at hmem
    exact absurd hmem List.not_mem_nil
  · right
    obtain ⟨best, hbest, hvalid, hkept⟩ := (mem_stayCands hlinear hstate _).mp
      (keepMax_mem_of_lt (-1, -fltMax) hnone habove)
    have hoptimal := (hcand best hbest).optimal hvalid
    have hsame : blockOf states (s + 1) = blockOf states best := by
      obtain rfl | rfl := hbest
      · rfl
      · exact hblock
    rw [hkept] at hpre
    rw [stayCand_of_some hpre, ← frameScores_eq hstate]
    refine optimal_of_within hoptimal (by omega) hsame hj
      (fun path other score total hpart hstep hblock' ↦ ?_) _
    have hother := (hcand other (by omega)).optimal_of_part hpart
    obtain ⟨hscore, htotal⟩ := hother.bound _ _ _ hpart
    have htotals := hother.total_eq hoptimal (by omega)
    -- the totals are equal, so the better one has the larger sum
    have hle := le_keepMax (-1, -fltMax)
      ((mem_stayCands hlinear hstate _).mpr ⟨other, by omega, hother.pre_ne, rfl⟩)
    rw [hkept] at hle
    dsimp only at hle
    rw [htotals, add_le_add_iff_right, hother.blockscore_eq, hoptimal.blockscore_eq,
      div_le_div_iff_of_pos_right (by positivity)] at hle
    exact ⟨hscore.trans hle, htotal.trans htotals.le⟩

/-! ## A frame -/

theorem dpRow_apply {row : ℕ → ZVtCand} (hstate : states[s]? = some state)
    (hj : j < word.blockMaxFrmLen) :
    dpRow word states last row frame (s * word.blockMaxFrmLen + j) =
      dpCand word last (stateScore frame state) state j := by
  have hlt := (List.getElem?_eq_some_iff.mp hstate).1
  have hdiv : (s * word.blockMaxFrmLen + j) / word.blockMaxFrmLen = s := by
    rw [Nat.mul_comm, Nat.mul_add_div (by omega), Nat.div_eq_of_lt hj, Nat.add_zero]
  have hmod : (s * word.blockMaxFrmLen + j) % word.blockMaxFrmLen = j := by
    rw [Nat.mul_comm, Nat.mul_add_mod, Nat.mod_eq_of_lt hj]
  rw [dpRow, if_pos (candId_lt hlt hj), hdiv, hmod, hstate]

/-- **One frame keeps all candidates optimal.** -/
theorem rowOk_dpRow (hlinear : Linear states) (hlast : RowOk word states past last)
    (hpast : AboveSentinel states past) (row : ℕ → ZVtCand) (frame : ℤ → ℚ) :
    RowOk word states (frameScores states frame :: past) (dpRow word states last row frame) := by
  intro s hs j hj
  obtain ⟨state, hstate⟩ : ∃ state, states[s]? = some state := ⟨_, List.getElem?_eq_getElem hs⟩
  rw [dpRow_apply hstate hj, dpCand]
  cases j with
  | zero =>
      rw [if_pos rfl]
      cases s with
      | zero => exact .inr (beginCand_zero hlinear hstate hj)
      | succ s => exact beginCand_succ hlinear hlast hpast hstate
  | succ j =>
      rw [if_neg (Nat.succ_ne_zero j)]
      by_cases hbegin : state.blockBegin = true
      · exact stayCand_begin hlinear hlast hstate hbegin hj
      · cases s with
        | zero => exact absurd (hlinear.blockBegin_zero state hstate) hbegin
        | succ s => exact stayCand_inside hlinear hlast hpast hstate hbegin hj

theorem rowOk_nil {row : ℕ → ZVtCand}
    (hrow : ∀ id < states.length * word.blockMaxFrmLen, row id = invalidCand) :
    RowOk word states [] row := by
  intro s hs j hj
  exact .inl ⟨hrow _ (candId_lt hs hj), fun path score total hpart ↦ nomatch hpart⟩

/-! ## The best score -/

/-- The alignments of the last frames. -/
abbrev WordAlignment (word : ZVtWord) (states : List ZVtState) (past : List Frame)
    (path : List ℕ) : Prop :=
  Alignment (blockOf states) word.bounds (blockNum states) (states.length - 1) past path

/-- The score of an alignment. -/
abbrev wordScore (states : List ZVtState) (past : List Frame) (path : List ℕ) : ℚ :=
  alignmentScore (blockOf states) (blockNum states) past path

/-- `m_pCandScore_Best` is the maximum over all alignments; there is none if it is the sentinel. -/
structure BestOk (word : ZVtWord) (states : List ZVtState) (past : List Frame) (score : ℚ)
    (id : ℤ) : Prop where
  isGreatest : (∃ path, WordAlignment word states past path) →
    IsGreatest {v | ∃ path, WordAlignment word states past path ∧ wordScore states past path = v}
      score
  none : (¬ ∃ path, WordAlignment word states past path) → score = -fltMax ∧ id = -1

theorem mem_bestCands_iff (hpos : 0 < states.length)
    (hwordEnd : ∀ s state, states[s]? = some state →
      (state.wordEnd = true ↔ s + 1 = states.length)) {row : ℕ → ZVtCand} (cand : ℤ × ℚ) :
    cand ∈ bestCands word states row ↔
      ∃ j, word.blockMinFrmLen ≤ j ∧ j < word.blockMaxFrmLen ∧
        ¬ (row ((states.length - 1) * word.blockMaxFrmLen + j)).blockscore < word.blockMinScore ∧
        cand = ((((states.length - 1) * word.blockMaxFrmLen + j : ℕ) : ℤ),
          ((row ((states.length - 1) * word.blockMaxFrmLen + j)).blockscore +
            (row ((states.length - 1) * word.blockMaxFrmLen + j)).totalblockscoreAvg) /
              blockNum states) := by
  have hend : ∀ i < states.length,
      (states[i]?).any ZVtState.wordEnd = true ↔ i = states.length - 1 := by
    intro i hi
    obtain ⟨state, hstate⟩ : ∃ state, states[i]? = some state := ⟨_, List.getElem?_eq_getElem hi⟩
    rw [hstate, Option.any_some, hwordEnd i state hstate]
    omega
  rw [bestCands]
  simp only [List.mem_flatMap, List.mem_range]
  constructor
  · rintro ⟨i, hi, hcand⟩
    split_ifs at hcand with hlast
    · obtain rfl := (hend i hi).mp hlast
      obtain ⟨j, hj, hsome⟩ := List.mem_filterMap.mp hcand
      obtain ⟨hmin, hmax⟩ := List.mem_range'_1.mp hj
      split_ifs at hsome with hscore
      exact ⟨j, hmin, by omega, hscore, (Option.some_inj.mp hsome).symm⟩
    · exact absurd hcand List.not_mem_nil
  · rintro ⟨j, hmin, hmax, hscore, rfl⟩
    refine ⟨states.length - 1, by omega, ?_⟩
    rw [if_pos ((hend _ (by omega)).mpr rfl)]
    exact List.mem_filterMap.mpr
      ⟨j, List.mem_range'_1.mpr ⟨hmin, by omega⟩, if_neg hscore⟩

theorem mem_bestCands (hlinear : Linear states) {row : ℕ → ZVtCand} (cand : ℤ × ℚ) :
    cand ∈ bestCands word states row ↔
      ∃ j, word.blockMinFrmLen ≤ j ∧ j < word.blockMaxFrmLen ∧
        ¬ (row ((states.length - 1) * word.blockMaxFrmLen + j)).blockscore < word.blockMinScore ∧
        cand = ((((states.length - 1) * word.blockMaxFrmLen + j : ℕ) : ℤ),
          ((row ((states.length - 1) * word.blockMaxFrmLen + j)).blockscore +
            (row ((states.length - 1) * word.blockMaxFrmLen + j)).totalblockscoreAvg) /
              blockNum states) :=
  mem_bestCands_iff hlinear.length_pos hlinear.wordEnd_iff cand

/-- The candidates for the word are optimal, since invalid ones are below the smallest mean. -/
theorem RowOk.optimal_of_le {row : ℕ → ZVtCand} (hrow : RowOk word states past row)
    (hmin : -fltMax < word.blockMinScore) (hs : s < states.length) (hj : j < word.blockMaxFrmLen)
    (hscore : word.blockMinScore ≤ (row (s * word.blockMaxFrmLen + j)).blockscore) :
    Optimal word states past s j (row (s * word.blockMaxFrmLen + j)) := by
  obtain ⟨hinvalid, -⟩ | hoptimal := hrow s hs j hj
  · rw [hinvalid] at hscore
    exact absurd hmin (not_lt.mpr hscore)
  · exact hoptimal

/-- The score of a candidate for the word is that of an alignment. -/
theorem RowOk.alignment_of_mem {row : ℕ → ZVtCand} (hlinear : Linear states)
    (hrow : RowOk word states past row) (hmin : -fltMax < word.blockMinScore) {cand : ℤ × ℚ}
    (hcand : cand ∈ bestCands word states row) :
    ∃ path, WordAlignment word states past path ∧ wordScore states past path = cand.2 := by
  have hpos := hlinear.length_pos
  obtain ⟨j, hlen, hj, hscore, rfl⟩ := (mem_bestCands hlinear cand).mp hcand
  have hoptimal := hrow.optimal_of_le hmin (by omega) hj (not_lt.mp hscore)
  obtain ⟨path, hpart⟩ := hoptimal.attained
  rw [not_lt, hoptimal.blockscore_eq] at hscore
  refine ⟨path, (alignment_iff (numbers_blockOf states) hlinear.blockNum_eq _).mpr
    ⟨j, _, _, hpart, hlen, hscore, ?_⟩⟩
  dsimp only
  rw [hoptimal.blockscore_eq, add_comm (_ / _)]

/-- An alignment is no better than one of the candidates for the word. -/
theorem RowOk.le_of_alignment {row : ℕ → ZVtCand} (hlinear : Linear states)
    (hrow : RowOk word states past row) {path : List ℕ} (hpath : WordAlignment word states past path) :
    ∃ cand ∈ bestCands word states row, wordScore states past path ≤ cand.2 := by
  have hpos := hlinear.length_pos
  obtain ⟨j, score, total, hpart, hlen, hscore, hvalue⟩ :=
    (alignment_iff (numbers_blockOf states) hlinear.blockNum_eq _).mp ⟨hpath, rfl⟩
  have hoptimal := (hrow _ (by omega) j hpart.lt_maxLen).optimal_of_part hpart
  have hmean := hoptimal.div_le hpart
  refine ⟨_, (mem_bestCands hlinear _).mpr
    ⟨j, hlen, hpart.lt_maxLen, not_lt.mpr (hscore.trans hmean), rfl⟩, ?_⟩
  rw [wordScore, ← hvalue]
  apply div_le_div_of_nonneg_right _ (Nat.cast_nonneg _)
  rw [add_comm]
  exact add_le_add hmean (hoptimal.bound _ _ _ hpart).2

theorem bestOk_of_rowOk {row : ℕ → ZVtCand} (hlinear : Linear states)
    (hrow : RowOk word states past row) (hpast : AboveSentinel states past)
    (hmin : -fltMax < word.blockMinScore) :
    BestOk word states past (keepMax (-1, -fltMax) (bestCands word states row)).2
      (keepMax (-1, -fltMax) (bestCands word states row)).1 := by
  have hpos := hlinear.length_pos
  have hnum : 1 ≤ blockNum states := by
    rw [← hlinear.blockNum_eq]
    omega
  have habove : ∀ cand ∈ bestCands word states row, -fltMax < cand.2 := by
    intro cand hcand
    obtain ⟨j, -, hj, hscore, rfl⟩ := (mem_bestCands hlinear cand).mp hcand
    have hsum := (hrow.optimal_of_le hmin (by omega) hj (not_lt.mp hscore)).above hlinear (by omega)
      hpast
    have hcast : (1 : ℚ) ≤ blockNum states := by exact_mod_cast hnum
    have hflt : (0 : ℚ) ≤ fltMax := by norm_num [fltMax]
    dsimp only
    rw [lt_div_iff₀ (by linarith)]
    have hmul := mul_le_mul_of_nonneg_left hcast hflt
    linarith
  constructor
  · rintro ⟨path, hpath⟩
    obtain ⟨cand, hcand, -⟩ := hrow.le_of_alignment hlinear hpath
    refine ⟨hrow.alignment_of_mem hlinear hmin
      (keepMax_mem_of_lt (-1, -fltMax) (List.ne_nil_of_mem hcand) habove), ?_⟩
    rintro v ⟨other, hother, rfl⟩
    obtain ⟨cand', hcand', hle⟩ := hrow.le_of_alignment hlinear hother
    exact hle.trans (le_keepMax _ hcand')
  · intro hnone
    have hempty : bestCands word states row = [] := by
      by_contra hne
      obtain ⟨cand, hcand⟩ := List.exists_mem_of_ne_nil _ hne
      obtain ⟨path, hpath, -⟩ := hrow.alignment_of_mem hlinear hmin hcand
      exact hnone ⟨path, hpath⟩
    rw [hempty]
    exact ⟨rfl, rfl⟩

end

/-! ## Whole runs -/

namespace DpState

open Vsys.Trace

/-- The tables after some frames since a `Reset`. -/
def after (word : ZVtWord) (states : List ZVtState) (d : DpState) (frames : List (ℤ → ℚ)) : DpState :=
  run (processFrame word states) (d.reset word states) frames

/-- The scores of the states in the frames so far, the newest first. -/
def pastOf (states : List ZVtState) (frames : List (ℤ → ℚ)) : List Frame :=
  (frames.map (frameScores states)).reverse

variable {word : ZVtWord} {states : List ZVtState}

theorem pastOf_concat (states : List ZVtState) (frames : List (ℤ → ℚ)) (frame : ℤ → ℚ) :
    pastOf states (frames ++ [frame]) = frameScores states frame :: pastOf states frames := by
  rw [pastOf, List.map_append, List.reverse_append]
  rfl

/-- The row of the frame before is the one that was written last. -/
theorem candIdLast_processFrame (word : ZVtWord) (states : List ZVtState) (d : DpState)
    (frame : ℤ → ℚ) : (d.processFrame word states frame).candIdLast = d.candIdCur := by
  show (d.frmIdCur + 1 + candLenTotal - 1) % candLenTotal = d.frmIdCur % candLenTotal
  rw [Nat.add_right_comm, Nat.add_sub_cancel, Nat.add_mod_right]

theorem rowOk_after (hlinear : Linear states) (d : DpState) (frames : List (ℤ → ℚ))
    (hpast : AboveSentinel states (pastOf states frames)) :
    (after word states d frames).frmIdCur = frames.length ∧
      RowOk word states (pastOf states frames)
        ((after word states d frames).candLst (after word states d frames).candIdLast) := by
  induction frames using List.reverseRecOn with
  | nil =>
      refine ⟨rfl, rowOk_nil fun id hid ↦ ?_⟩
      show (d.reset word states).candLst ((0 + candLenTotal - 1) % candLenTotal) id = _
      rw [reset]
      dsimp only
      rw [Function.update_self, if_pos hid]
  | append_singleton frames frame ih =>
      rw [pastOf_concat] at hpast ⊢
      obtain ⟨hfrm, hrow⟩ := ih hpast.tail
      rw [after, run_append, ← after]
      show (processFrame word states (after word states d frames) frame).frmIdCur = _ ∧
        RowOk word states _ ((processFrame word states (after word states d frames) frame).candLst
          (processFrame word states (after word states d frames) frame).candIdLast)
      rw [candIdLast_processFrame]
      refine ⟨by rw [List.length_append, ← hfrm]; rfl, ?_⟩
      show RowOk word states _ (Function.update (after word states d frames).candLst _ _ _)
      rw [Function.update_self]
      exact rowOk_dpRow hlinear hrow hpast.tail _ frame

/-- **The best score is the best alignment's.** For every word whose last phone ends a block, after
every frame since `Reset`, in whatever state the tables were before: if the smallest mean and all
scores are above the sentinel, `m_pCandScore_Best` is the largest score of an alignment of the last
frames, and the sentinel with `m_pCandId_Best = -1` if there is no alignment. -/
theorem bestOk_after {phones : List Pho} (hlast : closes phones (phones.length - 1) = true)
    (word : ZVtWord) (d : DpState) (frames : List (ℤ → ℚ)) (frame : ℤ → ℚ)
    (hmin : -fltMax < word.blockMinScore)
    (hpast : AboveSentinel (setPhoBatchLst (parseWord phones))
      (pastOf (setPhoBatchLst (parseWord phones)) (frames ++ [frame]))) :
    BestOk word (setPhoBatchLst (parseWord phones))
      (pastOf (setPhoBatchLst (parseWord phones)) (frames ++ [frame]))
      ((after word (setPhoBatchLst (parseWord phones)) d (frames ++ [frame])).candScoreBest
        (frames.length % candLenTotal))
      ((after word (setPhoBatchLst (parseWord phones)) d (frames ++ [frame])).candIdBest
        (frames.length % candLenTotal)) := by
  have hlinear := linear_setPhoBatchLst hlast
  generalize setPhoBatchLst (parseWord phones) = states at hlinear hpast ⊢
  rw [pastOf_concat] at hpast ⊢
  obtain ⟨hfrm, hrow⟩ := rowOk_after hlinear d frames hpast.tail
  have hnew := rowOk_dpRow hlinear hrow hpast.tail
    ((after word states d frames).candLst (after word states d frames).candIdCur) frame
  have hbest := bestOk_of_rowOk hlinear hnew hpast hmin
  rw [after, run_append, ← after, ← hfrm]
  show BestOk word states _
    (Function.update (after word states d frames).candScoreBest
      (after word states d frames).candIdCur _ (after word states d frames).candIdCur)
    (Function.update (after word states d frames).candIdBest
      (after word states d frames).candIdCur _ (after word states d frames).candIdCur)
  rw [Function.update_self, Function.update_self]
  exact hbest

/-- One phone that is a block. -/
def onePhone : List Pho := [⟨[fun k ↦ k.val + 1], .block⟩]

/-- A word with one block of at most three frames. -/
def oneBlock (blockMinScore : ℚ) : ZVtWord where
  wordType := .awake
  wordContent := []
  blockMinFrmLen := 0
  blockMaxFrmLen := 3
  blockAvgScore := 0
  blockMinScore := blockMinScore
  leftSilCheck := false
  rightSilCheck := false
  classifyCheck := false
  classifyNnetShield := 0
  classifyNnetPath := []
  remoteAsrCheckWithAec := false
  remoteAsrCheckWithNoAec := false

/-- Tables that are empty. -/
def blank : DpState := ⟨0, fun _ _ ↦ invalidCand, fun _ ↦ 0, fun _ ↦ 0⟩

/-- Three frames with the score `0` in every state. -/
theorem bestOk_zeros :
    closes onePhone (onePhone.length - 1) = true ∧ -fltMax < (oneBlock (-1)).blockMinScore ∧
      BestOk (oneBlock (-1)) (setPhoBatchLst (parseWord onePhone))
        (pastOf (setPhoBatchLst (parseWord onePhone)) [fun _ ↦ 0, fun _ ↦ 0, fun _ ↦ 0])
        ((after (oneBlock (-1)) (setPhoBatchLst (parseWord onePhone)) blank
          [fun _ ↦ 0, fun _ ↦ 0, fun _ ↦ 0]).candScoreBest 2)
        ((after (oneBlock (-1)) (setPhoBatchLst (parseWord onePhone)) blank
          [fun _ ↦ 0, fun _ ↦ 0, fun _ ↦ 0]).candIdBest 2) := by
  refine ⟨by decide, by decide +kernel, ?_⟩
  refine bestOk_after (by decide) (oneBlock (-1)) blank [fun _ ↦ 0, fun _ ↦ 0] (fun _ ↦ 0)
    (by decide +kernel) ?_
  unfold AboveSentinel
  decide +kernel

/-- A first frame below the sentinel and two frames with the score `0`. -/
def lowStart : List (ℤ → ℚ) := [fun _ ↦ -2 * 10 ^ 20, fun _ ↦ 0, fun _ ↦ 0]

/-- The path through the three states in three frames. -/
theorem wordAlignment_lowStart :
    WordAlignment (oneBlock (-8 * 10 ^ 19)) (setPhoBatchLst (parseWord onePhone))
      (pastOf (setPhoBatchLst (parseWord onePhone)) lowStart) [2, 1, 0] := by
  refine ⟨⟨by decide, by decide, by decide, by decide⟩, ?_, ?_, ?_⟩
  · decide +kernel
  · decide +kernel
  · decide +kernel

/-- The mean of the alignment is above the sentinel and the smallest mean, but the candidate it goes
on from is not better than the sentinel and is dropped. -/
theorem not_bestOk_lowStart :
    ¬ BestOk (oneBlock (-8 * 10 ^ 19)) (setPhoBatchLst (parseWord onePhone))
      (pastOf (setPhoBatchLst (parseWord onePhone)) lowStart)
      ((after (oneBlock (-8 * 10 ^ 19)) (setPhoBatchLst (parseWord onePhone)) blank
        lowStart).candScoreBest 2)
      ((after (oneBlock (-8 * 10 ^ 19)) (setPhoBatchLst (parseWord onePhone)) blank
        lowStart).candIdBest 2) := by
  intro h
  have hbest : (after (oneBlock (-8 * 10 ^ 19)) (setPhoBatchLst (parseWord onePhone)) blank
      lowStart).candScoreBest 2 = -fltMax := by decide +kernel
  have hscore : wordScore (setPhoBatchLst (parseWord onePhone))
      (pastOf (setPhoBatchLst (parseWord onePhone)) lowStart) [2, 1, 0] = -2 * 10 ^ 20 / 3 := by
    decide +kernel
  have hle := (h.isGreatest ⟨_, wordAlignment_lowStart⟩).2 ⟨_, wordAlignment_lowStart, hscore⟩
  rw [hbest] at hle
  exact absurd hle (by decide +kernel)

end DpState

end Vsys.Vt
