import Vsys.Vt.Dp
import Vsys.Vt.Phase
import Vsys.Vt.WordBlocks

/-!
# The length of a detected word

When the score of a word crosses its threshold, `GetBestLen` follows the candidates back from the
best one to the beginning of the word.  The ring of candidates is not cleared on `Reset`, except for
one row, so it still holds candidates of earlier detections.  `traced_of_triggers` says that none of
them is met.
-/

namespace Vsys.Vt

open Vsys.Align

/-! ## `GetBestLen` -/

/-- The loop of `GetBestLen`: the row and the index of every candidate it reads, while `rt` is below
`fuel` and the assertion holds. -/
def backLoop (candLst : ℕ → ℕ → ZVtCand) : ℕ → ℤ → ℤ → List (ℕ × ℕ)
  | 0, _, _ => []
  | fuel + 1, k, pp =>
      if pp = -1 then []
      else
        let row := (if k < 0 then k + candLenTotal else k).toNat
        (row, pp.toNat) ::
          if (candLst row pp.toNat).pre = -2 then []
          else backLoop candLst fuel (row - 1) (candLst row pp.toNat).pre

namespace DpState

/-- The candidates that `GetBestLen(iFrmId)` reads. -/
def backCells (d : DpState) (iFrmId : ℕ) : List (ℕ × ℕ) :=
  backLoop d.candLst (candLenTotal - (d.frmIdCur - iFrmId)) (iFrmId % candLenTotal : ℕ)
    (d.candIdBest (iFrmId % candLenTotal))

/-- `GetBestLen`: the candidates are counted in `rt`. -/
def getBestLen (d : DpState) (iFrmId : ℕ) : ℕ := (d.backCells iFrmId).length

end DpState

/-! ## The detector with its tables -/

/-- `-FLT_MAX`, from which `m_fBestScore` starts. -/
def bestScoreStart : ℚ := -((2 ^ 24 - 1) * 2 ^ 104)

/-- A `ZVtDet` object with its tables; `frmIdCur` stands in both parts. -/
structure ScoreDet where
  det : VtDet
  dp : DpState
  bestScore : ℚ

/-- One turn of the loop in `ProcessScore`, the part of `ProcessScore` behind the loop, and one turn
of the loop in `GetBestScore`. -/
inductive ScoreOp
  | frame (frame : ℤ → ℚ) (offset : ℤ) (answers : FrmIn) (aec : Bool)
  | vadEnd (endIn : FrmIn) (aec : Bool)
  | best (frame : ℤ → ℚ)

namespace ScoreDet

variable (states : List ZVtState)

/-- `Reset`. -/
def reset (s : ScoreDet) : ScoreDet where
  det := s.det.reset
  dp := s.dp.reset s.det.vtWord states
  bestScore := bestScoreStart

/-- `UpdateFrmScore`. -/
def updateFrmScore (s : ScoreDet) (frame : ℤ → ℚ) (answers : FrmIn) : ScoreDet :=
  let dp := s.dp.dynamicProgramming s.det.vtWord states frame
  let det := { s.det with candScoreLast := dp.candScoreBest dp.candIdLast }
  { s with
    dp := dp
    det := det.updateFrmScore
      { answers with
        candScore := dp.candScoreBest dp.candIdCur
        bestLen := dp.getBestLen dp.frmIdCur } }

/-- `m_iFrmId_Cur ++`. -/
def countFrm (s : ScoreDet) : ScoreDet :=
  { s with
    det := { s.det with frmIdCur := s.det.frmIdCur + 1 }
    dp := { s.dp with frmIdCur := s.dp.frmIdCur + 1 } }

/-- One turn of the loop in `ProcessScore`. -/
def processFrm (s : ScoreDet) (frame : ℤ → ℚ) (offset : ℤ) (answers : FrmIn) (aec : Bool) :
    ScoreDet :=
  let s :=
    if s.det.frmIdBest = -1 ∧ (s.det.status = .process ∨ s.det.status = .ready) then
      s.updateFrmScore states frame answers
    else s
  ({ s with det := (s.det.checkStatus offset answers aec).1 } : ScoreDet).countFrm

/-- One turn of the loop in `GetBestScore`. -/
def processBest (s : ScoreDet) (frame : ℤ → ℚ) : ScoreDet :=
  let dp := s.dp.dynamicProgramming s.det.vtWord states frame
  let s := { s with dp := dp }
  let s :=
    if s.bestScore < dp.candScoreBest dp.candIdCur then
      { s with
        bestScore := dp.candScoreBest dp.candIdCur
        det :=
          { s.det with
            frmIdStart := s.det.frmIdCur - dp.getBestLen dp.frmIdCur
            frmIdBest := s.det.frmIdCur } }
    else s
  s.countFrm

/-- An operation of the detector. -/
def step (s : ScoreDet) : ScoreOp → ScoreDet
  | .frame frame offset answers aec => s.processFrm states frame offset answers aec
  | .vadEnd endIn aec => { s with det := (s.det.processVadEnd endIn aec).1 }
  | .best frame => s.processBest states frame

/-- The best score rises above the threshold of the word. -/
def Crosses (word : ZVtWord) (dp : DpState) : Prop :=
  dp.candScoreBest dp.candIdCur > dp.candScoreBest dp.candIdLast ∧
    dp.candScoreBest dp.candIdLast < word.blockAvgScore ∧
    dp.candScoreBest dp.candIdCur > word.blockAvgScore

instance (word : ZVtWord) (dp : DpState) : Decidable (Crosses word dp) :=
  inferInstanceAs (Decidable (_ ∧ _ ∧ _))

/-- A detection is triggered in `UpdateFrmScore`. -/
def Triggers (s : ScoreDet) (frame : ℤ → ℚ) : Prop :=
  s.det.frmIdBest = -1 ∧ s.det.status = .ready ∧
    Crosses s.det.vtWord (s.dp.dynamicProgramming s.det.vtWord states frame)

/-- The checks do not ask for the score. -/
theorem checkStatus_answers (d : VtDet) (offset : ℤ) (answers : FrmIn) (candScore : ℚ) (bestLen : ℕ)
    (aec : Bool) :
    d.checkStatus offset { answers with candScore := candScore, bestLen := bestLen } aec =
      d.checkStatus offset answers aec := by
  simp only [VtDet.checkStatus, VtDet.runChecks, VtDet.processMsgPre, VtDet.processMsgCfCheck,
    VtDet.processMsgEnergy, VtDet.processMsgLeftSil, VtDet.processMsgRightSil]

/-- The detector inside follows `VtDet`, with the answers of the tables. -/
theorem det_processFrm (s : ScoreDet) (frame : ℤ → ℚ) (offset : ℤ) (answers : FrmIn) (aec : Bool) :
    let dp := s.dp.dynamicProgramming s.det.vtWord states frame
    let det :=
      if s.det.frmIdBest = -1 ∧ (s.det.status = .process ∨ s.det.status = .ready) then
        { s.det with candScoreLast := dp.candScoreBest dp.candIdLast }
      else s.det
    (s.processFrm states frame offset answers aec).det =
      (det.processFrm offset { answers with
        candScore := dp.candScoreBest dp.candIdCur
        bestLen := dp.getBestLen dp.frmIdCur } aec).1 := by
  simp only [processFrm, VtDet.processFrm, updateFrmScore, countFrm, checkStatus_answers]
  generalize s.dp.dynamicProgramming s.det.vtWord states frame = dp
  by_cases hupdate : s.det.frmIdBest = -1 ∧ (s.det.status = .process ∨ s.det.status = .ready)
  · simp only [if_pos hupdate]
  · simp only [if_neg hupdate]

end ScoreDet

/-! ## The blocks of any word -/

/-- The block of a state: the number of blocks that begin behind the first state. -/
def beginOf (states : List ZVtState) (s : ℕ) : ℕ := (states.tail.take s).countP ZVtState.blockBegin

theorem beginOf_succ (states : List ZVtState) (s : ℕ) :
    beginOf states (s + 1) =
      beginOf states s + if (states[s + 1]?).any ZVtState.blockBegin then 1 else 0 := by
  rw [beginOf, beginOf, List.take_add_one, List.countP_append, List.getElem?_tail]
  cases states[s + 1]? with
  | none => rfl
  | some state =>
      cases hbegin : state.blockBegin with
      | false => simp [hbegin]
      | true => simp [hbegin]

theorem numbers_beginOf (states : List ZVtState) : Numbers (beginOf states) where
  zero := rfl
  succ := fun s ↦ by
    rw [beginOf_succ]
    split_ifs
    · exact .inr rfl
    · exact .inl rfl

/-- In a chain of blocks these are the blocks that end before the state. -/
theorem Linear.beginOf_eq {states : List ZVtState} (h : Linear states) {s : ℕ}
    (hs : s < states.length) : beginOf states s = blockOf states s := by
  induction s with
  | zero => rfl
  | succ s ih =>
      obtain ⟨state, hstate⟩ : ∃ state, states[s + 1]? = some state :=
        ⟨_, List.getElem?_eq_getElem hs⟩
      rw [beginOf_succ, ih (by omega), h.blockOf_succ_eq hstate, hstate]
      rfl

/-- A chain of states, in which blocks need not follow each other. -/
structure Chained (states : List ZVtState) : Prop where
  preStateLst_eq : ∀ s state, states[s]? = some state →
    state.preStateLst = if s = 0 then [0] else [s, s - 1]
  wordBegin_iff : ∀ s state, states[s]? = some state → (state.wordBegin = true ↔ s = 0)
  wordEnd_iff : ∀ s state, states[s]? = some state →
    (state.wordEnd = true ↔ s + 1 = states.length)
  countP_begin : states.countP ZVtState.blockBegin = blockNum states

theorem countP_blockBegin_setPhoBatchLst (batches : List ZPhoBatch) :
    (setPhoBatchLst batches).countP ZVtState.blockBegin =
      batches.countP fun b ↦ b.phoFlag.blockBegin := by
  unfold setPhoBatchLst
  induction batches using List.reverseRecOn with
  | nil => rfl
  | append_singleton batches b ih =>
      rw [List.foldl_concat, addPho, List.countP_append, ih, List.countP_append,
        List.countP_singleton]
      cases hbegin : b.phoFlag.blockBegin <;> simp [vtState, hbegin]

/-- The beginnings among the flags. -/
theorem count_flatMap_blockFlags (batches : List ZPhoBatch) :
    (batches.flatMap blockFlags).count true = batches.countP fun b ↦ b.phoFlag.blockBegin := by
  induction batches with
  | nil => rfl
  | cons b batches ih =>
      rw [List.flatMap_cons, List.count_append, ih, List.countP_cons, Nat.add_comm]
      congr 1
      cases hbegin : b.phoFlag.blockBegin <;> cases hend : b.phoFlag.blockEnd <;>
        simp [blockFlags, hbegin, hend]

/-- **The states of any word are a chain.** -/
theorem chained_setPhoBatchLst (phones : List Pho) :
    Chained (setPhoBatchLst (parseWord phones)) := by
  have hshape := wordShape_parseWord phones
  have hlength : (setPhoBatchLst (parseWord phones)).length = 3 * phones.length := by
    rw [hshape.length_eq, length_parseWord]
  refine ⟨hshape.preStateLst_eq, fun s state hstate ↦ ?_, fun s state hstate ↦ ?_, ?_⟩
  · obtain ⟨i, k, b, hs, hb, rfl⟩ := setPhoBatchLst_eq hstate
    have hbegin := (parseWord_flags hb).1
    simp only [vtState, Bool.and_eq_true, decide_eq_true_eq, hbegin, Fin.ext_iff, Fin.val_zero]
    omega
  · obtain ⟨i, k, b, hs, hb, rfl⟩ := setPhoBatchLst_eq hstate
    have hend := (parseWord_flags hb).2.1
    have hk := k.isLt
    simp only [vtState, Bool.and_eq_true, decide_eq_true_eq, hend, Fin.ext_iff, Fin.val_two]
    omega
  · calc
      (setPhoBatchLst (parseWord phones)).countP ZVtState.blockBegin =
          ((parseWord phones).flatMap blockFlags).count true := by
        rw [countP_blockBegin_setPhoBatchLst, count_flatMap_blockFlags]
      _ = blockNum (setPhoBatchLst (parseWord phones)) := by
        rw [hshape.alternate, List.count_flatten, List.map_replicate, List.sum_replicate]
        exact mul_one (blockNum (setPhoBatchLst (parseWord phones)))

/-- The last state is in the last block, if there is a block at all. -/
theorem Chained.blockNum_eq {states : List ZVtState} (h : Chained states)
    (hbegin : (states[0]?).any ZVtState.blockBegin = true) :
    beginOf states (states.length - 1) + 1 = blockNum states := by
  rw [← h.countP_begin, beginOf]
  cases states with
  | nil => exact nomatch hbegin
  | cons state rest =>
      have hfirst : state.blockBegin = true := hbegin
      rw [List.tail_cons, List.length_cons, Nat.add_sub_cancel, List.take_length,
        List.countP_cons_of_pos hfirst]

/-! ## The candidates of any word -/

section

variable {word : ZVtWord} {states : List ZVtState} {last : ℕ → ZVtCand} {state : ZVtState}

/-- How a candidate comes from those of the frame before. -/
inductive DpStep (word : ZVtWord) (states : List ZVtState) (last : ℕ → ZVtCand) (fStateScore : ℚ) :
    (s j : ℕ) → ZVtCand → Prop
  | invalid (s j : ℕ) : DpStep word states last fStateScore s j invalidCand
  | first (hbegin : (states[0]?).any ZVtState.blockBegin = true) :
      DpStep word states last fStateScore 0 0 ⟨-1, fStateScore, fStateScore, 0⟩
  | next {older n : ℕ} (hblock : beginOf states (older + 1) = beginOf states older + 1)
      (hmin : word.blockMinFrmLen ≤ n) (hmax : n < word.blockMaxFrmLen)
      (hpre : (last (older * word.blockMaxFrmLen + n)).pre ≠ -2)
      (hscore : word.blockMinScore < (last (older * word.blockMaxFrmLen + n)).blockscore) :
      DpStep word states last fStateScore (older + 1) 0
        ⟨(older * word.blockMaxFrmLen + n : ℕ), fStateScore, fStateScore,
          (last (older * word.blockMaxFrmLen + n)).blockscore +
            (last (older * word.blockMaxFrmLen + n)).totalblockscoreAvg⟩
  | within {s older j : ℕ} (hstep : s = older ∨ s = older + 1)
      (hblock : beginOf states s = beginOf states older)
      (hpre : (last (older * word.blockMaxFrmLen + j)).pre ≠ -2) :
      DpStep word states last fStateScore s (j + 1)
        ⟨(older * word.blockMaxFrmLen + j : ℕ),
          (last (older * word.blockMaxFrmLen + j)).score + fStateScore,
          ((last (older * word.blockMaxFrmLen + j)).score + fStateScore) / (j + 1 + 1 : ℕ),
          (last (older * word.blockMaxFrmLen + j)).totalblockscoreAvg⟩

theorem beginOf_succ_eq {s : ℕ} (hstate : states[s + 1]? = some state) :
    beginOf states (s + 1) = beginOf states s + if state.blockBegin then 1 else 0 := by
  rw [beginOf_succ, hstate]
  rfl

/-- The state before a later one. -/
theorem Chained.preStateLst_succ (h : Chained states) {s : ℕ}
    (hstate : states[s + 1]? = some state) : state.preStateLst = [s + 1, s] := by
  rw [h.preStateLst_eq _ _ hstate, if_neg (Nat.succ_ne_zero s), Nat.add_sub_cancel]

/-- The first frame of a block. -/
theorem dpStep_beginCand (h : Chained states) {s : ℕ} (hstate : states[s]? = some state)
    (fStateScore : ℚ) :
    DpStep word states last fStateScore s 0 (beginCand word last fStateScore state) := by
  unfold beginCand
  by_cases hbegin : state.blockBegin = true
  · rw [if_pos hbegin]
    by_cases hfirst : state.wordBegin = true
    · rw [if_pos hfirst]
      obtain rfl := (h.wordBegin_iff s state hstate).mp hfirst
      exact .first (by rw [hstate]; exact hbegin)
    · rw [if_neg hfirst]
      obtain _ | older := s
      · exact absurd ((h.wordBegin_iff 0 state hstate).mpr rfl) hfirst
      · dsimp only
        obtain hnone | hmem := keepMax_mem (-1, -fltMax) (entryCands word last state)
        · rw [hnone]
          exact .invalid _ _
        · obtain ⟨pre, hpre, n, hmin, hmax, hvalid, hscore, hbest⟩ := mem_entryCands_iff _ |>.mp hmem
          rw [h.preStateLst_succ hstate, List.tail_cons, List.mem_singleton] at hpre
          subst hpre
          rw [hbest, if_neg (by dsimp only; omega)]
          refine .next ?_ hmin hmax hvalid hscore
          rw [beginOf_succ_eq hstate, if_pos hbegin]
  · rw [if_neg hbegin]
    exact .invalid _ _

/-- A state within a block follows itself and the one before, which is in the same block. -/
theorem Chained.of_mem_preStateLst (h : Chained states) {s older : ℕ} (hstate : states[s]? = some state)
    (hbegin : ¬ state.blockBegin = true) (hmem : older ∈ state.preStateLst) :
    (s = older ∨ s = older + 1) ∧ beginOf states s = beginOf states older := by
  cases s with
  | zero =>
      rw [h.preStateLst_eq 0 state hstate, if_pos rfl, List.mem_singleton] at hmem
      subst hmem
      exact ⟨.inl rfl, rfl⟩
  | succ s =>
      rw [h.preStateLst_succ hstate, List.mem_cons, List.mem_singleton] at hmem
      obtain rfl | rfl := hmem
      · exact ⟨.inl rfl, rfl⟩
      · exact ⟨.inr rfl, by rw [beginOf_succ_eq hstate, if_neg hbegin, Nat.add_zero]⟩

/-- The candidate that one of the other frames of a block comes from. -/
theorem stayPre_cases (h : Chained states) {s j : ℕ} (hstate : states[s]? = some state) :
    stayPre word last state (j + 1) = -1 ∨ ∃ older, (s = older ∨ s = older + 1) ∧
      beginOf states s = beginOf states older ∧
      (last (older * word.blockMaxFrmLen + j)).pre ≠ -2 ∧
      stayPre word last state (j + 1) = (older * word.blockMaxFrmLen + j : ℕ) := by
  unfold stayPre
  by_cases hbegin : state.blockBegin = true
  · have hself : state.preStateLst.headD 0 = s := by
      rw [h.preStateLst_eq s state hstate]
      split_ifs with hzero
      · exact hzero.symm
      · rfl
    rw [if_pos hbegin, hself]
    by_cases hvalid : -2 < (last (s * word.blockMaxFrmLen + j)).pre
    · exact .inr ⟨s, .inl rfl, rfl, by omega, if_pos hvalid⟩
    · exact .inl (if_neg hvalid)
  · rw [if_neg hbegin]
    obtain hnone | hmem := keepMax_mem (-1, -fltMax) (stayCands word last state (j + 1))
    · rw [hnone]
      exact .inl rfl
    · obtain ⟨older, holder, hvalid, hbest⟩ := (mem_stayCands_iff _).mp hmem
      obtain ⟨hstep, hblock⟩ := h.of_mem_preStateLst hstate hbegin holder
      rw [hbest]
      exact .inr ⟨older, hstep, hblock, hvalid, rfl⟩

/-- The other frames of a block. -/
theorem dpStep_stayCand (h : Chained states) {s j : ℕ} (hstate : states[s]? = some state)
    (fStateScore : ℚ) :
    DpStep word states last fStateScore s (j + 1)
      (stayCand word last fStateScore state (j + 1)) := by
  obtain hnone | ⟨older, hstep, hblock, hvalid, hpre⟩ := stayPre_cases h hstate
  · rw [stayCand_of_none hnone]
    exact .invalid _ _
  · rw [stayCand_of_some hpre]
    exact .within hstep hblock hvalid

/-- **Every candidate comes from one step.** -/
theorem dpStep_dpRow (h : Chained states) {s j : ℕ} (hs : s < states.length)
    (hj : j < word.blockMaxFrmLen) (row : ℕ → ZVtCand) (frame : ℤ → ℚ) :
    DpStep word states last (frameScores states frame s) s j
      (dpRow word states last row frame (s * word.blockMaxFrmLen + j)) := by
  obtain ⟨state, hstate⟩ : ∃ state, states[s]? = some state := ⟨_, List.getElem?_eq_getElem hs⟩
  rw [dpRow_apply hstate hj, dpCand, frameScores_eq hstate]
  cases j with
  | zero => exact dpStep_beginCand h hstate _
  | succ j => exact dpStep_stayCand h hstate _

end

/-! ## The way back from a candidate -/

section

variable {word : ZVtWord} {states : List ZVtState} {written : ℕ → ℕ → ZVtCand} {past : List Frame}
  {s j n id : ℕ} {cand : ZVtCand} {path : List ℕ}

/-- From a candidate of the last of `n` frames the way back to the beginning of the word goes through
the states of a path; `written f` is the row that was written in the frame `f`. -/
inductive Back (word : ZVtWord) (states : List ZVtState) (written : ℕ → ℕ → ZVtCand) :
    (n id : ℕ) → List ℕ → Prop
  | first {n id : ℕ} (hid : id < states.length * word.blockMaxFrmLen)
      (hpre : (written n id).pre = -1) : Back word states written (n + 1) id [id / word.blockMaxFrmLen]
  | step {n id older : ℕ} {path : List ℕ} (hid : id < states.length * word.blockMaxFrmLen)
      (hpre : (written n id).pre = older) (h : Back word states written n older path) :
      Back word states written (n + 1) id (id / word.blockMaxFrmLen :: path)

theorem Back.length_le (h : Back word states written n id path) : path.length ≤ n := by
  induction h with
  | first hid hpre => exact Nat.succ_le_succ (Nat.zero_le _)
  | step hid hpre h ih => exact Nat.succ_le_succ ih

/-- Only the rows of the frames so far matter. -/
theorem Back.congr {written' : ℕ → ℕ → ZVtCand} (h : Back word states written n id path)
    (hsame : ∀ f < n, written f = written' f) : Back word states written' n id path := by
  induction h with
  | @first n id hid hpre =>
      rw [hsame n (Nat.lt_succ_self n)] at hpre
      exact .first hid hpre
  | @step n id older path hid hpre h ih =>
      rw [hsame n (Nat.lt_succ_self n)] at hpre
      exact .step hid hpre (ih fun f hf ↦ hsame f (Nat.lt_succ_of_lt hf))

/-- A candidate has the score of a path, and the way back from it goes through this path. -/
structure Reached (word : ZVtWord) (states : List ZVtState) (written : ℕ → ℕ → ZVtCand)
    (past : List Frame) (s j : ℕ) (cand : ZVtCand) : Prop where
  begins : (states[0]?).any ZVtState.blockBegin = true
  blockscore_eq : cand.blockscore = cand.score / (j + 1 : ℕ)
  path : ∃ path, Part (beginOf states) word.bounds past path s j cand.score cand.totalblockscoreAvg ∧
    Back word states written past.length (s * word.blockMaxFrmLen + j) path

/-- Every candidate of a row is invalid or has a way back. -/
def RowReached (word : ZVtWord) (states : List ZVtState) (written : ℕ → ℕ → ZVtCand)
    (past : List Frame) (row : ℕ → ZVtCand) : Prop :=
  ∀ s < states.length, ∀ j < word.blockMaxFrmLen,
    row (s * word.blockMaxFrmLen + j) = invalidCand ∨
      Reached word states written past s j (row (s * word.blockMaxFrmLen + j))

theorem RowReached.reached {row : ℕ → ZVtCand} (h : RowReached word states written past row)
    (hs : s < states.length) (hj : j < word.blockMaxFrmLen)
    (hpre : (row (s * word.blockMaxFrmLen + j)).pre ≠ -2) :
    Reached word states written past s j (row (s * word.blockMaxFrmLen + j)) := by
  obtain hinvalid | hreached := h s hs j hj
  · rw [hinvalid] at hpre
    exact absurd rfl hpre
  · exact hreached

/-- A state has the candidates with its number. -/
theorem candId_div (hj : j < word.blockMaxFrmLen) :
    (s * word.blockMaxFrmLen + j) / word.blockMaxFrmLen = s := by
  rw [Nat.mul_comm, Nat.mul_add_div (by omega), Nat.div_eq_of_lt hj, Nat.add_zero]

/-- **One frame gives every candidate a way back.** -/
theorem rowReached_dpRow (h : Chained states) {last row : ℕ → ZVtCand} {frame : ℤ → ℚ}
    {written' : ℕ → ℕ → ZVtCand} (hlast : RowReached word states written past last)
    (hold : ∀ f < past.length, written f = written' f)
    (hnew : written' past.length = dpRow word states last row frame) :
    RowReached word states written' (frameScores states frame :: past)
      (dpRow word states last row frame) := by
  intro s hs j hj
  have hid := candId_lt hs hj
  have hstep : DpStep word states last (frameScores states frame s) s j
      (dpRow word states last row frame (s * word.blockMaxFrmLen + j)) :=
    dpStep_dpRow h hs hj row frame
  have hcell : written' past.length (s * word.blockMaxFrmLen + j) =
      dpRow word states last row frame (s * word.blockMaxFrmLen + j) := by rw [hnew]
  generalize dpRow word states last row frame (s * word.blockMaxFrmLen + j) = cand at hstep hcell
  cases hstep with
  | invalid => exact .inl rfl
  | first hbegin =>
      right
      refine ⟨hbegin, by simp, [0], .start hj, ?_⟩
      have hback : Back word states written' (past.length + 1) _ _ := .first hid (by rw [hcell])
      rwa [candId_div hj] at hback
  | @next older n hblock hmin hmax hpre hscore =>
      right
      obtain ⟨hbegin, hblockscore, path, hpart, hback⟩ := hlast.reached (by omega) hmax hpre
      refine ⟨hbegin, by simp, (older + 1) :: path, ?_, ?_⟩
      · dsimp only
        rw [hblockscore, add_comm ((last _).score / _)]
        exact hpart.next hblock hmin (hblockscore ▸ hscore)
      · have hback' := Back.step hid (by rw [hcell]) (hback.congr hold)
        rwa [candId_div hj] at hback'
  | @within s older j hstep hblock hpre =>
      right
      obtain ⟨hbegin, -, path, hpart, hback⟩ := hlast.reached (by omega) (by omega) hpre
      refine ⟨hbegin, rfl, s :: path, hpart.within hstep hblock hj, ?_⟩
      have hback' := Back.step hid (by rw [hcell]) (hback.congr hold)
      rwa [candId_div hj] at hback'

end

/-! ## The ring -/

namespace DpState

open Vsys.Trace

variable {word : ZVtWord} {states : List ZVtState} {d : DpState} {frames : List (ℤ → ℚ)}

/-- The row that is written in the frame `f` since a `Reset`. -/
def written (word : ZVtWord) (states : List ZVtState) (d : DpState) (frames : List (ℤ → ℚ)) (f : ℕ) :
    ℕ → ZVtCand :=
  (after word states d (frames.take (f + 1))).candLst (f % candLenTotal)

theorem after_concat (frame : ℤ → ℚ) :
    after word states d (frames ++ [frame]) =
      (after word states d frames).processFrame word states frame := by
  rw [after, run_append]
  rfl

theorem frmIdCur_after : (after word states d frames).frmIdCur = frames.length := by
  induction frames using List.reverseRecOn with
  | nil => rfl
  | append_singleton frames frame ih =>
      rw [after_concat, List.length_append, List.length_singleton, ← ih]
      rfl

theorem candIdCur_after :
    (after word states d frames).candIdCur = frames.length % candLenTotal := by
  rw [candIdCur, frmIdCur_after]

/-- A frame writes one row. -/
theorem candLst_after_concat (frame : ℤ → ℚ) :
    (after word states d (frames ++ [frame])).candLst =
      Function.update (after word states d frames).candLst (frames.length % candLenTotal)
        (dpRow word states
          ((after word states d frames).candLst (after word states d frames).candIdLast)
          ((after word states d frames).candLst (frames.length % candLenTotal)) frame) := by
  have hcur : (after word states d frames).candIdCur = frames.length % candLenTotal :=
    candIdCur_after
  rw [after_concat, ← hcur]
  rfl

theorem written_concat (frame : ℤ → ℚ) {f : ℕ} (hf : f < frames.length) :
    written word states d frames f = written word states d (frames ++ [frame]) f := by
  rw [written, written, List.take_append_of_le_length (Nat.succ_le_of_lt hf)]

theorem written_length (frame : ℤ → ℚ) :
    written word states d (frames ++ [frame]) frames.length =
      (after word states d (frames ++ [frame])).candLst (frames.length % candLenTotal) := by
  rw [written, List.take_of_length_le (by simp)]

/-- **The ring holds the rows of the last 400 frames.** -/
theorem candLst_after {f : ℕ} (hf : f < frames.length) (hring : frames.length ≤ f + candLenTotal) :
    (after word states d frames).candLst (f % candLenTotal) = written word states d frames f := by
  induction frames using List.reverseRecOn with
  | nil => exact absurd hf (Nat.not_lt_zero f)
  | append_singleton frames frame ih =>
      rw [List.length_append, List.length_singleton] at hf hring
      obtain hlt | rfl := Nat.lt_succ_iff_lt_or_eq.mp hf
      · -- the row of the new frame is another one
        have hrow : f % candLenTotal ≠ frames.length % candLenTotal := by
          rw [candLenTotal] at hring ⊢
          omega
        rw [candLst_after_concat, Function.update_of_ne hrow, ← written_concat frame hlt]
        exact ih hlt (by omega)
      · rw [written_length]

/-- Every candidate of the last frame has a way back. -/
theorem rowReached_after (h : Chained states) (d : DpState) (frames : List (ℤ → ℚ)) :
    RowReached word states (written word states d frames) (pastOf states frames)
      ((after word states d frames).candLst (after word states d frames).candIdLast) := by
  induction frames using List.reverseRecOn with
  | nil =>
      intro s hs j hj
      left
      show (d.reset word states).candLst ((0 + candLenTotal - 1) % candLenTotal) _ = _
      rw [reset]
      dsimp only
      rw [Function.update_self, if_pos (candId_lt hs hj)]
  | append_singleton frames frame ih =>
      have hlength : (pastOf states frames).length = frames.length := by
        rw [pastOf, List.length_reverse, List.length_map]
      have hrow : (after word states d (frames ++ [frame])).candLst (frames.length % candLenTotal) =
          dpRow word states
            ((after word states d frames).candLst (after word states d frames).candIdLast)
            ((after word states d frames).candLst (frames.length % candLenTotal)) frame := by
        rw [candLst_after_concat, Function.update_self]
      have hlast : (after word states d (frames ++ [frame])).candIdLast =
          frames.length % candLenTotal := by
        rw [after_concat, candIdLast_processFrame, candIdCur_after]
      rw [pastOf_concat, hlast, hrow]
      refine rowReached_dpRow h ih (fun f hf ↦ written_concat frame (hlength ▸ hf)) ?_
      rw [hlength, written_length, hrow]

end DpState

/-! ## The loop -/

section

variable {word : ZVtWord} {states : List ZVtState} {written : ℕ → ℕ → ZVtCand}

/-- What the loop reads in at most `fuel` rounds, if the way back of `path` begins in the frame `m`:
candidates that stand in the ring as they were written, and are not invalid. -/
structure ReadBack (word : ZVtWord) (states : List ZVtState) (candLst written : ℕ → ℕ → ZVtCand)
    (fuel m : ℕ) (path : List ℕ) (cells : List (ℕ × ℕ)) : Prop where
  states_eq : cells.map (fun cell ↦ cell.2 / word.blockMaxFrmLen) = path.take fuel
  fresh : ∀ i row id, cells[i]? = some (row, id) →
    i ≤ m ∧ i < fuel ∧ row = (m - i) % candLenTotal ∧ id < states.length * word.blockMaxFrmLen ∧
      candLst row id = written (m - i) id ∧ (candLst row id).pre ≠ -2

theorem backLoop_neg_one (candLst : ℕ → ℕ → ZVtCand) (fuel : ℕ) (k : ℤ) :
    backLoop candLst fuel k (-1) = [] := by
  cases fuel <;> rfl

/-- One round of the loop. -/
theorem backLoop_succ (candLst : ℕ → ℕ → ZVtCand) (fuel : ℕ) {k : ℤ} {row id : ℕ}
    (hk : (if k < 0 then k + candLenTotal else k) = row) (hpre : (candLst row id).pre ≠ -2) :
    backLoop candLst (fuel + 1) k id =
      (row, id) :: backLoop candLst fuel (row - 1) (candLst row id).pre := by
  rw [backLoop, if_neg (by omega)]
  dsimp only
  rw [hk, Int.toNat_natCast, Int.toNat_natCast, if_neg hpre]

/-- The candidate of a round, and those of the rounds behind it. -/
theorem ReadBack.cons {candLst : ℕ → ℕ → ZVtCand} {fuel m id : ℕ} {path : List ℕ}
    {cells : List (ℕ × ℕ)} (hid : id < states.length * word.blockMaxFrmLen)
    (hrow : candLst (m % candLenTotal) id = written m id)
    (hpre : (candLst (m % candLenTotal) id).pre ≠ -2)
    (h : cells = [] ∧ path = [] ∨
      ∃ older, m = older + 1 ∧ ReadBack word states candLst written fuel older path cells) :
    ReadBack word states candLst written (fuel + 1) m (id / word.blockMaxFrmLen :: path)
      ((m % candLenTotal, id) :: cells) := by
  have hfirst : ∀ row id', ((m % candLenTotal, id) :: cells)[0]? = some (row, id') →
      row = m % candLenTotal ∧ id' = id := by
    rintro row id' hcell
    rw [List.getElem?_cons_zero, Option.some_inj, Prod.mk.injEq] at hcell
    exact ⟨hcell.1.symm, hcell.2.symm⟩
  obtain ⟨rfl, rfl⟩ | ⟨older, rfl, hstates, hfresh⟩ := h
  · refine ⟨by rw [List.take_succ_cons, List.take_nil]; rfl, fun i row id' hcell ↦ ?_⟩
    cases i with
    | zero =>
        obtain ⟨rfl, rfl⟩ := hfirst row id' hcell
        exact ⟨Nat.zero_le m, Nat.succ_pos fuel, rfl, hid, hrow, hpre⟩
    | succ i => exact nomatch hcell
  · refine ⟨by rw [List.map_cons, hstates, List.take_succ_cons], fun i row id' hcell ↦ ?_⟩
    cases i with
    | zero =>
        obtain ⟨rfl, rfl⟩ := hfirst row id' hcell
        exact ⟨Nat.zero_le _, Nat.succ_pos fuel, rfl, hid, hrow, hpre⟩
    | succ i =>
        rw [List.getElem?_cons_succ] at hcell
        obtain ⟨hi, hfuel, hrow', hid', hsame, hvalid⟩ := hfresh i row id' hcell
        rw [Nat.add_sub_add_right]
        exact ⟨Nat.succ_le_succ hi, Nat.succ_lt_succ hfuel, hrow', hid', hsame, hvalid⟩

/-- **The loop goes the way back.** -/
theorem readBack_backLoop {candLst : ℕ → ℕ → ZVtCand} {m id : ℕ} {path : List ℕ} (fuel : ℕ) {k : ℤ}
    (h : Back word states written (m + 1) id path)
    (hk : (if k < 0 then k + candLenTotal else k) = (m % candLenTotal : ℕ))
    (hring : ∀ i < fuel, i ≤ m → candLst ((m - i) % candLenTotal) = written (m - i)) :
    ReadBack word states candLst written fuel m path (backLoop candLst fuel k id) := by
  induction fuel generalizing m id path k with
  | zero => exact ⟨rfl, fun i row id' hcell ↦ nomatch hcell⟩
  | succ fuel ih =>
      have hrow : candLst (m % candLenTotal) id = written m id := by
        have hnow := hring 0 (Nat.succ_pos fuel) (Nat.zero_le m)
        rw [Nat.sub_zero] at hnow
        rw [hnow]
      cases h with
      | first hid hpre =>
          have hvalid : (candLst (m % candLenTotal) id).pre ≠ -2 := by
            rw [hrow, hpre]
            decide
          rw [backLoop_succ candLst fuel hk hvalid, hrow, hpre, backLoop_neg_one]
          exact .cons hid hrow hvalid (.inl ⟨rfl, rfl⟩)
      | @step _ _ older path hid hpre h =>
          have hvalid : (candLst (m % candLenTotal) id).pre ≠ -2 := by
            rw [hrow, hpre]
            omega
          rw [backLoop_succ candLst fuel hk hvalid]
          obtain _ | m := m
          · exact nomatch h
          · refine .cons hid hrow hvalid (.inr ⟨m, rfl, ?_⟩)
            rw [hrow, hpre]
            refine ih h ?_ fun i hi him ↦ ?_
            · -- the row before, around the end of the ring
              rw [candLenTotal]
              split_ifs with hwrap
              · omega
              · omega
            · have hnext := hring (i + 1) (Nat.succ_lt_succ hi) (Nat.succ_le_succ him)
              rwa [Nat.add_sub_add_right] at hnext

end

/-! ## The best candidate -/

namespace DpState

variable {word : ZVtWord} {states : List ZVtState} {d : DpState} {frames : List (ℤ → ℚ)}

theorem candScoreBest_dynamicProgramming (d : DpState) (frame : ℤ → ℚ) :
    (d.dynamicProgramming word states frame).candScoreBest d.candIdCur =
      (keepMax (-1, -fltMax) (bestCands word states
        ((d.dynamicProgramming word states frame).candLst d.candIdCur))).2 := by
  rw [dynamicProgramming]
  dsimp only
  rw [Function.update_self, Function.update_self]

theorem candIdBest_dynamicProgramming (d : DpState) (frame : ℤ → ℚ) :
    (d.dynamicProgramming word states frame).candIdBest d.candIdCur =
      (keepMax (-1, -fltMax) (bestCands word states
        ((d.dynamicProgramming word states frame).candLst d.candIdCur))).1 := by
  rw [dynamicProgramming]
  dsimp only
  rw [Function.update_self, Function.update_self]

theorem le_candScoreBest_dynamicProgramming (d : DpState) (frame : ℤ → ℚ) :
    -fltMax ≤ (d.dynamicProgramming word states frame).candScoreBest d.candIdCur := by
  rw [candScoreBest_dynamicProgramming]
  exact first_le_keepMax _ _

/-- No best score is below the sentinel. -/
theorem le_candScoreBest_after (d : DpState) (frames : List (ℤ → ℚ)) (row : ℕ) :
    -fltMax ≤ (after word states d frames).candScoreBest row := by
  induction frames using List.reverseRecOn with
  | nil =>
      show -fltMax ≤ (0 : ℚ)
      norm_num [fltMax]
  | append_singleton frames frame ih =>
      rw [after_concat]
      by_cases hrow : row = (after word states d frames).candIdCur
      · rw [hrow]
        exact le_candScoreBest_dynamicProgramming _ _
      · rw [processFrame, dynamicProgramming]
        dsimp only
        rw [Function.update_of_ne hrow]
        exact ih

/-- The row of the current frame, in which every candidate has a way back. -/
theorem rowReached_dynamicProgramming (h : Chained states) (d : DpState) (frames : List (ℤ → ℚ))
    (frame : ℤ → ℚ) :
    RowReached word states (written word states d (frames ++ [frame]))
      (pastOf states (frames ++ [frame]))
      (((after word states d frames).dynamicProgramming word states frame).candLst
        (frames.length % candLenTotal)) := by
  have hreached : RowReached word states (written word states d (frames ++ [frame]))
      (pastOf states (frames ++ [frame])) ((after word states d (frames ++ [frame])).candLst
        (after word states d (frames ++ [frame])).candIdLast) :=
    rowReached_after h d (frames ++ [frame])
  rw [after_concat, candIdLast_processFrame, candIdCur_after] at hreached
  exact hreached

/-- A best score above the sentinel is that of a candidate at the end of the word. -/
theorem keepMax_mem_bestCands {row : ℕ → ZVtCand}
    (hlt : -fltMax < (keepMax (-1, -fltMax) (bestCands word states row)).2) :
    0 < states.length ∧
      keepMax (-1, -fltMax) (bestCands word states row) ∈ bestCands word states row := by
  have hmem := (keepMax_mem (-1, -fltMax) (bestCands word states row)).resolve_left fun hfirst ↦ by
    rw [hfirst] at hlt
    exact lt_irrefl _ hlt
  have hpos : 0 < states.length := by
    by_contra hzero
    rw [bestCands, Nat.eq_zero_of_not_pos hzero] at hmem
    exact absurd hmem List.not_mem_nil
  exact ⟨hpos, hmem⟩

/-- **`GetBestLen` goes back along an alignment.** -/
theorem exists_alignment_of_lt (h : Chained states) (hmin : -fltMax < word.blockMinScore)
    (d : DpState) (frames : List (ℤ → ℚ)) (frame : ℤ → ℚ) {t : DpState}
    (ht : t = (after word states d frames).dynamicProgramming word states frame)
    (hlt : -fltMax < t.candScoreBest t.candIdCur) :
    ∃ path, Alignment (beginOf states) word.bounds (blockNum states) (states.length - 1)
        (pastOf states (frames ++ [frame])) path ∧
      alignmentScore (beginOf states) (blockNum states) (pastOf states (frames ++ [frame])) path =
        t.candScoreBest t.candIdCur ∧
      path.length ≤ frames.length + 1 ∧
      ReadBack word states t.candLst (written word states d (frames ++ [frame])) candLenTotal
        frames.length path (t.backCells t.frmIdCur) := by
  have hcur : t.candIdCur = frames.length % candLenTotal := by
    rw [ht]
    exact candIdCur_after
  have hfrm : t.frmIdCur = frames.length := by
    rw [ht]
    exact frmIdCur_after
  have hlst : t.candLst = (after word states d (frames ++ [frame])).candLst := by
    rw [ht, after_concat]
    rfl
  have hscore : t.candScoreBest t.candIdCur =
      (keepMax (-1, -fltMax) (bestCands word states (t.candLst t.candIdCur))).2 := by
    rw [ht]
    exact candScoreBest_dynamicProgramming _ frame
  have hid : t.candIdBest t.candIdCur =
      (keepMax (-1, -fltMax) (bestCands word states (t.candLst t.candIdCur))).1 := by
    rw [ht]
    exact candIdBest_dynamicProgramming _ frame
  have hlength : (pastOf states (frames ++ [frame])).length = frames.length + 1 := by
    rw [pastOf, List.length_reverse, List.length_map, List.length_append, List.length_singleton]
  have hrow : RowReached word states (written word states d (frames ++ [frame]))
      (pastOf states (frames ++ [frame])) (t.candLst t.candIdCur) := by
    rw [hcur, ht]
    exact rowReached_dynamicProgramming h d frames frame
  rw [hscore] at hlt
  obtain ⟨hpos, hmem⟩ := keepMax_mem_bestCands hlt
  obtain ⟨j, hjmin, hjmax, hblock, hbest⟩ := (mem_bestCands_iff hpos h.wordEnd_iff _).mp hmem
  obtain hinvalid | ⟨hbegin, hblockscore, path, hpart, hback⟩ := hrow _ (Nat.pred_lt hpos.ne') j hjmax
  · rw [Nat.pred_eq_sub_one] at hinvalid
    rw [hinvalid] at hblock
    exact absurd hmin hblock
  · rw [Nat.pred_eq_sub_one] at hblockscore hpart hback
    rw [hlength] at hback
    rw [hbest] at hscore hid
    obtain ⟨hpath, hvalue⟩ := (alignment_iff (numbers_beginOf states) (h.blockNum_eq hbegin) _).mpr
      ⟨j, _, _, hpart, hjmin, hblockscore ▸ not_lt.mp hblock, rfl⟩
    refine ⟨path, hpath, ?_, hback.length_le, ?_⟩
    · rw [hvalue, hscore, hblockscore, add_comm (_ / _)]
    · rw [backCells, ← candIdCur, hid, hfrm, hcur, Nat.sub_self, Nat.sub_zero]
      refine readBack_backLoop candLenTotal hback (if_neg (by omega)) fun i hi hle ↦ ?_
      rw [hlst]
      apply candLst_after
      · rw [List.length_append, List.length_singleton]
        omega
      · rw [List.length_append, List.length_singleton]
        omega

end DpState

/-! ## Whole runs -/

namespace VtDet

/-- What the checks leave as it is. -/
structure Keeps (d d' : VtDet) : Prop where
  frmIdBest : d'.frmIdBest = d.frmIdBest
  frmIdCur : d'.frmIdCur = d.frmIdCur
  vtWord : d'.vtWord = d.vtWord

theorem Keeps.trans {d d' d'' : VtDet} (h : Keeps d d') (h' : Keeps d' d'') : Keeps d d'' :=
  ⟨h'.frmIdBest.trans h.frmIdBest, h'.frmIdCur.trans h.frmIdCur, h'.vtWord.trans h.vtWord⟩

section Checks

variable (d : VtDet) (offset : ℤ) (input : FrmIn) (aec : Bool)

theorem keeps_processMsgPre : Keeps d (d.processMsgPre offset input) := by
  unfold processMsgPre
  dsimp only
  split_ifs <;> exact ⟨rfl, rfl, rfl⟩

theorem keeps_processMsgBest : Keeps d d.processMsgBest := by
  unfold processMsgBest
  split_ifs <;> exact ⟨rfl, rfl, rfl⟩

theorem keeps_processMsgCfCheck : Keeps d (d.processMsgCfCheck input).1 := by
  unfold processMsgCfCheck
  dsimp only
  split_ifs <;> exact ⟨rfl, rfl, rfl⟩

theorem keeps_processMsgEnergy : Keeps d (d.processMsgEnergy input) := by
  unfold processMsgEnergy
  dsimp only
  split_ifs <;> exact ⟨rfl, rfl, rfl⟩

theorem keeps_processMsgLeftSil : Keeps d (d.processMsgLeftSil input aec).1 := by
  unfold processMsgLeftSil
  dsimp only
  split_ifs <;> exact ⟨rfl, rfl, rfl⟩

theorem keeps_processMsgRightSil : Keeps d (d.processMsgRightSil input aec).1 := by
  unfold processMsgRightSil
  dsimp only
  split_ifs <;> exact ⟨rfl, rfl, rfl⟩

theorem keeps_checkStatus : Keeps d (d.checkStatus offset input aec).1 := by
  simp only [checkStatus, runChecks]
  exact (keeps_processMsgPre d offset input).trans <| (keeps_processMsgBest _).trans <|
    (keeps_processMsgCfCheck _ input).trans <| (keeps_processMsgEnergy _ input).trans <|
      (keeps_processMsgLeftSil _ input aec).trans (keeps_processMsgRightSil _ input aec)

/-- The end of the voice changes `m_iFrmId_Best` only if there is none. -/
theorem keeps_processVadEnd (h : d.frmIdBest ≠ -1 ∨ d.status = .ready) :
    Keeps d (d.processVadEnd input aec).1 := by
  unfold processVadEnd
  by_cases hprocess : d.status = .process
  · have hbest : d.frmIdBest ≠ -1 := h.resolve_right (by rw [hprocess]; decide)
    rw [if_pos hprocess, if_neg hbest]
    dsimp only
    split_ifs <;> exact ⟨rfl, rfl, rfl⟩
  · rw [if_neg hprocess]
    exact ⟨rfl, rfl, rfl⟩

end Checks

end VtDet

namespace ScoreDet

theorem candIdLast_ne_candIdCur (d : DpState) : d.candIdLast ≠ d.candIdCur := by
  rw [DpState.candIdLast, DpState.candIdCur, candLenTotal]
  omega

theorem candScoreBest_candIdLast (d : DpState) (word : ZVtWord) (frame : ℤ → ℚ) :
    (d.dynamicProgramming word states frame).candScoreBest
        (d.dynamicProgramming word states frame).candIdLast = d.candScoreBest d.candIdLast :=
  Function.update_of_ne (candIdLast_ne_candIdCur d) _ _

/-- Since `Reset` every frame has been scored, or a best frame is known. -/
structure Scored (states : List ZVtState) (start : ScoreDet) (frames : List (ℤ → ℚ))
    (s : ScoreDet) : Prop where
  vtWord_eq : s.det.vtWord = start.det.vtWord
  frmIdCur_nonneg : 0 ≤ s.det.frmIdCur
  best_or : s.det.frmIdBest ≠ -1 ∨
    s.det.status = .ready ∧ s.det.frmIdCur = frames.length ∧ s.bestScore = bestScoreStart ∧
      s.dp = DpState.after start.det.vtWord states start.dp frames

end ScoreDet

/-- The score frames of an operation. -/
def ScoreOp.frames : ScoreOp → List (ℤ → ℚ)
  | .frame scores _ _ _ => [scores]
  | .vadEnd _ _ => []
  | .best scores => [scores]

namespace ScoreDet

open Vsys.Trace

variable {states : List ZVtState} {start s : ScoreDet} {frames : List (ℤ → ℚ)}

theorem scored_reset (states : List ZVtState) (start : ScoreDet) :
    Scored states start [] (start.reset states) :=
  ⟨rfl, le_rfl, .inr ⟨rfl, rfl, rfl, rfl⟩⟩

/-- `UpdateFrmScore` triggers a detection, or it leaves the detector ready. -/
theorem updateFrmScore_det (states : List ZVtState) (s : ScoreDet) (frame : ℤ → ℚ)
    (answers : FrmIn) (hbest : s.det.frmIdBest = -1) (hstatus : s.det.status = .ready) :
    (s.Triggers states frame ∧
        (s.updateFrmScore states frame answers).det.frmIdBest = s.det.frmIdCur ∧
        (s.updateFrmScore states frame answers).det.frmIdStart =
          s.det.frmIdCur - (s.updateFrmScore states frame answers).dp.getBestLen s.dp.frmIdCur) ∨
      ¬ s.Triggers states frame ∧
        (s.updateFrmScore states frame answers).det.frmIdBest = -1 ∧
        (s.updateFrmScore states frame answers).det.status = .ready := by
  simp only [Triggers, updateFrmScore, VtDet.updateFrmScore]
  by_cases hcross : Crosses s.det.vtWord (s.dp.dynamicProgramming s.det.vtWord states frame)
  · left
    rw [if_pos ⟨hstatus, hcross⟩]
    exact ⟨⟨hbest, hstatus, hcross⟩, rfl, rfl⟩
  · right
    rw [if_neg fun h ↦ hcross h.2]
    exact ⟨fun h ↦ hcross h.2.2, hbest, hstatus⟩

theorem updateFrmScore_keeps (states : List ZVtState) (s : ScoreDet) (frame : ℤ → ℚ)
    (answers : FrmIn) :
    (s.updateFrmScore states frame answers).det.vtWord = s.det.vtWord ∧
      (s.updateFrmScore states frame answers).det.frmIdCur = s.det.frmIdCur := by
  simp only [updateFrmScore, VtDet.updateFrmScore]
  split_ifs <;> exact ⟨rfl, rfl⟩

/-- The checks of a frame, and the count of the frames. -/
theorem Scored.checked (hword : s.det.vtWord = start.det.vtWord) (hcur : 0 ≤ s.det.frmIdCur)
    (hbest : s.det.frmIdBest ≠ -1) (frames : List (ℤ → ℚ)) (offset : ℤ) (answers : FrmIn)
    (aec : Bool) :
    Scored states start frames
      ({ s with det := (s.det.checkStatus offset answers aec).1 } : ScoreDet).countFrm := by
  have hkeeps := s.det.keeps_checkStatus offset answers aec
  generalize (s.det.checkStatus offset answers aec).1 = det at hkeeps ⊢
  obtain ⟨hkeepBest, hkeepCur, hkeepWord⟩ := hkeeps
  refine ⟨hkeepWord.trans hword, ?_, .inl fun hnone ↦ hbest (hkeepBest.symm.trans hnone)⟩
  show 0 ≤ det.frmIdCur + 1
  omega

theorem Scored.processFrm (h : Scored states start frames s) (frame : ℤ → ℚ) (offset : ℤ)
    (answers : FrmIn) (aec : Bool) :
    Scored states start (frames ++ [frame]) (s.processFrm states frame offset answers aec) := by
  obtain ⟨hword, hcur, hbest | ⟨hstatus, hfrm, hscore, hdp⟩⟩ := h
  · rw [ScoreDet.processFrm, if_neg fun hupdate ↦ hbest hupdate.1]
    exact .checked hword hcur hbest _ offset answers aec
  · by_cases hbest : s.det.frmIdBest = -1
    · rw [ScoreDet.processFrm, if_pos ⟨hbest, .inr hstatus⟩]
      obtain ⟨hkeepWord, hkeepCur⟩ := s.updateFrmScore_keeps states frame answers
      obtain ⟨-, hknown, -⟩ | ⟨-, hnone, hready⟩ :=
        updateFrmScore_det states s frame answers hbest hstatus
      · refine .checked (hkeepWord.trans hword) (hkeepCur ▸ hcur) ?_ _ offset answers aec
        rw [hknown]
        omega
      · have hdp' : (s.updateFrmScore states frame answers).dp =
            (DpState.after start.det.vtWord states start.dp frames).dynamicProgramming
              start.det.vtWord states frame := by rw [← hdp, ← hword]; rfl
        have hscore' : (s.updateFrmScore states frame answers).bestScore = bestScoreStart := hscore
        rw [VtDet.checkStatus_ready answers aec hready]
        generalize s.updateFrmScore states frame answers = s' at *
        refine ⟨hkeepWord.trans hword, ?_, .inr ⟨hready, ?_, hscore', ?_⟩⟩
        · show 0 ≤ s'.det.frmIdCur + 1
          omega
        · show s'.det.frmIdCur + 1 = _
          rw [hkeepCur, hfrm, List.length_append, List.length_singleton]
          rfl
        · show { s'.dp with frmIdCur := s'.dp.frmIdCur + 1 } = _
          rw [DpState.after_concat, hdp']
          rfl
    · rw [ScoreDet.processFrm, if_neg fun hupdate ↦ hbest hupdate.1]
      exact .checked hword hcur hbest _ offset answers aec

/-- `GetBestScore` finds a best frame in its first round. -/
theorem Scored.processBest (h : Scored states start frames s) (frame : ℤ → ℚ) :
    Scored states start (frames ++ [frame]) (s.processBest states frame) := by
  obtain ⟨hword, hcur, hbest⟩ := h
  rw [ScoreDet.processBest]
  dsimp only
  split_ifs with hless
  · refine ⟨hword, ?_, .inl ?_⟩
    · show 0 ≤ s.det.frmIdCur + 1
      omega
    · show s.det.frmIdCur ≠ -1
      omega
  · refine ⟨hword, ?_, .inl ?_⟩
    · show 0 ≤ s.det.frmIdCur + 1
      omega
    · obtain hbest | ⟨-, -, hscore, -⟩ := hbest
      · exact hbest
      · rw [hscore] at hless
        have hle : -fltMax ≤ (s.dp.dynamicProgramming s.det.vtWord states frame).candScoreBest
            (s.dp.dynamicProgramming s.det.vtWord states frame).candIdCur :=
          DpState.le_candScoreBest_dynamicProgramming s.dp frame
        exact absurd (lt_of_lt_of_le (by norm_num [bestScoreStart, fltMax]) hle) hless

theorem Scored.processVadEnd (h : Scored states start frames s) (endIn : FrmIn) (aec : Bool) :
    Scored states start frames { s with det := (s.det.processVadEnd endIn aec).1 } := by
  obtain ⟨hword, hcur, hbest⟩ := h
  obtain ⟨hkeepBest, hkeepCur, hkeepWord⟩ :=
    s.det.keeps_processVadEnd endIn aec (hbest.imp_right And.left)
  refine ⟨hkeepWord.trans hword, hcur.trans hkeepCur.ge, ?_⟩
  obtain hbest | ⟨hstatus, hfrm, hscore, hdp⟩ := hbest
  · exact .inl fun hnone ↦ hbest (hkeepBest.symm.trans hnone)
  · right
    have hready : (s.det.processVadEnd endIn aec).1 = s.det := by
      rw [VtDet.processVadEnd, if_neg (by rw [hstatus]; decide)]
    dsimp only
    rw [hready]
    exact ⟨hstatus, hfrm, hscore, hdp⟩

/-- **Every operation keeps the detector scored.** -/
theorem Scored.step (h : Scored states start frames s) (op : ScoreOp) :
    Scored states start (frames ++ op.frames) (s.step states op) := by
  cases op with
  | frame frame offset answers aec => exact h.processFrm frame offset answers aec
  | vadEnd endIn aec =>
      rw [ScoreOp.frames, List.append_nil]
      exact h.processVadEnd endIn aec
  | best frame => exact h.processBest frame

/-- The score frames of a run. -/
def framesOf (ops : List ScoreOp) : List (ℤ → ℚ) := ops.flatMap ScoreOp.frames

theorem scored_run (states : List ZVtState) (start : ScoreDet) (ops : List ScoreOp) :
    Scored states start (framesOf ops) (run (ScoreDet.step states) (start.reset states) ops) := by
  induction ops using List.reverseRecOn with
  | nil => exact scored_reset states start
  | append_singleton ops op ih =>
      rw [run_append, framesOf, List.flatMap_append, List.flatMap_singleton]
      exact ih.step op

/-- What `GetBestLen` reads and returns when a detection is triggered in the last of `frames`. -/
structure Traced (states : List ZVtState) (start : ScoreDet) (frames : List (ℤ → ℚ))
    (s : ScoreDet) : Prop where
  alignment : ∃ path, Alignment (beginOf states) start.det.vtWord.bounds (blockNum states)
      (states.length - 1) (DpState.pastOf states frames) path ∧
    alignmentScore (beginOf states) (blockNum states) (DpState.pastOf states frames) path =
      s.dp.candScoreBest s.dp.candIdCur ∧
    ReadBack start.det.vtWord states s.dp.candLst
      (DpState.written start.det.vtWord states start.dp frames) candLenTotal (frames.length - 1)
      path (s.dp.backCells s.dp.frmIdCur) ∧
    s.dp.getBestLen s.dp.frmIdCur = min candLenTotal path.length
  frmIdStart_eq : s.det.frmIdStart = s.det.frmIdCur - s.dp.getBestLen s.dp.frmIdCur
  frmIdStart_ge : -1 ≤ s.det.frmIdStart

/-- **A detection is traced back to its beginning.**  For every word whose smallest mean is above the
sentinel, in every run since a `Reset`, whatever the ring held before: when a detection is triggered,
`GetBestLen` reads candidates that have been written since the `Reset` and not overwritten, none of
them is invalid, it returns the smaller one of 400 and the length of an alignment with the best score,
and `m_iFrmId_Start` is at least `-1`. -/
theorem traced_of_triggers (phones : List Pho) (start : ScoreDet)
    (hmin : -fltMax < start.det.vtWord.blockMinScore) (ops : List ScoreOp) (frame : ℤ → ℚ)
    (answers : FrmIn)
    (htriggers : (run (ScoreDet.step (setPhoBatchLst (parseWord phones)))
      (start.reset (setPhoBatchLst (parseWord phones))) ops).Triggers
        (setPhoBatchLst (parseWord phones)) frame) :
    Traced (setPhoBatchLst (parseWord phones)) start (framesOf ops ++ [frame])
      ((run (ScoreDet.step (setPhoBatchLst (parseWord phones)))
        (start.reset (setPhoBatchLst (parseWord phones))) ops).updateFrmScore
          (setPhoBatchLst (parseWord phones)) frame answers) := by
  have hchained := chained_setPhoBatchLst phones
  generalize setPhoBatchLst (parseWord phones) = states at hchained htriggers ⊢
  have hscored := scored_run states start ops
  generalize run (ScoreDet.step states) (start.reset states) ops = s at hscored htriggers ⊢
  obtain ⟨hbest, hstatus, hrise, hlow, hhigh⟩ := htriggers
  obtain ⟨hword, -, hknown | ⟨-, hfrm, -, hdp⟩⟩ := hscored
  · exact absurd hbest hknown
  have hdp' : (s.updateFrmScore states frame answers).dp =
      (DpState.after start.det.vtWord states start.dp (framesOf ops)).dynamicProgramming
        start.det.vtWord states frame := by rw [← hdp, ← hword]; rfl
  obtain ⟨-, hkeepCur⟩ := s.updateFrmScore_keeps states frame answers
  obtain ⟨-, -, hstart⟩ := (updateFrmScore_det states s frame answers hbest hstatus).resolve_right
    fun h ↦ h.1 ⟨hbest, hstatus, hrise, hlow, hhigh⟩
  -- the score has risen, so it is not the sentinel
  have hlt : -fltMax < (s.updateFrmScore states frame answers).dp.candScoreBest
      (s.updateFrmScore states frame answers).dp.candIdCur := by
    refine lt_of_le_of_lt ?_ hrise
    rw [candScoreBest_candIdLast, hdp]
    exact DpState.le_candScoreBest_after start.dp (framesOf ops) _
  have hdpCur : (s.updateFrmScore states frame answers).dp.frmIdCur = s.dp.frmIdCur := rfl
  rw [← hdpCur] at hstart
  generalize s.updateFrmScore states frame answers = s' at hdp' hkeepCur hstart hlt ⊢
  obtain ⟨path, hpath, hscore, hlength, hread⟩ :=
    DpState.exists_alignment_of_lt hchained hmin start.dp (framesOf ops) frame hdp' hlt
  have hlen : s'.dp.getBestLen s'.dp.frmIdCur = min candLenTotal path.length := by
    have hmap := congrArg List.length hread.states_eq
    rwa [List.length_map, List.length_take] at hmap
  refine ⟨⟨path, hpath, hscore, ?_, hlen⟩, by rw [hstart, hkeepCur], ?_⟩
  · rw [List.length_append, List.length_singleton, Nat.add_sub_cancel]
    exact hread
  · rw [hstart, hlen, hfrm]
    omega

/-- A new detector of a word, with empty tables. -/
def ofWord (word : ZVtWord) : ScoreDet where
  det := { vtWord := word, addr := 0, dsCb := false }
  dp := DpState.blank
  bestScore := 0

/-- Turns of the loop in `ProcessScore`. -/
def frameOps (frames : List (ℤ → ℚ)) : List ScoreOp :=
  frames.map fun frame ↦ .frame frame 1 default false

theorem framesOf_frameOps (frames : List (ℤ → ℚ)) : framesOf (frameOps frames) = frames := by
  rw [framesOf, frameOps, List.flatMap_map]
  exact List.flatMap_singleton' frames

/-- The best score of the last frame since a `Reset`. -/
def bestAfter (word : ZVtWord) (states : List ZVtState) (d : DpState) (frames : List (ℤ → ℚ)) : ℚ :=
  (DpState.after word states d frames).candScoreBest (DpState.after word states d frames).candIdLast

theorem crosses_after_iff (word : ZVtWord) (states : List ZVtState) (d : DpState)
    (frames : List (ℤ → ℚ)) (frame : ℤ → ℚ) :
    Crosses word ((DpState.after word states d frames).dynamicProgramming word states frame) ↔
      bestAfter word states d (frames ++ [frame]) > bestAfter word states d frames ∧
        bestAfter word states d frames < word.blockAvgScore ∧
        bestAfter word states d (frames ++ [frame]) > word.blockAvgScore := by
  have hcur : bestAfter word states d (frames ++ [frame]) =
      ((DpState.after word states d frames).dynamicProgramming word states frame).candScoreBest
        (DpState.after word states d frames).candIdCur := by
    rw [bestAfter, DpState.after_concat, DpState.candIdLast_processFrame]
    rfl
  rw [Crosses, candScoreBest_candIdLast, hcur]
  rfl

/-- As long as the best score does not rise, the detector stays ready. -/
theorem run_frameOps {states : List ZVtState} (start : ScoreDet) {frames : List (ℤ → ℚ)}
    (hquiet : ∀ n < frames.length,
      bestAfter start.det.vtWord states start.dp (frames.take (n + 1)) ≤
        bestAfter start.det.vtWord states start.dp (frames.take n)) :
    (run (ScoreDet.step states) (start.reset states) (frameOps frames)).det.frmIdBest = -1 := by
  induction frames using List.reverseRecOn with
  | nil => rfl
  | append_singleton frames frame ih =>
      have hbest := ih fun n hn ↦ by
        have hlater := hquiet n (by rw [List.length_append]; omega)
        rwa [List.take_append_of_le_length hn.le,
          List.take_append_of_le_length (Nat.succ_le_of_lt hn)] at hlater
      have hnow := hquiet frames.length (by simp)
      rw [List.take_left, List.take_of_length_le (by simp)] at hnow
      have hscored := scored_run states start (frameOps frames)
      rw [framesOf_frameOps] at hscored
      rw [frameOps, List.map_append, run_append, ← frameOps]
      generalize run (ScoreDet.step states) (start.reset states) (frameOps frames) = s at *
      obtain ⟨hword, -, hknown | ⟨hstatus, -, -, hdp⟩⟩ := hscored
      · exact absurd hbest hknown
      · obtain ⟨⟨-, -, hcross⟩, -⟩ | ⟨-, hnone, hready⟩ :=
          updateFrmScore_det states s frame default hbest hstatus
        · rw [hdp, hword, crosses_after_iff] at hcross
          exact absurd hcross.1 (not_lt.mpr hnow)
        · show (s.processFrm states frame 1 default false).det.frmIdBest = -1
          rw [processFrm, if_pos ⟨hbest, .inr hstatus⟩, VtDet.checkStatus_ready default false hready]
          exact hnone

/-- The frame in which the best score crosses the threshold triggers a detection. -/
theorem triggers_frameOps {states : List ZVtState} (start : ScoreDet) {frames : List (ℤ → ℚ)}
    {frame : ℤ → ℚ}
    (hquiet : ∀ n < frames.length,
      bestAfter start.det.vtWord states start.dp (frames.take (n + 1)) ≤
        bestAfter start.det.vtWord states start.dp (frames.take n))
    (hlow : bestAfter start.det.vtWord states start.dp frames < start.det.vtWord.blockAvgScore)
    (hhigh : bestAfter start.det.vtWord states start.dp (frames ++ [frame]) >
      start.det.vtWord.blockAvgScore) :
    (run (ScoreDet.step states) (start.reset states) (frameOps frames)).Triggers states frame := by
  have hbest := run_frameOps start hquiet
  have hscored := scored_run states start (frameOps frames)
  rw [framesOf_frameOps] at hscored
  obtain ⟨hword, -, hknown | ⟨hstatus, -, -, hdp⟩⟩ := hscored
  · exact absurd hbest hknown
  · refine ⟨hbest, hstatus, ?_⟩
    rw [hdp, hword, crosses_after_iff]
    exact ⟨hlow.trans hhigh, hlow, hhigh⟩

/-- A word of three states that is detected in its third frame. -/
theorem traced_of_triggers_oneBlock :
    let states := setPhoBatchLst (parseWord DpState.onePhone)
    let start := ofWord (DpState.oneBlock (-1))
    let before := run (ScoreDet.step states) (start.reset states)
      (frameOps [fun _ ↦ 1, fun _ ↦ 1])
    start.det.vtWord.blockMinScore > -fltMax ∧ before.Triggers states (fun _ ↦ 1) ∧
      Traced states start (framesOf (frameOps [fun _ ↦ 1, fun _ ↦ 1]) ++ [fun _ ↦ 1])
        (before.updateFrmScore states (fun _ ↦ 1) default) := by
  intro states start before
  have hmin : -fltMax < start.det.vtWord.blockMinScore := by decide +kernel
  have htriggers : before.Triggers states (fun _ ↦ 1) := by
    apply triggers_frameOps
    · decide +kernel
    · decide +kernel
    · decide +kernel
  exact ⟨hmin, htriggers, traced_of_triggers DpState.onePhone start hmin
    (frameOps [fun _ ↦ 1, fun _ ↦ 1]) (fun _ ↦ 1) default htriggers⟩

/-- Three phones that are blocks. -/
def threePhones : List Pho := DpState.onePhone ++ DpState.onePhone ++ DpState.onePhone

/-- A word whose smallest mean is the sentinel. -/
def lowWord : ZVtWord :=
  { DpState.oneBlock (-fltMax) with blockMinFrmLen := 2, blockAvgScore := -9 * 10 ^ 19 }

/-- Eight frames with the score `0`, and one far below the sentinel. -/
def lowFrames : List (ℤ → ℚ) := List.replicate 8 (fun _ ↦ 0) ++ [fun _ ↦ -10 ^ 22]

/-- An invalid candidate has the score of the sentinel, so that it passes for the end of the word if
the smallest mean is that low, and the assertion fails. -/
theorem not_traced_lowWord :
    let states := setPhoBatchLst (parseWord threePhones)
    let before := run (ScoreDet.step states) ((ofWord lowWord).reset states) (frameOps lowFrames)
    before.Triggers states (fun _ ↦ 0) ∧
      (∃ cell ∈ (before.updateFrmScore states (fun _ ↦ 0) default).dp.backCells 9,
        ((before.updateFrmScore states (fun _ ↦ 0) default).dp.candLst cell.1 cell.2).pre = -2) ∧
      ¬ Traced states (ofWord lowWord) (framesOf (frameOps lowFrames) ++ [fun _ ↦ 0])
        (before.updateFrmScore states (fun _ ↦ 0) default) := by
  intro states before
  have htriggers : before.Triggers states (fun _ ↦ 0) := by
    apply triggers_frameOps
    · decide +kernel
    · decide +kernel
    · decide +kernel
  -- the tables are those of the frames
  have hscored := scored_run states (ofWord lowWord) (frameOps lowFrames)
  rw [framesOf_frameOps] at hscored
  obtain ⟨hword, -, hknown | ⟨-, -, -, hdp⟩⟩ := hscored
  · exact absurd htriggers.1 hknown
  have hdp' : (before.updateFrmScore states (fun _ ↦ 0) default).dp =
      (DpState.after lowWord states DpState.blank lowFrames).dynamicProgramming lowWord states
        fun _ ↦ 0 := by
    show before.dp.dynamicProgramming before.det.vtWord states _ = _
    rw [hdp, hword]
    rfl
  have hcells : (before.updateFrmScore states (fun _ ↦ 0) default).dp.backCells 9 = [(9, 26)] := by
    rw [hdp']
    decide +kernel
  have hpre : ((before.updateFrmScore states (fun _ ↦ 0) default).dp.candLst 9 26).pre = -2 := by
    rw [hdp']
    decide +kernel
  have hcur : (before.updateFrmScore states (fun _ ↦ 0) default).dp.frmIdCur = 9 := by
    rw [hdp']
    decide +kernel
  refine ⟨htriggers, ⟨(9, 26), by rw [hcells]; exact List.mem_singleton_self _, hpre⟩, fun h ↦ ?_⟩
  obtain ⟨path, -, -, hread, -⟩ := h.alignment
  rw [hcur, hcells] at hread
  exact (hread.fresh 0 9 26 rfl).2.2.2.2.2 hpre

end ScoreDet

end Vsys.Vt
