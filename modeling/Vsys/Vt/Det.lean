import Mathlib.Tactic.Ring
import Vsys.Vt.Word

/-!
# `ZVtDet`

The detector of one wake word.  It scores every frame; when the best candidate score crosses the
word's threshold it goes from `vtdet_ready` to `vtdet_process`, runs its checks in that frame and,
for a word with a check for silence on the right, waits some frames more for its decision.  One
call of `ProcessScore` feeds it a batch of score frames.

The engines around a detector are inputs.  A `FrmIn` holds what they answer during one frame: the
outcome of the dynamic programming, the classifier's score, and the results of the dirty, energy
and silence checks.  Calls of the second-localisation callback are collected in `calls`.
-/

namespace Vsys.Vt

/-- `m_iFrmOffset`, as `ZVtSto` sets it. -/
def frmOffset : ℤ := 9

/-- `m_iFrmSize`, as `ZVtSto` sets it. -/
def frmSize : ℤ := 160

/-- `ZVtDetStatus`. -/
inductive VtDetStatus
  | ready
  | process
  | finish
  deriving DecidableEq, Repr

/-- One call of the second-localisation callback. -/
structure SecSlCall where
  frmStartSil : ℤ
  frmEndSil : ℤ
  frmStartVt : ℤ
  frmEndVt : ℤ
  deriving DecidableEq

/-- What the engines answer for one score frame of one detector.  `candScore` is the best
candidate score of the frame and `bestLen` the length `GetBestLen` traces back from it; `cfScore`
is the better of the classifier's scores. -/
structure FrmIn where
  candScore : ℚ
  bestLen : ℕ
  azimuth : ℚ
  elevation : ℚ
  cfScore : ℚ
  checkDirty : Bool
  vtEnergy : ℚ
  leftSilence : Bool
  rightSilence : Bool
  deriving Inhabited

/-- A frame in which the word's score stays below its threshold, or crosses it and passes every
check. -/
def scoreFrm (word : ZVtWord) (crosses : Bool) : FrmIn where
  candScore := if crosses then word.blockAvgScore + 1 else word.blockAvgScore - 1
  bestLen := 30
  azimuth := 0
  elevation := 0
  cfScore := word.classifyNnetShield + 1
  checkDirty := true
  vtEnergy := 1000
  leftSilence := true
  rightSilence := true

/-- The state of a `ZVtDet` object.  `addr` is the address `m_pVtWord` holds and `vtWord` what was
stored there, `candScoreLast` is `m_pCandScore_Best` of the previous frame, and `assertsHeld`
records that no assertion failed. -/
structure VtDet where
  vtWord : ZVtWord
  addr : ℕ
  dsCb : Bool
  status : VtDetStatus := .ready
  candScoreLast : ℚ := 0
  frmIdCur : ℤ := 0
  frmIdStart : ℤ := -1
  frmIdPre : ℤ := -1
  frmIdBest : ℤ := -1
  frmIdEnergy : ℤ := -1
  frmIdLeftSil : ℤ := -1
  frmIdCfCheck : ℤ := -1
  frmIdRightSil : ℤ := -1
  frmIdBest30 : ℤ := 0
  detInfo : WordDetInfo := {}
  assertsHeld : Bool := true
  calls : List SecSlCall := []
  deriving DecidableEq

namespace VtDet

/-- `assert`. -/
def check (d : VtDet) (condition : Bool) : VtDet :=
  { d with assertsHeld := d.assertsHeld && condition }

/-- `Reset`. -/
def reset (d : VtDet) : VtDet :=
  { d with status := .ready, candScoreLast := 0, frmIdCur := 0, frmIdStart := -1, frmIdPre := -1,
           frmIdBest := -1, frmIdEnergy := -1, frmIdLeftSil := -1, frmIdCfCheck := -1,
           frmIdRightSil := -1, detInfo := {} }

/-- `IsNeedReset`. -/
def isNeedReset (d : VtDet) : Bool := decide (d.status = .finish)

/-- `GetDetWordInfo`. -/
def getDetWordInfo (d : VtDet) (offset : ℤ) : WordDetInfo :=
  { d.detInfo with
    wordPosStart := (d.frmIdCur - d.frmIdStart + offset) * frmSize
    wordPosEnd := (d.frmIdCur - d.frmIdBest30 + offset) * frmSize }

/-! ## The messages of a frame -/

/-- `UpdateFrmScore`: the score crosses the threshold from below. -/
def updateFrmScore (d : VtDet) (input : FrmIn) : VtDet :=
  let last := d.candScoreLast
  let d := { d with candScoreLast := input.candScore }
  if d.status = .ready ∧ input.candScore > last ∧ last < d.vtWord.blockAvgScore ∧
      input.candScore > d.vtWord.blockAvgScore then
    { d with status := .process, frmIdPre := d.frmIdCur, frmIdBest30 := d.frmIdCur,
             frmIdBest := d.frmIdCur, frmIdStart := d.frmIdCur - input.bestLen }
  else d

/-- The ranges `ProcessMsg_Pre` asks the callback for, with `offset` frames of the batch still to
come: the silence before the word, and the word. -/
def secSlCall (d : VtDet) (offset : ℤ) : SecSlCall :=
  let startSil := offset + frmOffset + (d.frmIdCur - d.frmIdStart) + d.vtWord.leftSilSkip +
    d.vtWord.leftSilOffset
  { frmStartSil := startSil
    frmEndSil := startSil - d.vtWord.leftSilOffset
    frmStartVt := d.frmIdCur + offset - d.frmIdStart + frmOffset
    frmEndVt := offset }

/-- `ProcessMsg_Pre`. -/
def processMsgPre (d : VtDet) (offset : ℤ) (input : FrmIn) : VtDet :=
  if d.status = .process ∧ d.frmIdCur = d.frmIdBest then
    let d :=
      if d.dsCb then
        { d with
          calls := d.calls ++ [d.secSlCall offset]
          detInfo := { d.detInfo with azimuth := input.azimuth, elevation := input.elevation } }
      else d
    let d :=
      if d.vtWord.leftSilCheck || d.vtWord.rightSilCheck then { d with frmIdEnergy := d.frmIdCur }
      else d
    { d with frmIdLeftSil := d.frmIdCur, frmIdCfCheck := d.frmIdCur }
  else d

/-- `ProcessMsg_Best`. -/
def processMsgBest (d : VtDet) : VtDet :=
  if d.status = .process ∧ d.frmIdCur = d.frmIdBest then
    if d.vtWord.rightSilCheck then
      let d := d.check (decide (d.vtWord.rightSilSkip + d.vtWord.rightSilOffset ≥ frmOffset))
      let rightSil := d.frmIdBest + d.vtWord.rightSilSkip + d.vtWord.rightSilOffset - frmOffset
      { d with frmIdRightSil := if rightSil < d.frmIdBest then d.frmIdBest else rightSil }
    else { d with frmIdRightSil := d.frmIdBest }
  else d

/-- `ProcessMsg_CfCheck`. -/
def processMsgCfCheck (d : VtDet) (input : FrmIn) : VtDet × VtResult :=
  if d.status = .process ∧ d.frmIdCur = d.frmIdCfCheck then
    let bCfCheck :=
      if d.vtWord.classifyCheck then decide (input.cfScore > d.vtWord.classifyNnetShield) else true
    if bCfCheck then
      if input.checkDirty then (d, { det := true }) else ({ d with status := .finish }, .none)
    else ({ d with status := .finish }, .none)
  else (d, .none)

/-- `ProcessMsg_Energy`. -/
def processMsgEnergy (d : VtDet) (input : FrmIn) : VtDet :=
  if d.status = .process ∧ d.frmIdCur = d.frmIdEnergy then
    let d := d.check (d.vtWord.leftSilCheck || d.vtWord.rightSilCheck)
    let d := { d with detInfo := { d.detInfo with energy := input.vtEnergy } }
    if input.vtEnergy < 300 then { d with status := .finish } else d
  else d

/-- `ProcessMsg_LeftSil`: a missing silence is forgiven while echo is canceled. -/
def processMsgLeftSil (d : VtDet) (input : FrmIn) (aec : Bool) : VtDet × VtResult :=
  if d.status = .process ∧ d.frmIdCur = d.frmIdLeftSil then
    if d.vtWord.leftSilCheck then
      let d := d.check (decide (d.frmIdLeftSil ≥ d.frmIdEnergy))
      if input.leftSilence then (d, { pre := true })
      else if aec then (d, { pre := true })
      else ({ d with status := .finish }, .none)
    else (d, { pre := true })
  else (d, .none)

/-- The decision, where silence was found or is not asked for. -/
def noCmd (d : VtDet) (aec : Bool) : VtResult :=
  if d.vtWord.checkNoCmdChange aec then { detCmd := true } else { detNocmd := true }

/-- `ProcessMsg_RightSil`. -/
def processMsgRightSil (d : VtDet) (input : FrmIn) (aec : Bool) : VtDet × VtResult :=
  if d.status = .process ∧ d.frmIdCur = d.frmIdRightSil then
    let rt :=
      if d.vtWord.rightSilCheck then
        if input.rightSilence then d.noCmd aec else { detCmd := true }
      else d.noCmd aec
    ({ d with status := .finish }, rt)
  else (d, .none)

/-- The checks in `CheckStatus`, after the two messages that schedule them. -/
def runChecks (d : VtDet) (input : FrmIn) (aec : Bool) : VtDet × VtResult :=
  let (d, rtCf) := d.processMsgCfCheck input
  let d := d.processMsgEnergy input
  let (d, rtLeft) := d.processMsgLeftSil input aec
  let (d, rtRight) := d.processMsgRightSil input aec
  (d, rtCf ||| rtLeft ||| rtRight)

/-- `CheckStatus`. -/
def checkStatus (d : VtDet) (offset : ℤ) (input : FrmIn) (aec : Bool) : VtDet × VtResult :=
  (d.processMsgPre offset input).processMsgBest.runChecks input aec

/-! ## A batch of frames -/

/-- One turn of the loop in `ProcessScore`. -/
def processFrm (d : VtDet) (offset : ℤ) (input : FrmIn) (aec : Bool) : VtDet × VtResult :=
  let d :=
    if d.frmIdBest = -1 ∧ (d.status = .process ∨ d.status = .ready) then d.updateFrmScore input
    else d
  let (d, rt) := d.checkStatus offset input aec
  ({ d with frmIdCur := d.frmIdCur + 1 }, rt)

/-- The loop in `ProcessScore`. -/
def processFrms (aec : Bool) : VtDet → List FrmIn → VtDet × VtResult
  | d, [] => (d, .none)
  | d, input :: inputs =>
      let (d, rt) := d.processFrm (inputs.length + 1) input aec
      let (d, rts) := processFrms aec d inputs
      (d, rt ||| rts)

/-- What `ProcessScore` does after the loop when the voice has ended.  `endIn` answers the checks
that are made once more if no best frame is known yet. -/
def processVadEnd (d : VtDet) (endIn : FrmIn) (aec : Bool) : VtDet × VtResult :=
  if d.status = .process then
    let (d, rt) :=
      if d.frmIdBest = -1 then
        ({ d with frmIdBest := d.frmIdCur } : VtDet).checkStatus 0 endIn aec
      else (d, .none)
    if d.frmIdCur < d.frmIdRightSil then ({ d with status := .finish }, rt ||| d.noCmd aec)
    else (d, rt)
  else (d, .none)

/-- `ProcessScore`.  The log of callback calls is that of this call. -/
def processScore (d : VtDet) (inputs : List FrmIn) (endIn : FrmIn) (vadEnd aec : Bool) :
    VtDet × VtResult :=
  let (d, rt) := processFrms aec { d with calls := [] } inputs
  if vadEnd then
    let (d, rtEnd) := d.processVadEnd endIn aec
    (d, rt ||| rtEnd)
  else (d, rt)

end VtDet

end Vsys.Vt
