import Mathlib.Algebra.Order.Field.Basic
import Vsys.Stream.Table

/-!
# The energy VAD

`VAD` judges a stream frame by frame: each frame of 160 samples gets two numbers, the logarithms of
the probabilities of silence and of voice, which are kept in the table `m_frameProbs2` from the
absolute frame `m_nOffsetFrameNum` on.  The detector works in `VAD_MODE_ENERGY`, in which the other
table, `m_frameProbs`, stays empty.

What a frame is judged by is a parameter, `FrameVad`, since the tables do not depend on it;
`energyVad` is the rule of the source, with the spectrum of a frame and the logarithm as parameters
of its own.  Arithmetic is exact, and `int` does not overflow.
-/

namespace Vsys.Ztvad

open Vsys.Stream

variable {F σ α : Type}

/-- Samples of one frame, `VAD_FRAME_SIZE`. -/
def frameSize : ℕ := 160

/-- Entries of the VAD's tables for each of the two results, `MAX_SPEECH`. -/
def maxSpeech : ℤ := 6000

/-- Results of one frame, `VAD_OUT_DIM`. -/
def outDim : ℤ := 2

/-! ## Byte buffers -/

/-- A `ByteBuffer` that does not grow, counted in samples. -/
structure ByteBuffer (α : Type) where
  allocated : Bool
  bufSize : ℕ
  bytes : List α
deriving Repr, DecidableEq

namespace ByteBuffer

/-- The constructor. -/
def new : ByteBuffer α := ⟨false, 0, []⟩

/-- `Init` with a positive size. -/
def init (_ : ByteBuffer α) (nBufInitSize : ℕ) : ByteBuffer α := ⟨true, nBufInitSize, []⟩

def clear (b : ByteBuffer α) : ByteBuffer α := { b with bytes := [] }

/-- `Feed`: what does not fit is left out. -/
def feed (b : ByteBuffer α) (data : List α) : ByteBuffer α :=
  if b.allocated then
    let nUsable :=
      if b.bufSize < b.bytes.length + data.length then b.bufSize - b.bytes.length else data.length
    { b with bytes := b.bytes ++ data.take nUsable }
  else b

def isFull (b : ByteBuffer α) : Bool := b.allocated && b.bytes.length == b.bufSize

/-- `Shift`: the oldest samples are dropped. -/
def shift (b : ByteBuffer α) (nLen : ℕ) : ByteBuffer α :=
  if !b.allocated then b
  else if nLen = 0 then b
  else if b.bytes.length ≤ nLen then { b with bytes := [] }
  else { b with bytes := b.bytes.drop nLen }

end ByteBuffer

/-! ## The judgement of a frame -/

/-- How frames are judged: one round of the loop of `DoEnergyVad` takes the state, `nIsAec` and the
samples of a frame, and gives the two numbers that are written for the frame. -/
structure FrameVad (F σ : Type) where
  frame : σ → Bool → List F → σ × (F × F)
  freeze : σ → Bool → Bool → σ
  freezeSpeech : σ → Bool → ℤ → σ
  restart : σ → σ
  reset : σ → σ

/-- The results of frames judged one after the other. -/
def FrameVad.judge (V : FrameVad F σ) (nIsAec : Bool) : σ → List (List F) → List (F × F)
  | _, [] => []
  | s, frame :: frames =>
      (V.frame s nIsAec frame).2 :: V.judge nIsAec (V.frame s nIsAec frame).1 frames

/-- The parameters of the energy VAD.  `frameEnergy` is the Hamming window, the transform and the
average power of the middle bands of the buffer it is given, `fastLog` the logarithm. -/
structure EnergyParam (F : Type) where
  nFftLen : ℕ
  nCtxFrameNum : ℕ
  fSmoothFactor : F
  fMinEnergy : F
  fMinAecEnergy : F
  fMaxEnergy : F
  fBaseRange : F
  fMinDynaRange : F
  fMaxDynaRange : F
  fMinDynaEnergy : F
  fMinProb : F
  fMaxProb : F
  frameEnergy : List F → F
  fastLog : F → F

/-- The state of the energy VAD between two frames. -/
structure EnergyState (F : Type) where
  bFreeze : Bool
  fPrevEnergy : F
  ctxEnergies : List F
  ctxVoiceEnergies : List F
  bFreezeSpeech : Bool
  fFreezeThreshold : F
  fThresholdEnergy : F
  fVoiceAvgEnergy : F
  fEnergyProb : F
  bfFft : ByteBuffer F

section Energy

variable [Field F] [LinearOrder F]

/-- What the constructor of `VAD` sets, for a frame of 160 samples. -/
def EnergyParam.new (frameEnergy : List F → F) (fastLog : F → F) : EnergyParam F where
  nFftLen := 256
  nCtxFrameNum := 300 + 30
  fSmoothFactor := 1 / 2
  fMinEnergy := 500
  fMinAecEnergy := 4500
  fMaxEnergy := 20000
  fBaseRange := 5 / 4
  fMinDynaRange := 5 / 2
  fMaxDynaRange := 4
  fMinDynaEnergy := 1000
  fMinProb := 1 / 100
  fMaxProb := 99 / 100
  frameEnergy := frameEnergy
  fastLog := fastLog

namespace EnergyState

variable (p : EnergyParam F) (s : EnergyState F)

/-- `GetFrameEnergy`: the frame enters the transform's buffer. -/
def getFrameEnergy (frame : List F) : EnergyState F × F :=
  let bfFft := (s.bfFft.shift frameSize).feed frame
  ({ s with bfFft := bfFft }, p.frameEnergy bfFft.bytes)

/-- Appends to a context and drops its oldest entry when it is over its length. -/
def pushContext (context : List F) (energy : F) : List F :=
  let context := context ++ [energy]
  if p.nCtxFrameNum < context.length then context.tail else context

/-- The threshold of the silence frames in the context, kept under the average of all frames and
between the two bounds. -/
def updateThreshold : EnergyState F :=
  if s.ctxEnergies = [] then s
  else
    let average := s.ctxEnergies.sum / s.ctxEnergies.length
    let threshold := if s.fVoiceAvgEnergy < average then s.fVoiceAvgEnergy else average
    { s with
      fThresholdEnergy :=
        if threshold < p.fMinEnergy then p.fMinEnergy
        else if p.fMaxEnergy < threshold then p.fMaxEnergy
        else threshold }

/-- What a frame without echo cancelling does to the averages; `energy` is the smoothed energy. -/
def updateContext (energy : F) : EnergyState F :=
  let ctxVoiceEnergies := pushContext p s.ctxVoiceEnergies energy
  let average := p.fMinEnergy + ctxVoiceEnergies.sum
  let s :=
    { s with
      fPrevEnergy := energy
      ctxVoiceEnergies := ctxVoiceEnergies
      fVoiceAvgEnergy :=
        if ctxVoiceEnergies = [] then average else average / ctxVoiceEnergies.length }
  let s :=
    if s.bFreeze then s
    else
      let pushed :=
        if p.fMinEnergy ≤ energy ∧ energy ≤ p.fMaxEnergy then s.ctxEnergies ++ [energy]
        else s.ctxEnergies
      let trimmed := if p.nCtxFrameNum < pushed.length then pushed.tail else pushed
      { s with ctxEnergies := trimmed }.updateThreshold p
  if s.fVoiceAvgEnergy < s.fThresholdEnergy then { s with fVoiceAvgEnergy := s.fThresholdEnergy }
  else s

/-- `CalcFrameEnergyProb`. -/
def calcFrameEnergyProb (energy : F) : F :=
  let threshold := if s.bFreezeSpeech then s.fFreezeThreshold else s.fThresholdEnergy
  let range := s.fVoiceAvgEnergy / threshold
  let fDynaRange :=
    if 0 < s.fVoiceAvgEnergy then
      if range < p.fMinDynaRange then p.fMinDynaRange
      else if p.fMaxDynaRange < range then p.fMaxDynaRange
      else range
    else p.fMinDynaRange
  let min := threshold * p.fBaseRange
  let max := threshold * fDynaRange
  let max := if max - min < p.fMinDynaEnergy then min + p.fMinDynaEnergy else max
  let prob :=
    if max ≤ energy then 1
    else if energy ≤ min then 0
    else (energy - min) / (max - min)
  if p.fMaxProb < prob then p.fMaxProb
  else if prob < p.fMinProb then p.fMinProb
  else prob

/-- One round of the loop of `DoEnergyVad`. -/
def frame (nIsAec : Bool) (samples : List F) : EnergyState F × (F × F) :=
  let (s, energy) := s.getFrameEnergy p samples
  let smoothed := p.fSmoothFactor * energy + (1 - p.fSmoothFactor) * s.fPrevEnergy
  let (s, energy) :=
    if nIsAec then
      (if s.fThresholdEnergy < p.fMinAecEnergy then { s with fThresholdEnergy := p.fMinAecEnergy }
        else s, energy)
    else (s.updateContext p smoothed, smoothed)
  let prob := s.calcFrameEnergyProb p energy
  ({ s with fEnergyProb := prob }, (p.fastLog (1 - prob), p.fastLog prob))

/-- `Freeze`: at the start of a voice its first frames leave the context. -/
def freeze (bFreeze nIsAec : Bool) : EnergyState F :=
  let s := { s with bFreeze := bFreeze }
  if bFreeze && !nIsAec then
    { s with ctxEnergies := s.ctxEnergies.take (s.ctxEnergies.length - 30) }.updateThreshold p
  else s

/-- `FreezeSpeech`. -/
def freezeSpeech (bFreeze : Bool) (nFrameNum : ℤ) : EnergyState F :=
  let s := { s with bFreezeSpeech := bFreeze }
  if bFreeze then
    if 0 < nFrameNum ∧ nFrameNum < s.ctxVoiceEnergies.length then
      let last := s.ctxVoiceEnergies.drop (s.ctxVoiceEnergies.length - nFrameNum.toNat)
      let threshold := last.sum / (nFrameNum : F) / 3
      { s with
        fFreezeThreshold := if threshold < s.fVoiceAvgEnergy then s.fVoiceAvgEnergy else threshold }
    else { s with fFreezeThreshold := s.fVoiceAvgEnergy }
  else s

/-- What `Restart` changes here. -/
def restart : EnergyState F := { s with bFreeze := false }

/-- What `Reset` changes here. -/
def reset : EnergyState F :=
  { s with
    bFreeze := false
    fPrevEnergy := 0
    ctxEnergies := []
    ctxVoiceEnergies := []
    fThresholdEnergy := p.fMinEnergy
    fVoiceAvgEnergy := 0
    bfFft := ⟨true, p.nFftLen, List.replicate p.nFftLen 0⟩
    bFreezeSpeech := false }

end EnergyState

/-- The rule of the energy VAD. -/
def energyVad (p : EnergyParam F) : FrameVad F (EnergyState F) where
  frame s := s.frame p
  freeze s := s.freeze p
  freezeSpeech s := s.freezeSpeech
  restart s := s.restart
  reset s := s.reset p

end Energy

/-! ## The table of results -/

/-- A `VAD` in energy mode. -/
structure VAD (F σ : Type) where
  frameProbs2 : ℤ → F
  nCurFeMaxFrame2 : ℤ
  nCurMaxFrame2 : ℤ
  nOffsetFrameNum : ℤ
  state : σ

namespace VAD

variable (V : FrameVad F σ) (v : VAD F σ)

def restart : VAD F σ :=
  { v with
    nOffsetFrameNum := 0
    nCurFeMaxFrame2 := 0
    nCurMaxFrame2 := 0
    state := V.restart v.state }

def reset : VAD F σ := { v.restart V with state := V.reset (V.restart v.state) }

def freeze (bFreeze nIsAec : Bool) : VAD F σ := { v with state := V.freeze v.state bFreeze nIsAec }

def freezeSpeech (bFreeze : Bool) (nFrameNum : ℤ) : VAD F σ :=
  { v with state := V.freezeSpeech v.state bFreeze nFrameNum }

def getMaxFrame : ℤ := v.nCurMaxFrame2

/-- The loop of `DoEnergyVad`. -/
def doEnergyVad (nIsAec : Bool) : VAD F σ → List (List F) → Option (VAD F σ)
  | v, [] => some v
  | v, frame :: frames => do
      let result := V.frame v.state nIsAec frame
      let index := (v.nCurMaxFrame2 - v.nOffsetFrameNum) * outDim
      let table ← store (maxSpeech * outDim) v.frameProbs2 index result.2.1
      let table ← store (maxSpeech * outDim) table (index + 1) result.2.2
      doEnergyVad nIsAec
        { v with
          frameProbs2 := table
          nCurMaxFrame2 := v.nCurMaxFrame2 + 1
          nCurFeMaxFrame2 := v.nCurFeMaxFrame2 + 1
          state := result.1 }
        frames

/-- The `i`-th frame of a wave. -/
def frameOf (wave : List F) (i : ℕ) : List F := (wave.drop (frameSize * i)).take frameSize

/-- `InputFloatWave`. -/
def inputFloatWave (wave : List F) (frameNum : ℕ) (nIsAec : Bool) : Option (VAD F σ) :=
  doEnergyVad V nIsAec v ((List.range frameNum).map (frameOf wave))

/-- `InputWave`: the samples become floating-point numbers. -/
def inputWave [IntCast F] (wave : List Int16) (frameNum : ℕ) (nIsAec : Bool) : Option (VAD F σ) :=
  if frameNum = 0 then some v
  else v.inputFloatWave V (wave.map fun x ↦ (x.toInt : F)) frameNum nIsAec

def offsetFrame (frameNum : ℤ) : Option (VAD F σ) := do
  let left := v.nCurMaxFrame2 - v.nOffsetFrameNum
  let table ←
    if frameNum ≤ left then
      memmove (maxSpeech * outDim) v.frameProbs2 (frameNum * outDim) ((left - frameNum) * outDim)
    else some v.frameProbs2
  some { v with frameProbs2 := table, nOffsetFrameNum := v.nOffsetFrameNum + frameNum }

/-- `GetFrameProb`; the frame is compared with the absolute number of frames. -/
def getFrameProb [Zero F] (frame dim : ℤ) : F :=
  let frame := frame - v.nOffsetFrameNum
  if frame < 0 ∨ dim < 0 ∨ outDim ≤ dim ∨ v.getMaxFrame ≤ frame then 0
  else v.frameProbs2 (frame * outDim + dim)

end VAD

/-! ## The parameters of the detector -/

/-- The parameters of a `VoiceDetector`. -/
structure Config (F : Type) where
  nPreFrameNum : ℤ
  nMinVocFrameNum : ℤ
  fMinVoiceRatio : F
  nMinSpeechFrameNum : ℤ
  nMaxSpeechFrameNum : ℤ
  nMinSilFrameNum : ℤ
  fMinSilRatio : F
  bEnablePitch : Bool
  nPitchExtrRecreateFrameNum : ℕ
  fPitchProbThreshold : F
  nMinBeginPitchFrameNum : ℤ
  nMinEndPitchFrameNum : ℤ

/-- What the constructor sets. -/
def Config.new [Field F] : Config F where
  nPreFrameNum := 10
  nMinVocFrameNum := 30
  fMinVoiceRatio := 1 / 2
  nMinSpeechFrameNum := 90
  nMaxSpeechFrameNum := 100 * 10
  nMinSilFrameNum := 45
  fMinSilRatio := 9 / 10
  bEnablePitch := true
  nPitchExtrRecreateFrameNum := 100 * 60
  fPitchProbThreshold := 1 / 4
  nMinBeginPitchFrameNum := 4
  nMinEndPitchFrameNum := 0

end Vsys.Ztvad
