import Mathlib.Algebra.Order.Floor.Ring
import Vsys.Stream.Sliding
import Vsys.Ztvad.Vad

/-!
# The voice detector

`VoiceDetector` looks for the beginning and the end of a voice in a stream of samples.  It keeps the
samples in a wave buffer, has the `VAD` judge each whole frame, copies the results into its own
tables and scans them: the voice begins at a frame of voice with enough frames of voice before it,
and ends at a frame of silence with enough silence before it.

All positions (`m_nVocStartFrame`, `m_nVocStopFrame`, `m_nVocStartOffset`) count from the beginning
of the tables.  When the lead-in of a voice or too long a silence is dropped, `OffsetWaveFrame` moves
the wave buffer and the tables, and counts the dropped frames in `m_nOffsetFrame`.

Writes to the tables are checked: a function returns `none` where the source would write outside.
Reads outside of a table, which negative parameters can cause, give whatever is in memory there.
-/

namespace Vsys.Ztvad

open Vsys.Stream

variable {F σ π : Type}

/-- `VAD_MAX_FRAME_NUM`. -/
def maxFrameNum : ℤ := 6000

/-- Samples of a wave buffer, `VAD_SAMPLE_RATE * VAD_MAX_LENGTH_SEC`. -/
def waveBufSize : ℕ := 16000 * 60

/-- A sample as `InputWave` and `InputFloatWave` take it. -/
@[reducible]
def Sample (F : Type) : Bool → Type
  | false => Int16
  | true => F

/-- The sample as the VAD sees it. -/
def Sample.toFloat [IntCast F] : {isFloat : Bool} → Sample F isFloat → F
  | false, x => (x.toInt : F)
  | true, x => x

/-- The pitch extractor with its band-pass filter; `prob` is the probability of voice of one of the
frames that are ready. -/
structure PitchExtr (F π : Type) where
  recreate : π → π
  process : π → List F → π × List F
  acceptWaveform : π → List F → π
  numFramesReady : π → ℕ
  prob : π → ℕ → F

structure VoiceDetector (F σ π : Type) where
  vad : VAD F σ
  bbWave : ByteBuffer Int16
  bbFloatWave : ByteBuffer F
  nCurProbFrameNum : ℤ
  probs : ℤ → F × F
  bprobs : ℤ → Bool
  nVocStartFrame : ℤ
  nVocStopFrame : ℤ
  nOffsetFrame : ℤ
  nVocStartOffset : ℤ
  bIsEnd : Bool
  pitchExtr : π
  nCurPitchProbFrameNum : ℤ
  pitchprobs : ℤ → F

namespace VoiceDetector

/-! ## The wave buffers -/

/-- The buffer `pWaveBuf` points to. -/
def waveBuf (d : VoiceDetector F σ π) : (isFloat : Bool) → ByteBuffer (Sample F isFloat)
  | false => d.bbWave
  | true => d.bbFloatWave

def setWaveBuf (d : VoiceDetector F σ π) :
    (isFloat : Bool) → ByteBuffer (Sample F isFloat) → VoiceDetector F σ π
  | false, b => { d with bbWave := b }
  | true, b => { d with bbFloatWave := b }

/-- The wave space is allocated when first called. -/
def allocWave (isFloat : Bool) (d : VoiceDetector F σ π) : VoiceDetector F σ π :=
  if (d.waveBuf isFloat).allocated then d
  else d.setWaveBuf isFloat ((d.waveBuf isFloat).init waveBufSize)

/-- The wave data is saved in the buffer. -/
def feedWave (isFloat : Bool) (data : List (Sample F isFloat)) (d : VoiceDetector F σ π) :
    VoiceDetector F σ π :=
  d.setWaveBuf isFloat ((d.waveBuf isFloat).feed data)

/-- The whole frames in a wave buffer. -/
def waveFrameNum (isFloat : Bool) (d : VoiceDetector F σ π) : ℕ :=
  (d.waveBuf isFloat).bytes.length / frameSize

/-- The whole frames of a wave buffer from frame `nPrevFrameNum` on, as the VAD sees them. -/
def framesFrom [IntCast F] (isFloat : Bool) (nPrevFrameNum : ℕ) (d : VoiceDetector F σ π) :
    List (List F) :=
  let newWave := ((d.waveBuf isFloat).bytes.drop (nPrevFrameNum * frameSize)).map Sample.toFloat
  (List.range (d.waveFrameNum isFloat - nPrevFrameNum)).map (VAD.frameOf newWave)

/-! ## Positions -/

def getVoiceStartFrame (d : VoiceDetector F σ π) : ℤ :=
  if 0 ≤ d.nVocStartFrame then d.nVocStartFrame + d.nOffsetFrame else -1

def getVoiceStopFrame (d : VoiceDetector F σ π) : ℤ :=
  if 0 ≤ d.nVocStopFrame then d.nVocStopFrame + d.nOffsetFrame else -1

def getVoiceFrameNum (d : VoiceDetector F σ π) : ℤ :=
  if 0 ≤ d.nVocStartFrame then
    if 0 ≤ d.nVocStopFrame then d.nVocStopFrame - d.nVocStartFrame
    else d.nCurProbFrameNum - d.nVocStartFrame
  else 0

/-- The table of the pitch is moved. -/
def shiftPitch (d : VoiceDetector F σ π) (nFrame : ℤ) : Option (VoiceDetector F σ π) :=
  if nFrame < d.nCurPitchProbFrameNum then do
    let table ← memmove maxFrameNum d.pitchprobs nFrame (d.nCurPitchProbFrameNum - nFrame)
    some { d with
      pitchprobs := table
      nCurPitchProbFrameNum := d.nCurPitchProbFrameNum - nFrame }
  else some { d with nCurPitchProbFrameNum := 0 }

/-- The tables of the results are moved. -/
def shiftProbs (d : VoiceDetector F σ π) (nFrame : ℤ) : Option (VoiceDetector F σ π) :=
  if nFrame < d.nCurProbFrameNum then do
    let probs ← memmove maxFrameNum d.probs nFrame (d.nCurProbFrameNum - nFrame)
    let bprobs ← memmove maxFrameNum d.bprobs nFrame (d.nCurProbFrameNum - nFrame)
    some { d with
      probs := probs
      bprobs := bprobs
      nCurProbFrameNum := d.nCurProbFrameNum - nFrame }
  else some { d with nCurProbFrameNum := 0 }

/-- The wave buffer that has samples is moved. -/
def shiftWave (d : VoiceDetector F σ π) (nFrame : ℕ) : VoiceDetector F σ π :=
  if d.bbWave.bytes.length ≠ 0 then { d with bbWave := d.bbWave.shift (frameSize * nFrame) }
  else { d with bbFloatWave := d.bbFloatWave.shift (frameSize * nFrame) }

/-- `OffsetWaveFrame`. -/
def offsetWaveFrame (d : VoiceDetector F σ π) (nFrame : ℤ) : Option (VoiceDetector F σ π) :=
  if nFrame ≤ 0 then some d
  else if d.nCurProbFrameNum < nFrame then some d
  else do
    let d ← (d.shiftWave nFrame.toNat).shiftProbs nFrame
    let d ← d.shiftPitch nFrame
    let vad ← d.vad.offsetFrame nFrame
    some { d with vad := vad, nOffsetFrame := d.nOffsetFrame + nFrame }

/-! ## Pitch -/

section Pitch

variable (P : PitchExtr F π) (cfg : Config F)

/-- The probabilities that have become ready enter the table while it has room. -/
def pushPitchProbs : VoiceDetector F σ π → List F → Option (VoiceDetector F σ π)
  | d, [] => some d
  | d, prob :: probs =>
      if d.nCurPitchProbFrameNum < maxFrameNum then do
        let table ← store maxFrameNum d.pitchprobs d.nCurPitchProbFrameNum prob
        pushPitchProbs
          { d with
            pitchprobs := table
            nCurPitchProbFrameNum := d.nCurPitchProbFrameNum + 1 }
          probs
      else pushPitchProbs d probs

/-- The loop of `CalcPitchFeature` over the new frames. -/
def pitchLoop : VoiceDetector F σ π → ℕ → List (List F) → Option (VoiceDetector F σ π)
  | d, _, [] => some d
  | d, curFrame, frame :: frames => do
      let (extr, filtered) := P.process d.pitchExtr frame
      let extr := P.acceptWaveform extr filtered
      let numFrames := P.numFramesReady extr
      let ready := (List.range' curFrame (numFrames - curFrame)).map (P.prob extr)
      let d ← pushPitchProbs { d with pitchExtr := extr } ready
      pitchLoop d numFrames frames

/-- A new extractor gets the last four frames of the buffer again. -/
def recreatedExtr (d : VoiceDetector F σ π) : π :=
  let nBufFrameNum := d.bbFloatWave.bytes.length / frameSize
  let nPrevFrameNum := if nBufFrameNum < 4 then nBufFrameNum else 4
  let first := nBufFrameNum - nPrevFrameNum
  (List.range' first nPrevFrameNum).foldl
    (fun extr i ↦ P.acceptWaveform extr (VAD.frameOf d.bbFloatWave.bytes i))
    (P.recreate d.pitchExtr)

/-- `CalcPitchFeature`, for the new frames of a float wave. -/
def calcPitchFeature (isFloat : Bool) (d : VoiceDetector F σ π) (frames : List (List F)) :
    Option (VoiceDetector F σ π) :=
  if !isFloat then some d
  else if cfg.nPitchExtrRecreateFrameNum ≤ P.numFramesReady d.pitchExtr then
    pitchLoop P { d with pitchExtr := d.recreatedExtr P } 0 frames
  else pitchLoop P d (P.numFramesReady d.pitchExtr) frames

/-- The pitch of the new frames, if it is on. -/
def inputPitch (isFloat : Bool) (d : VoiceDetector F σ π) (frames : List (List F)) :
    Option (VoiceDetector F σ π) :=
  if cfg.bEnablePitch then d.calcPitchFeature P cfg isFloat frames else some d

end Pitch

section Judges

variable [Field F] [LinearOrder F] (cfg : Config F)

/-- The loop of `JudgePitchVoiceBegin`: `n` more frames, the `i`-th before the current one next. -/
def pitchBeginLoop (d : VoiceDetector F σ π) (nCurFrameIdx : ℤ) : ℕ → ℤ → ℤ → Bool
  | 0, _, _ => false
  | n + 1, i, nPitchFrameNum =>
      let nPitchFrameNum :=
        if cfg.fPitchProbThreshold ≤ d.pitchprobs (nCurFrameIdx - i) then nPitchFrameNum + 1
        else nPitchFrameNum
      if cfg.nMinBeginPitchFrameNum ≤ nPitchFrameNum then true
      else d.pitchBeginLoop nCurFrameIdx n (i + 1) nPitchFrameNum

def judgePitchVoiceBegin (d : VoiceDetector F σ π) (nCurFrameIdx : ℤ) : Bool :=
  if nCurFrameIdx < cfg.nMinVocFrameNum then false
  else
    let nCurFrameIdx :=
      if d.nCurPitchProbFrameNum ≤ nCurFrameIdx then d.nCurPitchProbFrameNum - 1 else nCurFrameIdx
    d.pitchBeginLoop cfg nCurFrameIdx cfg.nMinVocFrameNum.toNat 0 0

/-- The loop of `JudgePitchVoiceEnd`, which counts every frame, and those with pitch twice. -/
def pitchEndLoop (d : VoiceDetector F σ π) (nCurFrameIdx : ℤ) : ℕ → ℤ → ℤ → Bool
  | 0, _, _ => true
  | n + 1, i, nPitchFrameNum =>
      let nPitchFrameNum :=
        if cfg.fPitchProbThreshold ≤ d.pitchprobs (nCurFrameIdx - i) then nPitchFrameNum + 1
        else nPitchFrameNum
      if cfg.nMinEndPitchFrameNum ≤ nPitchFrameNum + 1 then false
      else d.pitchEndLoop nCurFrameIdx n (i + 1) (nPitchFrameNum + 1)

def judgePitchVoiceEnd (d : VoiceDetector F σ π) (nCurFrameIdx : ℤ) : Bool :=
  let nCheckFrameNum := cfg.nMinSilFrameNum + cfg.nMinVocFrameNum
  if nCurFrameIdx < nCheckFrameNum then false
  else
    let nCurFrameIdx :=
      if d.nCurPitchProbFrameNum ≤ nCurFrameIdx then d.nCurPitchProbFrameNum - 1 else nCurFrameIdx
    d.pitchEndLoop cfg nCurFrameIdx nCheckFrameNum.toNat 0 0

/-- What a frame adds to the sums `fSilProb` and `fVocProb` and to the number of frames that are
counted, those of voice or those of silence. -/
def weight (d : VoiceDetector F σ π) (counted : Bool) (i : ℤ) : F × F × ℤ :=
  ((d.probs i).1, (d.probs i).2, if d.bprobs i = counted then 1 else 0)

/-- A floating-point number as an `int`. -/
def truncate [FloorRing F] (x : F) : ℤ := if 0 ≤ x then ⌊x⌋ else ⌈x⌉

/-- The frame at which the loop of `JudgeVoiceBegin` finds a voice. -/
def scanBegin [FloorRing F] (d : VoiceDetector F σ π) : Option ℤ :=
  let nVoiceFrameThreshold := truncate ((cfg.nMinVocFrameNum : F) * cfg.fMinVoiceRatio)
  slide (d.weight true) cfg.nMinVocFrameNum 0
    (fun i sums ↦ decide (nVoiceFrameThreshold ≤ sums.2.2) && d.bprobs i &&
      (!cfg.bEnablePitch || d.judgePitchVoiceBegin cfg i))
    d.nCurProbFrameNum.toNat 0 0

/-- The frame at which the loop of `JudgeVoiceEnd` finds the end. -/
def scanEnd (d : VoiceDetector F σ π) : Option ℤ :=
  let nStartPos := d.nVocStartFrame + cfg.nMinSpeechFrameNum - cfg.nMinSilFrameNum
  let nStartPos := if nStartPos < d.nVocStartOffset then d.nVocStartOffset else nStartPos
  slide (d.weight false) cfg.nMinSilFrameNum nStartPos
    (fun i sums ↦ (decide (sums.2.1 < sums.1) &&
        decide (cfg.fMinSilRatio * (cfg.nMinSilFrameNum : F) ≤ (sums.2.2 : F)) && !d.bprobs i) ||
      (cfg.bEnablePitch && d.judgePitchVoiceEnd cfg i))
    (d.nCurProbFrameNum - nStartPos).toNat nStartPos 0

/-- `JudgeVoiceEnd`. -/
def judgeVoiceEnd (d : VoiceDetector F σ π) : VoiceDetector F σ π :=
  if d.nCurProbFrameNum < d.nVocStartFrame + cfg.nMinSpeechFrameNum then d
  else if d.nCurProbFrameNum ≤ d.nVocStartOffset + cfg.nMinSilFrameNum then d
  else
    match d.scanEnd cfg with
    | none => d
    | some i => { d with nVocStopFrame := i }

/-- A voice is found: the frames before its start are removed unless the input has ended, and the
VAD stops learning. -/
def beginVoice (V : FrameVad F σ) (nIsAec : Bool) (d : VoiceDetector F σ π)
    (nVocStartFrame nVocStartOffset : ℤ) : Option (VoiceDetector F σ π) := do
  let nVocStartFrame := if nVocStartFrame < 0 then 0 else nVocStartFrame
  let d := { d with nVocStartFrame := nVocStartFrame, nVocStartOffset := nVocStartOffset }
  let d ←
    if d.bIsEnd = false ∧ 0 < nVocStartFrame then do
      let d ← d.offsetWaveFrame nVocStartFrame
      some { d with
        nVocStartOffset := d.nVocStartOffset - nVocStartFrame
        nVocStartFrame := 0 }
    else some d
  some { d with vad := d.vad.freeze V true nIsAec }

/-- `JudgeVoiceBegin`. -/
def judgeVoiceBegin [FloorRing F] (V : FrameVad F σ) (nIsAec : Bool) (d : VoiceDetector F σ π) :
    Option (VoiceDetector F σ π) :=
  if d.nCurProbFrameNum ≤ cfg.nMinVocFrameNum then some d
  else
    match d.scanBegin cfg with
    | none => some d
    | some i => d.beginVoice V nIsAec (i - cfg.nMinVocFrameNum - cfg.nPreFrameNum) i

/-- `SetStart`, with what it returns. -/
def setStart (V : FrameVad F σ) (nIsAec : Bool) (d : VoiceDetector F σ π) :
    Option (VoiceDetector F σ π × ℤ) :=
  if 0 ≤ d.nVocStartFrame then some (d, -1)
  else do
    let d ← d.beginVoice V nIsAec (d.nCurProbFrameNum - 1) (d.nCurProbFrameNum - 1)
    some (d, 0)

end Judges

/-! ## The calls -/

/-- `Freeze`: the threshold is fixed from the last frames. -/
def freeze (V : FrameVad F σ) (bFreeze : Bool) (nSampleNum : ℤ) (d : VoiceDetector F σ π) :
    VoiceDetector F σ π :=
  { d with vad := d.vad.freezeSpeech V bFreeze (nSampleNum.tdiv frameSize) }

def restart (V : FrameVad F σ) (P : PitchExtr F π) (cfg : Config F) (d : VoiceDetector F σ π) :
    VoiceDetector F σ π :=
  let d :=
    { d with
      vad := d.vad.restart V
      bbWave := d.bbWave.clear
      bbFloatWave := d.bbFloatWave.clear
      nCurProbFrameNum := 0
      nVocStartFrame := -1
      nVocStopFrame := -1
      nOffsetFrame := 0
      nVocStartOffset := 0
      bIsEnd := false }
  if cfg.bEnablePitch then
    { d with pitchExtr := P.recreate d.pitchExtr, nCurPitchProbFrameNum := 0 }
  else d

def reset (V : FrameVad F σ) (P : PitchExtr F π) (cfg : Config F) (d : VoiceDetector F σ π) :
    VoiceDetector F σ π :=
  let d := d.restart V P cfg
  { d with vad := d.vad.reset V }

/-- The constructor; `memory` is what the fields are before it.  Pitch detection is still on. -/
def new (V : FrameVad F σ) (P : PitchExtr F π) (cfg : Config F) (memory : VoiceDetector F σ π) :
    VoiceDetector F σ π :=
  { memory with
    vad := memory.vad.reset V
    bbWave := .new
    bbFloatWave := .new
    nCurPitchProbFrameNum := 0 }.reset V P { cfg with bEnablePitch := true }

section Input

variable [Field F] [LinearOrder F] [FloorRing F]

/-- The VAD gets the new frames of the buffer, from frame `nPrevFrameNum` on. -/
def inputVad (V : FrameVad F σ) (nIsAec : Bool) (d : VoiceDetector F σ π)
    (nPrevFrameNum nNewFrameNum : ℕ) : Bool → Option (VAD F σ)
  | false =>
      d.vad.inputWave V (d.bbWave.bytes.drop (nPrevFrameNum * frameSize)) nNewFrameNum nIsAec
  | true =>
      d.vad.inputFloatWave V (d.bbFloatWave.bytes.drop (nPrevFrameNum * frameSize)) nNewFrameNum
        nIsAec

/-- The loop that copies the results of `n` more frames, from `i` on. -/
def probLoop : ℕ → ℤ → VoiceDetector F σ π → Option (VoiceDetector F σ π)
  | 0, _, d => some d
  | n + 1, i, d => do
      let prob :=
        (d.vad.getFrameProb (i + d.nOffsetFrame) 0, d.vad.getFrameProb (i + d.nOffsetFrame) 1)
      let probs ← store maxFrameNum d.probs i prob
      let bprobs ← store maxFrameNum d.bprobs i (decide (prob.1 ≤ prob.2))
      probLoop n (i + 1) { d with probs := probs, bprobs := bprobs }

/-- The results of the VAD are copied into the detector's tables. -/
def copyProbs (d : VoiceDetector F σ π) : Option (VoiceDetector F σ π) := do
  let nMaxProbFrame := d.vad.getMaxFrame - d.nOffsetFrame
  let nMaxProbFrame := if maxFrameNum < nMaxProbFrame then maxFrameNum else nMaxProbFrame
  let d ← probLoop (nMaxProbFrame - d.nCurProbFrameNum).toNat d.nCurProbFrameNum d
  some { d with nCurProbFrameNum := nMaxProbFrame }

/-- The frames of silence that are not needed for the lead-in of a voice. -/
def silFrames (cfg : Config F) (d : VoiceDetector F σ π) : ℤ :=
  let nSilFrames := d.nCurProbFrameNum - cfg.nMinVocFrameNum - cfg.nPreFrameNum
  if nSilFrames < 0 then 0 else nSilFrames

/-- The voice probability of each wave frame from frame `nPrevFrameNum` on is calculated. -/
def calcProbs (V : FrameVad F σ) (P : PitchExtr F π) (cfg : Config F) (isFloat nIsAec : Bool)
    (nPrevFrameNum : ℕ) (d : VoiceDetector F σ π) : Option (VoiceDetector F σ π) := do
  let nNewFrameNum := d.waveFrameNum isFloat - nPrevFrameNum
  let vad ← d.inputVad V nIsAec nPrevFrameNum nNewFrameNum isFloat
  let d := { d with vad := vad }
  let d ← d.inputPitch P cfg isFloat (d.framesFrom isFloat nPrevFrameNum)
  d.copyProbs

/-- The search for the beginning; a silence that has become too long is removed. -/
def detectBegin (V : FrameVad F σ) (cfg : Config F) (nIsAec : Bool) (d : VoiceDetector F σ π) :
    Option (VoiceDetector F σ π) :=
  if d.nVocStartFrame = -1 then do
    let d ← d.judgeVoiceBegin cfg V nIsAec
    if d.nVocStartFrame = -1 then
      if maxFrameNum / 2 ≤ d.silFrames cfg ∧ d.bIsEnd = false then
        d.offsetWaveFrame (d.silFrames cfg - 100)
      else some d
    else some d
  else some d

/-- The search for the end. -/
def detectEnd (cfg : Config F) (bIsEnd : Bool) (d : VoiceDetector F σ π) : VoiceDetector F σ π :=
  if 0 ≤ d.nVocStartFrame ∧ d.nVocStopFrame = -1 then
    let d := d.judgeVoiceEnd cfg
    if 0 ≤ d.nVocStopFrame then { d with bIsEnd := true }
    else if bIsEnd then { d with nVocStopFrame := d.nCurProbFrameNum }
    else d
  else d

/-- `InternalInputWave`.  A null pointer or a length that is not positive is an empty `data`. -/
def internalInputWave (V : FrameVad F σ) (P : PitchExtr F π) (cfg : Config F) (isFloat : Bool)
    (data : List (Sample F isFloat)) (bIsEnd nIsAec : Bool) (d : VoiceDetector F σ π) :
    Option (VoiceDetector F σ π) :=
  let d := d.allocWave isFloat
  if d.bIsEnd then some d
  else do
    let nPrevFrameNum := d.waveFrameNum isFloat
    let d := d.feedWave isFloat data
    let bIsEnd := bIsEnd || (d.waveBuf isFloat).isFull ||
      decide (cfg.nMaxSpeechFrameNum ≤ d.getVoiceFrameNum)
    let d ← { d with bIsEnd := bIsEnd }.calcProbs V P cfg isFloat nIsAec nPrevFrameNum
    let d ← d.detectBegin V cfg nIsAec
    some (d.detectEnd cfg bIsEnd)

end Input

end VoiceDetector

end Vsys.Ztvad
