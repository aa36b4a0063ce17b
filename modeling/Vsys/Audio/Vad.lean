import Vsys.Audio.Coder
import Vsys.Audio.Converter
import Vsys.Stream.Blocks

/-!
# The two drivers of the voice detector

`VoiceActivation::check_voice_activity` and `r2mem_vad2::process` feed the voice detector in
frames and report when voice starts and when it stops.  The detector itself is a parameter: what
it answers after each `VD_InputFloatWave` is an arbitrary `VadAnswer`.

Both drivers keep a flag for "voice is on" (`has_vad`, `m_iVadState`).  `Edges` says that the
start and stop bits of a call are the edges of that flag; it is all the state machines above need
to know about the drivers.
-/

namespace Vsys.Audio

open Vsys.Stream

/-- What the detector answers after it has been given one frame. -/
structure VadAnswer where
  voiceStartFrame : ℤ
  voiceStopFrame : ℤ
  voiceFrameNum : ℕ
  floatVoice : List ℚ

/-- The voice frames from `last` up to the current one. -/
def VadAnswer.voiceFrom (answer : VadAnswer) (last : ℕ) : List ℚ :=
  (answer.floatVoice.drop (last * frameSize)).take ((answer.voiceFrameNum - last) * frameSize)

/-- A detector that hears voice from its first frame on. -/
def VadAnswer.voice : VadAnswer where
  voiceStartFrame := 0
  voiceStopFrame := 0
  voiceFrameNum := 0
  floatVoice := []

/-- The bits `on` and `off` of a call are the edges of a flag that was `before` and is `after`: a
start is reported only while the flag is down, a stop only when it is up or was just raised. -/
structure Edges (before on off after : Bool) : Prop where
  after_eq : after = ((before || on) && !off)
  on_fresh : on = true → before = false
  off_open : off = true → (before || on) = true

theorem Edges.refl (before : Bool) : Edges before false false before := by
  constructor <;> simp

/-- One more frame: a start counts while the flag is down, a stop while it is up. -/
theorem Edges.frame {before on mid : Bool} (h : Edges before on false mid) (start stop : Bool) :
    Edges before (on || (!mid && start)) (mid && stop) ((mid || start) && !(mid && stop)) := by
  obtain ⟨rfl, hfresh, -⟩ := h
  cases before <;> cases on <;> cases start <;> cases stop <;> constructor <;> simp_all

/-! ## `check_voice_activity` -/

/-- `frame_num`, the default number of silent frames that end a voice. -/
def vadFrameNum : ℤ := 45

/-- The members `check_voice_activity` works on.  `fed` lists the blocks given to
`VD_InputFloatWave` so far. -/
structure VadFront where
  vadInput : List ℚ
  vadInputOffset : ℕ
  hasVad : Bool
  lastFrame : ℕ
  minSilFrameNum : ℤ
  fed : List (List ℚ)

/-- `write_to_buffer`. -/
def writeToBuffer (buff : List ℚ) (offset : ℕ) (data : List ℚ) : List ℚ × ℕ :=
  if data.length = 0 then (buff, offset)
  else if data.length + offset > buff.length then (buff.take offset ++ data, offset + data.length)
  else (overwrite buff offset data, offset + data.length)

namespace VadFront

/-- A new object; the allocated buffer is not read before it is written. -/
def create : VadFront where
  vadInput := List.replicate frameSize 0
  vadInputOffset := 0
  hasVad := false
  lastFrame := 0
  minSilFrameNum := vadFrameNum
  fed := []

/-- `set_vad_frame_num`. -/
def setVadFrameNum (front : VadFront) (frameNum : ℤ) : VadFront :=
  { front with minSilFrameNum := if frameNum > 0 then frameNum else vadFrameNum }

/-- `vad_reset`. -/
def vadReset (front : VadFront) : VadFront := { front with lastFrame := 0, hasVad := false }

@[simp] theorem setVadFrameNum_hasVad (front : VadFront) (frameNum : ℤ) :
    (front.setVadFrameNum frameNum).hasVad = front.hasVad := rfl

@[simp] theorem vadReset_hasVad (front : VadFront) : front.vadReset.hasVad = false := rfl

end VadFront

/-- The local variables of `check_voice_activity`: the loop counter, the two bits of `ret`, the
samples written to `vad_output` and the pending forced start. -/
structure VadLoop where
  front : VadFront
  i : ℕ := 0
  on : Bool := false
  off : Bool := false
  out : List ℚ := []
  forceStart : Bool

namespace VadLoop

/-- Give frame `i` to the detector, after `VD_SetStart` if a start is forced. -/
def input (l : VadLoop) : VadLoop :=
  let front := if l.forceStart then l.front.setVadFrameNum 2000 else l.front
  { l with
    forceStart := false
    i := l.i + 1
    front := { front with fed := front.fed ++ [blockAt frameSize l.i front.vadInput] } }

/-- Set the bits of `ret` from the answer. -/
def judge (answer : VadAnswer) (l : VadLoop) : VadLoop :=
  if !l.front.hasVad then
    if answer.voiceStartFrame ≥ 0 then
      { l with on := true, front := { l.front with hasVad := true } }
    else l
  else if answer.voiceStopFrame > 0 then { l with off := true }
  else l

/-- Collect the new voice frames, and restart the detector at a stop. -/
def collect (answer : VadAnswer) (l : VadLoop) : VadLoop :=
  if l.front.hasVad then
    let l :=
      if answer.voiceFrameNum > l.front.lastFrame then
        { l with
          out := l.out ++ answer.voiceFrom l.front.lastFrame
          front := { l.front with lastFrame := answer.voiceFrameNum } }
      else l
    if l.off then { l with front := l.front.vadReset } else l
  else l

/-- One round of the loop. -/
def round (answer : VadAnswer) (l : VadLoop) : VadLoop := (l.input.judge answer).collect answer

/-- The loop; it is left after the round that reports a stop. -/
def loop (answers : ℕ → VadAnswer) : ℕ → VadLoop → VadLoop
  | 0, l => l
  | rounds + 1, l =>
      let l := l.round (answers l.i)
      if l.off then l else loop answers rounds l

/-- The bits of `ret` are the edges of `has_vad` since it was `before`. -/
def Tracks (before : Bool) (l : VadLoop) : Prop := Edges before l.on l.off l.front.hasVad

theorem input_bits (l : VadLoop) :
    l.input.on = l.on ∧ l.input.off = l.off ∧ l.input.front.hasVad = l.front.hasVad := by
  unfold input
  dsimp only
  split_ifs <;> exact ⟨rfl, rfl, rfl⟩

/-- What a round does to the bits and to `has_vad`, as long as no stop was reported before. -/
theorem round_bits (answer : VadAnswer) (l : VadLoop) (hoff : l.off = false) :
    (l.round answer).on = (l.on || (!l.front.hasVad && decide (answer.voiceStartFrame ≥ 0))) ∧
      (l.round answer).off = (l.front.hasVad && decide (answer.voiceStopFrame > 0)) ∧
      (l.round answer).front.hasVad =
        ((l.front.hasVad || decide (answer.voiceStartFrame ≥ 0)) &&
          !(l.front.hasVad && decide (answer.voiceStopFrame > 0))) := by
  obtain ⟨hon, hoff', hvad⟩ := l.input_bits
  rw [hoff] at hoff'
  rw [← hon, ← hvad]
  unfold VadLoop.round
  generalize l.input = m at *
  unfold judge collect
  cases hm : m.front.hasVad <;> by_cases hstart : answer.voiceStartFrame ≥ 0 <;>
    by_cases hstop : answer.voiceStopFrame > 0 <;> simp [hm, hstart, hstop, hoff'] <;>
    split_ifs <;> simp_all

theorem Tracks.round {before : Bool} {l : VadLoop} (h : l.Tracks before) (hoff : l.off = false)
    (answer : VadAnswer) : (l.round answer).Tracks before := by
  obtain ⟨hon, hstop, hvad⟩ := round_bits answer l hoff
  unfold Tracks at h ⊢
  rw [hoff] at h
  rw [hon, hstop, hvad]
  exact h.frame _ _

theorem Tracks.loop {before : Bool} (answers : ℕ → VadAnswer) (rounds : ℕ) {l : VadLoop}
    (h : l.Tracks before) (hoff : l.off = false) : (l.loop answers rounds).Tracks before := by
  induction rounds generalizing l with
  | zero => exact h
  | succ rounds ih =>
      have hround := h.round hoff (answers l.i)
      unfold VadLoop.loop
      dsimp only
      split_ifs with hstop
      · exact hround
      · exact ih hround (by simpa using hstop)

end VadLoop

/-- What a VAD driver returns: its two bits and the voice samples. -/
structure VadResult where
  on : Bool
  off : Bool
  data : List ℚ

/-- `check_voice_activity`.  The last copy of the source moves the unread samples from position
`i * num_frames`, not `i * frame_size`. -/
def checkVoiceActivity (answers : ℕ → VadAnswer) (front : VadFront) (input : List ℚ)
    (forceStart : Bool) : VadFront × VadResult :=
  let numFrames := (input.length + front.vadInputOffset) / frameSize
  let (vadInput, vadInputOffset) := writeToBuffer front.vadInput front.vadInputOffset input
  let l := VadLoop.loop answers numFrames
    { front := { front with vadInput := vadInput, vadInputOffset := vadInputOffset }
      forceStart := forceStart }
  let unread := l.front.vadInputOffset - l.i * frameSize
  let moved := (l.front.vadInput.drop (l.i * numFrames)).take unread
  ({ l.front with vadInput := overwrite l.front.vadInput 0 moved, vadInputOffset := unread },
    { on := l.on, off := l.off, data := l.out })

/-- The bits `check_voice_activity` returns are the edges of `has_vad`. -/
theorem checkVoiceActivity_edges (answers : ℕ → VadAnswer) (front : VadFront) (input : List ℚ)
    (forceStart : Bool) :
    Edges front.hasVad (checkVoiceActivity answers front input forceStart).2.on
      (checkVoiceActivity answers front input forceStart).2.off
      (checkVoiceActivity answers front input forceStart).1.hasVad := by
  unfold checkVoiceActivity
  exact VadLoop.Tracks.loop answers _ (Edges.refl front.hasVad) rfl

/-! ## `r2mem_vad2` -/

/-- The state of an `r2mem_vad2` object.  `vadState` is `m_iVadState`, which is 0 or 1; the
assertion of `process` is recorded in `assertsHeld`. -/
structure Vad2 where
  dataIn : List ℚ
  lenIn : ℕ
  lastFrame : ℕ
  vadState : Bool
  minSilFrameNum : ℤ
  endPitchFrameNum : ℤ
  fed : List (List ℚ)
  assertsHeld : Bool

namespace Vad2

/-- `m_iVadEndParam` and `m_iVadEndPitchParam`. -/
def vadEndParam : ℤ := 45
def vadEndPitchParam : ℤ := 1

/-- The constructor. -/
def create : Vad2 where
  dataIn := List.replicate (audioSampleRate * 5) 0
  lenIn := 0
  lastFrame := 0
  vadState := false
  minSilFrameNum := vadEndParam
  endPitchFrameNum := vadEndPitchParam
  fed := []
  assertsHeld := true

/-- `setvadendparam`. -/
def setVadEndParam (v : Vad2) (frmNum : ℤ) : Vad2 :=
  if frmNum ≤ 0 then
    { v with minSilFrameNum := vadEndParam, endPitchFrameNum := vadEndPitchParam }
  else { v with minSilFrameNum := frmNum, endPitchFrameNum := 0 }

/-- `reset`. -/
def reset (v : Vad2) : Vad2 := { v with lastFrame := 0, vadState := false }

/-- `AddInData`; a buffer that is too small is replaced by a zeroed one of twice the size needed. -/
def addInData (v : Vad2) (data : List ℚ) : Vad2 :=
  let total := data.length + v.lenIn
  let dataIn :=
    if total > v.dataIn.length then
      overwrite (List.replicate (total * 2) 0) 0 (v.dataIn.take v.lenIn)
    else v.dataIn
  { v with dataIn := overwrite dataIn v.lenIn data, lenIn := total }

@[simp] theorem reset_vadState (v : Vad2) : v.reset.vadState = false := rfl

@[simp] theorem setVadEndParam_vadState (v : Vad2) (frmNum : ℤ) :
    (v.setVadEndParam frmNum).vadState = v.vadState := by
  unfold setVadEndParam
  split_ifs <;> rfl

/-- The local variables of `process`: the loop counter, the two bits of `rt` and the output. -/
structure Loop where
  v : Vad2
  i : ℕ := 0
  on : Bool := false
  off : Bool := false
  out : List ℚ := []

namespace Loop

/-- Give frame `i` to the detector. -/
def input (l : Loop) : Loop :=
  { l with i := l.i + 1, v := { l.v with fed := l.v.fed ++ [blockAt frameSize l.i l.v.dataIn] } }

/-- Collect the new voice frames. -/
def collect (answer : VadAnswer) (l : Loop) : Loop :=
  if answer.voiceFrameNum > l.v.lastFrame then
    { l with
      out := l.out ++ answer.voiceFrom l.v.lastFrame
      v := { l.v with lastFrame := answer.voiceFrameNum } }
  else l

/-- A stop: restart, and move the frames not yet read to the front. -/
def stop (frmNum : ℕ) (l : Loop) : Loop :=
  let v := { l.v with vadState := false }
  let v :=
    if l.i < frmNum then
      let lenIn := (frmNum - l.i) * frameSize
      { v with
        lenIn := lenIn
        dataIn := overwrite v.dataIn 0 ((v.dataIn.drop (l.i * frameSize)).take lenIn) }
    else v
  { l with off := true, v := v }

/-- One round of the loop. -/
def round (frmNum : ℕ) (forceStart : Bool) (answer : VadAnswer) (l : Loop) : Loop :=
  if l.v.vadState = false then
    let l := if forceStart then { l with v := l.v.setVadEndParam 2000 } else l
    let l := l.input
    if answer.voiceStartFrame ≥ 0 then
      ({ l with on := true, v := { l.v with lastFrame := 0, vadState := true } } : Loop).collect
        answer
    else l
  else
    let l := l.input.collect answer
    if answer.voiceStopFrame > 0 then l.stop frmNum else l

/-- The loop; it is left after the round that reports a stop. -/
def loop (frmNum : ℕ) (forceStart : Bool) (answers : ℕ → VadAnswer) : ℕ → Loop → Loop
  | 0, l => l
  | rounds + 1, l =>
      let l := l.round frmNum forceStart (answers l.i)
      if l.off then l else loop frmNum forceStart answers rounds l

/-- The bits of `rt` are the edges of `m_iVadState` since it was `before`. -/
def Tracks (before : Bool) (l : Loop) : Prop := Edges before l.on l.off l.v.vadState

@[simp] theorem collect_on (answer : VadAnswer) (l : Loop) : (l.collect answer).on = l.on := by
  unfold collect
  split_ifs <;> rfl

@[simp] theorem collect_off (answer : VadAnswer) (l : Loop) : (l.collect answer).off = l.off := by
  unfold collect
  split_ifs <;> rfl

@[simp] theorem collect_vadState (answer : VadAnswer) (l : Loop) :
    (l.collect answer).v.vadState = l.v.vadState := by
  unfold collect
  split_ifs <;> rfl

@[simp] theorem stop_on (frmNum : ℕ) (l : Loop) : (l.stop frmNum).on = l.on := rfl

@[simp] theorem stop_off (frmNum : ℕ) (l : Loop) : (l.stop frmNum).off = true := rfl

@[simp] theorem stop_vadState (frmNum : ℕ) (l : Loop) : (l.stop frmNum).v.vadState = false := by
  unfold stop
  dsimp only
  split_ifs <;> rfl

/-- What a round does to the bits and to `m_iVadState`, as long as no stop was reported before. -/
theorem round_bits (frmNum : ℕ) (forceStart : Bool) (answer : VadAnswer) (l : Loop)
    (hoff : l.off = false) :
    (l.round frmNum forceStart answer).on =
        (l.on || (!l.v.vadState && decide (answer.voiceStartFrame ≥ 0))) ∧
      (l.round frmNum forceStart answer).off =
        (l.v.vadState && decide (answer.voiceStopFrame > 0)) ∧
      (l.round frmNum forceStart answer).v.vadState =
        ((l.v.vadState || decide (answer.voiceStartFrame ≥ 0)) &&
          !(l.v.vadState && decide (answer.voiceStopFrame > 0))) := by
  unfold Loop.round
  by_cases hstate : l.v.vadState = false
  · by_cases hstart : answer.voiceStartFrame ≥ 0 <;> cases forceStart <;>
      simp [hstate, hstart, hoff, input]
  · by_cases hstop : answer.voiceStopFrame > 0 <;> simp [hstate, hstop, hoff, input]

theorem Tracks.round {before : Bool} {l : Loop} (h : l.Tracks before) (hoff : l.off = false)
    (frmNum : ℕ) (forceStart : Bool) (answer : VadAnswer) :
    (l.round frmNum forceStart answer).Tracks before := by
  obtain ⟨hon, hstop, hstate⟩ := round_bits frmNum forceStart answer l hoff
  unfold Tracks at h ⊢
  rw [hoff] at h
  rw [hon, hstop, hstate]
  exact h.frame _ _

theorem Tracks.loop {before : Bool} (frmNum : ℕ) (forceStart : Bool) (answers : ℕ → VadAnswer)
    (rounds : ℕ) {l : Loop} (h : l.Tracks before) (hoff : l.off = false) :
    (l.loop frmNum forceStart answers rounds).Tracks before := by
  induction rounds generalizing l with
  | zero => exact h
  | succ rounds ih =>
      have hround := h.round hoff frmNum forceStart (answers l.i)
      unfold Loop.loop
      dsimp only
      split_ifs with hstop
      · exact hround
      · exact ih hround (by simpa using hstop)

end Loop

/-- `process`, with its flags `bIsEnd` and `bIsAec` both zero as its only caller has them. -/
def process (answers : ℕ → VadAnswer) (v : Vad2) (data : List ℚ) (forceStart : Bool) :
    Vad2 × VadResult :=
  let v := v.addInData data
  let frmNum := v.lenIn / frameSize
  let v : Vad2 := { v with lenIn := v.lenIn - frmNum * frameSize }
  let l := Loop.loop frmNum forceStart answers frmNum { v := v }
  let v : Vad2 := { l.v with assertsHeld := l.v.assertsHeld && (!forceStart || l.v.vadState) }
  let dataIn :=
    if v.lenIn > 0 ∧ frmNum > 0 then
      overwrite v.dataIn 0 ((v.dataIn.drop (frameSize * frmNum)).take v.lenIn)
    else v.dataIn
  ({ v with dataIn := dataIn }, { on := l.on, off := l.off, data := l.out })

/-- The bits `process` returns are the edges of `m_iVadState`. -/
theorem process_edges (answers : ℕ → VadAnswer) (v : Vad2) (data : List ℚ) (forceStart : Bool) :
    Edges v.vadState (process answers v data forceStart).2.on
      (process answers v data forceStart).2.off (process answers v data forceStart).1.vadState := by
  unfold process
  have hstart : Loop.Tracks v.vadState
      { v := { v.addInData data with
        lenIn := (v.addInData data).lenIn - (v.addInData data).lenIn / frameSize * frameSize } } :=
    Edges.refl v.vadState
  exact hstart.loop _ forceStart answers _ rfl

end Vad2

end Vsys.Audio
