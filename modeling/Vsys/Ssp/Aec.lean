import Mathlib.Data.Int.Notation
import Mathlib.Data.List.Perm.Basic
import Mathlib.Logic.Function.Basic

/-!
# The echo canceller of `r2ssp`

`r2ssp_aec_process` for several channels, with one Speex canceller for each of them.  The microphones and
the reference are brought to one scale, every channel is cancelled on its own block, and the output is
scaled back.  The order of the channels does not matter (`cancelChannel_comm`), so a call may leave
it to a pool of workers.

`Op.run` is a call that takes the channels one after the other.  The float arithmetic and Speex are
parameters; Speex sees the state of the channel, its microphone block and the reference block.
-/

namespace Vsys.Ssp

variable {F σ : Type*}

/-- `ZTSSP_AEC_FRAME_SAMPLE`. -/
def frameSample : ℕ := 256

/-- The arithmetic on `float`. -/
structure FloatOps (F : Type*) where
  /-- An `int` as a `float`. -/
  ofNat : ℕ → F
  /-- `0.1`. -/
  tenth : F
  /-- No bit is set but the sign. -/
  isZero : F → Bool
  /-- `sum += fabs(x)`. -/
  addAbs : F → F → F
  add : F → F → F
  sub : F → F → F
  mul : F → F → F
  div : F → F → F
  lt : F → F → Bool

/-- `speex_echo_cancellation`, and `speex_preprocess_run` on its output. -/
structure Speex (σ F : Type*) where
  cancel : σ → List F → List F → σ × (ℕ → F)

/-- The members that hold data. -/
@[ext]
structure AecHandle (σ F : Type*) where
  micBuf : ℕ → F
  refBuf : ℕ → F
  outBuf : ℕ → F
  prevScale : F
  zeroFrameCount : ℕ
  voiceFrameCount : ℕ
  echoStates : ℕ → σ

/-- A channel with the blocks it was cancelled on. -/
structure Task (F : Type*) where
  channel : ℕ
  mic : List F
  ref : List F
  deriving DecidableEq, Repr

/-- What a call returns, and the channels it cancelled. -/
structure Result (F : Type*) where
  code : ℤ
  outSamples : List F
  tasks : List (Task F)
  deriving DecidableEq, Repr

/-- A call, with the length it was given. -/
inductive Op (F : Type*)
  | bufferFarend (refSamples : ℕ → F) (length : ℤ)
  | process (mixSamples : ℕ → F) (length : ℤ)

namespace AecHandle

variable (R : FloatOps F) (E : Speex σ F) (channels speaker : ℕ)

/-- The copy of `r2ssp_aec_buffer_farend`: the samples of the speakers take turns. -/
def bufferFarend (h : AecHandle σ F) (refSamples : ℕ → F) : AecHandle σ F :=
  { h with
    refBuf := fun k ↦
      if k < frameSample * speaker then refSamples (k % speaker * frameSample + k / speaker)
      else h.refBuf k }

/-- The reference is zero. -/
def silent (h : AecHandle σ F) : Bool :=
  (List.range (frameSample * speaker)).all fun i ↦ R.isZero (h.refBuf i)

/-- The mean amplitude of a buffer. -/
def average (buf : ℕ → F) (n : ℕ) : F :=
  R.div ((List.range n).foldl (fun sum i ↦ R.addAbs sum (buf i)) (R.ofNat 0)) (R.ofNat n)

/-- The scale for the buffers, smoothed with that of the last frame. -/
def nextScale (h : AecHandle σ F) : F :=
  let avgAmp := R.ofNat (1024 * 7)
  let refScale := R.div avgAmp (average R h.refBuf (frameSample * speaker))
  let micScale := R.div avgAmp (average R h.micBuf (frameSample * channels))
  let scale := if R.lt refScale micScale then refScale else micScale
  let scale := if R.lt (R.ofNat 8) scale then R.ofNat 8 else scale
  let scale := if R.lt scale (R.ofNat 1) then R.ofNat 1 else scale
  R.add (R.mul R.tenth scale) (R.mul (R.sub (R.ofNat 1) R.tenth) h.prevScale)

/-- A buffer with its first entries scaled. -/
def scaled (buf : ℕ → F) (n : ℕ) (scale : F) : ℕ → F := fun i ↦
  if i < n then R.mul (buf i) scale else buf i

/-- A call with a reference that is not zero, up to the cancellation: the buffers and the scale. -/
def prepare (h : AecHandle σ F) (mixSamples : ℕ → F) : AecHandle σ F × F :=
  let h := { h with
    voiceFrameCount := h.voiceFrameCount + 1
    zeroFrameCount := 0
    micBuf := fun i ↦ if i < frameSample * channels then mixSamples i else h.micBuf i }
  let scale := nextScale R channels speaker h
  ({ h with
    prevScale := scale
    refBuf := scaled R h.refBuf (frameSample * speaker) scale
    micBuf := scaled R h.micBuf (frameSample * channels) scale }, scale)

/-- A call with a zero reference. -/
def passOn (h : AecHandle σ F) (mixSamples : ℕ → F) : AecHandle σ F × Result F :=
  ({ h with zeroFrameCount := h.zeroFrameCount + 1, voiceFrameCount := 0 },
    ⟨1, (List.range (frameSample * channels)).map mixSamples, []⟩)

/-- The blocks of a channel. -/
def task (h : AecHandle σ F) (channel : ℕ) : Task F where
  channel := channel
  mic := (List.range frameSample).map fun i ↦ h.micBuf (channel * frameSample + i)
  ref := (List.range (frameSample * speaker)).map h.refBuf

/-- What Speex gives for a channel. -/
def answer (h : AecHandle σ F) (channel : ℕ) : σ × (ℕ → F) :=
  E.cancel (h.echoStates channel) (h.task speaker channel).mic (h.task speaker channel).ref

/-- One channel is cancelled. -/
def cancelChannel (h : AecHandle σ F) (channel : ℕ) : AecHandle σ F :=
  { h with
    echoStates := Function.update h.echoStates channel (h.answer E speaker channel).1
    outBuf := fun k ↦
      if channel * frameSample ≤ k ∧ k < channel * frameSample + frameSample then
        (h.answer E speaker channel).2 (k - channel * frameSample)
      else h.outBuf k }

/-- The output, scaled back. -/
def deliver (h : AecHandle σ F) (scale : F) : List F :=
  (List.range (frameSample * channels)).map fun i ↦ R.div (h.outBuf i) scale

/-- `r2ssp_aec_process`, one channel after the other. -/
def process (h : AecHandle σ F) (mixSamples : ℕ → F) (length : ℤ) : AecHandle σ F × Result F :=
  if length < frameSample * channels then (h, ⟨-2, [], []⟩)
  else if h.silent R speaker then h.passOn channels mixSamples
  else
    let ready := h.prepare R channels speaker mixSamples
    let h := (List.range channels).foldl (cancelChannel E speaker) ready.1
    (h, ⟨0, h.deliver R channels ready.2, (List.range channels).map (ready.1.task speaker)⟩)

end AecHandle

/-- `r2ssp_aec_buffer_farend` with its check. -/
def AecHandle.farend (speaker : ℕ) (h : AecHandle σ F) (refSamples : ℕ → F) (length : ℤ) :
    AecHandle σ F × Result F :=
  if length < frameSample * speaker then (h, ⟨-2, [], []⟩)
  else (h.bufferFarend speaker refSamples, ⟨0, [], []⟩)

/-- A call, with the channels one after the other. -/
def Op.run (R : FloatOps F) (E : Speex σ F) (channels speaker : ℕ) (h : AecHandle σ F) :
    Op F → AecHandle σ F × Result F
  | bufferFarend refSamples length => h.farend speaker refSamples length
  | process mixSamples length => h.process R E channels speaker mixSamples length

/-- Calls, one after the other, with what they return. -/
def sequential (R : FloatOps F) (E : Speex σ F) (channels speaker : ℕ) (start : AecHandle σ F)
    (ops : List (Op F)) : AecHandle σ F × List (Result F) :=
  ops.foldl (fun s op ↦
    ((op.run R E channels speaker s.1).1, s.2 ++ [(op.run R E channels speaker s.1).2])) (start, [])

variable {R : FloatOps F} {E : Speex σ F} {channels speaker : ℕ}

theorem sequential_concat (start : AecHandle σ F) (ops : List (Op F)) (op : Op F) :
    sequential R E channels speaker start (ops ++ [op]) =
      ((op.run R E channels speaker (sequential R E channels speaker start ops).1).1,
        (sequential R E channels speaker start ops).2 ++
          [(op.run R E channels speaker (sequential R E channels speaker start ops).1).2]) :=
  List.foldl_append ..

namespace AecHandle

/-! ## The order of the channels -/

section CancelChannel

variable (h : AecHandle σ F) (channel other : ℕ)

@[simp]
theorem cancelChannel_micBuf : (h.cancelChannel E speaker channel).micBuf = h.micBuf := rfl

@[simp]
theorem cancelChannel_refBuf : (h.cancelChannel E speaker channel).refBuf = h.refBuf := rfl

@[simp]
theorem cancelChannel_prevScale : (h.cancelChannel E speaker channel).prevScale = h.prevScale := rfl

@[simp]
theorem cancelChannel_zeroFrameCount :
    (h.cancelChannel E speaker channel).zeroFrameCount = h.zeroFrameCount := rfl

@[simp]
theorem cancelChannel_voiceFrameCount :
    (h.cancelChannel E speaker channel).voiceFrameCount = h.voiceFrameCount := rfl

theorem cancelChannel_echoStates :
    (h.cancelChannel E speaker channel).echoStates =
      Function.update h.echoStates channel (h.answer E speaker channel).1 := rfl

theorem cancelChannel_outBuf (k : ℕ) :
    (h.cancelChannel E speaker channel).outBuf k =
      if channel * frameSample ≤ k ∧ k < channel * frameSample + frameSample then
        (h.answer E speaker channel).2 (k - channel * frameSample)
      else h.outBuf k := rfl

/-- The blocks are not written. -/
@[simp]
theorem task_cancelChannel :
    (h.cancelChannel E speaker channel).task speaker other = h.task speaker other := rfl

/-- A channel does not see that another one was cancelled. -/
theorem answer_cancelChannel {channel other : ℕ} (hne : other ≠ channel) :
    (h.cancelChannel E speaker channel).answer E speaker other = h.answer E speaker other := by
  rw [answer, answer, task_cancelChannel, cancelChannel_echoStates, Function.update_of_ne hne]

/-- **The channels may be cancelled in any order.** -/
theorem cancelChannel_comm :
    (h.cancelChannel E speaker channel).cancelChannel E speaker other =
      (h.cancelChannel E speaker other).cancelChannel E speaker channel := by
  obtain rfl | hne := eq_or_ne channel other
  · rfl
  have hapart : channel * frameSample + frameSample ≤ other * frameSample ∨
      other * frameSample + frameSample ≤ channel * frameSample := by
    rw [← Nat.succ_mul, ← Nat.succ_mul]
    exact (Nat.lt_or_gt_of_ne hne).imp (Nat.mul_le_mul_right _) (Nat.mul_le_mul_right _)
  apply AecHandle.ext
  · simp only [cancelChannel_micBuf]
  · simp only [cancelChannel_refBuf]
  · funext k
    rw [cancelChannel_outBuf, cancelChannel_outBuf, cancelChannel_outBuf, cancelChannel_outBuf,
      answer_cancelChannel h hne.symm, answer_cancelChannel h hne]
    split_ifs with hother hchannel
    · omega
    · rfl
    · rfl
    · rfl
  · simp only [cancelChannel_prevScale]
  · simp only [cancelChannel_zeroFrameCount]
  · simp only [cancelChannel_voiceFrameCount]
  · rw [cancelChannel_echoStates, cancelChannel_echoStates, cancelChannel_echoStates,
      cancelChannel_echoStates, answer_cancelChannel h hne.symm, answer_cancelChannel h hne,
      Function.update_comm hne]

@[simp]
theorem task_foldl (channels : List ℕ) :
    (channels.foldl (cancelChannel E speaker) h).task speaker other = h.task speaker other := by
  induction channels generalizing h with
  | nil => rfl
  | cons channel channels ih => rw [List.foldl_cons, ih, task_cancelChannel]

end CancelChannel

/-- Every order gives the same. -/
theorem foldl_cancelChannel_perm {channels later : List ℕ} (hperm : channels.Perm later)
    (h : AecHandle σ F) :
    channels.foldl (cancelChannel E speaker) h = later.foldl (cancelChannel E speaker) h :=
  hperm.foldl_eq' (fun _ _ _ _ h ↦ cancelChannel_comm h _ _) h

end AecHandle

end Vsys.Ssp
