import Mathlib.Algebra.Order.Field.Rat
import Mathlib.Data.List.GetD
import Mathlib.Tactic.NormNum

/-!
# `AudioConverter`

The activation library receives interleaved bytes in one of four formats and turns them into one
list of samples for each microphone.  `convert` follows the source, including the conversion of
its byte count to `uint32_t`; `samplesOf` is the conversion of a byte stream of any length, which
is what `convert` computes below `2^32` bytes.

Samples are rationals.  Infinities and NaNs have no rational value and are read as zero.
-/

namespace Vsys.Audio

/-- `frame_size` and `m_iFrmSize`: a frame lasts 10 ms at 16 kHz, the only accepted rate. -/
def frameSize : ℕ := 16000 / 1000 * 10

theorem frameSize_pos : 0 < frameSize := by decide

/-- `AUDIO_FORMAT_ENCODING_PCM_*`. -/
inductive AudioFormat
  | pcm16
  | pcm24
  | pcm32
  | pcmFloat
  deriving DecidableEq, Repr

/-- `audio_bytes_per_sample`. -/
def AudioFormat.bytesPerSample : AudioFormat → ℕ
  | pcm16 => 2
  | pcm24 => 3
  | pcm32 => 4
  | pcmFloat => 4

/-- The unsigned little-endian number in the `width` bytes from position `start`. -/
def readLe (bytes : List UInt8) (start : ℕ) : ℕ → ℕ
  | 0 => 0
  | width + 1 => (bytes.getD start 0).toNat + 256 * readLe bytes (start + 1) width

/-- A two's complement number of `width` bytes; `int24_t::toint` at width three. -/
def readInt (bytes : List UInt8) (start width : ℕ) : ℤ :=
  let value := readLe bytes start width
  if value < 2 ^ (8 * width - 1) then value else value - 2 ^ (8 * width)

/-- The value of the IEEE single precision number with the given bits. -/
def floatValue (bits : ℕ) : ℚ :=
  let exponent : ℕ := bits / 2 ^ 23 % 256
  let mantissa : ℕ := bits % 2 ^ 23
  let magnitude : ℚ :=
    if exponent = 0 then (mantissa : ℚ) / 2 ^ 149
    else if exponent = 255 then 0
    else (2 ^ 23 + mantissa : ℕ) * 2 ^ exponent / 2 ^ 150
  if bits / 2 ^ 31 % 2 = 1 then -magnitude else magnitude

/-- The sample with number `k` of an interleaved buffer, scaled as `convert` scales it. -/
def AudioFormat.sample (format : AudioFormat) (bytes : List UInt8) (k : ℕ) : ℚ :=
  match format with
  | pcm16 => readInt bytes (2 * k) 2
  | pcm24 => readInt bytes (3 * k) 3 / 4
  | pcm32 => floatValue (readLe bytes (4 * k) 4) / 1024
  | pcmFloat => floatValue (readLe bytes (4 * k) 4) * 32768

/-- What `set_parameters` accepts: every microphone is one of the input channels.  The size of one
sample of every channel is computed in 32 bits. -/
structure MicArray where
  format : AudioFormat
  numMics : ℕ
  numChannels : ℕ
  micIds : Fin numMics → Fin numChannels
  numMics_pos : 0 < numMics
  frame_lt : format.bytesPerSample * numChannels < 2 ^ 32

namespace MicArray

variable (mics : MicArray)

/-- The bytes of one sample of every channel. -/
def bytesPerFrame : ℕ := mics.format.bytesPerSample * mics.numChannels

theorem numChannels_pos : 0 < mics.numChannels :=
  (Nat.zero_le _).trans_lt (mics.micIds ⟨0, mics.numMics_pos⟩).isLt

theorem bytesPerSample_pos : 0 < mics.format.bytesPerSample := by
  cases mics.format <;> decide

theorem bytesPerFrame_pos : 0 < mics.bytesPerFrame :=
  Nat.mul_pos mics.bytesPerSample_pos mics.numChannels_pos

/-- The first `samples` samples of one microphone. -/
def pick (bytes : List UInt8) (samples : ℕ) (mic : Fin mics.numMics) : List ℚ :=
  (List.range samples).map fun j ↦
    mics.format.sample bytes ((mics.micIds mic).val + j * mics.numChannels)

/-- `convert`: its `uint32_t` parameter keeps the byte count modulo `2^32`. -/
def convert (bytes : List UInt8) : (Fin mics.numMics → List ℚ) × ℕ :=
  let samples := bytes.length % 2 ^ 32 / mics.bytesPerFrame
  (mics.pick bytes samples, samples)

/-- One microphone's samples of a whole byte stream. -/
def samplesOf (bytes : List UInt8) (mic : Fin mics.numMics) : List ℚ :=
  mics.pick bytes (bytes.length / mics.bytesPerFrame) mic

@[simp]
theorem pick_length (bytes : List UInt8) (samples : ℕ) (mic : Fin mics.numMics) :
    (mics.pick bytes samples mic).length = samples := by
  simp [pick]

@[simp]
theorem samplesOf_length (bytes : List UInt8) (mic : Fin mics.numMics) :
    (mics.samplesOf bytes mic).length = bytes.length / mics.bytesPerFrame :=
  pick_length ..

/-- Below `2^32` bytes the conversion is complete. -/
theorem convert_of_lt {bytes : List UInt8} (h : bytes.length < 2 ^ 32) :
    mics.convert bytes = (mics.samplesOf bytes, bytes.length / mics.bytesPerFrame) := by
  rw [convert, Nat.mod_eq_of_lt h]
  rfl

/-! ## A stream that arrives in parts -/

theorem readLe_append_left (bytes later : List UInt8) (start width : ℕ)
    (h : start + width ≤ bytes.length) :
    readLe (bytes ++ later) start width = readLe bytes start width := by
  induction width generalizing start with
  | zero => rfl
  | succ width ih =>
      rw [readLe, readLe, ih (start + 1) (by omega), List.getD_append _ _ _ _ (by omega)]

theorem readLe_append_right (bytes later : List UInt8) (start width : ℕ) :
    readLe (bytes ++ later) (bytes.length + start) width = readLe later start width := by
  induction width generalizing start with
  | zero => rfl
  | succ width ih =>
      rw [readLe, readLe, Nat.add_assoc, ih (start + 1),
        List.getD_append_right _ _ _ _ (Nat.le_add_right _ _), Nat.add_sub_cancel_left]

theorem sample_append_left (format : AudioFormat) (bytes later : List UInt8) (k : ℕ)
    (h : format.bytesPerSample * (k + 1) ≤ bytes.length) :
    format.sample (bytes ++ later) k = format.sample bytes k := by
  cases format <;> simp only [AudioFormat.sample, AudioFormat.bytesPerSample, readInt] at h ⊢ <;>
    rw [readLe_append_left _ _ _ _ (by omega)]

theorem sample_append_right (format : AudioFormat) (bytes later : List UInt8) (k q : ℕ)
    (h : bytes.length = format.bytesPerSample * q) :
    format.sample (bytes ++ later) (q + k) = format.sample later k := by
  cases format <;> simp only [AudioFormat.sample, AudioFormat.bytesPerSample, readInt] at h ⊢ <;>
    rw [Nat.mul_add, ← h, readLe_append_right]

/-- The samples of two whole parts, one after the other. -/
theorem samplesOf_append {bytes : List UInt8} (later : List UInt8) (mic : Fin mics.numMics)
    (h : mics.bytesPerFrame ∣ bytes.length) :
    mics.samplesOf (bytes ++ later) mic = mics.samplesOf bytes mic ++ mics.samplesOf later mic := by
  obtain ⟨q, hq⟩ := h
  have hpos := mics.bytesPerFrame_pos
  have hsamples : bytes.length = mics.format.bytesPerSample * (q * mics.numChannels) := by
    rw [hq, bytesPerFrame, Nat.mul_assoc, Nat.mul_comm mics.numChannels]
  have hcount : (bytes ++ later).length / mics.bytesPerFrame =
      q + later.length / mics.bytesPerFrame := by
    rw [List.length_append, hq, Nat.mul_add_div hpos]
  rw [samplesOf, samplesOf, samplesOf, pick, hcount, hq, Nat.mul_div_cancel_left q hpos,
    List.range_add, List.map_append, List.map_map]
  congr 1
  · apply List.map_congr_left
    intro j hj
    apply sample_append_left
    rw [hsamples]
    apply Nat.mul_le_mul_left
    have hid := (mics.micIds mic).isLt
    calc
      (mics.micIds mic).val + j * mics.numChannels + 1 ≤ (j + 1) * mics.numChannels := by
        rw [Nat.add_mul]
        omega
      _ ≤ q * mics.numChannels := Nat.mul_le_mul_right _ (List.mem_range.mp hj)
  · apply List.map_congr_left
    intro j _
    rw [Function.comp_apply, Nat.add_mul, Nat.add_left_comm]
    exact sample_append_right _ _ _ _ _ hsamples

end MicArray

end Vsys.Audio
