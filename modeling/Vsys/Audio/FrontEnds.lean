import Mathlib.Tactic.IntervalCases
import Vsys.Audio.Converter
import Vsys.R2ad.MemIo

/-!
# The two front ends on integer PCM

The activation library converts its input with `AudioConverter` and the `r2ad3` library with
`r2mem_i`.  The one picks the selected microphones out of the channels, the other takes every channel
apart and numbers the rows by its list.

With 24 bits they agree.  With 32 bits `AudioConverter` takes the bits of an `int` for those of a
`float`; no number but zero is the same in both readings (`floatValue_eq_signed_iff`).  `agree_iff`
puts this together.

The arithmetic is exact, also where an `int` becomes a `float`.
-/

namespace Vsys.Audio

open Vsys.R2ad

/-! ## Integers and floats of the same bits -/

/-- The signed number of 32 bits. -/
def signed (bits : ℕ) : ℤ := if bits < 2 ^ 31 then bits else bits - 2 ^ 32

/-- The sign bit only changes the sign. -/
theorem floatValue_add_sign {bits : ℕ} (hbits : bits < 2 ^ 31) :
    floatValue (bits + 2 ^ 31) = -floatValue bits := by
  have hsign : (bits + 2 ^ 31) / 2 ^ 31 % 2 = 1 := by omega
  have hplain : ¬bits / 2 ^ 31 % 2 = 1 := by omega
  have hexponent : (bits + 2 ^ 31) / 2 ^ 23 % 256 = bits / 2 ^ 23 % 256 := by omega
  have hmantissa : (bits + 2 ^ 31) % 2 ^ 23 = bits % 2 ^ 23 := by omega
  simp only [floatValue, hsign, hexponent, hmantissa, if_true]
  rw [if_neg hplain]

/-- A normal number with an integer value. -/
theorem scaled_of_floatValue {e m n : ℕ} (he : 0 < e) (he' : e < 255) (hm : m < 2 ^ 23)
    (h : floatValue (e * 2 ^ 23 + m) = n) : (2 ^ 23 + m) * 2 ^ e = n * 2 ^ 150 := by
  have hexponent : (e * 2 ^ 23 + m) / 2 ^ 23 % 256 = e := by omega
  have hmantissa : (e * 2 ^ 23 + m) % 2 ^ 23 = m := by omega
  have hplain : ¬(e * 2 ^ 23 + m) / 2 ^ 31 % 2 = 1 := by omega
  simp only [floatValue, hexponent, hmantissa] at h
  rw [if_neg hplain, if_neg he.ne', if_neg he'.ne, div_eq_iff (by positivity)] at h
  exact_mod_cast h

/-- The numbers in question are too small or too large for their exponents, but for one exponent
where a divisor is missing. -/
theorem not_scaled {e m n : ℕ} (he : 0 < e) (he' : e < 255) (hm : m < 2 ^ 23)
    (hn : n = e * 2 ^ 23 + m ∨ n + (e * 2 ^ 23 + m) = 2 ^ 31) :
    (2 ^ 23 + m) * 2 ^ e ≠ n * 2 ^ 150 := by
  intro h
  rcases le_or_gt e 150 with hle | hlarge
  · obtain ⟨k, hk⟩ := Nat.exists_eq_add_of_le hle
    rw [hk, pow_add, Nat.mul_comm (2 ^ e), ← Nat.mul_assoc] at h
    have hcancel : 2 ^ 23 + m = n * 2 ^ k := Nat.eq_of_mul_eq_mul_right (Nat.two_pow_pos e) h
    rcases Nat.eq_zero_or_pos k with rfl | hpos
    · rw [pow_zero, Nat.mul_one] at hcancel
      omega
    · have hdouble : n * 2 ^ 1 ≤ n * 2 ^ k := Nat.mul_le_mul_left n (Nat.pow_le_pow_right two_pos hpos)
      omega
  · obtain ⟨k, rfl⟩ := Nat.exists_eq_add_of_lt hlarge
    rw [Nat.add_assoc, Nat.add_comm 150, pow_add, ← Nat.mul_assoc] at h
    have hcancel : (2 ^ 23 + m) * 2 ^ (k + 1) = n := Nat.eq_of_mul_eq_mul_right (Nat.two_pow_pos 150) h
    rcases Nat.lt_or_ge k 7 with hsmall | hbig
    · interval_cases k <;> omega
    · have hfactor : (2 ^ 23 + m) * 2 ^ 8 ≤ (2 ^ 23 + m) * 2 ^ (k + 1) :=
        Nat.mul_le_mul_left _ (Nat.pow_le_pow_right two_pos (by omega))
      omega

/-- Without a sign, the bits of a float are its value, or what is missing to the sign, for zero
only. -/
theorem eq_zero_of_floatValue {bits n : ℕ} (hbits : bits < 2 ^ 31)
    (hn : n = bits ∨ n + bits = 2 ^ 31) (h : floatValue bits = n) : bits = 0 ∧ n = 0 := by
  obtain ⟨e, m, hm, rfl⟩ : ∃ e m, m < 2 ^ 23 ∧ bits = e * 2 ^ 23 + m :=
    ⟨bits / 2 ^ 23, bits % 2 ^ 23, Nat.mod_lt _ (by decide), (Nat.div_add_mod' bits (2 ^ 23)).symm⟩
  rcases Nat.eq_zero_or_pos e with rfl | he
  · have hexponent : (0 * 2 ^ 23 + m) / 2 ^ 23 % 256 = 0 := by omega
    have hmantissa : (0 * 2 ^ 23 + m) % 2 ^ 23 = m := by omega
    have hplain : ¬(0 * 2 ^ 23 + m) / 2 ^ 31 % 2 = 1 := by omega
    simp only [floatValue, hexponent, hmantissa] at h
    rw [if_neg hplain, if_true, div_eq_iff (by positivity)] at h
    have hscaled : m = n * 2 ^ 149 := by exact_mod_cast h
    omega
  · rcases Nat.lt_or_ge e 255 with he' | he'
    · exact absurd (scaled_of_floatValue he he' hm h) (not_scaled he he' hm hn)
    · -- not a number and the infinities are read as zero
      have hlast : e = 255 := by omega
      have hexponent : (e * 2 ^ 23 + m) / 2 ^ 23 % 256 = 255 := by omega
      have hplain : ¬(e * 2 ^ 23 + m) / 2 ^ 31 % 2 = 1 := by omega
      simp only [floatValue, hexponent] at h
      rw [if_neg hplain, if_neg (by decide), if_true] at h
      have hzero : n = 0 := by exact_mod_cast h.symm
      omega

/-- **No number but zero is the same as an `int` and as a `float`.** -/
theorem floatValue_eq_signed_iff {bits : ℕ} (hbits : bits < 2 ^ 32) :
    floatValue bits = signed bits ↔ bits = 0 := by
  constructor
  · intro h
    rcases Nat.lt_or_ge bits (2 ^ 31) with hplain | hsign
    · rw [signed, if_pos hplain, Int.cast_natCast] at h
      exact (eq_zero_of_floatValue hplain (.inl rfl) h).1
    · obtain ⟨low, rfl⟩ := Nat.exists_eq_add_of_le' hsign
      have hlow : low < 2 ^ 31 := by omega
      have hmissing : floatValue low = ((2 ^ 31 - low : ℕ) : ℚ) := by
        rw [floatValue_add_sign hlow, signed, if_neg (by omega)] at h
        rw [Nat.cast_sub hlow.le, ← neg_inj, h]
        push_cast
        ring
      have hboth := eq_zero_of_floatValue hlow (.inr (Nat.sub_add_cancel hlow.le)) hmissing
      omega
  · rintro rfl
    norm_num [floatValue, signed]

/-! ## The samples -/

/-- The integer formats that both front ends know. -/
inductive IntPcm
  | int24
  | int32
  deriving DecidableEq, Repr

namespace IntPcm

/-- The format as `AudioConverter` knows it. -/
def audioFormat : IntPcm → AudioFormat
  | int24 => .pcm24
  | int32 => .pcm32

/-- The format as `r2mem_i` knows it. -/
def inType : IntPcm → InType
  | int24 => .int24
  | int32 => .int32

/-- The bytes of a sample. -/
def width : IntPcm → ℕ
  | int24 => 3
  | int32 => 4

/-- What a sample is divided by. -/
def divisor : IntPcm → ℕ
  | int24 => 4
  | int32 => 1024

/-- The channel value with number `k`. -/
def value (f : IntPcm) (bytes : List UInt8) (k : ℕ) : ℤ := readInt bytes (f.width * k) f.width

end IntPcm

/-- `r2mem_i` with exact arithmetic. -/
def exactCells : Cells ℚ where
  intDiv4 x := signed x.toNat / 4
  intDiv1024 x := signed x.toNat / 1024
  float x := floatValue x.toNat

/-- Bytes in memory, with zeros behind them. -/
def memoryOf (bytes : List UInt8) : ℕ → UInt8 := fun k ↦ bytes.getD k 0

section Samples

variable (bytes : List UInt8)

theorem readLe_four (start : ℕ) :
    readLe bytes start 4 = (wordAt (memoryOf bytes) start).toNat := by
  rw [toNat_wordAt]
  simp only [readLe, memoryOf, Nat.mul_zero, Nat.add_zero]

theorem signed_wordAt (start : ℕ) :
    signed (wordAt (memoryOf bytes) start).toNat = readInt bytes start 4 := by
  rw [← readLe_four]
  rfl

/-- The top bit of a byte. -/
theorem and_0x80_ne_zero_iff (b : UInt8) : b &&& 0x80 ≠ 0 ↔ 128 ≤ b.toNat := by
  have hall : ∀ n < 256, (UInt8.ofNat n &&& 0x80 ≠ 0 ↔ 128 ≤ n) := by decide +kernel
  have hb := hall b.toNat b.toNat_lt
  rwa [UInt8.ofNat_toNat] at hb

/-- `toint` is the signed number of three bytes. -/
theorem signed_int24At (start : ℕ) :
    signed (int24At (memoryOf bytes) start).toNat = readInt bytes start 3 := by
  have h0 := (memoryOf bytes start).toNat_lt
  have h1 := (memoryOf bytes (start + 1)).toNat_lt
  have h2 := (memoryOf bytes (start + 2)).toNat_lt
  have htop : (if memoryOf bytes (start + 2) &&& 0x80 ≠ 0 then (0xFF000000 : UInt32) else 0) =
      (if 128 ≤ (memoryOf bytes (start + 2)).toNat then (255 : UInt8) else 0).toUInt32 <<< 24 := by
    simp only [and_0x80_ne_zero_iff]
    split_ifs <;> rfl
  have hvalue : readLe bytes start 3 = (memoryOf bytes start).toNat +
      256 * ((memoryOf bytes (start + 1)).toNat + 256 * (memoryOf bytes (start + 2)).toNat) := by
    simp only [readLe, memoryOf, Nat.mul_zero, Nat.add_zero]
  have hword : (int24At (memoryOf bytes) start).toNat = (memoryOf bytes start).toNat +
      256 * ((memoryOf bytes (start + 1)).toNat + 256 * ((memoryOf bytes (start + 2)).toNat +
        256 * (if 128 ≤ (memoryOf bytes (start + 2)).toNat then (255 : UInt8) else 0).toNat)) := by
    rw [int24At, htop]
    exact toNat_or_bytes _ _ _ _
  rw [hword, readInt, hvalue, signed]
  split_ifs <;> simp at * <;> omega

/-- `r2mem_i` stores the channel value, divided. -/
theorem cell_exact (f : IntPcm) (k : ℕ) :
    f.inType.cell exactCells (memoryOf bytes) k = f.value bytes k / f.divisor := by
  cases f with
  | int24 =>
      calc
        _ = (signed (int24At (memoryOf bytes) (3 * k)).toNat : ℚ) / 4 := rfl
        _ = _ := by rw [signed_int24At]; rfl
  | int32 =>
      calc
        _ = (signed (wordAt (memoryOf bytes) (4 * k)).toNat : ℚ) / 1024 := rfl
        _ = _ := by rw [signed_wordAt]; rfl

/-- `AudioConverter` does so with 24 bits, and with 32 bits for zeros. -/
theorem sample_eq_iff (f : IntPcm) (k : ℕ) :
    f.audioFormat.sample bytes k = f.value bytes k / f.divisor ↔
      f = .int24 ∨ f.value bytes k = 0 := by
  cases f with
  | int24 => exact iff_of_true rfl (.inl rfl)
  | int32 =>
      have hbits : readLe bytes (4 * k) 4 < 2 ^ 32 := by
        rw [readLe_four]
        exact UInt32.toNat_lt _
      have hvalue : signed (readLe bytes (4 * k) 4) = IntPcm.int32.value bytes k := rfl
      have hzero : signed (readLe bytes (4 * k) 4) = 0 ↔ readLe bytes (4 * k) 4 = 0 := by
        rw [signed]
        split_ifs <;> omega
      calc
        _ ↔ floatValue (readLe bytes (4 * k) 4) / 1024 =
            (signed (readLe bytes (4 * k) 4) : ℚ) / 1024 := Iff.rfl
        _ ↔ floatValue (readLe bytes (4 * k) 4) = signed (readLe bytes (4 * k) 4) :=
          div_left_inj' (by norm_num)
        _ ↔ IntPcm.int32.value bytes k = 0 := by
          rw [floatValue_eq_signed_iff hbits, ← hzero, hvalue]
        _ ↔ _ := by simp

end Samples

/-! ## The same buffer through both -/

/-- Both front ends take the buffer, and for every selected microphone both make the same samples
of it: the values of its channel, divided. -/
def Agree (f : IntPcm) (mics : MicArray) (s : MemI ℚ) (bytes : List UInt8) : Prop :=
  ∃ rows len, s.process exactCells (memoryOf bytes) bytes.length = some (rows, len) ∧
    (mics.convert bytes).2 = len ∧
    ∀ mic, (mics.convert bytes).1 mic =
        (List.range len).map (rows (s.ids.getD (mics.micIds mic).val 0)) ∧
      ∀ j < len, rows (s.ids.getD (mics.micIds mic).val 0) j =
        f.value bytes (j * mics.numChannels + (mics.micIds mic).val) / f.divisor

section Same

variable {f : IntPcm} {mics : MicArray} {s : MemI ℚ} {bytes : List UInt8}

/-- A frame has the same size in both. -/
theorem frame_eq_bytesPerFrame (hformat : mics.format = f.audioFormat) (hin : s.inType = f.inType)
    (hchannels : s.ids.length = mics.numChannels) : s.frame = mics.bytesPerFrame := by
  rw [MemI.frame, MicArray.bytesPerFrame, hin, hchannels, hformat]
  cases f <;> rfl

/-- What `r2mem_i` has of a selected microphone. -/
theorem rows_micIds (hin : s.inType = f.inType) (hchannels : s.ids.length = mics.numChannels)
    {len : ℕ} (mic : Fin mics.numMics) {j : ℕ} (hj : j < len) :
    s.rows exactCells (memoryOf bytes) len (s.ids.getD (mics.micIds mic).val 0) j =
      f.value bytes (j * mics.numChannels + (mics.micIds mic).val) / f.divisor := by
  have hid : (mics.micIds mic).val < s.ids.length := by
    rw [hchannels]
    exact (mics.micIds mic).isLt
  rw [MemI.rows_getD exactCells (memoryOf bytes) hid hj, hin, cell_exact, hchannels]

/-- At most a second of samples does not overflow the counters of `AudioConverter`. -/
theorem length_lt_of_second (hframe : s.frame = mics.bytesPerFrame)
    (hwhole : mics.bytesPerFrame ∣ bytes.length)
    (hlen : bytes.length / mics.bytesPerFrame ≤ sampleRate) : bytes.length < 2 ^ 32 :=
  calc
    bytes.length = bytes.length / mics.bytesPerFrame * s.frame := by
      rw [hframe, Nat.div_mul_cancel hwhole]
    _ ≤ sampleRate * s.frame := Nat.mul_le_mul_right _ hlen
    _ ≤ sampleRate * (4 * s.ids.length) := by
      apply Nat.mul_le_mul_left
      rw [MemI.frame]
      apply Nat.mul_le_mul_right
      cases s.inType <;> decide
    _ = 4 * s.ids.length * sampleRate := Nat.mul_comm _ _
    _ < 2 ^ 32 := s.alloc.trans (by norm_num)

/-- What `AudioConverter` has of the selected microphones. -/
theorem convert_eq_samples (hformat : mics.format = f.audioFormat) (hshort : bytes.length < 2 ^ 32) :
    mics.convert bytes = (fun mic ↦ (List.range (bytes.length / mics.bytesPerFrame)).map fun j ↦
        f.audioFormat.sample bytes (j * mics.numChannels + (mics.micIds mic).val),
      bytes.length / mics.bytesPerFrame) := by
  rw [mics.convert_of_lt hshort]
  congr 1
  funext mic
  rw [MicArray.samplesOf, MicArray.pick, hformat]
  apply List.map_congr_left
  intro j _
  rw [Nat.add_comm]

end Same

/-- **The two front ends agree on whole frames of at most a second of 24 bits, and of 32 bits if
all selected channels are silent.** -/
theorem agree_iff (f : IntPcm) (mics : MicArray) (s : MemI ℚ) (hformat : mics.format = f.audioFormat)
    (hin : s.inType = f.inType) (hchannels : s.ids.length = mics.numChannels) (bytes : List UInt8) :
    Agree f mics s bytes ↔
      mics.bytesPerFrame ∣ bytes.length ∧ bytes.length / mics.bytesPerFrame ≤ sampleRate ∧
        (f = .int24 ∨ ∀ mic, ∀ j < bytes.length / mics.bytesPerFrame,
          f.value bytes (j * mics.numChannels + (mics.micIds mic).val) = 0) := by
  have hframe : s.frame = mics.bytesPerFrame := frame_eq_bytesPerFrame hformat hin hchannels
  have hpos : 0 < s.ids.length := hchannels ▸ mics.numChannels_pos
  constructor
  · rintro ⟨rows, len, hprocess, -, hagree⟩
    obtain ⟨-, hwhole, hlen, hrows⟩ := (MemI.process_eq_some_iff _).mp hprocess
    rw [hframe] at hwhole hlen hrows
    obtain ⟨rfl, rfl⟩ := Prod.mk.inj hrows
    refine ⟨hwhole, hlen, ?_⟩
    by_cases hf : f = .int24
    · exact .inl hf
    · refine .inr fun mic j hj ↦ ?_
      have hmic := (hagree mic).1
      rw [convert_eq_samples hformat (length_lt_of_second hframe hwhole hlen)] at hmic
      have hsample := List.map_inj_left.mp hmic j (List.mem_range.mpr hj)
      rw [rows_micIds hin hchannels mic hj, sample_eq_iff] at hsample
      exact hsample.resolve_left hf
  · rintro ⟨hwhole, hlen, hvalues⟩
    have hconvert := convert_eq_samples hformat (length_lt_of_second hframe hwhole hlen)
    refine ⟨_, _, (MemI.process_eq_some_iff _).mpr ⟨hpos, ?_, ?_, rfl⟩, ?_, ?_⟩
    · rwa [hframe]
    · rwa [hframe]
    · rw [hconvert, hframe]
    · intro mic
      rw [hconvert, hframe]
      refine ⟨?_, fun j hj ↦ rows_micIds hin hchannels mic hj⟩
      apply List.map_congr_left
      intro j hj
      rw [rows_micIds hin hchannels mic (List.mem_range.mp hj), sample_eq_iff]
      exact hvalues.imp_right fun hzero ↦ hzero mic j (List.mem_range.mp hj)

/-- The second of two channels, in a format. -/
def secondOfTwo (f : IntPcm) : MicArray where
  format := f.audioFormat
  numMics := 1
  numChannels := 2
  micIds := fun _ ↦ 1
  numMics_pos := Nat.one_pos
  frame_lt := by cases f <;> decide

/-- Two microphones in the other order. -/
def swappedIn (f : IntPcm) : MemI ℚ where
  inType := f.inType
  ids := [1, 0]
  perm := by decide
  dataOut := fun _ _ ↦ 0
  alloc := by decide

/-- Two frames of 24 bits, with a negative value. -/
theorem agree_int24 :
    Agree .int24 (secondOfTwo .int24) (swappedIn .int24)
      [1, 2, 3, 0xFE, 0xFF, 0xFF, 4, 5, 6, 0, 0, 0x80] :=
  (agree_iff .int24 (secondOfTwo .int24) (swappedIn .int24) rfl rfl rfl _).mpr
    ⟨by decide, by decide, .inl rfl⟩

/-- The number one in 32 bits is a very small `float`. -/
theorem not_agree_int32 :
    ¬∀ (f : IntPcm) (mics : MicArray) (s : MemI ℚ) (bytes : List UInt8),
      mics.format = f.audioFormat → s.inType = f.inType → s.ids.length = mics.numChannels →
        mics.bytesPerFrame ∣ bytes.length → Agree f mics s bytes := by
  intro h
  obtain ⟨rows, len, -, hlen, hagree⟩ := h .int32 (secondOfTwo .int32) (swappedIn .int32)
    [0, 0, 0, 0, 1, 0, 0, 0] rfl rfl rfl (by decide)
  have hone : len = 1 := hlen.symm.trans (by decide)
  subst hone
  obtain ⟨hsame, hvalue⟩ := hagree ⟨0, by decide⟩
  have hfirst : AudioFormat.pcm32.sample [0, 0, 0, 0, 1, 0, 0, 0] 1 = rows 0 0 :=
    (List.cons.inj hsame).1
  have hdivided : rows 0 0 = (IntPcm.int32.value [0, 0, 0, 0, 1, 0, 0, 0] 1 : ℚ) / 1024 :=
    hvalue 0 (by decide)
  exact absurd (hfirst.trans hdivided) (by decide +kernel)

end Vsys.Audio
