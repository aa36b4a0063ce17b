import Mathlib.Tactic.Linarith
import Vsys.Io.Reads

/-!
# The codec of the player

`TtsOpus` encodes the whole frames of a buffer and decodes the whole packets of a buffer.  The
lengths it returns do not come from its loops.  The encoder returns
`len*opus_frame_size*sizeof(opus_int16)/pcm_frame_size`, which multiplies by the size of a sample
where the loop divides by it, and the decoder returns `len*compress_ratio` with a ratio that has
been rounded, whatever is left behind the last whole packet.

`tts_lengths_iff` says for which inputs these are the lengths of what the loops have made.
-/

namespace Vsys.Audio

open Vsys.Io Vsys.Stream

/-! ## The configuration -/

/-- The fields of `opus_st` in front of the engine. -/
structure OpusSt where
  sampleRate : ℤ
  channels : ℤ
  duration : ℤ
  opusBitrate : ℤ
  pcmBitrate : ℤ
  pcmFrameSize : ℤ
  opusFrameSize : ℤ

/-- A conversion to `int`. -/
def toInt (n : ℤ) : ℤ := Int.bmod n (2 ^ 32)

/-- A value of an `int`. -/
def IsInt (n : ℤ) : Prop := -2 ^ 31 ≤ n ∧ n < 2 ^ 31

instance (n : ℤ) : Decidable (IsInt n) := inferInstanceAs (Decidable (_ ∧ _))

/-- A conversion to `size_t`. -/
def toSizeT (n : ℤ) : ℕ := (n % 2 ^ 64).toNat

/-- What `native_opus_encoder_create` and `native_opus_decoder_create` store. -/
def OpusSt.ofRates (sampleRate channels bitrate : ℤ) : OpusSt :=
  let pcmBitrate := toInt (toSizeT (toSizeT (sampleRate * channels) * 2 * 8))
  let pcmFrameSize := (20 * sampleRate).tdiv 1000
  { sampleRate
    channels
    duration := 20
    opusBitrate := bitrate
    pcmBitrate
    pcmFrameSize
    opusFrameSize :=
      toInt (toSizeT (2 * toSizeT pcmFrameSize * toSizeT bitrate) / toSizeT pcmBitrate : ℕ) }

/-- `native_opus_encoder_create` and `native_opus_decoder_create`, from what the library says to the
sample rate and the channels. -/
def nativeOpusCreate (ok : ℤ → ℤ → Bool) (sampleRate channels bitrate : ℤ) : Option OpusSt :=
  if ok sampleRate channels then some (.ofRates sampleRate channels bitrate) else none

/-- The sample rates of the library. -/
def opusRates : List ℤ := [8000, 12000, 16000, 24000, 48000]

/-! ## The loops -/

/-- `opus_encode` and `opus_decode`: a frame and the bytes there may be, a packet and the samples
there may be; `none` is an error. -/
structure OpusLib (σ τ : Type*) where
  encode : σ → List ℤ → ℕ → σ × Option (List UInt8)
  decode : τ → List UInt8 → ℕ → τ × Option (List ℤ)

section Loops

variable {σ τ : Type*} (lib : OpusLib σ τ) (st : OpusSt)

/-- The loop of `native_opus_encode` for one channel, with the rounds that are left and what it has
written to `opus`. -/
def encodeLoop : ℕ → σ → List ℤ → List UInt8 → σ × List UInt8
  | 0, enc, _, opus => (enc, opus)
  | rounds + 1, enc, pcm, opus =>
      match lib.encode enc (pcm.take st.pcmFrameSize.toNat) st.opusFrameSize.toNat with
      | (enc, none) => (enc, opus)
      | (enc, some packet) =>
          encodeLoop rounds enc (pcm.drop st.pcmFrameSize.toNat) (opus ++ packet)

/-- The loop of `native_opus_decode` for one channel: the engine, `total_len` and what is written.
A frame that is not of the right size ends it and is not counted. -/
def decodeLoop : ℕ → τ → List UInt8 → List ℤ → τ × ℕ × List ℤ
  | 0, dec, _, pcm => (dec, pcm.length, pcm)
  | rounds + 1, dec, opus, pcm =>
      match lib.decode dec (opus.take st.opusFrameSize.toNat) st.pcmFrameSize.toNat with
      | (dec, none) => (dec, pcm.length, pcm)
      | (dec, some frame) =>
          if (frame.length : ℤ) = st.pcmFrameSize then
            decodeLoop rounds dec (opus.drop st.opusFrameSize.toNat) (pcm ++ frame)
          else (dec, pcm.length, pcm ++ frame)

/-- What a call has done: the engine, `total_len`, what it returns and what is in the buffer. -/
structure Coded (ρ α : Type*) where
  engine : ρ
  totalLen : ℕ
  length : ℕ
  buffer : List α

/-- `new` of so many entries, and what is written from the front; `none` if it does not fit. -/
def newBuffer {α : Type*} (memory : ℕ → α) (size : ℕ) (written : List α) : Option (List α) :=
  if written.length ≤ size then
    some (overwrite ((List.range size).map memory) 0 written)
  else none

/-- `opus_length`: the first product is a `uint32_t`, the others are `size_t`. -/
def opusLength (len : ℕ) : ℕ :=
  len * st.opusFrameSize.toNat % 2 ^ 32 * 2 / st.pcmFrameSize.toNat % 2 ^ 32

/-- The end of a call: its buffer is of the length that it returns. -/
def Coded.ofRun {ρ α : Type*} (memory : ℕ → α) (engine : ρ) (totalLen : ℕ) (written : List α)
    (length : ℕ) : Option (Coded ρ α) :=
  (newBuffer memory length written).map fun buffer ↦ { engine, totalLen, length, buffer }

/-- `native_opus_encode`; `none` if it writes behind the end of its buffer. -/
def nativeOpusEncode (memory : ℕ → UInt8) (enc : σ) (input : List UInt8) :
    Option (Coded σ UInt8) :=
  let len := input.length % 2 ^ 32
  let run := encodeLoop lib st (len / 2 / st.pcmFrameSize.toNat) enc
    ((blocks 2 input).map intOf) []
  Coded.ofRun memory run.1 run.2.length run.2 (opusLength st len)

/-- `compress_ratio`. -/
def compressRatio : ℤ := toInt (toSizeT (2 * st.pcmFrameSize) / toSizeT st.opusFrameSize : ℕ)

/-- `pcm_length`, if the product of the two `int`s is one. -/
def pcmLength (len : ℤ) : Option ℕ :=
  if IsInt (len * compressRatio st) then some ((len * compressRatio st) % 2 ^ 32).toNat else none

/-- `native_opus_decode`; `none` if there is no `pcm_length`, or if it writes behind the end of its
buffer. -/
def nativeOpusDecode (memory : ℕ → ℤ) (dec : τ) (input : List UInt8) : Option (Coded τ ℤ) :=
  let run := decodeLoop lib st ((toInt input.length).tdiv st.opusFrameSize).toNat dec input []
  (pcmLength st (toInt input.length)).bind (Coded.ofRun memory run.1 run.2.1 run.2.2)

/-- Every call of the library does what it is asked for. -/
structure OpusLib.Exact (lib : OpusLib σ τ) (st : OpusSt) : Prop where
  encode : ∀ enc pcm, pcm.length = st.pcmFrameSize.toNat → ∃ enc' packet,
    lib.encode enc pcm st.opusFrameSize.toNat = (enc', some packet) ∧
      packet.length = st.opusFrameSize.toNat
  decode : ∀ dec packet, packet.length = st.opusFrameSize.toNat → ∃ dec' frame,
    lib.decode dec packet st.pcmFrameSize.toNat = (dec', some frame) ∧
      frame.length = st.pcmFrameSize.toNat

end Loops

/-! ## The sizes of a frame -/

/-- The sizes of a configuration that the library has taken. -/
structure OpusSt.Sized (st : OpusSt) (pcm opus : ℕ) : Prop where
  pcm_eq : st.pcmFrameSize = pcm
  opus_eq : st.opusFrameSize = opus
  two_le_pcm : 2 ≤ pcm
  pcm_le : pcm ≤ 960
  opus_pos : 0 < opus
  opus_lt : opus < 2 ^ 31

theorem toInt_lt (n : ℤ) : toInt n < 2 ^ 31 := by
  have hlt : Int.bmod n (2 ^ 32) < ((2 ^ 32 : ℕ) + 1) / 2 := Int.bmod_lt (by norm_num)
  rw [toInt]
  omega

theorem toInt_natCast {n : ℕ} (h : n < 2 ^ 31) : toInt n = n := by
  apply Int.bmod_eq_of_le_mul_two
  · omega
  · omega

theorem toSizeT_natCast {n : ℕ} (h : n < 2 ^ 64) : toSizeT n = n := by
  have hlt : (n : ℤ) < 2 ^ 64 := by exact_mod_cast h
  rw [toSizeT, Int.emod_eq_of_lt (Int.natCast_nonneg n) hlt, Int.toNat_natCast]

theorem sized_of_nativeOpusCreate {ok : ℤ → ℤ → Bool} {sampleRate channels bitrate : ℤ} {st : OpusSt}
    (hok : ∀ sampleRate channels, ok sampleRate channels = true → sampleRate ∈ opusRates)
    (hst : nativeOpusCreate ok sampleRate channels bitrate = some st)
    (hopus : 0 < st.opusFrameSize) :
    st.Sized st.pcmFrameSize.toNat st.opusFrameSize.toNat := by
  rw [nativeOpusCreate] at hst
  split_ifs at hst with hrate
  cases hst
  have hpcm : 2 ≤ (20 * sampleRate).tdiv 1000 ∧ (20 * sampleRate).tdiv 1000 ≤ 960 := by
    have hmem := hok _ _ hrate
    simp only [opusRates, List.mem_cons, List.not_mem_nil, or_false] at hmem
    rcases hmem with rfl | rfl | rfl | rfl | rfl <;> decide
  have hlt : (OpusSt.ofRates sampleRate channels bitrate).opusFrameSize < 2 ^ 31 := by
    simp only [OpusSt.ofRates]
    apply toInt_lt
  have hsize : (OpusSt.ofRates sampleRate channels bitrate).pcmFrameSize =
    (20 * sampleRate).tdiv 1000 := rfl
  rw [hsize]
  constructor <;> omega

section Sized

variable {σ τ : Type*} {lib : OpusLib σ τ} {st : OpusSt} {pcm opus : ℕ}

/-- Every round writes one packet. -/
theorem encodeLoop_length (hst : st.Sized pcm opus) (hlib : lib.Exact st) {rounds : ℕ} {enc : σ}
    {input : List ℤ} {buffer : List UInt8} (hinput : rounds * pcm ≤ input.length) :
    (encodeLoop lib st rounds enc input buffer).2.length = buffer.length + rounds * opus := by
  induction rounds generalizing enc input buffer with
  | zero => rw [encodeLoop, Nat.zero_mul, Nat.add_zero]
  | succ rounds ih =>
      rw [Nat.succ_mul] at hinput
      have hframe : (input.take st.pcmFrameSize.toNat).length = st.pcmFrameSize.toNat := by
        rw [List.length_take, hst.pcm_eq, Int.toNat_natCast]
        omega
      obtain ⟨enc', packet, hcall, hpacket⟩ := hlib.encode enc _ hframe
      rw [hst.opus_eq, Int.toNat_natCast] at hpacket
      have hrest : rounds * pcm ≤ (input.drop st.pcmFrameSize.toNat).length := by
        rw [List.length_drop, hst.pcm_eq, Int.toNat_natCast]
        omega
      rw [encodeLoop, hcall]
      dsimp only
      rw [ih hrest, List.length_append, hpacket, Nat.succ_mul]
      omega

/-- Every round writes one frame. -/
theorem decodeLoop_length (hst : st.Sized pcm opus) (hlib : lib.Exact st) {rounds : ℕ} {dec : τ}
    {input : List UInt8} {buffer : List ℤ} (hinput : rounds * opus ≤ input.length) :
    (decodeLoop lib st rounds dec input buffer).2.1 = buffer.length + rounds * pcm ∧
      (decodeLoop lib st rounds dec input buffer).2.2.length = buffer.length + rounds * pcm := by
  induction rounds generalizing dec input buffer with
  | zero => simp [decodeLoop]
  | succ rounds ih =>
      rw [Nat.succ_mul] at hinput
      have hpacket : (input.take st.opusFrameSize.toNat).length = st.opusFrameSize.toNat := by
        rw [List.length_take, hst.opus_eq, Int.toNat_natCast]
        omega
      obtain ⟨dec', frame, hcall, hframe⟩ := hlib.decode dec _ hpacket
      rw [hst.pcm_eq, Int.toNat_natCast] at hframe
      have hrest : rounds * opus ≤ (input.drop st.opusFrameSize.toNat).length := by
        rw [List.length_drop, hst.opus_eq, Int.toNat_natCast]
        omega
      have hsum : (buffer ++ frame).length + rounds * pcm = buffer.length + (rounds + 1) * pcm := by
        rw [List.length_append, hframe, Nat.succ_mul]
        omega
      rw [decodeLoop, hcall]
      dsimp only
      rw [if_pos (by rw [hframe, hst.pcm_eq]), ← hsum]
      exact ih hrest

theorem exists_ofRun {ρ α : Type*} {memory : ℕ → α} {engine : ρ} {totalLen length : ℕ}
    {written : List α} (h : written.length ≤ length) :
    ∃ c, Coded.ofRun memory engine totalLen written length = some c := by
  rw [Coded.ofRun, newBuffer, if_pos h]
  exact ⟨_, rfl⟩

theorem length_of_ofRun {ρ α : Type*} {memory : ℕ → α} {engine : ρ} {totalLen length : ℕ}
    {written : List α} {c : Coded ρ α}
    (h : Coded.ofRun memory engine totalLen written length = some c) :
    c.totalLen = totalLen ∧ c.length = length ∧ c.buffer.length = length := by
  rw [Coded.ofRun, newBuffer] at h
  split_ifs at h with hfit
  · cases h
    exact ⟨rfl, rfl, by rw [overwrite_length] <;> simp [hfit]⟩
  · cases h

end Sized

/-! ## The lengths -/

/-- The length that the encoder returns is that of what it has written, and that of the packets of
all whole frames. -/
def EncodeLength {σ : Type*} (pcm opus n : ℕ) (call : Option (Coded σ UInt8)) : Prop :=
  ∃ c, call = some c ∧ c.length = c.totalLen ∧ c.length = n / (2 * pcm) * opus

/-- The length that the decoder returns is that of the bytes it has written, and that of the frames
of all whole packets. -/
def DecodeLength {τ : Type*} (pcm opus n : ℕ) (call : Option (Coded τ ℤ)) : Prop :=
  ∃ d, call = some d ∧ d.length = 2 * d.totalLen ∧ d.length = 2 * pcm * (n / opus)

/-- What the encoder has returned is decoded to as many bytes as there are in the whole frames. -/
def RoundTripLength {σ τ : Type*} (pcm n : ℕ) (encodeCall : Option (Coded σ UInt8))
    (decodeCall : List UInt8 → Option (Coded τ ℤ)) : Prop :=
  ∃ c d, encodeCall = some c ∧ decodeCall c.buffer = some d ∧ d.length = 2 * d.totalLen ∧
    d.length = 2 * pcm * (n / (2 * pcm))

/-- What the product of the encoder is too large by is a multiple of `2 ^ 33`: so much is taken
away by the overflow of the `uint32_t`. -/
structure EncodeFits (pcm opus n : ℕ) : Prop where
  int : n < 2 ^ 32
  low : 2 ^ 33 * (n * opus / 2 ^ 32) ≤ (3 * pcm * (n / (2 * pcm)) + 2 * (n % (2 * pcm))) * opus
  high : (3 * pcm * (n / (2 * pcm)) + 2 * (n % (2 * pcm))) * opus <
    2 ^ 33 * (n * opus / 2 ^ 32) + pcm

/-- The bytes behind the last whole packet make up for what the ratio is too small by. -/
structure DecodeFits (pcm opus n : ℕ) : Prop where
  int : n < 2 ^ 31
  product : n * (2 * pcm / opus) < 2 ^ 31
  exact : n % opus * (2 * pcm / opus) = n / opus * (2 * pcm % opus)

/-- Whole packets are decoded to the right length if a frame is a multiple of a packet. -/
theorem decodeFits_packets_iff {pcm opus count : ℕ} (hopus : 0 < opus) :
    DecodeFits pcm opus (count * opus) ↔
      count * opus < 2 ^ 31 ∧ count * opus * (2 * pcm / opus) < 2 ^ 31 ∧
        (count = 0 ∨ opus ∣ 2 * pcm) := by
  have hexact : count * opus % opus * (2 * pcm / opus) = count * opus / opus * (2 * pcm % opus) ↔
      count = 0 ∨ opus ∣ 2 * pcm := by
    rw [Nat.mul_mod_left, Nat.zero_mul, Nat.mul_div_cancel count hopus, eq_comm, Nat.mul_eq_zero,
      Nat.dvd_iff_mod_eq_zero]
  constructor
  · intro h
    exact ⟨h.int, h.product, hexact.mp h.exact⟩
  · rintro ⟨hint, hproduct, h⟩
    exact ⟨hint, hproduct, hexact.mpr h⟩

/-- Without an overflow the length is right for less than a frame only, which is so short that the
product is rounded to nothing. -/
theorem encodeFits_iff {pcm opus n : ℕ} (hpcm : 0 < pcm) (hopus : 0 < opus)
    (h : n * opus < 2 ^ 32) : EncodeFits pcm opus n ↔ 2 * n * opus < pcm := by
  have hzero : n * opus / 2 ^ 32 = 0 := Nat.div_eq_of_lt h
  have hn : n < 2 ^ 32 := lt_of_le_of_lt (Nat.le_mul_of_pos_right n hopus) h
  constructor
  · intro hfits
    have hhigh := hfits.high
    rw [hzero, Nat.mul_zero, Nat.zero_add] at hhigh
    have hwhole : n / (2 * pcm) = 0 := by
      by_contra hne
      have hone : 1 ≤ n / (2 * pcm) := Nat.one_le_iff_ne_zero.mpr hne
      have hframe : pcm ≤ 3 * pcm * (n / (2 * pcm)) + 2 * (n % (2 * pcm)) :=
        calc
          pcm ≤ 3 * pcm * 1 := by omega
          _ ≤ 3 * pcm * (n / (2 * pcm)) := Nat.mul_le_mul_left _ hone
          _ ≤ _ := Nat.le_add_right _ _
      exact absurd (hframe.trans (Nat.le_mul_of_pos_right _ hopus)) hhigh.not_ge
    have hmod : n % (2 * pcm) = n := Nat.mod_eq_of_lt ((Nat.div_eq_zero_iff_lt (by omega)).mp hwhole)
    rwa [hwhole, hmod, Nat.mul_zero, Nat.zero_add] at hhigh
  · intro hlt
    have hshort : n < 2 * pcm := by nlinarith
    refine ⟨hn, ?_, ?_⟩
    · rw [hzero]
      exact Nat.zero_le _
    · rwa [Nat.div_eq_of_lt hshort, Nat.mod_eq_of_lt hshort, hzero, Nat.mul_zero, Nat.mul_zero,
        Nat.zero_add, Nat.zero_add]

/-- What the encoder returns is the length of the packets of all whole frames. -/
theorem opusLength_eq_iff {st : OpusSt} {pcm opus n : ℕ} (hst : st.Sized pcm opus) (hn : n < 2 ^ 32) :
    opusLength st n = n / (2 * pcm) * opus ↔ EncodeFits pcm opus n := by
  have hpcm := hst.two_le_pcm
  have hmod : n * opus % 2 ^ 32 < 2 ^ 32 := Nat.mod_lt _ (by norm_num)
  have hquotient : n * opus % 2 ^ 32 * 2 / pcm < 2 ^ 32 := by
    apply Nat.div_lt_of_lt_mul
    nlinarith
  have hproduct : n * opus = 2 ^ 32 * (n * opus / 2 ^ 32) + n * opus % 2 ^ 32 :=
    (Nat.div_add_mod _ _).symm
  have hbytes : n * opus =
      2 * (pcm * (n / (2 * pcm)) * opus) + n % (2 * pcm) * opus := by
    calc
      n * opus = (2 * pcm * (n / (2 * pcm)) + n % (2 * pcm)) * opus := by rw [Nat.div_add_mod]
      _ = 2 * (pcm * (n / (2 * pcm)) * opus) + n % (2 * pcm) * opus := by ring
  have hexcess : (3 * pcm * (n / (2 * pcm)) + 2 * (n % (2 * pcm))) * opus =
      3 * (pcm * (n / (2 * pcm)) * opus) + 2 * (n % (2 * pcm) * opus) := by ring
  have htotal : n / (2 * pcm) * opus * pcm = pcm * (n / (2 * pcm)) * opus := by ring
  rw [opusLength, hst.pcm_eq, hst.opus_eq, Int.toNat_natCast, Int.toNat_natCast,
    Nat.mod_eq_of_lt hquotient, Nat.div_eq_iff (by omega), htotal]
  constructor
  · rintro ⟨hlow, hhigh⟩
    refine ⟨hn, ?_, ?_⟩ <;> rw [hexcess] <;> omega
  · intro h
    have hlow := h.low
    have hhigh := h.high
    rw [hexcess] at hlow hhigh
    omega

section Lengths

variable {σ τ : Type*} {lib : OpusLib σ τ} {st : OpusSt} {pcm opus : ℕ}

theorem encodeLoop_total (hst : st.Sized pcm opus) (hlib : lib.Exact st) (enc : σ)
    (input : List UInt8) :
    (encodeLoop lib st (input.length % 2 ^ 32 / 2 / st.pcmFrameSize.toNat) enc
      ((blocks 2 input).map intOf) []).2.length = input.length % 2 ^ 32 / (2 * pcm) * opus := by
  have hrounds : input.length % 2 ^ 32 / (2 * pcm) * pcm ≤ ((blocks 2 input).map intOf).length := by
    rw [List.length_map, blocks_length, ← Nat.div_div_eq_div_mul]
    exact (Nat.div_mul_le_self _ _).trans (Nat.div_le_div_right (Nat.mod_le _ _))
  rw [hst.pcm_eq, Int.toNat_natCast, Nat.div_div_eq_div_mul, encodeLoop_length hst hlib hrounds,
    List.length_nil, Nat.zero_add]

/-- What a call of the encoder has done. -/
theorem length_of_nativeOpusEncode (hst : st.Sized pcm opus) (hlib : lib.Exact st)
    {memory : ℕ → UInt8} {enc : σ} {input : List UInt8} {c : Coded σ UInt8}
    (h : nativeOpusEncode lib st memory enc input = some c) :
    c.totalLen = input.length % 2 ^ 32 / (2 * pcm) * opus ∧
      c.length = opusLength st (input.length % 2 ^ 32) ∧ c.buffer.length = c.length := by
  obtain ⟨htotal, hlength, hbuffer⟩ := length_of_ofRun h
  exact ⟨htotal.trans (encodeLoop_total hst hlib enc input), hlength, hbuffer.trans hlength.symm⟩

theorem exists_nativeOpusEncode (hst : st.Sized pcm opus) (hlib : lib.Exact st)
    (memory : ℕ → UInt8) (enc : σ) {input : List UInt8}
    (h : input.length % 2 ^ 32 / (2 * pcm) * opus ≤ opusLength st (input.length % 2 ^ 32)) :
    ∃ c, nativeOpusEncode lib st memory enc input = some c :=
  exists_ofRun ((encodeLoop_total hst hlib enc input).trans_le h)

/-- A length that is too short by a frame has fewer whole frames. -/
theorem div_lt_div_of_add_le {m n size : ℕ} (hsize : 0 < size) (h : m + size ≤ n) :
    m / size < n / size :=
  calc
    m / size < m / size + 1 := Nat.lt_succ_self _
    _ = (m + size) / size := (Nat.add_div_right m hsize).symm
    _ ≤ n / size := Nat.div_le_div_right h

theorem encodeLength_iff (hst : st.Sized pcm opus) (hlib : lib.Exact st) (memory : ℕ → UInt8)
    (enc : σ) (input : List UInt8) :
    EncodeLength pcm opus input.length (nativeOpusEncode lib st memory enc input) ↔
      EncodeFits pcm opus input.length := by
  have hpcm := hst.two_le_pcm
  have hle := hst.pcm_le
  constructor
  · rintro ⟨c, hcall, htotal, hlength⟩
    obtain ⟨hc, hopus, -⟩ := length_of_nativeOpusEncode hst hlib hcall
    have hn : input.length < 2 ^ 32 := by
      by_contra hlarge
      have hlt := @div_lt_div_of_add_le (input.length % 2 ^ 32) input.length (2 * pcm) (by omega)
        (by omega)
      rw [htotal, hc] at hlength
      exact hlt.ne (Nat.eq_of_mul_eq_mul_right hst.opus_pos hlength)
    rw [Nat.mod_eq_of_lt hn] at hopus
    rw [← opusLength_eq_iff hst hn, ← hopus, hlength]
  · intro hfits
    have hmod := Nat.mod_eq_of_lt hfits.int
    have hopus := (opusLength_eq_iff hst hfits.int).mpr hfits
    obtain ⟨c, hcall⟩ := exists_nativeOpusEncode hst hlib memory enc
      (by rw [hmod, hopus] : input.length % 2 ^ 32 / (2 * pcm) * opus ≤
        opusLength st (input.length % 2 ^ 32))
    obtain ⟨htotal, hlength, -⟩ := length_of_nativeOpusEncode hst hlib hcall
    rw [hmod] at htotal hlength
    exact ⟨c, hcall, by rw [hlength, hopus, htotal], by rw [hlength, hopus]⟩

theorem compressRatio_eq (hst : st.Sized pcm opus) : compressRatio st = (2 * pcm / opus : ℕ) := by
  have hle := hst.pcm_le
  have hlt := hst.opus_lt
  have htwo : 2 * st.pcmFrameSize = (2 * pcm : ℕ) := by rw [hst.pcm_eq]; omega
  have hratio : 2 * pcm / opus < 2 ^ 31 := lt_of_le_of_lt (Nat.div_le_self _ _) (by omega)
  rw [compressRatio, htwo, hst.opus_eq, toSizeT_natCast (by omega), toSizeT_natCast (by omega),
    toInt_natCast hratio]

theorem toNat_tdiv_natCast (a : ℤ) (n : ℕ) : (a.tdiv n).toNat = a.toNat / n := by
  rcases Int.le_total 0 a with ha | ha
  · obtain ⟨m, rfl⟩ := Int.eq_ofNat_of_zero_le ha
    rw [← Int.ofNat_tdiv, Int.toNat_natCast, Int.toNat_natCast]
  · have hneg : 0 ≤ (-a).tdiv n := Int.tdiv_nonneg (by omega) (Int.natCast_nonneg n)
    rw [Int.neg_tdiv] at hneg
    rw [Int.toNat_of_nonpos ha, Nat.zero_div]
    exact Int.toNat_of_nonpos (by omega)

/-- A length that is no `int` is too short by frames, or negative. -/
theorem toInt_toNat_add_le {n size : ℕ} (hn : 2 ^ 31 ≤ n) (hsize : size < 2 ^ 31) :
    (toInt n).toNat + size ≤ n := by
  have hbmod : toInt n = if (n : ℤ) % 4294967296 < 2147483648 then (n : ℤ) % 4294967296
      else (n : ℤ) % 4294967296 - 4294967296 := Int.bmod_def n (2 ^ 32)
  rw [hbmod]
  split_ifs <;> omega

theorem toInt_toNat_le (n : ℕ) : (toInt n).toNat ≤ n := by
  by_cases hn : n < 2 ^ 31
  · rw [toInt_natCast hn, Int.toNat_natCast]
  · exact (Nat.le_add_right _ _).trans (toInt_toNat_add_le (not_lt.mp hn) (Nat.two_pow_pos 31))

/-- `total_len` and the samples of the decoder. -/
theorem decodeLoop_total (hst : st.Sized pcm opus) (hlib : lib.Exact st) (dec : τ)
    (input : List UInt8) :
    (decodeLoop lib st ((toInt input.length).tdiv st.opusFrameSize).toNat dec input []).2.1 =
        (toInt input.length).toNat / opus * pcm ∧
      (decodeLoop lib st ((toInt input.length).tdiv st.opusFrameSize).toNat dec input []).2.2.length =
        (toInt input.length).toNat / opus * pcm := by
  have hrounds : (toInt input.length).toNat / opus * opus ≤ input.length :=
    (Nat.div_mul_le_self _ _).trans (toInt_toNat_le _)
  have htotal := @decodeLoop_length _ _ lib st pcm opus hst hlib _ dec input [] hrounds
  rw [hst.opus_eq, toNat_tdiv_natCast]
  rwa [List.length_nil, Nat.zero_add] at htotal

/-- What a call of the decoder has done. -/
theorem length_of_nativeOpusDecode (hst : st.Sized pcm opus) (hlib : lib.Exact st)
    {memory : ℕ → ℤ} {dec : τ} {input : List UInt8} {d : Coded τ ℤ}
    (h : nativeOpusDecode lib st memory dec input = some d) :
    d.totalLen = (toInt input.length).toNat / opus * pcm ∧
      pcmLength st (toInt input.length) = some d.length := by
  rw [nativeOpusDecode, Option.bind_eq_some_iff] at h
  obtain ⟨length, hlength, h⟩ := h
  obtain ⟨htotal, hd, -⟩ := length_of_ofRun h
  rw [hlength, hd]
  exact ⟨htotal.trans (decodeLoop_total hst hlib dec input).1, rfl⟩

theorem exists_nativeOpusDecode (hst : st.Sized pcm opus) (hlib : lib.Exact st)
    (memory : ℕ → ℤ) (dec : τ) {input : List UInt8} {length : ℕ}
    (hlength : pcmLength st (toInt input.length) = some length)
    (h : (toInt input.length).toNat / opus * pcm ≤ length) :
    ∃ d, nativeOpusDecode lib st memory dec input = some d := by
  rw [nativeOpusDecode, hlength, Option.bind_some]
  exact exists_ofRun ((decodeLoop_total hst hlib dec input).2.trans_le h)

/-- `pcm_length` for a length that is an `int`. -/
theorem pcmLength_eq_some_iff (hst : st.Sized pcm opus) {n length : ℕ} (hn : n < 2 ^ 31) :
    pcmLength st (toInt n) = some length ↔
      n * (2 * pcm / opus) < 2 ^ 31 ∧ n * (2 * pcm / opus) = length := by
  have hint : IsInt ((n * (2 * pcm / opus) : ℕ) : ℤ) ↔ n * (2 * pcm / opus) < 2 ^ 31 := by
    rw [IsInt]
    omega
  rw [pcmLength, toInt_natCast hn, compressRatio_eq hst, ← Nat.cast_mul]
  by_cases hproduct : n * (2 * pcm / opus) < 2 ^ 31
  · have hmod : (((n * (2 * pcm / opus) : ℕ) : ℤ) % 2 ^ 32).toNat = n * (2 * pcm / opus) := by
      omega
    rw [if_pos (hint.mpr hproduct), hmod, Option.some_inj]
    exact ⟨fun h ↦ ⟨hproduct, h⟩, fun h ↦ h.2⟩
  · rw [if_neg (mt hint.mp hproduct)]
    constructor
    · intro h
      cases h
    · intro h
      exact absurd h.1 hproduct

/-- Both are the bytes of whole packets and what is behind them. -/
theorem mul_ratio_eq_iff (pcm opus n : ℕ) :
    n * (2 * pcm / opus) = 2 * pcm * (n / opus) ↔
      n % opus * (2 * pcm / opus) = n / opus * (2 * pcm % opus) := by
  have hn : n * (2 * pcm / opus) =
      opus * (n / opus) * (2 * pcm / opus) + n % opus * (2 * pcm / opus) := by
    rw [← Nat.add_mul, Nat.div_add_mod]
  have hframe : 2 * pcm * (n / opus) =
      opus * (n / opus) * (2 * pcm / opus) + n / opus * (2 * pcm % opus) := by
    calc
      2 * pcm * (n / opus) = (opus * (2 * pcm / opus) + 2 * pcm % opus) * (n / opus) := by
        rw [Nat.div_add_mod]
      _ = _ := by ring
  rw [hn, hframe, Nat.add_left_cancel_iff]

theorem decodeLength_iff (hst : st.Sized pcm opus) (hlib : lib.Exact st) (memory : ℕ → ℤ)
    (dec : τ) (input : List UInt8) :
    DecodeLength pcm opus input.length (nativeOpusDecode lib st memory dec input) ↔
      DecodeFits pcm opus input.length := by
  have hpcm := hst.two_le_pcm
  constructor
  · rintro ⟨d, hcall, htotal, hlength⟩
    obtain ⟨hd, hpcmLength⟩ := length_of_nativeOpusDecode hst hlib hcall
    have hn : input.length < 2 ^ 31 := by
      by_contra hlarge
      have hlt := div_lt_div_of_add_le hst.opus_pos
        (toInt_toNat_add_le (not_lt.mp hlarge) hst.opus_lt)
      have hframes : (toInt input.length).toNat / opus = input.length / opus := by
        apply Nat.eq_of_mul_eq_mul_left (show 0 < 2 * pcm by omega)
        rw [← hlength, htotal, hd]
        ring
      exact hlt.ne hframes
    obtain ⟨hproduct, hd⟩ := (pcmLength_eq_some_iff hst hn).mp hpcmLength
    exact ⟨hn, hproduct, (mul_ratio_eq_iff pcm opus _).mp (hd.trans hlength)⟩
  · intro hfits
    have heq := (mul_ratio_eq_iff pcm opus _).mpr hfits.exact
    have hpcmLength := (pcmLength_eq_some_iff hst hfits.int).mpr ⟨hfits.product, heq⟩
    have hroom : (toInt input.length).toNat / opus * pcm ≤ 2 * pcm * (input.length / opus) := by
      rw [toInt_natCast hfits.int, Int.toNat_natCast]
      nlinarith [Nat.zero_le (input.length / opus * pcm)]
    obtain ⟨d, hcall⟩ := exists_nativeOpusDecode hst hlib memory dec hpcmLength hroom
    obtain ⟨htotal, hd⟩ := length_of_nativeOpusDecode hst hlib hcall
    rw [hpcmLength, Option.some_inj] at hd
    rw [toInt_natCast hfits.int, Int.toNat_natCast] at htotal
    refine ⟨d, hcall, ?_, hd.symm⟩
    rw [← hd, htotal]
    ring

/-- Behind an encoder that has returned the right length. -/
theorem roundTripLength_iff (hst : st.Sized pcm opus) (hlib : lib.Exact st) (opusMemory : ℕ → UInt8)
    (pcmMemory : ℕ → ℤ) (enc : σ) (dec : τ) {input : List UInt8}
    (h : EncodeLength pcm opus input.length (nativeOpusEncode lib st opusMemory enc input)) :
    RoundTripLength pcm input.length (nativeOpusEncode lib st opusMemory enc input)
        (nativeOpusDecode lib st pcmMemory dec) ↔
      DecodeFits pcm opus (input.length / (2 * pcm) * opus) := by
  obtain ⟨c, hcall, -, hlength⟩ := h
  have hbuffer : c.buffer.length = input.length / (2 * pcm) * opus :=
    (length_of_nativeOpusEncode hst hlib hcall).2.2.trans hlength
  rw [← hbuffer, ← decodeLength_iff hst hlib pcmMemory dec c.buffer, hbuffer, DecodeLength,
    Nat.mul_div_cancel _ hst.opus_pos, hcall]
  constructor
  · rintro ⟨c', d, hc', hd⟩
    cases hc'
    exact ⟨d, hd⟩
  · rintro ⟨d, hd⟩
    exact ⟨c, d, rfl, hd⟩

end Lengths

/-- **The lengths of the codec.** What the encoder and the decoder return are the lengths of what
they have made, and the round trip has the bytes of all whole frames, exactly if the product of the
encoder loses what it is too large by, the bytes behind the last packet make up for the ratio of the
decoder, and the packets of the encoder are decoded with a ratio that has not been rounded. -/
theorem tts_lengths_iff {σ τ : Type*} {ok : ℤ → ℤ → Bool} {sampleRate bitrate : ℤ} {st : OpusSt}
    {lib : OpusLib σ τ}
    (hok : ∀ sampleRate channels, ok sampleRate channels = true → sampleRate ∈ opusRates)
    (hst : nativeOpusCreate ok sampleRate 1 bitrate = some st) (hopus : 0 < st.opusFrameSize)
    (hlib : lib.Exact st) (opusMemory : ℕ → UInt8) (pcmMemory : ℕ → ℤ) (enc : σ) (dec : τ)
    (input packets : List UInt8) :
    EncodeLength st.pcmFrameSize.toNat st.opusFrameSize.toNat input.length
          (nativeOpusEncode lib st opusMemory enc input) ∧
        DecodeLength st.pcmFrameSize.toNat st.opusFrameSize.toNat packets.length
          (nativeOpusDecode lib st pcmMemory dec packets) ∧
        RoundTripLength st.pcmFrameSize.toNat input.length
          (nativeOpusEncode lib st opusMemory enc input) (nativeOpusDecode lib st pcmMemory dec) ↔
      EncodeFits st.pcmFrameSize.toNat st.opusFrameSize.toNat input.length ∧
        DecodeFits st.pcmFrameSize.toNat st.opusFrameSize.toNat packets.length ∧
        DecodeFits st.pcmFrameSize.toNat st.opusFrameSize.toNat
          (input.length / (2 * st.pcmFrameSize.toNat) * st.opusFrameSize.toNat) := by
  have hsized := sized_of_nativeOpusCreate hok hst hopus
  have hencode := encodeLength_iff hsized hlib opusMemory enc input
  rw [← hencode, decodeLength_iff hsized hlib pcmMemory dec packets]
  refine and_congr_right fun h ↦ and_congr_right fun _ ↦ ?_
  exact roundTripLength_iff hsized hlib opusMemory pcmMemory enc dec h

/-- A library that makes silence of everything. -/
def silentLib : OpusLib Unit Unit where
  encode := fun enc _ bytes ↦ (enc, some (List.replicate bytes 0))
  decode := fun dec _ samples ↦ (dec, some (List.replicate samples 0))

theorem silentLib_exact (st : OpusSt) : silentLib.Exact st where
  encode := fun enc _ _ ↦ ⟨enc, _, rfl, List.length_replicate⟩
  decode := fun dec _ _ ↦ ⟨dec, _, rfl, List.length_replicate⟩

/-- The answer of the library. -/
def ratesOk (sampleRate channels : ℤ) : Bool :=
  decide (sampleRate ∈ opusRates ∧ (channels = 1 ∨ channels = 2))

theorem mem_of_ratesOk (sampleRate channels : ℤ) (h : ratesOk sampleRate channels = true) :
    sampleRate ∈ opusRates := (of_decide_eq_true h).1

/-- The player: a frame of 320 samples is a packet of 40 bytes. -/
def player : OpusSt := .ofRates 16000 1 16000

theorem player_created : nativeOpusCreate ratesOk 16000 1 16000 = some player := rfl

theorem player_sizes : player.pcmFrameSize.toNat = 320 ∧ player.opusFrameSize.toNat = 40 := by
  decide +kernel

theorem player_sized : player.Sized 320 40 := by
  rw [← player_sizes.1, ← player_sizes.2]
  exact sized_of_nativeOpusCreate mem_of_ratesOk player_created (by decide +kernel)

theorem tts_lengths_player :
    DecodeLength player.pcmFrameSize.toNat player.opusFrameSize.toNat 80
      (nativeOpusDecode silentLib player (fun _ ↦ 0) () (List.replicate 80 0)) := by
  have hlengths := (tts_lengths_iff mem_of_ratesOk player_created (by decide +kernel)
    (silentLib_exact player) (fun _ ↦ 0) (fun _ ↦ 0) () () [] (List.replicate 80 0)).mpr
  rw [player_sizes.1, player_sizes.2, List.length_replicate] at *
  refine (hlengths ⟨⟨?_, ?_, ?_⟩, ⟨?_, ?_, ?_⟩, ⟨?_, ?_, ?_⟩⟩).2.1 <;> decide

/-- One frame: the encoder returns four times the length of its packet. -/
theorem not_tts_lengths :
    ¬∀ (sampleRate bitrate : ℤ) (st : OpusSt) (lib : OpusLib Unit Unit) (input packets : List UInt8),
      nativeOpusCreate ratesOk sampleRate 1 bitrate = some st → 0 < st.opusFrameSize →
      lib.Exact st →
      EncodeLength st.pcmFrameSize.toNat st.opusFrameSize.toNat input.length
          (nativeOpusEncode lib st (fun _ ↦ 0) () input) ∧
        DecodeLength st.pcmFrameSize.toNat st.opusFrameSize.toNat packets.length
          (nativeOpusDecode lib st (fun _ ↦ 0) () packets) ∧
        RoundTripLength st.pcmFrameSize.toNat input.length
          (nativeOpusEncode lib st (fun _ ↦ 0) () input)
          (nativeOpusDecode lib st (fun _ ↦ 0) ()) := by
  intro h
  have hencode := (h 16000 16000 player silentLib (List.replicate 640 0) [] player_created
    (by decide +kernel) (silentLib_exact player)).1
  rw [player_sizes.1, player_sizes.2] at hencode
  have hfits := (encodeLength_iff player_sized (silentLib_exact player) (fun _ ↦ 0) ()
    (List.replicate 640 0)).mp hencode
  rw [List.length_replicate] at hfits
  exact absurd hfits.high (by decide)

end Vsys.Audio
