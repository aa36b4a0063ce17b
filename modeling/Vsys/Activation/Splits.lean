import Mathlib.Algebra.Order.BigOperators.Group.List
import Mathlib.Algebra.Order.Group.Nat
import Mathlib.Data.Nat.ModEq
import Vsys.Activation.Framing

/-!
# Splits of the input stream

Which sequences of chunk lengths does `process` frame correctly, whatever the samples are?
`framesAreBlocks_iff` answers: those whose byte counts fit in 32 bits and whose torn calls, if
any, belong to a last frame that is never completed.

`Sync` is the invariant of a run without torn calls.  For the converse, the samples after the torn
call are chosen to differ from the first sample that was waiting.
-/

namespace Vsys.Activation

open Vsys.Audio Vsys.Stream Vsys.Trace

variable {mics : MicArray}

/-! ## Calls that are not torn -/

/-- The recorded frames, the offset and the waiting samples are those of the stream `whole`. -/
structure Sync (s : Framing mics (List (Frame mics))) (whole : Frame mics) : Prop where
  wellFormed : s.WellFormed
  frames : ∀ mic, s.inner.map (· mic) = blocks frameSize (whole mic)
  offset : ∀ mic, s.buffOffset = (whole mic).length % frameSize
  pending : ∀ mic, s.pending mic = leftover frameSize (whole mic)

theorem sync_create (memory : Fin mics.numMics → Fin frameSize → ℚ) :
    Sync (Framing.create memory []) fun _ ↦ [] where
  wellFormed := Framing.create_wellFormed memory []
  frames := fun _ ↦ rfl
  offset := fun _ ↦ rfl
  pending := fun _ ↦ List.take_zero

/-- A call that is not torn keeps the object in step with the stream. -/
theorem Sync.feed {s : Framing mics (List (Frame mics))} {whole : Frame mics} (h : Sync s whole)
    {input : List UInt8} (hinput : input.length % mics.bytesPerFrame = 0)
    (htorn : ¬ Torn s.buffOffset (chunkLen mics input)) :
    Sync (feed record s input) fun mic ↦ whole mic ++ chunk mics input mic := by
  have hspec := feed_spec record h.wellFormed hinput
  refine ⟨hspec.wellFormed, fun mic ↦ ?_, fun mic ↦ ?_, fun mic ↦ ?_⟩
  · rw [feed_record_map h.wellFormed hinput, h.frames, h.pending,
      ← blocks_append frameSize_pos (whole mic)]
  · rw [hspec.offset, h.offset mic, List.length_append, chunk_length, Nat.mod_add_mod]
  · rw [leftover_append frameSize_pos, ← h.pending mic]
    by_cases hlen : s.buffOffset + chunkLen mics input < frameSize
    · have hshort : (s.pending mic ++ chunk mics input mic).length < frameSize := by
        rw [List.length_append, h.wellFormed.pending_length, chunk_length]
        exact hlen
      rw [hspec.short hlen mic, leftover_of_length_lt hshort]
      -- not torn: nothing was waiting, or nothing arrived
      by_cases hoff : s.buffOffset = 0
      · rw [Framing.pending, hoff, List.take_zero, List.take_zero, List.append_nil, List.nil_append]
      · have hzero : chunkLen mics input = 0 := by
          by_contra hpos
          exact htorn ⟨Nat.pos_of_ne_zero hoff, Nat.pos_of_ne_zero hpos, hlen⟩
        have hnil : chunk mics input mic = [] :=
          List.eq_nil_of_length_eq_zero ((chunk_length input mic).trans hzero)
        rw [hnil, hzero, List.nil_append, List.append_nil, List.drop_zero, Framing.pending]
    · exact hspec.whole (not_lt.mp hlen) mic

/-- Calls that do not complete the frame hand nothing over. -/
theorem run_record_quiet (calls : List (List UInt8)) {s : Framing mics (List (Frame mics))}
    (hs : s.WellFormed) (hcalls : ∀ input ∈ calls, input.length % mics.bytesPerFrame = 0)
    (hsum : s.buffOffset + (calls.map (chunkLen mics)).sum < frameSize) :
    (run (feed record) s calls).inner = s.inner := by
  induction calls generalizing s with
  | nil => rfl
  | cons input calls ih =>
      rw [List.forall_mem_cons] at hcalls
      rw [List.map_cons, List.sum_cons] at hsum
      have hspec := feed_spec record hs hcalls.1
      have hoffset : (feed record s input).buffOffset = s.buffOffset + chunkLen mics input := by
        rw [hspec.offset]
        exact Nat.mod_eq_of_lt (by omega)
      have hnone : (s.buffOffset + chunkLen mics input) / frameSize = 0 :=
        Nat.div_eq_of_lt (by omega)
      rw [run_cons, ih hspec.wellFormed hcalls.2 (by rw [hoffset]; omega),
        feed_record_inner hs hcalls.1, hnone]
      simp [framesFrom]

/-- The torn calls of a sequence of chunk lengths, if any, add to a frame that is never
completed. -/
def TornLast : ℕ → List ℕ → Prop
  | _, [] => True
  | off, len :: lens =>
      (Torn off len → off + len + lens.sum < frameSize) ∧ TornLast ((off + len) % frameSize) lens

instance (off len : ℕ) : Decidable (Torn off len) := inferInstanceAs (Decidable (_ ∧ _ ∧ _))

instance TornLast.decidable : ∀ (off : ℕ) (lens : List ℕ), Decidable (TornLast off lens)
  | _, [] => inferInstanceAs (Decidable True)
  | off, len :: lens =>
      have := TornLast.decidable ((off + len) % frameSize) lens
      inferInstanceAs (Decidable (_ ∧ _))

theorem tornLast_of_sum_lt {off : ℕ} {lens : List ℕ} (h : off + lens.sum < frameSize) :
    TornLast off lens := by
  induction lens generalizing off with
  | nil => trivial
  | cons len lens ih =>
      rw [List.sum_cons] at h
      refine ⟨fun _ ↦ by omega, ih ?_⟩
      rw [Nat.mod_eq_of_lt (by omega)]
      omega

theorem chunk_of_lt {input : List UInt8} (h : input.length < 2 ^ 32) :
    chunk mics input = mics.samplesOf input ∧
      chunkLen mics input = input.length / mics.bytesPerFrame := by
  rw [chunk, chunkLen, mics.convert_of_lt h]
  exact ⟨rfl, rfl⟩

theorem samplesOf_flatten_cons {input : List UInt8} (calls : List (List UInt8))
    (hinput : input.length % mics.bytesPerFrame = 0) (hsize : input.length < 2 ^ 32)
    (mic : Fin mics.numMics) :
    mics.samplesOf (input :: calls).flatten mic =
      chunk mics input mic ++ mics.samplesOf calls.flatten mic := by
  rw [List.flatten_cons, mics.samplesOf_append _ _ (Nat.dvd_of_mod_eq_zero hinput),
    (chunk_of_lt hsize).1]

theorem samplesOf_flatten_length (calls : List (List UInt8))
    (hcalls : ∀ input ∈ calls, input.length % mics.bytesPerFrame = 0)
    (hsize : ∀ input ∈ calls, input.length < 2 ^ 32) (mic : Fin mics.numMics) :
    (mics.samplesOf calls.flatten mic).length = (calls.map (chunkLen mics)).sum := by
  induction calls with
  | nil => simp
  | cons input calls ih =>
      rw [List.forall_mem_cons] at hcalls hsize
      rw [samplesOf_flatten_cons _ hcalls.1 hsize.1, List.length_append, chunk_length,
        ih hcalls.2 hsize.2, List.map_cons, List.sum_cons]

/-- Calls without a harmful torn one hand over the blocks of the stream. -/
theorem Sync.run_frames (calls : List (List UInt8)) {s : Framing mics (List (Frame mics))}
    {whole : Frame mics} (h : Sync s whole)
    (hcalls : ∀ input ∈ calls, input.length % mics.bytesPerFrame = 0)
    (hsize : ∀ input ∈ calls, input.length < 2 ^ 32)
    (htorn : TornLast s.buffOffset (calls.map (chunkLen mics))) (mic : Fin mics.numMics) :
    (run (Activation.feed record) s calls).inner.map (· mic) =
      blocks frameSize (whole mic ++ mics.samplesOf calls.flatten mic) := by
  induction calls generalizing s whole with
  | nil => simpa [MicArray.samplesOf, MicArray.pick] using h.frames mic
  | cons input calls ih =>
      have hlength := samplesOf_flatten_length (input :: calls) hcalls hsize mic
      have hall := hcalls
      rw [List.forall_mem_cons] at hcalls hsize
      rw [List.map_cons] at htorn
      by_cases hcall : Torn s.buffOffset (chunkLen mics input)
      · -- the frame stays incomplete to the end: both sides add nothing to the frames so far
        have hshort := htorn.1 hcall
        have hquiet : s.buffOffset + ((input :: calls).map (chunkLen mics)).sum < frameSize := by
          rw [List.map_cons, List.sum_cons]
          omega
        have hrest : (leftover frameSize (whole mic) ++
            mics.samplesOf (input :: calls).flatten mic).length < frameSize := by
          rw [List.length_append, ← h.pending mic, h.wellFormed.pending_length, hlength]
          exact hquiet
        rw [run_record_quiet _ h.wellFormed hall hquiet, h.frames, blocks_append frameSize_pos,
          blocks_of_length_lt hrest, List.append_nil]
      · rw [run_cons, ih (h.feed hcalls.1 hcall) hcalls.2 hsize.2 ?_,
          samplesOf_flatten_cons _ hcalls.1 hsize.1, List.append_assoc]
        rw [(feed_spec record h.wellFormed hcalls.1).offset]
        exact htorn.2

/-! ## A harmful torn call loses samples -/

/-- A chunk of `len` samples that all have the same byte pattern. -/
def constBytes (mics : MicArray) (pattern : List UInt8) (len : ℕ) : List UInt8 :=
  (List.replicate (len * mics.numChannels) pattern).flatten

theorem sample_replicate {format : AudioFormat} {pattern : List UInt8}
    (hpattern : pattern.length = format.bytesPerSample) (count k : ℕ) (hk : k < count) :
    format.sample (List.replicate count pattern).flatten k = format.sample pattern 0 := by
  induction count generalizing k with
  | zero => omega
  | succ count ih =>
      rw [List.replicate_succ, List.flatten_cons]
      cases k with
      | zero => exact MicArray.sample_append_left format _ _ 0 (by omega)
      | succ k =>
          rw [Nat.add_comm k, MicArray.sample_append_right format _ _ k 1 (by omega)]
          exact ih k (by omega)

theorem constBytes_length {pattern : List UInt8}
    (hpattern : pattern.length = mics.format.bytesPerSample) (len : ℕ) :
    (constBytes mics pattern len).length = len * mics.bytesPerFrame := by
  simp only [constBytes, List.length_flatten, List.map_replicate, List.sum_replicate_nat,
    hpattern, MicArray.bytesPerFrame]
  ring

theorem chunk_constBytes {pattern : List UInt8}
    (hpattern : pattern.length = mics.format.bytesPerSample) {len : ℕ}
    (hlen : len * mics.bytesPerFrame < 2 ^ 32) (mic : Fin mics.numMics) :
    chunkLen mics (constBytes mics pattern len) = len ∧
      chunk mics (constBytes mics pattern len) mic =
        List.replicate len (mics.format.sample pattern 0) := by
  have hlength := constBytes_length hpattern len
  have hcount : (constBytes mics pattern len).length / mics.bytesPerFrame = len := by
    rw [hlength, Nat.mul_div_cancel _ mics.bytesPerFrame_pos]
  obtain ⟨hchunk, hchunkLen⟩ :
      chunk mics (constBytes mics pattern len) = _ ∧ chunkLen mics _ = _ :=
    chunk_of_lt (hlength.trans_lt hlen)
  refine ⟨hchunkLen.trans hcount, ?_⟩
  rw [hchunk, MicArray.samplesOf, MicArray.pick, hcount, List.eq_replicate_iff]
  refine ⟨by simp, ?_⟩
  intro x hx
  obtain ⟨j, hj, rfl⟩ := List.mem_map.mp hx
  apply sample_replicate hpattern
  calc
    (mics.micIds mic).val + j * mics.numChannels < (j + 1) * mics.numChannels := by
      rw [Nat.add_mul, Nat.one_mul, Nat.add_comm]
      exact Nat.add_lt_add_left (mics.micIds mic).isLt _
    _ ≤ len * mics.numChannels := Nat.mul_le_mul_right _ (List.mem_range.mp hj)

/-- Every format has a sample that differs from a given one. -/
theorem exists_pattern (format : AudioFormat) (x : ℚ) :
    ∃ pattern : List UInt8, pattern.length = format.bytesPerSample ∧
      format.sample pattern 0 ≠ x := by
  have hpair : ∃ zero one : List UInt8, zero.length = format.bytesPerSample ∧
      one.length = format.bytesPerSample ∧ format.sample zero 0 ≠ format.sample one 0 := by
    have hone : readLe [0, 0, 128, 63] (4 * 0) 4 = 1065353216 := rfl
    have hzero : readLe [0, 0, 0, 0] (4 * 0) 4 = 0 := rfl
    cases format with
    | pcm16 =>
        have : readInt [1, 0] (2 * 0) 2 = 1 := rfl
        have : readInt [0, 0] (2 * 0) 2 = 0 := rfl
        exact ⟨[0, 0], [1, 0], rfl, rfl, by norm_num [AudioFormat.sample, *]⟩
    | pcm24 =>
        have : readInt [1, 0, 0] (3 * 0) 3 = 1 := rfl
        have : readInt [0, 0, 0] (3 * 0) 3 = 0 := rfl
        exact ⟨[0, 0, 0], [1, 0, 0], rfl, rfl, by norm_num [AudioFormat.sample, *]⟩
    | pcm32 =>
        refine ⟨[0, 0, 0, 0], [0, 0, 128, 63], rfl, rfl, ?_⟩
        norm_num [AudioFormat.sample, floatValue, hone, hzero]
    | pcmFloat =>
        refine ⟨[0, 0, 0, 0], [0, 0, 128, 63], rfl, rfl, ?_⟩
        norm_num [AudioFormat.sample, floatValue, hone, hzero]
  obtain ⟨zero, one, hzero, hone, hne⟩ := hpair
  by_cases hx : format.sample zero 0 = x
  · exact ⟨one, hone, fun h ↦ hne (hx.trans h.symm)⟩
  · exact ⟨zero, hzero, hx⟩

/-- Once the waiting samples begin with `y` and only samples `y` follow, so does the next frame. -/
theorem run_record_stale {pattern : List UInt8}
    (hpattern : pattern.length = mics.format.bytesPerSample) (mic : Fin mics.numMics)
    (lens : List ℕ) {s : Framing mics (List (Frame mics))} (hs : s.WellFormed)
    (hhead : (s.pending mic).head? = some (mics.format.sample pattern 0))
    (hsize : ∀ len ∈ lens, len * mics.bytesPerFrame < 2 ^ 32)
    (hsum : frameSize ≤ s.buffOffset + lens.sum) :
    ∃ frame later,
      (run (feed record) s (lens.map (constBytes mics pattern))).inner =
        s.inner ++ frame :: later ∧
      (frame mic).head? = some (mics.format.sample pattern 0) := by
  induction lens generalizing s with
  | nil =>
      have := hs.offset_lt
      rw [List.sum_nil] at hsum
      omega
  | cons len lens ih =>
      rw [List.sum_cons] at hsum
      rw [List.forall_mem_cons] at hsize
      obtain ⟨hlen, hchunk⟩ := chunk_constBytes hpattern hsize.1 mic
      have hmod : ∀ len, (constBytes mics pattern len).length % mics.bytesPerFrame = 0 := by
        intro len
        rw [constBytes_length hpattern, Nat.mul_mod_left]
      have hspec := feed_spec record hs (hmod len)
      have hinner := feed_record_inner hs (hmod len)
      rw [hlen] at hinner
      rw [List.map_cons, run_cons]
      by_cases hshort : s.buffOffset + len < frameSize
      · have hhead' : ((feed record s (constBytes mics pattern len)).pending mic).head? =
            some (mics.format.sample pattern 0) := by
          rw [hspec.short (by rw [hlen]; exact hshort), hchunk, hlen]
          cases len with
          | zero => simpa [Framing.pending] using hhead
          | succ len => rfl
        obtain ⟨frame, later, hrun, hframe⟩ := ih hspec.wellFormed hhead' hsize.2 (by
          rw [hspec.offset, hlen, Nat.mod_eq_of_lt hshort]
          omega)
        refine ⟨frame, later, ?_, hframe⟩
        rw [hrun, hinner, Nat.div_eq_of_lt hshort]
        simp [framesFrom]
      · obtain ⟨rounds, hrounds⟩ : ∃ rounds, (s.buffOffset + len) / frameSize = rounds + 1 :=
          Nat.exists_eq_add_one.mpr (Nat.div_pos (not_lt.mp hshort) frameSize_pos)
        obtain ⟨later, hlater⟩ := run_record_prefix (lens.map (constBytes mics pattern))
          hspec.wellFormed (by
            intro input hinput
            obtain ⟨len, -, rfl⟩ := List.mem_map.mp hinput
            exact hmod len)
        rw [← hlater, hinner, hrounds, framesFrom, List.range'_succ, List.map_cons]
        refine ⟨_, _, by rw [List.append_assoc, List.cons_append], ?_⟩
        rw [blockAt, Nat.zero_mul, List.drop_zero, List.head?_take, if_neg frameSize_pos.ne',
          List.head?_append_of_ne_nil, hhead]
        rintro hnil
        rw [hnil] at hhead
        cases hhead

/-- A torn call puts its own samples in front of the waiting ones: when the frame is completed
later, it does not begin as the block does. -/
theorem Sync.lost_of_torn {s : Framing mics (List (Frame mics))} {whole : Frame mics}
    (h : Sync s whole) {pattern : List UInt8}
    (hpattern : pattern.length = mics.format.bytesPerSample) (mic : Fin mics.numMics)
    (hne : (s.pending mic).head? ≠ some (mics.format.sample pattern 0)) {len : ℕ} {lens : List ℕ}
    (hsize : ∀ x ∈ len :: lens, x * mics.bytesPerFrame < 2 ^ 32) (hcall : Torn s.buffOffset len)
    (hsum : frameSize ≤ s.buffOffset + len + lens.sum) (rest : List ℚ) :
    (run (Activation.feed record) s ((len :: lens).map (constBytes mics pattern))).inner.map
      (· mic) ≠ blocks frameSize (whole mic ++ rest) := by
  rw [List.forall_mem_cons] at hsize
  obtain ⟨hoff, hpos, hshort⟩ := hcall
  obtain ⟨hlen, hchunk⟩ := chunk_constBytes hpattern hsize.1 mic
  have hmod : (constBytes mics pattern len).length % mics.bytesPerFrame = 0 := by
    rw [constBytes_length hpattern, Nat.mul_mod_left]
  have hspec := feed_spec record h.wellFormed hmod
  have hinner := feed_record_inner h.wellFormed hmod
  have hoffset := hspec.offset
  have hpending := hspec.short (by rw [hlen]; exact hshort) mic
  rw [hlen, Nat.div_eq_of_lt hshort] at hinner
  rw [hlen, Nat.mod_eq_of_lt hshort] at hoffset
  rw [hchunk] at hpending
  have hhead : ((Activation.feed record s (constBytes mics pattern len)).pending mic).head? =
      some (mics.format.sample pattern 0) := by
    obtain ⟨count, rfl⟩ := Nat.exists_eq_add_one.mpr hpos
    rw [hpending, List.replicate_succ]
    rfl
  obtain ⟨frame, later, hrun, hframe⟩ := run_record_stale hpattern mic lens hspec.wellFormed hhead
    hsize.2 (by rw [hoffset]; exact hsum)
  intro heq
  rw [List.map_cons, run_cons, hrun, hinner, framesFrom, List.range'_zero, List.map_nil,
    List.append_nil, List.map_append, h.frames, blocks_append frameSize_pos,
    List.append_cancel_left_eq, List.map_cons] at heq
  have hfirst := head_of_blocks_eq frameSize_pos heq.symm
  have hwaiting : leftover frameSize (whole mic) ≠ [] := by
    intro hnil
    have hzero := h.wellFormed.pending_length mic
    rw [h.pending mic, hnil, List.length_nil] at hzero
    omega
  rw [List.head?_append_of_ne_nil _ hwaiting, ← h.pending mic, hframe] at hfirst
  exact hne hfirst.symm

/-- If a torn call's frame is completed later, some samples of these lengths are lost. -/
theorem Sync.exists_lost (lens : List ℕ) {s : Framing mics (List (Frame mics))}
    {whole : Frame mics} (h : Sync s whole)
    (hsize : ∀ len ∈ lens, len * mics.bytesPerFrame < 2 ^ 32)
    (htorn : ¬ TornLast s.buffOffset lens) (mic : Fin mics.numMics) :
    ∃ calls : List (List UInt8), calls.map List.length = lens.map (· * mics.bytesPerFrame) ∧
      (run (Activation.feed record) s calls).inner.map (· mic) ≠
        blocks frameSize (whole mic ++ mics.samplesOf calls.flatten mic) := by
  induction lens generalizing s whole with
  | nil => exact absurd trivial htorn
  | cons len lens ih =>
      rw [List.forall_mem_cons] at hsize
      by_cases hcall : Torn s.buffOffset len
      · -- everything from here on differs from the first waiting sample
        have hharm : frameSize ≤ s.buffOffset + len + lens.sum := by
          by_contra hlt
          refine htorn ⟨fun _ ↦ not_le.mp hlt, tornLast_of_sum_lt ?_⟩
          rw [Nat.mod_eq_of_lt hcall.2.2]
          exact not_le.mp hlt
        obtain ⟨pattern, hpattern, hne⟩ := exists_pattern mics.format ((s.pending mic).headD 0)
        refine ⟨(len :: lens).map (constBytes mics pattern), ?_, ?_⟩
        · rw [List.map_map]
          exact List.map_congr_left fun len _ ↦ constBytes_length hpattern len
        · refine h.lost_of_torn hpattern mic ?_ (List.forall_mem_cons.mpr hsize) hcall hharm _
          intro hhead
          rw [List.headD_eq_head?_getD, hhead] at hne
          exact hne rfl
      · -- any samples will do for a call that is not torn
        obtain ⟨pattern, hpattern, -⟩ := exists_pattern mics.format 0
        obtain ⟨hlen, hchunk⟩ := chunk_constBytes hpattern hsize.1 mic
        have hmod : (constBytes mics pattern len).length % mics.bytesPerFrame = 0 := by
          rw [constBytes_length hpattern, Nat.mul_mod_left]
        have hoffset := (feed_spec record h.wellFormed hmod).offset
        rw [hlen] at hoffset
        have hnext := h.feed hmod (by rw [hlen]; exact hcall)
        obtain ⟨calls, hcalls, hlost⟩ := ih hnext hsize.2 (by
          rw [hoffset]
          exact fun hrest ↦ htorn ⟨fun hyes ↦ absurd hyes hcall, hrest⟩)
        refine ⟨constBytes mics pattern len :: calls, ?_, ?_⟩
        · rw [List.map_cons, List.map_cons, constBytes_length hpattern, hcalls]
        · rw [run_cons, samplesOf_flatten_cons _ hmod (by
            rw [constBytes_length hpattern]
            exact hsize.1), ← List.append_assoc]
          exact hlost

/-! ## The splits that are framed correctly -/

theorem run_record_wellFormed (calls : List (List UInt8)) {s : Framing mics (List (Frame mics))}
    (hs : s.WellFormed) (hcalls : ∀ input ∈ calls, input.length % mics.bytesPerFrame = 0) :
    (run (feed record) s calls).WellFormed := by
  induction calls generalizing s with
  | nil => exact hs
  | cons input calls ih =>
      rw [List.forall_mem_cons] at hcalls
      exact ih (feed_spec record hs hcalls.1).wellFormed hcalls.2

/-- The frames handed over are the consecutive blocks of the stream, for every microphone, and the
offset is the number of samples left over. -/
def FramesAreBlocks (mics : MicArray) (memory : Fin mics.numMics → Fin frameSize → ℚ)
    (calls : List (List UInt8)) : Prop :=
  (∀ mic, (recorded memory calls).inner.map (· mic) =
      blocks frameSize (mics.samplesOf calls.flatten mic)) ∧
    (recorded memory calls).buffOffset = calls.flatten.length / mics.bytesPerFrame % frameSize

instance (mics : MicArray) (memory : Fin mics.numMics → Fin frameSize → ℚ)
    (calls : List (List UInt8)) : Decidable (FramesAreBlocks mics memory calls) :=
  inferInstanceAs (Decidable (_ ∧ _))

theorem chunkLen_le (input : List UInt8) :
    chunkLen mics input ≤ input.length / mics.bytesPerFrame :=
  Nat.div_le_div_right (Nat.mod_le _ _)

theorem chunkLen_lt {input : List UInt8} (hinput : input.length % mics.bytesPerFrame = 0)
    (hsize : 2 ^ 32 ≤ input.length) : chunkLen mics input < input.length / mics.bytesPerFrame := by
  change input.length % 2 ^ 32 / mics.bytesPerFrame < _
  rw [Nat.div_lt_iff_lt_mul mics.bytesPerFrame_pos,
    Nat.div_mul_cancel (Nat.dvd_of_mod_eq_zero hinput)]
  exact (Nat.mod_lt _ (by norm_num)).trans_le hsize

theorem flatten_length_div (calls : List (List UInt8))
    (hcalls : ∀ input ∈ calls, input.length % mics.bytesPerFrame = 0) :
    calls.flatten.length / mics.bytesPerFrame =
      (calls.map fun input ↦ input.length / mics.bytesPerFrame).sum := by
  induction calls with
  | nil => simp
  | cons input calls ih =>
      rw [List.forall_mem_cons] at hcalls
      rw [List.flatten_cons, List.length_append,
        Nat.add_div_of_dvd_right (Nat.dvd_of_mod_eq_zero hcalls.1), ih hcalls.2, List.map_cons,
        List.sum_cons]

/-- No sample is dropped by the conversion exactly if no byte count was truncated. -/
theorem sum_chunkLen_eq (calls : List (List UInt8))
    (hcalls : ∀ input ∈ calls, input.length % mics.bytesPerFrame = 0)
    (hsum : (calls.map (chunkLen mics)).sum = calls.flatten.length / mics.bytesPerFrame) :
    ∀ input ∈ calls, input.length < 2 ^ 32 := by
  rw [flatten_length_div calls hcalls] at hsum
  induction calls with
  | nil => simp
  | cons input calls ih =>
      rw [List.forall_mem_cons] at hcalls ⊢
      rw [List.map_cons, List.map_cons, List.sum_cons, List.sum_cons] at hsum
      have hrest : (calls.map (chunkLen mics)).sum ≤
          (calls.map fun input ↦ input.length / mics.bytesPerFrame).sum :=
        List.sum_le_sum fun input _ ↦ chunkLen_le input
      have hfirst : chunkLen mics input ≤ input.length / mics.bytesPerFrame := chunkLen_le input
      refine ⟨?_, ih hcalls.2 (by omega)⟩
      by_contra hsize
      have := chunkLen_lt hcalls.1 (not_lt.mp hsize)
      omega

theorem exists_len_of_mem {calls : List (List UInt8)} {lens : List ℕ}
    (hlengths : calls.map List.length = lens.map (· * mics.bytesPerFrame)) {input : List UInt8}
    (hinput : input ∈ calls) : ∃ len ∈ lens, len * mics.bytesPerFrame = input.length := by
  have hmem : input.length ∈ lens.map (· * mics.bytesPerFrame) := by
    rw [← hlengths]
    exact List.mem_map_of_mem hinput
  simpa using hmem

/-- Chunks below `2^32` bytes have the lengths they were given. -/
theorem map_chunkLen {calls : List (List UInt8)} {lens : List ℕ}
    (hlengths : calls.map List.length = lens.map (· * mics.bytesPerFrame))
    (hfit : ∀ input ∈ calls, input.length < 2 ^ 32) : calls.map (chunkLen mics) = lens := by
  calc
    calls.map (chunkLen mics) = calls.map fun input ↦ input.length / mics.bytesPerFrame :=
      List.map_congr_left fun input hinput ↦ (chunk_of_lt (hfit input hinput)).2
    _ = (calls.map List.length).map (· / mics.bytesPerFrame) := by
      rw [List.map_map]
      rfl
    _ = lens := by
      rw [hlengths, List.map_map]
      conv_rhs => rw [← List.map_id lens]
      apply List.map_congr_left
      intro len _
      exact Nat.mul_div_cancel _ mics.bytesPerFrame_pos

/-- Calls of whole samples. -/
theorem length_mod_of_lengths {calls : List (List UInt8)} {lens : List ℕ}
    (hlengths : calls.map List.length = lens.map (· * mics.bytesPerFrame)) {input : List UInt8}
    (hinput : input ∈ calls) : input.length % mics.bytesPerFrame = 0 := by
  obtain ⟨len, -, hlen⟩ := exists_len_of_mem hlengths hinput
  rw [← hlen, Nat.mul_mod_left]

/-- A byte count that does not fit in 32 bits loses samples, whatever they are. -/
theorem lt_of_framesAreBlocks (memory : Fin mics.numMics → Fin frameSize → ℚ) {lens : List ℕ}
    (hall : ∀ calls : List (List UInt8),
      calls.map List.length = lens.map (· * mics.bytesPerFrame) → FramesAreBlocks mics memory calls)
    {len : ℕ} (hlen : len ∈ lens) : len * mics.bytesPerFrame < 2 ^ 32 := by
  obtain ⟨pattern, hpattern, -⟩ := exists_pattern mics.format 0
  have hlengths : (lens.map (constBytes mics pattern)).map List.length =
      lens.map (· * mics.bytesPerFrame) := by
    rw [List.map_map]
    exact List.map_congr_left fun len _ ↦ constBytes_length hpattern len
  have hcalls : ∀ input ∈ lens.map (constBytes mics pattern),
      input.length % mics.bytesPerFrame = 0 := fun input ↦ length_mod_of_lengths hlengths
  obtain ⟨hframes, hoffset⟩ := hall _ hlengths
  have hcount := recorded_count memory _ hcalls
  have hsum := sum_chunkLen_eq _ hcalls (by
    have hnum := congrArg List.length (hframes ⟨0, mics.numMics_pos⟩)
    rw [List.length_map, blocks_length, mics.samplesOf_length] at hnum
    rw [hnum, hoffset, Nat.div_add_mod'] at hcount
    exact hcount.symm)
  rw [← constBytes_length hpattern]
  exact hsum _ (List.mem_map_of_mem hlen)

/-- One 16-bit microphone on a single channel. -/
def mono : MicArray where
  format := .pcm16
  numMics := 1
  numChannels := 1
  micIds := id
  numMics_pos := by decide
  frame_lt := by decide

end Vsys.Activation
