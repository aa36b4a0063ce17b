import Vsys.Audio.Converter
import Vsys.Stream.Blocks
import Vsys.Trace.Run

/-!
# Framing of the input stream

`VoiceActivation::process` takes a chunk of interleaved bytes, cuts the converted stream into
frames of `frameSize` samples, hands every complete frame to `processfrm` and keeps the rest for
the next call.  The rest is copied to the front of `buff`.  A call that neither starts nor
completes a frame therefore overwrites the samples that were waiting there: such a call is *torn*.

`feed_spec` says what one call does; recorded runs collect the frames of a sequence of calls.
-/

namespace Vsys.Activation

open Vsys.Audio Vsys.Stream Vsys.Trace

/-- One frame of every microphone. -/
abbrev Frame (mics : MicArray) := Fin mics.numMics → List ℚ

/-- The part of the object `process` works on; `inner` is what `processfrm` works on. -/
structure Framing (mics : MicArray) (σ : Type*) where
  buff : Frame mics
  buffOffset : ℕ
  inner : σ

section Process

variable {mics : MicArray} {σ : Type*} (processfrm : σ → Frame mics → σ × ℤ)

/-- A new object.  The contents of a freshly allocated `buff` are arbitrary. -/
def Framing.create (memory : Fin mics.numMics → Fin frameSize → ℚ) (inner : σ) :
    Framing mics σ where
  buff := fun mic ↦ List.ofFn (memory mic)
  buffOffset := 0
  inner := inner

/-- The loop over the completed frames, with the number of rounds left and the loop counter. -/
def frameLoop (data : Frame mics) (buffOffset : ℕ) :
    ℕ → ℕ → Frame mics → ℕ → ℕ → σ → ℤ → Frame mics × σ × ℤ
  | 0, _, buff, _, _, inner, ret => (buff, inner, ret)
  | rounds + 1, i, buff, offset, offset2, inner, _ =>
      let buff : Frame mics := fun mic ↦
        overwrite (buff mic) offset
          (((data mic).drop (i * frameSize - offset2)).take (frameSize - offset))
      let result := processfrm inner buff
      frameLoop data buffOffset rounds (i + 1) buff 0 buffOffset result.1 result.2

/-- `process`.  A sample takes at least two bytes, so `total` stays below `2^32`. -/
def process (s : Framing mics σ) (input : List UInt8) : Framing mics σ × ℤ :=
  if input.length % mics.bytesPerFrame ≠ 0 then (s, -1)
  else
    let (data, len) := mics.convert input
    let total := len + s.buffOffset
    let numFrames := total / frameSize
    let (buff, inner, ret) :=
      frameLoop processfrm data s.buffOffset numFrames 0 s.buff s.buffOffset 0 s.inner 0
    let buffOffset := total % frameSize
    let length := if total > frameSize then buffOffset else len
    ({ buff := fun mic ↦ overwrite (buff mic) 0 (((data mic).drop (len - length)).take length)
       buffOffset := buffOffset
       inner := inner }, ret)

/-- A call `process` accepts, as a step. -/
def feed (s : Framing mics σ) (input : List UInt8) : Framing mics σ := (process processfrm s input).1

end Process

/-- A `processfrm` that only records the frames it is given. -/
def record {mics : MicArray} (frames : List (Frame mics)) (frame : Frame mics) :
    List (Frame mics) × ℤ := (frames ++ [frame], 0)

/-! ## One call -/

section Call

variable {mics : MicArray} {σ : Type*} (processfrm : σ → Frame mics → σ × ℤ)

/-- The samples of the incomplete frame. -/
def Framing.pending (s : Framing mics σ) (mic : Fin mics.numMics) : List ℚ :=
  (s.buff mic).take s.buffOffset

/-- `buff` has room for one frame and the offset lies inside it. -/
structure Framing.WellFormed (s : Framing mics σ) : Prop where
  buff_length : ∀ mic, (s.buff mic).length = frameSize
  offset_lt : s.buffOffset < frameSize

theorem Framing.create_wellFormed (memory : Fin mics.numMics → Fin frameSize → ℚ) (inner : σ) :
    (Framing.create memory inner).WellFormed where
  buff_length := fun _ ↦ List.length_ofFn
  offset_lt := frameSize_pos

theorem Framing.WellFormed.pending_length {s : Framing mics σ} (hs : s.WellFormed)
    (mic : Fin mics.numMics) : (s.pending mic).length = s.buffOffset := by
  rw [Framing.pending, List.length_take, hs.buff_length]
  exact min_eq_left hs.offset_lt.le

/-- Without a completed frame the tail copy puts the whole chunk in front. -/
theorem tail_take_short {n off len : ℕ} {buff data : List ℚ} (hdata : data.length = len)
    (h : off + len < n) :
    (overwrite buff 0 ((data.drop (len - if len + off > n then (len + off) % n else len)).take
      (if len + off > n then (len + off) % n else len))).take ((len + off) % n) =
        data ++ (buff.drop len).take off := by
  rw [if_neg (by omega), Nat.sub_self, List.drop_zero, List.take_of_length_le hdata.le,
    overwrite_zero, Nat.mod_eq_of_lt (by omega), List.take_append, hdata, Nat.add_sub_cancel_left,
    List.take_of_length_le (by omega)]

/-- The frames of a chunk that follows the samples `front`. -/
def framesFrom (front data : Frame mics) (i rounds : ℕ) : List (Frame mics) :=
  (List.range' i rounds).map fun k mic ↦ blockAt frameSize k (front mic ++ data mic)

/-- What the loop does from its round `i` on. -/
theorem frameLoop_spec (front data : Frame mics) {off len : ℕ} (hoff : off < frameSize)
    (hfront : ∀ mic, (front mic).length = off) (hdata : ∀ mic, (data mic).length = len)
    (rounds i : ℕ) (buff : Frame mics) (offset offset2 : ℕ) (inner : σ) (ret : ℤ)
    (hbuff : ∀ mic, (buff mic).length = frameSize)
    (hstart : (i = 0 ∧ offset = off ∧ offset2 = 0 ∧ ∀ mic, (buff mic).take off = front mic) ∨
      (0 < i ∧ offset = 0 ∧ offset2 = off))
    (hlen : (i + rounds) * frameSize ≤ off + len) :
    (∀ mic, ((frameLoop processfrm data off rounds i buff offset offset2 inner ret).1 mic).length =
        frameSize) ∧
      (frameLoop processfrm data off rounds i buff offset offset2 inner ret).2.1 =
        (framesFrom front data i rounds).foldl (fun inner frame ↦ (processfrm inner frame).1) inner ∧
      (rounds = 0 →
        (frameLoop processfrm data off rounds i buff offset offset2 inner ret).1 = buff) := by
  induction rounds generalizing i buff offset offset2 inner ret with
  | zero => exact ⟨hbuff, rfl, fun _ ↦ rfl⟩
  | succ rounds ih =>
      have hround : (i + 1) * frameSize ≤ off + len := by
        refine le_trans (Nat.mul_le_mul_right _ ?_) hlen
        omega
      have hframe : (fun mic ↦ overwrite (buff mic) offset
            (((data mic).drop (i * frameSize - offset2)).take (frameSize - offset))) =
          fun mic ↦ blockAt frameSize i (front mic ++ data mic) := by
        funext mic
        rcases hstart with ⟨rfl, rfl, rfl, htake⟩ | ⟨hi, rfl, rfl⟩
        · rw [← htake mic, Nat.zero_mul, Nat.zero_sub]
          apply overwrite_first (hbuff mic) hoff.le
          rw [hdata mic]
          omega
        · apply overwrite_later (hbuff mic) (hfront mic)
          · exact hoff.le.trans (Nat.le_mul_of_pos_left _ hi)
          · rw [hdata mic]
            exact hround
      have hnext : ∀ mic, (blockAt frameSize i (front mic ++ data mic)).length = frameSize := by
        intro mic
        rw [Nat.add_mul, Nat.one_mul] at hround
        rw [blockAt, List.length_take, List.length_drop, List.length_append, hfront, hdata]
        omega
      have hrest := ih (i + 1) (fun mic ↦ blockAt frameSize i (front mic ++ data mic)) 0 off
        (processfrm inner fun mic ↦ blockAt frameSize i (front mic ++ data mic)).1
        (processfrm inner fun mic ↦ blockAt frameSize i (front mic ++ data mic)).2 hnext
        (.inr ⟨Nat.succ_pos i, rfl, rfl⟩) (by rw [Nat.add_right_comm, Nat.add_assoc]; exact hlen)
      simp only [frameLoop, hframe]
      refine ⟨hrest.1, ?_, by simp⟩
      rw [hrest.2.1, framesFrom, framesFrom, List.range'_succ, List.map_cons, List.foldl_cons]

/-- The chunk a call works on. -/
def chunk (mics : MicArray) (input : List UInt8) : Frame mics := (mics.convert input).1

/-- Its number of samples. -/
def chunkLen (mics : MicArray) (input : List UInt8) : ℕ := (mics.convert input).2

@[simp]
theorem chunk_length (input : List UInt8) (mic : Fin mics.numMics) :
    (chunk mics input mic).length = chunkLen mics input :=
  mics.pick_length ..

/-- A call that neither starts nor completes a frame. -/
def Torn (off len : ℕ) : Prop := 0 < off ∧ 0 < len ∧ off + len < frameSize

/-- What one accepted call does. -/
structure FeedSpec (s s' : Framing mics σ) (input : List UInt8) : Prop where
  wellFormed : s'.WellFormed
  offset : s'.buffOffset = (s.buffOffset + chunkLen mics input) % frameSize
  inner : s'.inner =
    (framesFrom s.pending (chunk mics input) 0
      ((s.buffOffset + chunkLen mics input) / frameSize)).foldl
        (fun inner frame ↦ (processfrm inner frame).1) s.inner
  whole : frameSize ≤ s.buffOffset + chunkLen mics input →
    ∀ mic, s'.pending mic = leftover frameSize (s.pending mic ++ chunk mics input mic)
  short : s.buffOffset + chunkLen mics input < frameSize →
    ∀ mic, s'.pending mic =
      chunk mics input mic ++ ((s.buff mic).drop (chunkLen mics input)).take s.buffOffset

theorem feed_spec {s : Framing mics σ} (hs : s.WellFormed) {input : List UInt8}
    (hinput : input.length % mics.bytesPerFrame = 0) :
    FeedSpec processfrm s (feed processfrm s input) input := by
  have hn := frameSize_pos
  have hoff := hs.offset_lt
  have hdata : ∀ mic, ((mics.convert input).1 mic).length = (mics.convert input).2 :=
    chunk_length input
  obtain ⟨hbuff, hinner, hkept⟩ := frameLoop_spec processfrm s.pending (mics.convert input).1 hoff
    hs.pending_length hdata (((mics.convert input).2 + s.buffOffset) / frameSize) 0 s.buff
    s.buffOffset 0 s.inner 0 hs.buff_length (.inl ⟨rfl, rfl, rfl, fun _ ↦ rfl⟩)
    (by rw [Nat.zero_add, Nat.add_comm s.buffOffset]; exact Nat.div_mul_le_self _ _)
  rw [feed, process, if_neg (by omega)]
  dsimp only
  generalize hloop : frameLoop processfrm (mics.convert input).1 s.buffOffset
    (((mics.convert input).2 + s.buffOffset) / frameSize) 0 s.buff s.buffOffset 0 s.inner 0 = out
    at hbuff hinner hkept
  obtain ⟨buff, inner, ret⟩ := out
  dsimp only at hbuff hinner hkept ⊢
  refine ⟨⟨?_, Nat.mod_lt _ hn⟩, ?_, ?_, ?_, ?_⟩
  · exact fun mic ↦ tail_length (hbuff mic) hoff
  · rw [Nat.add_comm]
    rfl
  · rw [hinner, Nat.add_comm s.buffOffset]
    rfl
  · exact fun h mic ↦ tail_take_whole (hs.pending_length mic) (hdata mic) hoff h
  · intro h mic
    change s.buffOffset + (mics.convert input).2 < frameSize at h
    have hnone : ((mics.convert input).2 + s.buffOffset) / frameSize = 0 :=
      Nat.div_eq_of_lt (by omega)
    rw [← hkept hnone]
    exact tail_take_short (hdata mic) h

end Call

/-! ## Recorded runs -/

section Record

variable {mics : MicArray}

/-- A fresh object after a sequence of calls, with the frames recorded. -/
def recorded (memory : Fin mics.numMics → Fin frameSize → ℚ) (calls : List (List UInt8)) :
    Framing mics (List (Frame mics)) :=
  run (feed record) (Framing.create memory []) calls

theorem foldl_record (frames new : List (Frame mics)) :
    new.foldl (fun frames frame ↦ (record frames frame).1) frames = frames ++ new := by
  induction new generalizing frames with
  | nil => simp
  | cons frame new ih =>
      rw [List.foldl_cons, ih]
      simp [record]

/-- The loop moves samples the same way for every `processfrm`. -/
theorem frameLoop_record {σ : Type*} (processfrm : σ → Frame mics → σ × ℤ) (data : Frame mics)
    (off rounds i : ℕ) (buff : Frame mics) (offset offset2 : ℕ) (inner : σ) (ret : ℤ)
    (frames : List (Frame mics)) (ret' : ℤ) :
    (frameLoop processfrm data off rounds i buff offset offset2 inner ret).1 =
        (frameLoop record data off rounds i buff offset offset2 frames ret').1 ∧
      ∃ new, (frameLoop record data off rounds i buff offset offset2 frames ret').2.1 =
          frames ++ new ∧
        (frameLoop processfrm data off rounds i buff offset offset2 inner ret).2.1 =
          new.foldl (fun inner frame ↦ (processfrm inner frame).1) inner := by
  induction rounds generalizing i buff offset offset2 inner ret frames ret' with
  | zero => exact ⟨rfl, [], by simp [frameLoop], rfl⟩
  | succ rounds ih =>
      simp only [frameLoop]
      generalize hframe : (fun mic ↦ overwrite (buff mic) offset
        (((data mic).drop (i * frameSize - offset2)).take (frameSize - offset))) = frame
      obtain ⟨hbuff, new, hnew, hinner⟩ := ih (i + 1) frame 0 off (processfrm inner frame).1
        (processfrm inner frame).2 (record frames frame).1 (record frames frame).2
      refine ⟨hbuff, frame :: new, ?_, hinner⟩
      rw [hnew, record, List.append_assoc, List.singleton_append]

/-- What `processfrm` has worked on after a run are the recorded frames, in order. -/
theorem run_inner_eq_foldl {σ : Type*} (processfrm : σ → Frame mics → σ × ℤ)
    (memory : Fin mics.numMics → Fin frameSize → ℚ) (inner : σ) (calls : List (List UInt8)) :
    (run (feed processfrm) (Framing.create memory inner) calls).inner =
      (recorded memory calls).inner.foldl (fun inner frame ↦ (processfrm inner frame).1) inner := by
  have hsame : (run (feed processfrm) (Framing.create memory inner) calls).buff =
        (recorded memory calls).buff ∧
      (run (feed processfrm) (Framing.create memory inner) calls).buffOffset =
        (recorded memory calls).buffOffset ∧
      (run (feed processfrm) (Framing.create memory inner) calls).inner =
        (recorded memory calls).inner.foldl (fun inner frame ↦ (processfrm inner frame).1)
          inner := by
    induction calls using List.reverseRecOn with
    | nil => exact ⟨rfl, rfl, rfl⟩
    | append_singleton calls input ih =>
        rw [recorded, run_append, run_append, run_cons, run_nil, run_cons, run_nil, ← recorded]
        obtain ⟨hbuff, hoffset, hinner⟩ := ih
        rw [feed, feed, process, process, hbuff, hoffset]
        split_ifs
        · exact ⟨hbuff, hoffset, hinner⟩
        · obtain ⟨hloop, new, hnew, hfold⟩ := frameLoop_record processfrm (mics.convert input).1
            (recorded memory calls).buffOffset
            (((mics.convert input).2 + (recorded memory calls).buffOffset) / frameSize) 0
            (recorded memory calls).buff (recorded memory calls).buffOffset 0
            (run (feed processfrm) (Framing.create memory inner) calls).inner 0
            (recorded memory calls).inner 0
          refine ⟨?_, rfl, ?_⟩
          · dsimp only
            rw [hloop]
          · dsimp only
            rw [hnew, hfold, hinner, List.foldl_append]
  exact hsame.2.2

/-- The frames one microphone contributes to a call. -/
theorem framesFrom_map (front data : Frame mics) (mic : Fin mics.numMics) {rounds : ℕ}
    (hrounds : rounds = (front mic ++ data mic).length / frameSize) :
    (framesFrom front data 0 rounds).map (· mic) = blocks frameSize (front mic ++ data mic) := by
  rw [framesFrom, blocks, ← hrounds, List.range_eq_range', List.map_map]
  rfl

theorem feed_record_inner {s : Framing mics (List (Frame mics))} (hs : s.WellFormed)
    {input : List UInt8} (hinput : input.length % mics.bytesPerFrame = 0) :
    (feed record s input).inner =
      s.inner ++ framesFrom s.pending (chunk mics input) 0
        ((s.buffOffset + chunkLen mics input) / frameSize) := by
  rw [(feed_spec record hs hinput).inner, foldl_record]

theorem feed_record_map {s : Framing mics (List (Frame mics))} (hs : s.WellFormed)
    {input : List UInt8} (hinput : input.length % mics.bytesPerFrame = 0)
    (mic : Fin mics.numMics) :
    (feed record s input).inner.map (· mic) =
      s.inner.map (· mic) ++ blocks frameSize (s.pending mic ++ chunk mics input mic) := by
  rw [feed_record_inner hs hinput, List.map_append, framesFrom_map]
  rw [List.length_append, hs.pending_length, chunk_length]

/-- Frames are only ever added. -/
theorem run_record_prefix (calls : List (List UInt8)) {s : Framing mics (List (Frame mics))}
    (hs : s.WellFormed) (hcalls : ∀ input ∈ calls, input.length % mics.bytesPerFrame = 0) :
    s.inner <+: (run (feed record) s calls).inner := by
  induction calls generalizing s with
  | nil => exact List.prefix_refl _
  | cons input calls ih =>
      rw [List.forall_mem_cons] at hcalls
      have hnext := (feed_spec record hs hcalls.1).wellFormed
      refine List.IsPrefix.trans ?_ (ih hnext hcalls.2)
      rw [feed_record_inner hs hcalls.1]
      exact List.prefix_append _ _

/-- The samples a run consumes are all in recorded frames or waiting. -/
theorem run_record_count (calls : List (List UInt8)) {s : Framing mics (List (Frame mics))}
    (hs : s.WellFormed) (hcalls : ∀ input ∈ calls, input.length % mics.bytesPerFrame = 0) :
    (run (feed record) s calls).inner.length * frameSize + (run (feed record) s calls).buffOffset =
      s.inner.length * frameSize + s.buffOffset + (calls.map (chunkLen mics)).sum := by
  induction calls generalizing s with
  | nil => simp
  | cons input calls ih =>
      rw [List.forall_mem_cons] at hcalls
      have hspec := feed_spec record hs hcalls.1
      have hsplit := Nat.div_add_mod' (s.buffOffset + chunkLen mics input) frameSize
      rw [run_cons, ih hspec.wellFormed hcalls.2, hspec.offset, feed_record_inner hs hcalls.1,
        List.length_append, framesFrom, List.length_map, List.length_range', Nat.add_mul,
        List.map_cons, List.sum_cons]
      omega

theorem recorded_count (memory : Fin mics.numMics → Fin frameSize → ℚ)
    (calls : List (List UInt8))
    (hcalls : ∀ input ∈ calls, input.length % mics.bytesPerFrame = 0) :
    (recorded memory calls).inner.length * frameSize + (recorded memory calls).buffOffset =
      (calls.map (chunkLen mics)).sum := by
  have hcount := run_record_count calls (Framing.create_wellFormed memory []) hcalls
  simpa only [recorded, Framing.create, List.length_nil, Nat.zero_mul, Nat.zero_add] using hcount

end Record

end Vsys.Activation
