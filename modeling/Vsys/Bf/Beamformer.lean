import Mathlib.Data.Rat.Floor
import Vsys.Stream.Convolve

/-!
# Delay and sum

`R2Beamformer` delays the channels of a microphone array so that they are aligned to the one with
the largest delay, and gives their average.  The integral part of a delay is a `FrameDelayer`, which
shifts a frame in place; the fractional part is a FIR filter, which is left out when the part is
small.  `R2FrameDelay` does the same for one channel.

The delay line holds the end of its stream, and so does the filter: from frame to frame they give the
delayed stream (`FrameDelayer.Holds.processFrame`) and its convolution (`FIRFilter.Holds.filter`).

Frames are counted in samples, arithmetic is exact, and the taps of the filter, a windowed sinc, are
a parameter.
-/

namespace Vsys.Bf

open Vsys.Stream

variable {F : Type*}

/-- Taps of the filter, `kSincFilterLength`. -/
def kSincFilterLength : ℕ := 11

/-! ## The delay line -/

/-- Writes `src` over the entries from `pos` on. -/
def overwrite (dst : List F) (pos : ℕ) (src : List F) : List F :=
  dst.take pos ++ src ++ dst.drop (pos + src.length)

/-- `FrameDelayer`. -/
structure FrameDelayer (F : Type*) where
  frameSize_ : ℕ
  delay_ : ℕ
  pDelay_ : Option (List F)
deriving DecidableEq

namespace FrameDelayer

/-- The constructor. -/
def new : FrameDelayer F := ⟨0, 0, none⟩

/-- `Init`. -/
def init [Zero F] (frameSize delay : ℕ) : FrameDelayer F × ℤ :=
  if frameSize < delay then (new, -1)
  else (⟨frameSize, delay, if 0 < delay then some (List.replicate (delay * 2) 0) else none⟩, 0)

/-- `ProcessFrame`: the delay line, and the frame, which is changed in place. -/
def processFrame (d : FrameDelayer F) (pFrame : List F) : FrameDelayer F × List F :=
  match d.pDelay_ with
  | none => (d, pFrame)
  | some pDelay =>
      if d.delay_ = 0 then (d, pFrame)
      else
        let tail := (pFrame.drop (d.frameSize_ - d.delay_)).take d.delay_
        let pDelay := overwrite pDelay d.delay_ tail
        let pFrame := overwrite pFrame d.delay_ (pFrame.take (d.frameSize_ - d.delay_))
        let pFrame := overwrite pFrame 0 (pDelay.take d.delay_)
        let pDelay := overwrite pDelay 0 ((pDelay.drop d.delay_).take d.delay_)
        ({ d with pDelay_ := some pDelay }, pFrame)

end FrameDelayer

/-! ## The filter -/

/-- `FIRFilterC`: the taps in reverse order, and the samples before the next frame. -/
structure FIRFilter (F : Type*) where
  coefficients_ : List F
  state_ : List F
deriving DecidableEq

namespace FIRFilter

variable [CommSemiring F]

/-- `FIRFilter::Create`. -/
def create (coefficients : List F) : FIRFilter F :=
  ⟨coefficients.reverse, List.replicate (coefficients.length - 1) 0⟩

/-- `Filter`. -/
def filter (f : FIRFilter F) (input : List F) : FIRFilter F × List F :=
  let state :=
    if f.state_.length ≤ input.length then input.drop (input.length - f.state_.length)
    else f.state_.drop input.length ++ input
  ({ f with state_ := state },
    (List.range input.length).map fun i ↦ weigh f.coefficients_ ((f.state_ ++ input).drop i))

end FIRFilter

/-! ## The beam former -/

/-- A delay line with a filter, if there is one; the beam former keeps them for each microphone. -/
structure Mic (F : Type*) where
  integralDelay : FrameDelayer F
  fractionalDelay : Option (FIRFilter F)
deriving DecidableEq

/-- `ProcessFrame` of the delay line, then `Filter`: the frame, and what the filter gives. -/
def Mic.process [CommSemiring F] (mic : Mic F) (frame : List F) :
    Mic F × List F × Option (List F) :=
  let delayed := mic.integralDelay.processFrame frame
  let filtered := mic.fractionalDelay.map fun f ↦ f.filter delayed.2
  (⟨delayed.1, filtered.map Prod.fst⟩, delayed.2, filtered.map Prod.snd)

/-- `R2Beamformer`. -/
structure R2Beamformer (F : Type*) where
  frameSize_ : ℕ
  mics : List (Mic F)
  frameBuffer_ : List F
deriving DecidableEq

section Init

variable [Field F] [LinearOrder F] [FloorRing F]

/-- The delays of the microphones, aligned to the largest. -/
def aligned (delays : List F) : List F :=
  let maxDelay := delays.foldl (fun maxDelay delay ↦ if maxDelay < delay then delay else maxDelay)
    (-1e100)
  delays.map fun delay ↦ maxDelay - delay

/-- The filter of an aligned delay, if its fractional part is not small; `sinc` gives the taps. -/
def fractionalFilter (sinc : F → Fin kSincFilterLength → F) (delay : F) : Option (List F) :=
  if 0.0001 ≤ delay - ⌊delay⌋ then some (List.ofFn (sinc (delay - ⌊delay⌋))) else none

/-- What `Init` sets for a microphone. -/
def Mic.create (sinc : F → Fin kSincFilterLength → F) (frameSize : ℕ) (delay : F) : Mic F where
  integralDelay :=
    if 0 < ⌊delay⌋ then (FrameDelayer.init frameSize ⌊delay⌋.toNat).1 else FrameDelayer.new
  fractionalDelay := (fractionalFilter sinc delay).map FIRFilter.create

/-- `R2Beamformer::Init`; the new buffer holds what the memory held. -/
def R2Beamformer.init (sinc : F → Fin kSincFilterLength → F) (frameSize : ℕ)
    (delays memory : List F) : R2Beamformer F where
  frameSize_ := frameSize
  mics := (aligned delays).map (Mic.create sinc frameSize)
  frameBuffer_ := memory

end Init

/-- The samples of microphone `i` in the input frames. -/
def row (frameSize : ℕ) (pInFrames : ℕ → F) (i : ℕ) : List F :=
  (List.range frameSize).map fun j ↦ pInFrames (i * frameSize + j)

/-- What `Process` does with the microphones from number `i` on: the microphones, `frameBuffer_` and
`pOutFrame`. -/
def processMics [CommSemiring F] (frameSize : ℕ) (pInFrames : ℕ → F) :
    ℕ → List (Mic F) → List F → List F → List (Mic F) × List F × List F
  | _, [], frameBuffer, pOutFrame => ([], frameBuffer, pOutFrame)
  | i, mic :: mics, frameBuffer, pOutFrame =>
      let result := mic.process (row frameSize pInFrames i)
      let frameBuffer := result.2.2.getD frameBuffer
      let pOutFrame := List.zipWith (· + ·) pOutFrame frameBuffer
      let rest := processMics frameSize pInFrames (i + 1) mics frameBuffer pOutFrame
      (result.1 :: rest.1, rest.2)

/-- `R2Beamformer::Process`. -/
def R2Beamformer.process [Field F] (b : R2Beamformer F) (pInFrames : ℕ → F) :
    R2Beamformer F × List F :=
  let result := processMics b.frameSize_ pInFrames 0 b.mics b.frameBuffer_
    (List.replicate b.frameSize_ 0)
  ({ b with mics := result.1, frameBuffer_ := result.2.1 },
    result.2.2.map fun sample ↦ sample / b.mics.length)

/-! ## One channel -/

/-- `R2FrameDelay`; `delays` are its members `integralDelay_` and `fractionalDelay_`. -/
structure R2FrameDelay (F : Type*) where
  delays : Mic F
  frameSize_ : ℕ
deriving DecidableEq

namespace R2FrameDelay

/-- The filter of a delay; here the limit is another one. -/
def fractionalFilter [Field F] [LinearOrder F] [FloorRing F] (sinc : F → Fin kSincFilterLength → F)
    (delay : F) : Option (List F) :=
  if 0.001 < delay - ⌊delay⌋ then some (List.ofFn (sinc (delay - ⌊delay⌋))) else none

/-- `R2FrameDelay::Init` of a new object, if it returns 0.  As an unsigned number a negative delay
is too large for the frame. -/
def init [Field F] [LinearOrder F] [FloorRing F] (sinc : F → Fin kSincFilterLength → F)
    (frameSize : ℕ) (delay : F) : Option (R2FrameDelay F) :=
  if frameSize = 0 ∨ (frameSize : F) < delay ∨ ⌊delay⌋ < 0 then none
  else
    let line := FrameDelayer.init frameSize ⌊delay⌋.toNat
    if line.2 = 0 then
      some ⟨⟨line.1, (fractionalFilter sinc delay).map FIRFilter.create⟩, frameSize⟩
    else none

/-- `R2FrameDelay::Process`: the output frame is written by the filter. -/
def process [CommSemiring F] (d : R2FrameDelay F) (pInFrame pOutFrame : List F) :
    R2FrameDelay F × List F :=
  let result := d.delays.process pInFrame
  ({ d with delays := result.1 }, result.2.2.getD pOutFrame)

end R2FrameDelay

/-! ## The streams -/

/-- A stream delayed by zeros before its start. -/
def held [Zero F] (delay : ℕ) (stream : List F) : List F :=
  (List.replicate delay 0 ++ stream).take stream.length

/-- The samples of a stream that a delay line still holds. -/
def kept [Zero F] (delay : ℕ) (stream : List F) : List F :=
  (List.replicate delay 0 ++ stream).drop stream.length

/-- Microphone `i`'s samples in all frames. -/
def channel (frameSize : ℕ) (frames : List (ℕ → F)) (i : ℕ) : List F :=
  frames.flatMap fun pInFrames ↦ row frameSize pInFrames i

/-- The delay of a microphone in samples, and the taps of its filter, if it has one. -/
structure Lead (F : Type*) where
  delay : ℕ
  coeffs : Option (List F)

/-- A delayed stream, and the same filtered, if there is a filter. -/
def Lead.streams [CommSemiring F] (lead : Lead F) (stream : List F) : List F × Option (List F) :=
  (held lead.delay stream, lead.coeffs.map fun c ↦ convolved c (held lead.delay stream))

/-- The streams of the microphones from number `i` on. -/
def streamsFrom [CommSemiring F] (frameSize : ℕ) (frames : List (ℕ → F)) :
    ℕ → List (Lead F) → List (List F × Option (List F))
  | _, [] => []
  | i, lead :: leads =>
      lead.streams (channel frameSize frames i) :: streamsFrom frameSize frames (i + 1) leads

/-! ## The delay line and the filter hold their streams -/

@[simp]
theorem length_held [Zero F] (delay : ℕ) (stream : List F) :
    (held delay stream).length = stream.length := by
  rw [held, List.length_take, List.length_append]
  omega

@[simp]
theorem length_kept [Zero F] (delay : ℕ) (stream : List F) :
    (kept delay stream).length = delay := by
  rw [kept, List.length_drop, List.length_append, List.length_replicate]
  omega

theorem held_append [Zero F] (delay : ℕ) (stream frame : List F) :
    held delay (stream ++ frame) =
      held delay stream ++ (kept delay stream ++ frame).take frame.length := by
  have hle : stream.length ≤ (List.replicate delay (0 : F) ++ stream).length := by
    rw [List.length_append]
    omega
  rw [held, List.length_append, ← List.append_assoc, List.take_add,
    List.take_append_of_le_length hle, List.drop_append_of_le_length hle, held, kept]

theorem kept_append [Zero F] (delay : ℕ) (stream frame : List F) :
    kept delay (stream ++ frame) = (kept delay stream ++ frame).drop frame.length := by
  have hle : stream.length ≤ (List.replicate delay (0 : F) ++ stream).length := by
    rw [List.length_append]
    omega
  rw [kept, List.length_append, ← List.append_assoc, ← List.drop_drop,
    List.drop_append_of_le_length hle, kept]

/-- A delay line whose frames so far make up `stream`. -/
structure FrameDelayer.Holds [Zero F] (d : FrameDelayer F) (frameSize delay : ℕ)
    (stream : List F) : Prop where
  le : delay ≤ frameSize
  idle : delay = 0 → d.pDelay_ = none
  line : 0 < delay → d.frameSize_ = frameSize ∧ d.delay_ = delay ∧
    ∃ block, d.pDelay_ = some block ∧ block.length = delay * 2 ∧
      block.take delay = kept delay stream

theorem FrameDelayer.holds_new [Zero F] (frameSize : ℕ) :
    (FrameDelayer.new : FrameDelayer F).Holds frameSize 0 [] where
  le := Nat.zero_le _
  idle := fun _ ↦ rfl
  line := fun h ↦ absurd h (Nat.lt_irrefl 0)

theorem FrameDelayer.holds_init [Zero F] {frameSize delay : ℕ} (h : delay ≤ frameSize) :
    (FrameDelayer.init (F := F) frameSize delay).2 = 0 ∧
      (FrameDelayer.init (F := F) frameSize delay).1.Holds frameSize delay [] := by
  rw [init, if_neg (Nat.not_lt.mpr h)]
  refine ⟨rfl, h, fun hzero ↦ if_neg (by omega), fun hpos ↦ ⟨rfl, rfl, _, if_pos hpos, ?_, ?_⟩⟩
  · exact List.length_replicate
  · rw [List.take_replicate, kept, List.length_nil, List.drop_zero, List.append_nil]
    congr 1
    omega

theorem overwrite_end {dst src : List F} {pos : ℕ} (h : dst.length ≤ pos + src.length) :
    overwrite dst pos src = dst.take pos ++ src := by
  rw [overwrite, List.drop_eq_nil_of_le h, List.append_nil]

theorem overwrite_front (dst src : List F) : overwrite dst 0 src = src ++ dst.drop src.length := by
  rw [overwrite, List.take_zero, List.nil_append, Nat.zero_add]

/-- The four copies: the old samples come before the frame, its last ones are kept. -/
theorem FrameDelayer.processFrame_eq {d : FrameDelayer F} {block frame old : List F}
    (hblock : d.pDelay_ = some block) (hpos : 0 < d.delay_) (hle : d.delay_ ≤ d.frameSize_)
    (hframe : frame.length = d.frameSize_) (hlength : block.length = d.delay_ * 2)
    (hold : block.take d.delay_ = old) :
    d.processFrame frame =
      (⟨d.frameSize_, d.delay_,
          some (frame.drop (d.frameSize_ - d.delay_) ++ frame.drop (d.frameSize_ - d.delay_))⟩,
        old ++ frame.take (d.frameSize_ - d.delay_)) := by
  set last := frame.drop (d.frameSize_ - d.delay_) with hlast
  set moved := frame.take (d.frameSize_ - d.delay_) with hmoved
  have hlastlen : last.length = d.delay_ := by
    rw [hlast, List.length_drop, hframe]
    omega
  have hmovedlen : moved.length = d.frameSize_ - d.delay_ := List.length_take_of_le (by omega)
  have holdlen : old.length = d.delay_ := by
    rw [← hold]
    exact List.length_take_of_le (by omega)
  have hheadlen : (frame.take d.delay_).length = d.delay_ := List.length_take_of_le (by omega)
  have htail : last.take d.delay_ = last := List.take_of_length_le hlastlen.le
  have hline : overwrite block d.delay_ last = old ++ last := by
    rw [overwrite_end (by omega), hold]
  have hfront : (old ++ last).take d.delay_ = old := List.take_left' holdlen
  have hback : (old ++ last).drop d.delay_ = last := List.drop_left' holdlen
  have hshift : overwrite (overwrite frame d.delay_ moved) 0 old = old ++ moved := by
    have hend : overwrite frame d.delay_ moved = frame.take d.delay_ ++ moved :=
      overwrite_end (by omega)
    rw [hend, overwrite_front, holdlen, List.drop_left' hheadlen]
  have hagain : overwrite (old ++ last) 0 last = last ++ last := by
    rw [overwrite_front, hlastlen, hback]
  simp only [FrameDelayer.processFrame, hblock, if_neg hpos.ne', ← hlast, ← hmoved, htail, hline,
    hfront, hback, hshift, hagain]

/-- **The delay line.** In place, the frame becomes the next one of the delayed stream. -/
theorem FrameDelayer.Holds.processFrame [Zero F] {d : FrameDelayer F} {frameSize delay : ℕ}
    {stream frame : List F} (h : d.Holds frameSize delay stream)
    (hframe : frame.length = frameSize) :
    (d.processFrame frame).2 = (kept delay stream ++ frame).take frame.length ∧
      (d.processFrame frame).1.Holds frameSize delay (stream ++ frame) := by
  have hle := h.le
  rcases Nat.eq_zero_or_pos delay with rfl | hpos
  · have hidle := h.idle rfl
    have hprocess : d.processFrame frame = (d, frame) := by rw [FrameDelayer.processFrame, hidle]
    have hnil : kept 0 stream = [] := List.length_eq_zero_iff.mp (length_kept 0 stream)
    rw [hprocess, hnil, List.nil_append, List.take_length]
    exact ⟨rfl, hle, fun _ ↦ hidle, fun hlt ↦ absurd hlt (Nat.lt_irrefl 0)⟩
  · obtain ⟨hsize, hdelay, block, hblock, hlength, htake⟩ := h.line hpos
    have hkept := length_kept delay stream
    have hall : (kept delay stream).take frameSize = kept delay stream :=
      List.take_of_length_le (by omega)
    have hnone : (kept delay stream).drop frameSize = [] := List.drop_eq_nil_of_le (by omega)
    have hlast : (frame.drop (frameSize - delay)).length = delay := by
      rw [List.length_drop, hframe]
      omega
    rw [FrameDelayer.processFrame_eq hblock (hdelay ▸ hpos) (by omega) (by omega) (by omega)
      (hdelay ▸ htake), hsize, hdelay]
    refine ⟨?_, hle, fun hzero ↦ absurd hzero hpos.ne', fun _ ↦ ⟨rfl, rfl, _, rfl, ?_, ?_⟩⟩
    · rw [List.take_append, hkept, hframe, hall]
    · rw [List.length_append, hlast]
      omega
    · rw [kept_append, List.drop_append, hkept, hframe, hnone, List.nil_append]
      exact List.take_left' hlast

/-- A filter with the given taps whose frames so far make up `stream`. -/
structure FIRFilter.Holds [CommSemiring F] (f : FIRFilter F) (coeffs stream : List F) : Prop where
  taps : f.coefficients_ = coeffs.reverse
  state : f.state_ = kept (coeffs.length - 1) stream

theorem FIRFilter.holds_create [CommSemiring F] (coeffs : List F) :
    (FIRFilter.create coeffs).Holds coeffs [] where
  taps := rfl
  state := by rw [create, kept, List.append_nil, List.length_nil, List.drop_zero]

/-- **The filter.** The output is the next frame of the convolution. -/
theorem FIRFilter.Holds.filter [CommSemiring F] {f : FIRFilter F} {coeffs stream : List F}
    (h : f.Holds coeffs stream) (hpos : 0 < coeffs.length) (frame : List F) :
    convolved coeffs (stream ++ frame) = convolved coeffs stream ++ (f.filter frame).2 ∧
      (f.filter frame).1.Holds coeffs (stream ++ frame) := by
  have hstate : f.state_.length = coeffs.length - 1 := by rw [h.state, length_kept]
  have hoverlap : (List.replicate (coeffs.length - 1) (0 : F) ++ stream).length + 1 -
      coeffs.reverse.length = stream.length := by
    rw [List.length_append, List.length_replicate, List.length_reverse]
    omega
  have hout : (f.filter frame).2 = windowed coeffs.reverse (f.state_ ++ frame) := by
    have hcount : (f.state_ ++ frame).length + 1 - coeffs.reverse.length = frame.length := by
      rw [List.length_append, hstate, List.length_reverse]
      omega
    rw [windowed, hcount, ← h.taps]
    rfl
  constructor
  · rw [← windowed_reverse hpos, ← List.append_assoc, windowed_append (by simpa using hpos),
      hoverlap, windowed_reverse hpos, hout, h.state, kept]
    rw [List.length_append, List.length_replicate, List.length_reverse]
    omega
  · refine ⟨h.taps, ?_⟩
    show (if f.state_.length ≤ frame.length then frame.drop (frame.length - f.state_.length)
      else f.state_.drop frame.length ++ frame) = _
    rw [kept_append, ← h.state]
    split_ifs with hle
    · rw [List.drop_append, List.drop_eq_nil_of_le hle, List.nil_append]
    · rw [List.drop_append_of_le_length (by omega)]

end Vsys.Bf
