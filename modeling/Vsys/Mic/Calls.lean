import Vsys.Mic.ReadStream

/-!
# Sequences of reads

Any number of `mic_array_device_read_stream` calls with any counts, from any state of the device.
`calls_intact_iff`: the buffers are the consecutive bytes of the stream exactly if no call counts
past the range of `int`.
-/

namespace Vsys.Mic

open Vsys.Stream Vsys.Trace

variable {α : Type}

/-- A call: the caller's buffer and the number of bytes it asks for, an `unsigned int`. -/
structure Request (α : Type) where
  buff : List α
  count : ℕ
  fits : count ≤ buff.length
  unsigned : count < 2 ^ 32

/-- What a call returns in the caller's buffer, nothing if it fails. -/
def Outcome.returned (outcome : Outcome α) (count : ℕ) : List α :=
  if outcome.ret = 0 then outcome.buff.take count else []

/-- The buffers that a sequence of calls returns, and the device after it. -/
def calls (pcm : Pcm α) : Device α → List (Request α) → Option (List (List α) × Device α)
  | dev, [] => some ([], dev)
  | dev, request :: requests =>
      match dev.readStream pcm request.buff request.count with
      | none => none
      | some outcome =>
          (calls pcm outcome.dev requests).map fun rest ↦
            (outcome.returned request.count :: rest.1, rest.2)

/-- The device after one call, as long as it is defined. -/
def next (pcm : Pcm α) (dev : Device α) (request : Request α) : Device α :=
  ((dev.readStream pcm request.buff request.count).map Outcome.dev).getD dev

/-- The kept bytes and the whole frames of a call are together an `int`. -/
def InRange (dev : Device α) (request : Request α) : Prop :=
  dev.Usable → dev.frameCnt ≤ request.count →
    dev.pts + dev.wholeFrames request.count * dev.frameCnt < 2 ^ 31

/-- The returned buffers are the next bytes of the stream, after those that were kept; what is kept
now follows them.  The number of kept bytes is what was read less what was returned. -/
structure Intact (frames : ℕ → List α) (dev : Device α) (outs : List (List α)) (dev' : Device α) :
    Prop where
  bytes : ∃ n, dev'.reads = dev.reads + n ∧
    outs.flatten ++ dev'.buffer.take dev'.pts =
      dev.buffer.take dev.pts ++ framesFrom frames dev.reads n ∧
    dev'.pts + outs.flatten.length = dev.pts + n * dev.frameCnt
  oneFrame : dev'.pts ≤ dev'.frameCnt

variable {frames : ℕ → List α} {dev dev' : Device α} {pcm : Pcm α}

theorem Device.Valid.length_cache (h : dev.Valid) : dev.cache.length = dev.pts := by
  rw [Device.cache, List.length_take, h.buffer]
  exact min_eq_left h.pts

theorem Passes.intact {outs : List (List α)} (hdev : dev.Valid)
    (hframes : ∀ k, (frames k).length = dev.frameCnt) (h : Passes frames dev dev' outs.flatten) :
    Intact frames dev outs dev' where
  bytes := by
    obtain ⟨n, hn, hbytes⟩ := h.bytes
    refine ⟨n, hn, hbytes, ?_⟩
    have hlen := congrArg List.length hbytes
    rw [List.length_append, List.length_append, h.valid.length_cache, hdev.length_cache,
      framesFrom_length hframes] at hlen
    omega
  oneFrame := h.valid.pts

variable (hpcm : ∀ k, pcm k = .ok (frames k))
include hpcm

/-- One call in range passes bytes on; a device that is not usable returns an error and stays. -/
theorem readStream_passes (hdev : dev.Valid) (hframes : ∀ k, (frames k).length = dev.frameCnt)
    {request : Request α} (hrange : InRange dev request) :
    ∃ outcome, dev.readStream pcm request.buff request.count = some outcome ∧
      Passes frames dev outcome.dev (outcome.returned request.count) := by
  by_cases husable : dev.Usable
  · obtain ⟨outcome, hcall, hret, -, hpasses⟩ :=
      readStream_spec hpcm hdev husable hframes request.fits (hrange husable)
    refine ⟨outcome, hcall, ?_⟩
    rw [Outcome.returned, if_pos hret]
    exact hpasses
  · have hsize : dev.frameCnt = 0 ∨ 2 ^ 31 ≤ dev.frameCnt := by
      rw [Device.Usable] at husable
      omega
    refine ⟨⟨-1, dev, request.buff⟩, if_pos hsize, ?_⟩
    have hnone : (⟨-1, dev, request.buff⟩ : Outcome α).returned request.count = [] :=
      if_neg (show ¬ (-1 : ℤ) = 0 by decide)
    rw [hnone]
    exact Passes.refl hdev

/-- A run of calls in range passes bytes on. -/
theorem calls_passes (hdev : dev.Valid) (hframes : ∀ k, (frames k).length = dev.frameCnt)
    {requests : List (Request α)} (hrange : Along (next pcm) InRange dev requests) :
    ∃ outs dev', calls pcm dev requests = some (outs, dev') ∧
      Passes frames dev dev' outs.flatten := by
  induction requests generalizing dev with
  | nil => exact ⟨[], dev, rfl, Passes.refl hdev⟩
  | cons request requests ih =>
      obtain ⟨outcome, hcall, hpasses⟩ := readStream_passes hpcm hdev hframes hrange.1
      have hnext : next pcm dev request = outcome.dev := by
        rw [next, hcall]
        rfl
      have hlater := hrange.2
      rw [hnext] at hlater
      obtain ⟨outs, dev', hrun, hrest⟩ :=
        ih hpasses.valid (fun k ↦ (hframes k).trans hpasses.frameCnt.symm) hlater
      refine ⟨outcome.returned request.count :: outs, dev', ?_, ?_⟩
      · rw [calls, hcall]
        simp [hrun]
      · rw [List.flatten_cons]
        exact hpasses.trans hrest

/-- A run with a call out of range is undefined. -/
theorem inRange_of_calls {requests : List (Request α)} {outs : List (List α)}
    (h : calls pcm dev requests = some (outs, dev')) : Along (next pcm) InRange dev requests := by
  induction requests generalizing dev outs with
  | nil => trivial
  | cons request requests ih =>
      rw [calls] at h
      cases hcall : dev.readStream pcm request.buff request.count with
      | none =>
          rw [hcall] at h
          exact absurd h (by simp)
      | some outcome =>
          rw [hcall] at h
          obtain ⟨⟨rest, last⟩, hrest, heq⟩ := Option.map_eq_some_iff.mp h
          obtain ⟨-, rfl⟩ := Prod.mk.inj heq
          refine ⟨fun husable hcount ↦ ?_, ?_⟩
          · by_contra hover
            rw [readStream_eq_none hpcm husable hcount (Nat.not_lt.mp hover)] at hcall
            exact absurd hcall (by simp)
          · have hnext : next pcm dev request = outcome.dev := by
              rw [next, hcall]
              rfl
            rw [hnext]
            exact ih hrest

/-- **The stream is kept.** For every state of the device and every sequence of calls, all of whose
`pcm_read`s succeed with whole frames: the calls return the consecutive bytes of the stream, with at
most one frame kept, exactly if every call is in range. -/
theorem calls_intact_iff (hdev : dev.Valid) (hframes : ∀ k, (frames k).length = dev.frameCnt)
    (requests : List (Request α)) :
    (∃ outs dev', calls pcm dev requests = some (outs, dev') ∧ Intact frames dev outs dev') ↔
      Along (next pcm) InRange dev requests := by
  constructor
  · rintro ⟨outs, dev', hrun, -⟩
    exact inRange_of_calls hpcm hrun
  · intro hrange
    obtain ⟨outs, dev', hrun, hpasses⟩ := calls_passes hpcm hdev hframes hrange
    exact ⟨outs, dev', hrun, hpasses.intact hdev hframes⟩

omit hpcm

/-! ## Two devices -/

/-- `FRAME_COUNT`. -/
def frameCount : ℕ := 15360

/-- The device as `mic_array_device_open` leaves it, with what `malloc` left in its buffer. -/
def openDevice (buffer : List α) : Device α where
  frameCnt := frameCount
  pts := 0
  buffer := buffer
  reads := 0

/-- Frames of two bytes, one of them kept: calls for three bytes, none and one. -/
theorem calls_intact_small :
    ∃ outs dev', calls (fun k ↦ .ok [2 * k, 2 * k + 1]) ⟨2, 1, [8, 9], 5⟩
        [⟨[0, 0, 0], 3, by decide, by decide⟩, ⟨[], 0, by decide, by decide⟩,
          ⟨[0], 1, by decide, by decide⟩] = some (outs, dev') ∧
      Intact (fun k ↦ [2 * k, 2 * k + 1]) ⟨2, 1, [8, 9], 5⟩ outs dev' := by
  refine (calls_intact_iff (fun _ ↦ rfl) ⟨by decide, rfl⟩ (fun _ ↦ rfl) _).mpr ?_
  refine ⟨fun _ _ ↦ by decide, fun _ _ ↦ by decide, fun _ _ ↦ by decide, trivial⟩

/-- A call for 139811 frames of an open device, with a buffer for them. -/
def longRequest : Request ℕ where
  buff := List.replicate (139811 * frameCount) 0
  count := 139811 * frameCount
  fits := List.length_replicate.ge
  unsigned := by decide

theorem longRequest_not_inRange (buffer : List ℕ) : ¬ InRange (openDevice buffer) longRequest := by
  intro h
  have hwhole : (openDevice buffer).wholeFrames longRequest.count = 139811 := by
    have hcount : longRequest.count = 139811 * frameCount := rfl
    have hsize : (openDevice buffer).frameCnt = frameCount := rfl
    have hpos : 0 < frameCount := Nat.succ_pos _
    rw [Device.wholeFrames, hcount, hsize, Nat.mul_div_cancel _ hpos]
    exact if_neg (Nat.not_lt_zero _)
  have hlt := h ⟨Nat.succ_pos _, by show frameCount < 2 ^ 31; decide⟩
    (Nat.le_mul_of_pos_left frameCount (Nat.succ_pos _))
  rw [hwhole] at hlt
  have hover : ¬ 0 + 139811 * frameCount < 2 ^ 31 := by decide
  exact hover hlt

/-- The number of bytes of these frames is not an `int`. -/
theorem long_call_not_intact :
    ¬ ∃ outs dev', calls (fun _ ↦ .ok (List.replicate frameCount 0))
        (openDevice (List.replicate frameCount 0)) [longRequest] = some (outs, dev') ∧
      Intact (fun _ ↦ List.replicate frameCount 0) (openDevice (List.replicate frameCount 0)) outs
        dev' := by
  rintro ⟨outs, dev', hrun, -⟩
  have hrange := @inRange_of_calls _ (fun _ ↦ List.replicate frameCount 0) _ _ _ (fun _ ↦ rfl) _ _
    hrun
  exact longRequest_not_inRange _ hrange.1

end Vsys.Mic
