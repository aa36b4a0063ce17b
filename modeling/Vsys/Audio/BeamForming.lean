import Vsys.Audio.Converter
import Vsys.Stream.Conserve
import Vsys.Stream.Windows
import Vsys.Trace.Run

/-!
# The two drivers of the beam former

`VoiceActivation::beam_forming`, with more than one microphone, and `r2mem_bf::process` cut the
channels into frames for `r2ssp_bf_process`.  The first goes frame by frame, with indices into the
chunk that begin before it; the second fills a frame from as much of the chunk as fits.

The stream is a list of columns, one sample of every channel.  `Driven` says what a driver has done with
a stream; both drivers keep it (`BeamFront.driven`, `R2MemBf.driven`), and it leaves them no choice
(`drivers_agree`).
-/

namespace Vsys.Audio

open Vsys.Stream Vsys.Trace

variable {F σ : Type*} [Zero F] {mics : ℕ}

/-- `r2ssp_bf_process` on the rows of a frame: the output frame, and a result both drivers ignore. -/
structure BeamEngine (σ F : Type*) (mics : ℕ) where
  process : σ → (Fin mics → List F) → σ × (ℕ → F) × ℤ

/-- The rows of some columns. -/
def rowsOf {F : Type*} (columns : List (Fin mics → F)) : Fin mics → List F := fun j ↦
  columns.map fun column ↦ column j

/-- The samples of an output frame. -/
def outFrame {F : Type*} (out : ℕ → F) : List F := (List.range frameSize).map out

/-! ## `beam_forming` -/

/-- The members `beam_forming` works on; the length of `bfOutput` is `bf_output_total`.  `handed` lists
the frames given to `r2ssp_bf_process`. -/
structure BeamFront (σ F : Type*) (mics : ℕ) where
  bfHandle : σ
  bfInput : Fin mics → List F
  bfInputOffset : ℕ
  bfOutput : List F
  handed : List (Fin mics → List F)

namespace BeamFront

/-- A new object; the allocated frame is not read before it is written. -/
def create (bfHandle : σ) : BeamFront σ F mics where
  bfHandle := bfHandle
  bfInput := fun _ ↦ List.replicate frameSize 0
  bfInputOffset := 0
  bfOutput := []
  handed := []

/-- `check_buffer`; a new buffer is not read before it is written. -/
def checkBuffer (buff : List F) (size : ℕ) : List F :=
  if size > buff.length then List.replicate size 0 else buff

omit [Zero F] in
/-- The loop over the frames, with the number of rounds left; the offset is that of the next copy. -/
def frames (E : BeamEngine σ F mics) (input : Fin mics → List F) :
    ℕ → ℕ → ℕ → ℕ → BeamFront σ F mics → BeamFront σ F mics × ℕ
  | 0, _, offset, _, b => (b, offset)
  | rounds + 1, i, offset, offset2, b =>
      let bfInput := fun j ↦
        overwrite (b.bfInput j) offset
          (((input j).drop (i * frameSize - offset2)).take (frameSize - offset))
      let answer := E.process b.bfHandle bfInput
      frames E input rounds (i + 1) 0 b.bfInputOffset
        { b with
          bfInput := bfInput
          bfHandle := answer.1
          bfOutput := overwrite b.bfOutput (i * frameSize) (outFrame answer.2.1)
          handed := b.handed ++ [bfInput] }

/-- `beam_forming` with a beam former: the object and the output. -/
def beamForming (E : BeamEngine σ F mics) (b : BeamFront σ F mics) (input : Fin mics → List F)
    (inputSize : ℕ) : BeamFront σ F mics × List F :=
  let total := inputSize + b.bfInputOffset
  let numFrames := total / frameSize
  let result := frames E input numFrames 0 b.bfInputOffset 0
    { b with bfOutput := checkBuffer b.bfOutput (numFrames * frameSize) }
  let bfInputOffset := total % frameSize
  let length := if total > frameSize then bfInputOffset else inputSize
  ({ result.1 with
      bfInput := fun j ↦
        overwrite (result.1.bfInput j) result.2 (((input j).drop (inputSize - length)).take length)
      bfInputOffset := bfInputOffset },
    result.1.bfOutput.take (frameSize * numFrames))

end BeamFront

/-! ## `r2mem_bf` -/

/-- The state of an `r2mem_bf` object; the length of `dataOut` is `m_iLen_Out_Total`, and `lenOut` is
the length of the output of the current call. -/
structure R2MemBf (σ F : Type*) (mics : ℕ) where
  engine : σ
  dataIn : Fin mics → List F
  lenInCur : ℕ
  dataBf : Fin mics → List F
  dataOut : List F
  lenOut : ℕ
  handed : List (Fin mics → List F)

namespace R2MemBf

/-- The constructor. -/
def create (engine : σ) : R2MemBf σ F mics where
  engine := engine
  dataIn := fun _ ↦ List.replicate frameSize 0
  lenInCur := 0
  dataBf := fun _ ↦ List.replicate frameSize 0
  dataOut := List.replicate 16000 0
  lenOut := 0
  handed := []

/-- A larger output buffer; the output of the last call is lost. -/
def reserve (m : R2MemBf σ F mics) (lenIn : ℕ) : R2MemBf σ F mics :=
  if lenIn + m.lenInCur > m.dataOut.length then
    { m with dataOut := List.replicate ((lenIn + m.lenInCur) * 2) 0 }
  else m

omit [Zero F] in
/-- A piece of the chunk joins the frame. -/
def fill (m : R2MemBf σ F mics) (piece : List (Fin mics → F)) : R2MemBf σ F mics :=
  { m with
    dataIn := fun i ↦ overwrite (m.dataIn i) m.lenInCur (rowsOf piece i)
    lenInCur := m.lenInCur + piece.length }

/-- A full frame is given to `r2ssp_bf_process`. -/
def full {F : Type*} (E : BeamEngine σ F mics) (m : R2MemBf σ F mics) : R2MemBf σ F mics :=
  let answer := E.process m.engine m.dataIn
  { m with
    dataBf := m.dataIn
    engine := answer.1
    dataOut := overwrite m.dataOut m.lenOut (outFrame answer.2.1)
    lenOut := m.lenOut + frameSize
    lenInCur := 0
    handed := m.handed ++ [m.dataIn] }

/-- The columns of the selected channels of a chunk. -/
def columns {F : Type*} (micIds : Fin mics → ℕ) (data : ℕ → ℕ → F) (lenIn : ℕ) : List (Fin mics → F) :=
  (List.range lenIn).map fun k i ↦ data (micIds i) k

/-- `process`: the object and the output.  Every round takes at least one sample. -/
def process (E : BeamEngine σ F mics) (micIds : Fin mics → ℕ) (m : R2MemBf σ F mics)
    (data : ℕ → ℕ → F) (lenIn : ℕ) : R2MemBf σ F mics × List F :=
  let m := windowLoop frameSize lenInCur fill (full E) lenIn (columns micIds data lenIn)
    { m.reserve lenIn with lenOut := 0 }
  (m, m.dataOut.take m.lenOut)

end R2MemBf

/-! ## The stream -/

section Stream

variable {F : Type*} {E : BeamEngine σ F mics}

theorem rowsOf_append (front rest : List (Fin mics → F)) (j : Fin mics) :
    rowsOf (front ++ rest) j = rowsOf front j ++ rowsOf rest j :=
  List.map_append

@[simp]
theorem length_rowsOf (columns : List (Fin mics → F)) (j : Fin mics) :
    (rowsOf columns j).length = columns.length :=
  List.length_map _

/-- A block of a row is the row of a block. -/
theorem blockAt_rowsOf (n k : ℕ) (columns : List (Fin mics → F)) (j : Fin mics) :
    blockAt n k (rowsOf columns j) = rowsOf (blockAt n k columns) j := by
  rw [rowsOf, rowsOf, blockAt, blockAt, List.map_take, List.map_drop]

theorem leftover_rowsOf (n : ℕ) (columns : List (Fin mics → F)) (j : Fin mics) :
    leftover n (rowsOf columns j) = rowsOf (leftover n columns) j := by
  rw [leftover, leftover, length_rowsOf, rowsOf, rowsOf, List.map_drop]

theorem length_outFrame (out : ℕ → F) : (outFrame out).length = frameSize := by
  rw [outFrame, List.length_map, List.length_range]

/-- The beam former on some frames, one after the other, with the output. -/
def drive (E : BeamEngine σ F mics) (start : σ × List F) (frames : List (Fin mics → List F)) :
    σ × List F :=
  frames.foldl (fun s frame ↦
    ((E.process s.1 frame).1, s.2 ++ outFrame (E.process s.1 frame).2.1)) start

theorem drive_append (start : σ × List F) (frames later : List (Fin mics → List F)) :
    drive E start (frames ++ later) = drive E (drive E start frames) later :=
  List.foldl_append ..

/-- The output so far stays in front. -/
theorem drive_out (engine : σ) (out : List F) (frames : List (Fin mics → List F)) :
    drive E (engine, out) frames =
      ((drive E (engine, []) frames).1, out ++ (drive E (engine, []) frames).2) := by
  induction frames using List.reverseRecOn with
  | nil => exact congrArg (Prod.mk engine) (List.append_nil out).symm
  | append_singleton frames frame ih =>
      rw [drive_append, drive_append, ih]
      exact congrArg (Prod.mk _) (List.append_assoc ..)

/-- What a driver has done with a stream: the consecutive frames of it have been given to the beam
former, and the rest is pending. -/
structure Driven (E : BeamEngine σ F mics) (start : σ) (stream : List (Fin mics → F))
    (handed : List (Fin mics → List F)) (engine : σ) (out : List F) (pending : Fin mics → List F)
    (held : ℕ) : Prop where
  handed_eq : handed = (blocks frameSize stream).map rowsOf
  engine_out : (engine, out) = drive E (start, []) handed
  pending_eq : ∀ j, pending j = rowsOf (leftover frameSize stream) j
  held_eq : held = stream.length % frameSize

theorem driven_nil (E : BeamEngine σ F mics) (start : σ) {pending : Fin mics → List F}
    (hpending : ∀ j, pending j = []) : Driven E start [] [] start [] pending 0 where
  handed_eq := by rw [blocks_of_length_lt frameSize_pos, List.map_nil]
  engine_out := rfl
  pending_eq := fun j ↦ by
    rw [hpending, leftover_of_length_lt frameSize_pos]
    rfl
  held_eq := rfl

/-- More of the stream: the frames are those of what was pending and the new columns. -/
theorem Driven.append {start : σ} {stream : List (Fin mics → F)}
    {handed : List (Fin mics → List F)} {engine : σ} {out : List F} {pending : Fin mics → List F}
    {held : ℕ} (h : Driven E start stream handed engine out pending held)
    {chunk : List (Fin mics → F)} {handed' : List (Fin mics → List F)} {engine' : σ}
    {out' : List F} {pending' : Fin mics → List F} {held' : ℕ}
    (hhanded : handed' =
      handed ++ (blocks frameSize (leftover frameSize stream ++ chunk)).map rowsOf)
    (hout : (engine', out') =
      drive E (engine, out) ((blocks frameSize (leftover frameSize stream ++ chunk)).map rowsOf))
    (hpending : ∀ j,
      pending' j = rowsOf (leftover frameSize (leftover frameSize stream ++ chunk)) j)
    (hheld : held' = (held + chunk.length) % frameSize) :
    Driven E start (stream ++ chunk) handed' engine' out' pending' held' where
  handed_eq := by rw [hhanded, h.handed_eq, blocks_append frameSize_pos stream, List.map_append]
  engine_out := by rw [hout, hhanded, drive_append, ← h.engine_out]
  pending_eq := fun j ↦ by rw [hpending, leftover_append frameSize_pos stream]
  held_eq := by rw [hheld, h.held_eq, List.length_append, Nat.mod_add_mod]

end Stream

/-! ## `beam_forming` keeps the stream -/

namespace BeamFront

section Loop

variable {F : Type*} {E : BeamEngine σ F mics}

/-- The frame of round `i`: the first one completes the pending columns, the later ones lie in the
chunk. -/
theorem frame_of_round {pend chunk : List (Fin mics → F)} {i offset offset2 : ℕ}
    {bfInput : Fin mics → List F} (hlength : ∀ j, (bfInput j).length = frameSize)
    (hlt : pend.length < frameSize)
    (hstart : (i = 0 ∧ offset = pend.length ∧ offset2 = 0 ∧
        ∀ j, (bfInput j).take pend.length = rowsOf pend j) ∨
      (0 < i ∧ offset = 0 ∧ offset2 = pend.length))
    (hround : (i + 1) * frameSize ≤ pend.length + chunk.length) :
    (fun j ↦ overwrite (bfInput j) offset
        (((rowsOf chunk j).drop (i * frameSize - offset2)).take (frameSize - offset))) =
      rowsOf (blockAt frameSize i (pend ++ chunk)) := by
  funext j
  rw [← blockAt_rowsOf, rowsOf_append]
  obtain ⟨rfl, rfl, rfl, htake⟩ | ⟨hi, rfl, rfl⟩ := hstart
  · rw [← htake j, Nat.zero_mul, Nat.zero_sub]
    apply overwrite_first (hlength j) hlt.le
    rw [length_rowsOf]
    omega
  · apply overwrite_later (hlength j) (length_rowsOf pend j)
    · exact hlt.le.trans (Nat.le_mul_of_pos_left _ hi)
    · rw [length_rowsOf]
      exact hround

/-- The output of round `i` follows that of the earlier rounds. -/
theorem take_outFrame {bfOutput : List F} {i : ℕ} (out : ℕ → F)
    (hwrite : i * frameSize + frameSize ≤ bfOutput.length) :
    (overwrite bfOutput (i * frameSize) (outFrame out)).take ((i + 1) * frameSize) =
      bfOutput.take (i * frameSize) ++ outFrame out := by
  apply take_overwrite (by omega)
  rw [length_outFrame, Nat.add_mul, Nat.one_mul]

/-- What the loop does from its round `i` on; `pend` are the columns that were pending. -/
theorem frames_spec {pend chunk : List (Fin mics → F)} {rounds i offset offset2 : ℕ}
    {b : BeamFront σ F mics} (hlength : ∀ j, (b.bfInput j).length = frameSize)
    (hoff : b.bfInputOffset = pend.length) (hlt : pend.length < frameSize)
    (hstart : (i = 0 ∧ offset = pend.length ∧ offset2 = 0 ∧
        ∀ j, (b.bfInput j).take pend.length = rowsOf pend j) ∨
      (0 < i ∧ offset = 0 ∧ offset2 = pend.length))
    (hwhole : (i + rounds) * frameSize ≤ (pend ++ chunk).length)
    (hroom : (i + rounds) * frameSize ≤ b.bfOutput.length) :
    let result := frames E (rowsOf chunk) rounds i offset offset2 b
    (∀ j, (result.1.bfInput j).length = frameSize) ∧
      result.1.handed = b.handed ++ (slices frameSize (pend ++ chunk) i rounds).map rowsOf ∧
      (result.1.bfHandle, result.1.bfOutput.take ((i + rounds) * frameSize)) =
        drive E (b.bfHandle, b.bfOutput.take (i * frameSize))
          ((slices frameSize (pend ++ chunk) i rounds).map rowsOf) ∧
      (rounds = 0 → result = (b, offset)) ∧ (0 < rounds → result.2 = 0) := by
  induction rounds generalizing i offset offset2 b with
  | zero =>
      refine ⟨hlength, ?_, rfl, fun _ ↦ rfl, fun h ↦ absurd h (Nat.lt_irrefl 0)⟩
      exact (List.append_nil _).symm
  | succ rounds ih =>
      have hround : (i + 1) * frameSize ≤ pend.length + chunk.length := by
        rw [← List.length_append]
        exact (Nat.mul_le_mul_right _ (by omega)).trans hwhole
      have hframe := frame_of_round hlength hlt hstart hround
      have hnext : ∀ j, (rowsOf (blockAt frameSize i (pend ++ chunk)) j).length = frameSize := by
        intro j
        rw [length_rowsOf]
        exact length_blockAt (by rw [List.length_append]; exact hround)
      have hassoc : i + 1 + rounds = i + (rounds + 1) := by omega
      have hwrite : (i + 1) * frameSize ≤ b.bfOutput.length :=
        (Nat.mul_le_mul_right _ (by omega)).trans hroom
      rw [Nat.add_mul, Nat.one_mul] at hwrite
      set answer := E.process b.bfHandle (rowsOf (blockAt frameSize i (pend ++ chunk))) with hanswer
      have hrest := @ih (i + 1) 0 b.bfInputOffset
        { b with
          bfInput := rowsOf (blockAt frameSize i (pend ++ chunk))
          bfHandle := answer.1
          bfOutput := overwrite b.bfOutput (i * frameSize) (outFrame answer.2.1)
          handed := b.handed ++ [rowsOf (blockAt frameSize i (pend ++ chunk))] }
        hnext hoff (.inr ⟨Nat.succ_pos i, rfl, hoff⟩) (by rw [hassoc]; exact hwhole)
        (by
          rw [hassoc, overwrite_length (by rw [length_outFrame]; exact hwrite)]
          exact hroom)
      dsimp only at hrest
      simp only [frames, hframe, ← hanswer]
      rw [hassoc] at hrest
      refine ⟨hrest.1, ?_, ?_, fun h ↦ absurd h (Nat.succ_ne_zero rounds), fun _ ↦ ?_⟩
      · rw [hrest.2.1, slices_succ, List.map_cons, List.append_assoc, List.singleton_append]
      · rw [hrest.2.2.1, take_outFrame _ hwrite, slices_succ, List.map_cons]
        rfl
      · obtain rfl | hpos := Nat.eq_zero_or_pos rounds
        · rw [hrest.2.2.2.1 rfl]
        · exact hrest.2.2.2.2 hpos

end Loop

/-- The driver has gone along with the stream, and its frame has the right length. -/
structure Drives {F : Type*} (E : BeamEngine σ F mics) (start : σ) (stream : List (Fin mics → F))
    (b : BeamFront σ F mics) (out : List F) : Prop where
  driven : Driven E start stream b.handed b.bfHandle out
    (fun j ↦ (b.bfInput j).take b.bfInputOffset) b.bfInputOffset
  length_eq : ∀ j, (b.bfInput j).length = frameSize

theorem create_drives (E : BeamEngine σ F mics) (start : σ) :
    (create start : BeamFront σ F mics).Drives E start [] [] where
  driven := driven_nil E start fun _ ↦ rfl
  length_eq := fun _ ↦ List.length_replicate

theorem le_length_checkBuffer (buff : List F) (size : ℕ) : size ≤ (checkBuffer buff size).length := by
  rw [checkBuffer]
  split_ifs with h
  · exact List.length_replicate.ge
  · exact Nat.le_of_not_lt h

section Call

variable {E : BeamEngine σ F mics} {pend chunk : List (Fin mics → F)} {b : BeamFront σ F mics}

/-- The whole frames of a call. -/
theorem frames_of_call (E : BeamEngine σ F mics) (hlength : ∀ j, (b.bfInput j).length = frameSize)
    (hoff : b.bfInputOffset = pend.length) (hlt : pend.length < frameSize)
    (hpending : ∀ j, (b.bfInput j).take pend.length = rowsOf pend j) :
    let n := (chunk.length + b.bfInputOffset) / frameSize
    let front := { b with bfOutput := checkBuffer b.bfOutput (n * frameSize) }
    let result := frames E (rowsOf chunk) n 0 b.bfInputOffset 0 front
    (∀ j, (result.1.bfInput j).length = frameSize) ∧
      result.1.handed = b.handed ++ (blocks frameSize (pend ++ chunk)).map rowsOf ∧
      (result.1.bfHandle, result.1.bfOutput.take (n * frameSize)) =
        drive E (b.bfHandle, []) ((blocks frameSize (pend ++ chunk)).map rowsOf) ∧
      (n = 0 → result = (front, b.bfInputOffset)) ∧ (0 < n → result.2 = 0) := by
  intro n front
  have htotal : (pend ++ chunk).length = chunk.length + b.bfInputOffset := by
    rw [List.length_append, hoff, Nat.add_comm]
  have hspec := @frames_spec _ _ _ E pend chunk n 0 b.bfInputOffset 0 front hlength hoff hlt
    (.inl ⟨rfl, hoff, rfl, hpending⟩)
    (by rw [Nat.zero_add, htotal]; exact Nat.div_mul_le_self _ _)
    (by rw [Nat.zero_add]; exact le_length_checkBuffer _ _)
  have hblocks : slices frameSize (pend ++ chunk) 0 n = blocks frameSize (pend ++ chunk) := by
    rw [slices, blocks, ← List.range_eq_range', htotal]
  rw [hblocks, Nat.zero_add, Nat.zero_mul, List.take_zero] at hspec
  exact hspec

/-- The rest of a call: what does not make up a frame is pending. -/
theorem tail_of_call (hlength : ∀ j, (b.bfInput j).length = frameSize)
    (hoff : b.bfInputOffset = pend.length) (hlt : pend.length < frameSize)
    (hpending : ∀ j, (b.bfInput j).take pend.length = rowsOf pend j) (j : Fin mics) :
    ((b.beamForming E (rowsOf chunk) chunk.length).1.bfInput j).length = frameSize ∧
      ((b.beamForming E (rowsOf chunk) chunk.length).1.bfInput j).take
          ((chunk.length + b.bfInputOffset) % frameSize) =
        rowsOf (leftover frameSize (pend ++ chunk)) j := by
  obtain ⟨hrows, -, -, hnone, hsome⟩ :=
    @frames_of_call _ _ _ _ pend chunk b E hlength hoff hlt hpending
  rw [← leftover_rowsOf, rowsOf_append, BeamFront.beamForming]
  dsimp only
  set n := (chunk.length + b.bfInputOffset) / frameSize with hn
  obtain hzero | hpos := Nat.eq_zero_or_pos n
  · -- the chunk joins the frame
    have hshort : chunk.length + b.bfInputOffset < frameSize :=
      (Nat.div_eq_zero_iff_lt frameSize_pos).mp (hn.symm.trans hzero)
    rw [hnone hzero, if_neg (by omega), Nat.sub_self, List.drop_zero,
      List.take_of_length_le (length_rowsOf chunk j).le]
    refine ⟨?_, ?_⟩
    · rw [overwrite_length, hlength]
      rw [length_rowsOf, hlength]
      omega
    · rw [Nat.mod_eq_of_lt hshort, leftover_of_length_lt, ← hpending, ← hoff]
      · apply take_overwrite (by rw [hlength]; omega)
        rw [length_rowsOf, Nat.add_comm]
      · rw [List.length_append, length_rowsOf, length_rowsOf]
        omega
  · -- the end of the chunk begins a new frame
    have hlong : frameSize ≤ b.bfInputOffset + chunk.length := by
      rw [Nat.add_comm]
      exact (Nat.one_le_div_iff frameSize_pos).mp (hn ▸ hpos)
    rw [hsome hpos]
    refine ⟨tail_length (hrows j) (hoff ▸ hlt), ?_⟩
    exact tail_take_whole (by rw [length_rowsOf, hoff]) (length_rowsOf chunk j) (hoff ▸ hlt) hlong

end Call

/-- **One call of `beam_forming`.** -/
theorem Drives.beamForming {E : BeamEngine σ F mics} {start : σ} {stream : List (Fin mics → F)}
    {b : BeamFront σ F mics} {out : List F} (h : b.Drives E start stream out)
    (chunk : List (Fin mics → F)) :
    (b.beamForming E (rowsOf chunk) chunk.length).1.Drives E start (stream ++ chunk)
      (out ++ (b.beamForming E (rowsOf chunk) chunk.length).2) := by
  obtain ⟨hdriven, hlength⟩ := h
  have hoff : b.bfInputOffset = (leftover frameSize stream).length := by
    rw [hdriven.held_eq, leftover_length]
  have hlt : (leftover frameSize stream).length < frameSize := by
    rw [leftover_length]
    exact Nat.mod_lt _ frameSize_pos
  have hpending : ∀ j, (b.bfInput j).take (leftover frameSize stream).length =
      rowsOf (leftover frameSize stream) j := by
    rw [← hoff]
    exact hdriven.pending_eq
  obtain ⟨-, hhanded, hout, -, -⟩ := @frames_of_call _ _ _ _ _ chunk b E hlength hoff hlt hpending
  have hrow := @tail_of_call _ _ _ _ E _ chunk b hlength hoff hlt hpending
  refine ⟨hdriven.append hhanded ?_ (fun j ↦ (hrow j).2) ?_, fun j ↦ (hrow j).1⟩
  · rw [drive_out, BeamFront.beamForming, Nat.mul_comm frameSize]
    exact congrArg (fun s : σ × List F ↦ (s.1, out ++ s.2)) hout
  · rw [Nat.add_comm b.bfInputOffset]
    rfl

end BeamFront

/-! ## `r2mem_bf` keeps the stream -/

namespace R2MemBf

/-- The driver has gone along with the stream; `earlier` is the output of the calls before. -/
structure Drives {F : Type*} (E : BeamEngine σ F mics) (start : σ) (stream : List (Fin mics → F))
    (m : R2MemBf σ F mics) (earlier : List F) : Prop where
  driven : Driven E start stream m.handed m.engine (earlier ++ m.dataOut.take m.lenOut)
    (fun j ↦ (m.dataIn j).take m.lenInCur) m.lenInCur
  length_eq : ∀ j, (m.dataIn j).length = frameSize
  lenOut_le : m.lenOut ≤ m.dataOut.length

theorem create_drives (E : BeamEngine σ F mics) (start : σ) :
    (create start : R2MemBf σ F mics).Drives E start [] [] where
  driven := driven_nil E start fun _ ↦ rfl
  length_eq := fun _ ↦ List.length_replicate
  lenOut_le := Nat.zero_le _

section Loop

variable {F : Type*} {E : BeamEngine σ F mics} {start : σ} {stream : List (Fin mics → F)}
  {m : R2MemBf σ F mics} {earlier : List F}

/-- A piece joins the pending columns. -/
theorem Drives.fill_rows (h : m.Drives E start stream earlier) {piece : List (Fin mics → F)}
    (hpiece : m.lenInCur + piece.length ≤ frameSize) (j : Fin mics) :
    ((m.fill piece).dataIn j).length = frameSize ∧
      ((m.fill piece).dataIn j).take (m.lenInCur + piece.length) =
        rowsOf (leftover frameSize stream ++ piece) j := by
  have hroom : m.lenInCur + (rowsOf piece j).length ≤ (m.dataIn j).length := by
    rw [length_rowsOf, h.length_eq]
    exact hpiece
  refine ⟨(overwrite_length hroom).trans (h.length_eq j), ?_⟩
  rw [rowsOf_append, ← h.driven.pending_eq, ← length_rowsOf piece j]
  exact (overwrite_append _ hroom rfl).2

theorem Drives.length_pending (h : m.Drives E start stream earlier) (piece : List (Fin mics → F)) :
    (leftover frameSize stream ++ piece).length = m.lenInCur + piece.length := by
  rw [List.length_append, leftover_length, h.driven.held_eq]

/-- A piece that does not fill the frame. -/
theorem Drives.fill_of_short (h : m.Drives E start stream earlier) {piece : List (Fin mics → F)}
    (hpiece : m.lenInCur + piece.length < frameSize) :
    (m.fill piece).Drives E start (stream ++ piece) earlier := by
  have hrows := h.fill_rows hpiece.le
  have hshort : (leftover frameSize stream ++ piece).length < frameSize :=
    (h.length_pending piece).trans_lt hpiece
  refine ⟨h.driven.append ?_ ?_ (fun j ↦ ?_) ?_, fun j ↦ (hrows j).1, h.lenOut_le⟩
  · rw [blocks_of_length_lt hshort, List.map_nil, List.append_nil]
    rfl
  · rw [blocks_of_length_lt hshort]
    rfl
  · rw [leftover_of_length_lt hshort]
    exact (hrows j).2
  · rw [Nat.mod_eq_of_lt hpiece]
    rfl

/-- A piece that fills the frame, which is given to the beam former. -/
theorem Drives.fill_of_full (h : m.Drives E start stream earlier) {piece : List (Fin mics → F)}
    (hpiece : m.lenInCur + piece.length = frameSize) :
    ((m.fill piece).full E).Drives E start (stream ++ piece) earlier := by
  have hrows := h.fill_rows hpiece.le
  have hend : (leftover frameSize stream ++ piece).length = frameSize :=
    (h.length_pending piece).trans hpiece
  have hblock : blocks frameSize (leftover frameSize stream ++ piece) =
      [leftover frameSize stream ++ piece] := blocks_of_length_eq frameSize_pos hend
  have hframe : (m.fill piece).dataIn = rowsOf (leftover frameSize stream ++ piece) := by
    funext j
    rw [← (hrows j).2, hpiece, List.take_of_length_le (hrows j).1.le]
  have hzero : (m.lenInCur + piece.length) % frameSize = 0 := by rw [hpiece, Nat.mod_self]
  have hout : (overwrite m.dataOut m.lenOut
      (outFrame (E.process m.engine (m.fill piece).dataIn).2.1)).take (m.lenOut + frameSize) =
        m.dataOut.take m.lenOut ++ outFrame (E.process m.engine (m.fill piece).dataIn).2.1 := by
    apply take_overwrite h.lenOut_le
    rw [length_outFrame]
  refine ⟨h.driven.append ?_ ?_ (fun j ↦ ?_) hzero.symm, fun j ↦ (hrows j).1, ?_⟩
  · rw [hblock, List.map_singleton, ← hframe]
    rfl
  · rw [hblock, List.map_singleton, ← hframe]
    refine Prod.ext rfl ?_
    calc
      earlier ++ (overwrite m.dataOut m.lenOut
          (outFrame (E.process m.engine (m.fill piece).dataIn).2.1)).take
            (m.lenOut + frameSize) =
          earlier ++ (m.dataOut.take m.lenOut ++
            outFrame (E.process m.engine (m.fill piece).dataIn).2.1) := by rw [hout]
      _ = earlier ++ m.dataOut.take m.lenOut ++
            outFrame (E.process m.engine (m.fill piece).dataIn).2.1 :=
        (List.append_assoc ..).symm
  · rw [leftover_of_length_eq frameSize_pos hend]
    rfl
  · have hle := h.lenOut_le
    change m.lenOut + frameSize ≤ (overwrite m.dataOut m.lenOut (outFrame _)).length
    rw [overwrite, List.length_append, List.length_append, List.length_take, length_outFrame]
    omega

/-- **One round of the loop.** -/
theorem Drives.fill (h : m.Drives E start stream earlier) {piece : List (Fin mics → F)}
    (hpiece : m.lenInCur + piece.length ≤ frameSize) :
    Drives E start (stream ++ piece)
      (if (m.fill piece).lenInCur = frameSize then (m.fill piece).full E else m.fill piece)
      earlier := by
  split_ifs with hfull
  · exact h.fill_of_full hfull
  · exact h.fill_of_short (Nat.lt_of_le_of_ne hpiece hfull)

end Loop

/-- **One call of `r2mem_bf::process`.** -/
theorem Drives.process {E : BeamEngine σ F mics} {start : σ} {stream : List (Fin mics → F)}
    {m : R2MemBf σ F mics} {earlier : List F} (h : m.Drives E start stream earlier)
    (micIds : Fin mics → ℕ) (data : ℕ → ℕ → F) (lenIn : ℕ) :
    (m.process E micIds data lenIn).1.Drives E start (stream ++ columns micIds data lenIn)
      (earlier ++ m.dataOut.take m.lenOut) := by
  have hstart : Drives E start stream { m.reserve lenIn with lenOut := 0 }
      (earlier ++ m.dataOut.take m.lenOut) := by
    have hsame : (m.reserve lenIn).handed = m.handed ∧ (m.reserve lenIn).engine = m.engine ∧
        (m.reserve lenIn).dataIn = m.dataIn ∧ (m.reserve lenIn).lenInCur = m.lenInCur := by
      rw [reserve]
      split_ifs <;> exact ⟨rfl, rfl, rfl, rfl⟩
    obtain ⟨hhanded, hengine, hdata, hcur⟩ := hsame
    refine ⟨?_, fun j ↦ ?_, Nat.zero_le _⟩
    · dsimp only
      rw [hhanded, hengine, hdata, hcur, List.take_zero, List.append_nil]
      exact h.driven
    · dsimp only
      rw [hdata]
      exact h.length_eq j
  refine windowLoop_inv
    (fun l (m' : R2MemBf σ F mics) ↦ m'.Drives E start l (earlier ++ m.dataOut.take m.lenOut))
    (fun l m' hm ↦ ?_) (fun l m' piece hm hpiece ↦ hm.fill hpiece) ?_ hstart
  · rw [hm.driven.held_eq]
    exact Nat.mod_lt _ frameSize_pos
  · rw [columns, List.length_map, List.length_range]

end R2MemBf

/-! ## Both drivers -/

/-- The next call of `beam_forming`, with the output so far. -/
def BeamFront.step (E : BeamEngine σ F mics) (s : BeamFront σ F mics × List F)
    (chunk : List (Fin mics → F)) : BeamFront σ F mics × List F :=
  ((s.1.beamForming E (rowsOf chunk) chunk.length).1,
    s.2 ++ (s.1.beamForming E (rowsOf chunk) chunk.length).2)

/-- The next call of `r2mem_bf::process`, with the output so far. -/
def R2MemBf.step (E : BeamEngine σ F mics) (micIds : Fin mics → ℕ)
    (s : R2MemBf σ F mics × List F) (call : (ℕ → ℕ → F) × ℕ) : R2MemBf σ F mics × List F :=
  ((s.1.process E micIds call.1 call.2).1, s.2 ++ (s.1.process E micIds call.1 call.2).2)

/-- The stream of the selected channels. -/
def streamOf {F : Type*} (micIds : Fin mics → ℕ) (calls : List ((ℕ → ℕ → F) × ℕ)) :
    List (List (Fin mics → F)) :=
  calls.map fun call ↦ R2MemBf.columns micIds call.1 call.2

theorem BeamFront.drives_run (E : BeamEngine σ F mics) (start : σ)
    (chunks : List (List (Fin mics → F))) :
    (run (BeamFront.step E) (BeamFront.create start, []) chunks).1.Drives E start chunks.flatten
      (run (BeamFront.step E) (BeamFront.create start, []) chunks).2 := by
  have h := @run_flatten _ _ (BeamFront.step E)
    (fun stream (s : BeamFront σ F mics × List F) ↦ s.1.Drives E start stream s.2)
    (fun _ _ chunk h ↦ h.beamForming chunk) [] (BeamFront.create start, [])
    (BeamFront.create_drives E start) chunks
  rwa [List.nil_append] at h

theorem R2MemBf.driven_run (E : BeamEngine σ F mics) (micIds : Fin mics → ℕ) (start : σ)
    (calls : List ((ℕ → ℕ → F) × ℕ)) :
    ∃ earlier,
      (run (R2MemBf.step E micIds) (R2MemBf.create start, []) calls).1.Drives E start
        (streamOf micIds calls).flatten earlier ∧
      (run (R2MemBf.step E micIds) (R2MemBf.create start, []) calls).2 = earlier ++
        (run (R2MemBf.step E micIds) (R2MemBf.create start, []) calls).1.dataOut.take
          (run (R2MemBf.step E micIds) (R2MemBf.create start, []) calls).1.lenOut := by
  induction calls using List.reverseRecOn with
  | nil => exact ⟨[], R2MemBf.create_drives E start, rfl⟩
  | append_singleton calls call ih =>
      obtain ⟨earlier, hdrives, hout⟩ := ih
      have hstep := hdrives.process micIds call.1 call.2
      have hstream : (streamOf micIds (calls ++ [call])).flatten =
          (streamOf micIds calls).flatten ++ R2MemBf.columns micIds call.1 call.2 := by
        simp [streamOf]
      rw [run_append, run_cons, run_nil, hstream]
      refine ⟨_, hstep, ?_⟩
      rw [← hout]
      rfl

/-- **The drivers agree.**  For any split of the stream into calls both give the consecutive frames of
it to the beam former, return the same output, and hold the same number of samples back. -/
theorem drivers_agree (E : BeamEngine σ F mics) (micIds : Fin mics → ℕ) (start : σ)
    (calls : List ((ℕ → ℕ → F) × ℕ)) :
    let front := run (BeamFront.step E) (BeamFront.create start, []) (streamOf micIds calls)
    let mem := run (R2MemBf.step E micIds) (R2MemBf.create start, []) calls
    front.1.handed = mem.1.handed ∧
      front.1.handed = (blocks frameSize (streamOf micIds calls).flatten).map rowsOf ∧
      front.2 = mem.2 ∧ front.1.bfInputOffset = mem.1.lenInCur := by
  intro front mem
  have hfront := (BeamFront.drives_run E start (streamOf micIds calls)).driven
  obtain ⟨earlier, hdrives, hout⟩ := R2MemBf.driven_run E micIds start calls
  have hmem := hdrives.driven
  have hhanded : front.1.handed = mem.1.handed := hfront.handed_eq.trans hmem.handed_eq.symm
  refine ⟨hhanded, hfront.handed_eq, ?_, hfront.held_eq.trans hmem.held_eq.symm⟩
  calc
    front.2 = (drive E (start, []) front.1.handed).2 := congrArg Prod.snd hfront.engine_out
    _ = (drive E (start, []) mem.1.handed).2 := by rw [hhanded]
    _ = earlier ++ mem.1.dataOut.take mem.1.lenOut := (congrArg Prod.snd hmem.engine_out).symm
    _ = mem.2 := hout.symm

end Vsys.Audio
