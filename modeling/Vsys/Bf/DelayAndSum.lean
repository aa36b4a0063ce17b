import Vsys.Bf.Beamformer
import Vsys.Trace.Run

/-!
# What the beam former adds up

`R2Beamformer` and `R2FrameDelay` use the filter's output also where there is no filter: the beam
former adds what the buffer `frameBuffer_` still holds, and the frame delay leaves the output frame as
it was.  The streams that are added instead are `stale`; the output is the average of the delayed and
filtered channels exactly if they have the same sum as the channels they stand for.
-/

namespace Vsys.Bf

open Vsys.Stream

variable {F : Type*}

/-! ## Rows -/

/-- What a microphone contributes to the average. -/
def contribution (s : List F × Option (List F)) : List F := s.2.getD s.1

/-- The sums of the samples of some rows. -/
def sumRows [AddCommMonoid F] (length : ℕ) (rows : List (List F)) : List F :=
  (List.range length).map fun n ↦ (rows.map fun samples ↦ samples.getD n 0).sum

/-- The rows that `Process` adds up, from the ones of a microphone and `frameBuffer_` before it. -/
def added : List F → List (List F × Option (List F)) → List (List F)
  | _, [] => []
  | frameBuffer, s :: rest => s.2.getD frameBuffer :: added (s.2.getD frameBuffer) rest

/-- The rows that are added for the microphones without a filter. -/
def stale : List F → List (List F × Option (List F)) → List (List F)
  | _, [] => []
  | frameBuffer, (_, none) :: rest => frameBuffer :: stale frameBuffer rest
  | _, (_, some out) :: rest => stale out rest

/-- The delayed rows of the microphones without a filter. -/
def unfilteredRows : List (List F × Option (List F)) → List (List F)
  | [] => []
  | (delayed, none) :: rest => delayed :: unfilteredRows rest
  | (_, some _) :: rest => unfilteredRows rest

/-- The rows of the microphones with a filter. -/
def filteredRows : List (List F × Option (List F)) → List (List F)
  | [] => []
  | (_, none) :: rest => filteredRows rest
  | (_, some out) :: rest => out :: filteredRows rest

/-- The row of the last microphone with a filter. -/
def lastFiltered : List (List F × Option (List F)) → Option (List F)
  | [] => none
  | s :: rest => (lastFiltered rest).or s.2

/-- What `frameBuffer_` holds before each of `count` frames and after them: the last filtered row of
the frame before, and at first what the memory held. -/
def buffers (memory : List F) (count : ℕ) (rows : List (List F × Option (List F))) : List F :=
  match lastFiltered rows with
  | some out => memory ++ out
  | none => (List.replicate (count + 1) memory).flatten

/-- What `frameBuffer_` holds after the microphones. -/
def lastBuffer (frameBuffer : List F) (rows : List (List F × Option (List F))) : List F :=
  rows.foldl (fun frameBuffer s ↦ s.2.getD frameBuffer) frameBuffer

/-- Rows one frame longer. -/
def extend (rows frame : List (List F × Option (List F))) : List (List F × Option (List F)) :=
  List.zipWith (fun s t ↦ (s.1 ++ t.1, Option.map₂ (· ++ ·) s.2 t.2)) rows frame

/-! ## A frame of all microphones -/

/-- A microphone whose rows so far make up `stream`. -/
structure Mic.Holds [CommSemiring F] (mic : Mic F) (frameSize : ℕ) (lead : Lead F)
    (stream : List F) : Prop where
  line : mic.integralDelay.Holds frameSize lead.delay stream
  unfiltered : lead.coeffs = none → mic.fractionalDelay = none
  filtered : ∀ c, lead.coeffs = some c → 0 < c.length ∧
    ∃ f, mic.fractionalDelay = some f ∧ f.Holds c (held lead.delay stream)

/-- The microphones from number `i` on. -/
def MicsHold [CommSemiring F] (frameSize : ℕ) (frames : List (ℕ → F)) :
    ℕ → List (Mic F) → List (Lead F) → Prop
  | _, [], [] => True
  | i, mic :: mics, lead :: leads =>
      mic.Holds frameSize lead (channel frameSize frames i) ∧
        MicsHold frameSize frames (i + 1) mics leads
  | _, _, _ => False

@[simp]
theorem length_row (frameSize : ℕ) (pInFrames : ℕ → F) (i : ℕ) :
    (row frameSize pInFrames i).length = frameSize := by
  rw [row, List.length_map, List.length_range]

theorem channel_concat (frameSize : ℕ) (frames : List (ℕ → F)) (pInFrames : ℕ → F) (i : ℕ) :
    channel frameSize (frames ++ [pInFrames]) i =
      channel frameSize frames i ++ row frameSize pInFrames i := by
  rw [channel, List.flatMap_append, List.flatMap_singleton, channel]

@[simp]
theorem length_channel (frameSize : ℕ) (frames : List (ℕ → F)) (i : ℕ) :
    (channel frameSize frames i).length = frameSize * frames.length := by
  induction frames using List.reverseRecOn with
  | nil => rfl
  | append_singleton frames pInFrames ih =>
      rw [channel_concat, List.length_append, ih, length_row, List.length_append,
        List.length_singleton, Nat.mul_succ]

/-- One row: the frames of the delayed stream and of the filtered one. -/
theorem Mic.Holds.process [CommSemiring F] {mic : Mic F} {frameSize : ℕ} {lead : Lead F}
    {stream frame : List F} (h : mic.Holds frameSize lead stream)
    (hframe : frame.length = frameSize) :
    lead.streams (stream ++ frame) =
        ((lead.streams stream).1 ++ (mic.process frame).2.1,
          Option.map₂ (· ++ ·) (lead.streams stream).2 (mic.process frame).2.2) ∧
      (mic.process frame).1.Holds frameSize lead (stream ++ frame) ∧
      (mic.process frame).2.1.length = frameSize ∧
      (mic.process frame).2.2.isSome = lead.coeffs.isSome ∧
      ∀ out ∈ (mic.process frame).2.2, out.length = frameSize := by
  obtain ⟨hout, hline⟩ := h.line.processFrame hframe
  have hlength : (mic.process frame).2.1.length = frameSize := by
    show (mic.integralDelay.processFrame frame).2.length = _
    rw [hout, List.length_take, List.length_append]
    omega
  have hheld : held lead.delay (stream ++ frame) =
      held lead.delay stream ++ (mic.process frame).2.1 := by
    rw [held_append, ← hout]
    rfl
  cases hcoeffs : lead.coeffs with
  | none =>
      have hnone := h.unfiltered hcoeffs
      have hfiltered : (mic.process frame).2.2 = none := by
        simp only [Mic.process, hnone, Option.map_none]
      have hnext : (mic.process frame).1.fractionalDelay = none := by
        simp only [Mic.process, hnone, Option.map_none]
      rw [hfiltered]
      refine ⟨?_, ⟨hline, fun _ ↦ hnext, fun c hc ↦ ?_⟩, hlength, rfl, nofun⟩
      · rw [Lead.streams, Lead.streams, hheld, hcoeffs]
        rfl
      · rw [hcoeffs] at hc
        exact absurd hc (Option.some_ne_none c).symm
  | some c =>
      obtain ⟨hpos, f, hf, hfir⟩ := h.filtered c hcoeffs
      obtain ⟨hconv, hnext⟩ := hfir.filter hpos (mic.process frame).2.1
      have hfiltered : (mic.process frame).2.2 = some (f.filter (mic.process frame).2.1).2 := by
        simp only [Mic.process, hf, Option.map_some]
      have hfilter : (mic.process frame).1.fractionalDelay =
          some (f.filter (mic.process frame).2.1).1 := by
        simp only [Mic.process, hf, Option.map_some]
      rw [hfiltered]
      refine ⟨?_, ⟨hline, fun hc ↦ ?_, fun c' hc ↦ ?_⟩, hlength, rfl, ?_⟩
      · rw [Lead.streams, Lead.streams, hheld, hcoeffs, Option.map_some, hconv]
        rfl
      · rw [hcoeffs] at hc
        exact absurd hc (Option.some_ne_none c)
      · rw [hcoeffs, Option.some_inj] at hc
        subst hc
        rw [← hheld] at hnext
        exact ⟨hpos, _, hfilter, hnext⟩
      · rintro out ⟨⟩
        show ((List.range (mic.process frame).2.1.length).map _).length = _
        rw [List.length_map, List.length_range, hlength]

@[simp]
theorem length_sumRows [AddCommMonoid F] (length : ℕ) (rows : List (List F)) :
    (sumRows length rows).length = length := by
  rw [sumRows, List.length_map, List.length_range]

/-- The loop that adds a row to the output frame. -/
theorem zipWith_sumRows [AddCommMonoid F] {length : ℕ} {out samples : List F}
    (hout : out.length = length) (hsamples : samples.length = length) (rest : List (List F)) :
    List.zipWith (· + ·) (List.zipWith (· + ·) out samples) (sumRows length rest) =
      List.zipWith (· + ·) out (sumRows length (samples :: rest)) := by
  apply List.ext_getElem
  · simp [hout, hsamples]
  · intro n hn hn'
    have hlt : n < length := by simpa [hout, hsamples] using hn
    simp only [sumRows, List.getElem_zipWith, List.getElem_map, List.getElem_range, List.map_cons,
      List.sum_cons, List.getD_eq_getElem _ _ (hsamples ▸ hlt), add_assoc]

/-- The rows of one frame, as `Process` finds them. -/
structure FrameRows (frameSize : ℕ) (leads : List (Lead F))
    (rows : List (List F × Option (List F))) : Prop where
  length : ∀ s ∈ rows, s.1.length = frameSize ∧ ∀ out ∈ s.2, out.length = frameSize
  isSome : rows.map (fun s ↦ s.2.isSome) = leads.map fun lead ↦ lead.coeffs.isSome

/-- The loop of `Process`: the rows of the microphones are one frame longer, and what the buffer
holds after each of them is added. -/
theorem processMics_spec [CommSemiring F] {frameSize : ℕ} {frames : List (ℕ → F)}
    (pInFrames : ℕ → F) {i : ℕ} {mics : List (Mic F)} {leads : List (Lead F)}
    (h : MicsHold frameSize frames i mics leads) {frameBuffer out : List F}
    (hbuffer : frameBuffer.length = frameSize) (hout : out.length = frameSize) :
    ∃ rows, FrameRows frameSize leads rows ∧
      streamsFrom frameSize (frames ++ [pInFrames]) i leads =
        extend (streamsFrom frameSize frames i leads) rows ∧
      MicsHold frameSize (frames ++ [pInFrames]) i
        (processMics frameSize pInFrames i mics frameBuffer out).1 leads ∧
      (processMics frameSize pInFrames i mics frameBuffer out).2.1 = lastBuffer frameBuffer rows ∧
      (processMics frameSize pInFrames i mics frameBuffer out).2.2 =
        List.zipWith (· + ·) out (sumRows frameSize (added frameBuffer rows)) := by
  induction mics generalizing i leads frameBuffer out with
  | nil =>
      cases leads with
      | nil =>
          refine ⟨[], ⟨nofun, rfl⟩, rfl, trivial, rfl, ?_⟩
          apply List.ext_getElem
          · simp [processMics, hout]
          · intro n hn hn'
            simp [processMics, sumRows, added]
      | cons lead leads => exact absurd h id
  | cons mic mics ih =>
      cases leads with
      | nil => exact absurd h id
      | cons lead leads =>
          obtain ⟨hmic, hmics⟩ := h
          obtain ⟨hstreams, hnext, hlength, hisSome, hfiltered⟩ :=
            hmic.process (length_row frameSize pInFrames i)
          set result := mic.process (row frameSize pInFrames i)
          have hbuffer' : (result.2.2.getD frameBuffer).length = frameSize := by
            cases hfilter : result.2.2 with
            | none => exact hbuffer
            | some out => exact hfiltered out hfilter
          have hout' : (List.zipWith (· + ·) out (result.2.2.getD frameBuffer)).length =
              frameSize := by
            rw [List.length_zipWith, hout, hbuffer', Nat.min_self]
          obtain ⟨rows, hrows, hextend, hhold, hlast, hsum⟩ := ih hmics hbuffer' hout'
          refine ⟨result.2 :: rows, ⟨?_, ?_⟩, ?_, ⟨?_, hhold⟩, hlast, ?_⟩
          · rintro s hs
            rcases List.mem_cons.mp hs with rfl | hs
            · exact ⟨hlength, hfiltered⟩
            · exact hrows.length s hs
          · rw [List.map_cons, List.map_cons, hrows.isSome, hisSome]
          · rw [streamsFrom, channel_concat, hstreams, hextend]
            rfl
          · rw [channel_concat]
            exact hnext
          · show (processMics frameSize pInFrames (i + 1) mics _ _).2.2 = _
            rw [hsum, zipWith_sumRows hout hbuffer']
            rfl

/-! ## Rows that grow by a frame -/

section Rows

variable {rows frame : List (List F × Option (List F))} {buffer memory : List F}

theorem lastBuffer_eq (buffer : List F) (rows : List (List F × Option (List F))) :
    lastBuffer buffer rows = (lastFiltered rows).getD buffer := by
  induction rows generalizing buffer with
  | nil => rfl
  | cons s rows ih =>
      calc
        lastBuffer buffer (s :: rows) = (lastFiltered rows).getD (s.2.getD buffer) := ih _
        _ = ((lastFiltered rows).or s.2).getD buffer := by cases lastFiltered rows <;> rfl

/-- Rows with filters at the same places. -/
def SameFilters (rows frame : List (List F × Option (List F))) : Prop :=
  rows.map (fun s ↦ s.2.isSome) = frame.map fun s ↦ s.2.isSome

theorem lastFiltered_extend (h : SameFilters rows frame) :
    lastFiltered (extend rows frame) =
      Option.map₂ (· ++ ·) (lastFiltered rows) (lastFiltered frame) ∧
      (lastFiltered rows).isSome = (lastFiltered frame).isSome := by
  induction rows generalizing frame with
  | nil =>
      cases frame with
      | nil => exact ⟨rfl, rfl⟩
      | cons t frame => exact absurd h (by simp [SameFilters])
  | cons s rows ih =>
      cases frame with
      | nil => exact absurd h (by simp [SameFilters])
      | cons t frame =>
          obtain ⟨hhead, htail⟩ := List.cons_eq_cons.mp h
          obtain ⟨hextend, hisSome⟩ := ih htail
          show (lastFiltered (extend rows frame)).or (Option.map₂ (· ++ ·) s.2 t.2) = _ ∧
            ((lastFiltered rows).or s.2).isSome = ((lastFiltered frame).or t.2).isSome
          rw [hextend, lastFiltered, lastFiltered]
          generalize lastFiltered rows = last at hisSome ⊢
          generalize lastFiltered frame = next at hisSome ⊢
          cases last with
          | none =>
              cases next with
              | none => exact ⟨rfl, hhead⟩
              | some out => exact absurd hisSome Bool.false_ne_true
          | some out =>
              cases next with
              | none => exact absurd hisSome.symm Bool.false_ne_true
              | some out' => exact ⟨rfl, rfl⟩

theorem getD_append_of_isSome {left right : Option (List F)} (h : left.isSome = right.isSome)
    (buffer later : List F) :
    (Option.map₂ (· ++ ·) left right).getD (buffer ++ later) =
      left.getD buffer ++ right.getD later := by
  cases left with
  | none =>
      cases right with
      | none => rfl
      | some out => exact absurd h Bool.false_ne_true
  | some out =>
      cases right with
      | none => exact absurd h.symm Bool.false_ne_true
      | some out' => rfl

/-- The rows that are added, one frame longer. -/
theorem added_extend (h : SameFilters rows frame) (buffer later : List F) :
    added (buffer ++ later) (extend rows frame) =
      List.zipWith (· ++ ·) (added buffer rows) (added later frame) := by
  induction rows generalizing frame buffer later with
  | nil => rfl
  | cons s rows ih =>
      cases frame with
      | nil => exact absurd h (by simp [SameFilters])
      | cons t frame =>
          obtain ⟨hhead, htail⟩ := List.cons_eq_cons.mp h
          show (Option.map₂ (· ++ ·) s.2 t.2).getD (buffer ++ later) ::
            added ((Option.map₂ (· ++ ·) s.2 t.2).getD (buffer ++ later)) (extend rows frame) = _
          rw [getD_append_of_isSome hhead, ih htail]
          rfl

theorem length_of_mem_added {length : ℕ} (hbuffer : buffer.length = length)
    (hrows : ∀ s ∈ rows, ∀ out ∈ s.2, out.length = length) :
    ∀ samples ∈ added buffer rows, samples.length = length := by
  induction rows generalizing buffer with
  | nil => exact nofun
  | cons s rows ih =>
      have hnext : (s.2.getD buffer).length = length := by
        cases hs : s.2 with
        | none => exact hbuffer
        | some out => exact hrows s List.mem_cons_self out hs
      rintro samples hsamples
      rcases List.mem_cons.mp hsamples with rfl | hlater
      · exact hnext
      · exact ih hnext (fun t ht ↦ hrows t (List.mem_cons_of_mem s ht)) samples hlater

theorem length_lastBuffer {length : ℕ} (hbuffer : buffer.length = length)
    (hrows : ∀ s ∈ rows, ∀ out ∈ s.2, out.length = length) :
    (lastBuffer buffer rows).length = length := by
  induction rows generalizing buffer with
  | nil => exact hbuffer
  | cons s rows ih =>
      have hnext : (s.2.getD buffer).length = length := by
        cases hs : s.2 with
        | none => exact hbuffer
        | some out => exact hrows s List.mem_cons_self out hs
      exact ih hnext fun t ht ↦ hrows t (List.mem_cons_of_mem s ht)

theorem length_added (buffer : List F) (rows : List (List F × Option (List F))) :
    (added buffer rows).length = rows.length := by
  induction rows generalizing buffer with
  | nil => rfl
  | cons s rows ih => rw [added, List.length_cons, ih, List.length_cons]

/-- The sums of rows that are one frame longer. -/
theorem sumRows_append [AddCommMonoid F] {length : ℕ} (count : ℕ) {first later : List (List F)}
    (hfirst : ∀ samples ∈ first, samples.length = length)
    (hlength : first.length = later.length) :
    sumRows (length + count) (List.zipWith (· ++ ·) first later) =
      sumRows length first ++ sumRows count later := by
  have hentry : ∀ n, ((List.zipWith (· ++ ·) first later).map fun samples ↦ samples.getD n 0).sum =
      if n < length then (first.map fun samples ↦ samples.getD n 0).sum
      else (later.map fun samples ↦ samples.getD (n - length) 0).sum := by
    intro n
    induction first generalizing later with
    | nil =>
        cases later with
        | nil => simp
        | cons samples later => exact absurd hlength (by simp)
    | cons samples first ih =>
        cases later with
        | nil => exact absurd hlength (by simp)
        | cons samples' later =>
            have hhead := hfirst samples List.mem_cons_self
            have htail := ih (fun t ht ↦ hfirst t (List.mem_cons_of_mem _ ht))
              (Nat.succ.inj hlength)
            rw [List.zipWith_cons_cons, List.map_cons, List.sum_cons, htail, List.map_cons,
              List.sum_cons, List.map_cons, List.sum_cons]
            split_ifs with hn
            · rw [List.getD_append _ _ _ _ (hhead ▸ hn)]
            · rw [List.getD_append_right _ _ _ _ (by omega), hhead]
  rw [sumRows, List.range_add, List.map_append, List.map_map]
  congr 1
  · apply List.map_congr_left
    intro n hn
    rw [hentry, if_pos (List.mem_range.mp hn)]
  · apply List.map_congr_left
    intro n _
    rw [Function.comp_apply, hentry, if_neg (by omega), Nat.add_sub_cancel_left]

/-- The last filtered row is the one of a microphone. -/
theorem exists_of_lastFiltered {out : List F} (h : lastFiltered rows = some out) :
    ∃ s ∈ rows, s.2 = some out := by
  induction rows with
  | nil => exact absurd h (Option.some_ne_none out).symm
  | cons s rows ih =>
      rcases Option.or_eq_some_iff.mp h with hlater | ⟨-, hhead⟩
      · obtain ⟨t, ht, hout⟩ := ih hlater
        exact ⟨t, List.mem_cons_of_mem s ht, hout⟩
      · exact ⟨s, List.mem_cons_self, hhead⟩

theorem length_buffers {memory : List F} {frameSize : ℕ} (hmemory : memory.length = frameSize)
    {count : ℕ} {rows : List (List F × Option (List F))}
    (hrows : ∀ s ∈ rows, ∀ out ∈ s.2, out.length = frameSize * count) :
    (buffers memory count rows).length = frameSize * (count + 1) := by
  unfold buffers
  cases hfiltered : lastFiltered rows with
  | none =>
      show (List.replicate (count + 1) memory).flatten.length = _
      rw [List.length_flatten, List.map_replicate, List.sum_replicate_nat, hmemory, Nat.mul_comm]
  | some out =>
      show (memory ++ out).length = _
      obtain ⟨s, hs, hout⟩ := exists_of_lastFiltered hfiltered
      rw [List.length_append, hmemory, hrows s hs out hout, Nat.mul_succ, Nat.add_comm]

/-- The buffer before one more frame. -/
theorem buffers_extend {length count : ℕ} (h : SameFilters rows frame)
    (hmemory : memory.length = length) :
    buffers memory (count + 1) (extend rows frame) =
      buffers memory count rows ++
        lastBuffer ((buffers memory count rows).drop (length * count)) frame := by
  obtain ⟨hextend, hisSome⟩ := lastFiltered_extend h
  rw [lastBuffer_eq]
  unfold buffers
  rw [hextend]
  generalize lastFiltered rows = last at hisSome ⊢
  generalize lastFiltered frame = next at hisSome ⊢
  cases last with
  | none =>
      cases next with
      | some out => exact absurd hisSome Bool.false_ne_true
      | none =>
          have hlength : (List.replicate count memory).flatten.length = length * count := by
            rw [List.length_flatten, List.map_replicate, List.sum_replicate_nat, hmemory,
              Nat.mul_comm]
          have hsplit : ∀ n, (List.replicate (n + 1) memory).flatten =
              (List.replicate n memory).flatten ++ memory := by
            intro n
            rw [List.replicate_succ', List.flatten_append, List.flatten_singleton]
          show (List.replicate (count + 1 + 1) memory).flatten = _ ++ List.drop _ _
          rw [hsplit (count + 1)]
          congr 1
          rw [hsplit count, List.drop_left' hlength]
  | some out =>
      cases next with
      | none => exact absurd hisSome.symm Bool.false_ne_true
      | some out' => exact (List.append_assoc ..).symm

/-! ## What is added instead -/

theorem sum_added [AddCommMonoid F] (n : ℕ) (buffer : List F)
    (rows : List (List F × Option (List F))) :
    ((added buffer rows).map fun samples ↦ samples.getD n 0).sum =
      ((filteredRows rows).map fun samples ↦ samples.getD n 0).sum +
        ((stale buffer rows).map fun samples ↦ samples.getD n 0).sum := by
  induction rows generalizing buffer with
  | nil => simp [added, filteredRows, stale]
  | cons s rows ih =>
      obtain ⟨delayed, filtered⟩ := s
      cases filtered with
      | none =>
          rw [added, Option.getD_none, List.map_cons, List.sum_cons, ih, filteredRows, stale,
            List.map_cons, List.sum_cons, add_left_comm]
      | some out =>
          rw [added, Option.getD_some, List.map_cons, List.sum_cons, ih, filteredRows, stale,
            List.map_cons, List.sum_cons, add_assoc]

theorem sum_contribution [AddCommMonoid F] (n : ℕ) (rows : List (List F × Option (List F))) :
    ((rows.map contribution).map fun samples ↦ samples.getD n 0).sum =
      ((filteredRows rows).map fun samples ↦ samples.getD n 0).sum +
        ((unfilteredRows rows).map fun samples ↦ samples.getD n 0).sum := by
  induction rows with
  | nil => simp [filteredRows, unfilteredRows]
  | cons s rows ih =>
      obtain ⟨delayed, filtered⟩ := s
      rw [List.map_cons, List.map_cons, List.sum_cons, ih]
      cases filtered with
      | none =>
          rw [filteredRows, unfilteredRows, List.map_cons, List.sum_cons, add_left_comm]
          rfl
      | some out =>
          rw [filteredRows, unfilteredRows, List.map_cons, List.sum_cons, add_assoc]
          rfl

/-- What is added differs from what should be in the rows without a filter only. -/
theorem sumRows_added_iff [AddCommGroup F] (length : ℕ) (buffer : List F)
    (rows : List (List F × Option (List F))) :
    sumRows length (added buffer rows) = sumRows length (rows.map contribution) ↔
      sumRows length (stale buffer rows) = sumRows length (unfilteredRows rows) := by
  simp only [sumRows, List.map_inj_left, sum_added, sum_contribution, add_right_inj]

end Rows

/-! ## Runs -/

section Runs

variable [Field F]

/-- The beam former after some frames. -/
structure Holds (b : R2Beamformer F) (frameSize : ℕ) (leads : List (Lead F)) (memory : List F)
    (frames : List (ℕ → F)) : Prop where
  frameSize_eq : b.frameSize_ = frameSize
  length_mics : b.mics.length = leads.length
  mics : MicsHold frameSize frames 0 b.mics leads
  frameBuffer : b.frameBuffer_ = (buffers memory frames.length
    (streamsFrom frameSize frames 0 leads)).drop (frameSize * frames.length)
  length_frameBuffer : b.frameBuffer_.length = frameSize

/-- The average of the microphones' rows. -/
def average (count length : ℕ) (rows : List (List F)) : List F :=
  (sumRows length rows).map fun sample ↦ sample / count

/-- The streams that are added up. -/
def addedStreams (frameSize : ℕ) (leads : List (Lead F)) (memory : List F)
    (frames : List (ℕ → F)) : List (List F) :=
  let streams := streamsFrom frameSize frames 0 leads
  added ((buffers memory frames.length streams).take (frameSize * frames.length)) streams

theorem length_processMics (frameSize : ℕ) (pInFrames : ℕ → F) (i : ℕ) (mics : List (Mic F))
    (frameBuffer out : List F) :
    (processMics frameSize pInFrames i mics frameBuffer out).1.length = mics.length := by
  induction mics generalizing i frameBuffer out with
  | nil => rfl
  | cons mic mics ih => exact congrArg Nat.succ (ih _ _ _)

theorem map_isSome_streamsFrom (frameSize : ℕ) (frames : List (ℕ → F)) (i : ℕ)
    (leads : List (Lead F)) :
    (streamsFrom frameSize frames i leads).map (fun s ↦ s.2.isSome) =
      leads.map fun lead ↦ lead.coeffs.isSome := by
  induction leads generalizing i with
  | nil => rfl
  | cons lead leads ih =>
      rw [streamsFrom, List.map_cons, List.map_cons, ih, Lead.streams, Option.isSome_map]

theorem length_of_mem_streamsFrom {frameSize : ℕ} {frames : List (ℕ → F)} {i : ℕ}
    {leads : List (Lead F)} :
    ∀ s ∈ streamsFrom frameSize frames i leads, ∀ out ∈ s.2,
      out.length = frameSize * frames.length := by
  induction leads generalizing i with
  | nil => exact nofun
  | cons lead leads ih =>
      intro s hs out hout
      rcases List.mem_cons.mp hs with rfl | hlater
      · obtain ⟨c, -, rfl⟩ := Option.map_eq_some_iff.mp hout
        rw [length_convolved, length_held, length_channel]
      · exact ih s hlater out hout

/-- One frame: the next samples of the average of what is added. -/
theorem Holds.process {b : R2Beamformer F} {frameSize : ℕ} {leads : List (Lead F)}
    {memory : List F} {frames : List (ℕ → F)} (h : Holds b frameSize leads memory frames)
    (hmemory : memory.length = frameSize) (pInFrames : ℕ → F) :
    Holds (b.process pInFrames).1 frameSize leads memory (frames ++ [pInFrames]) ∧
      average leads.length (frameSize * (frames ++ [pInFrames]).length)
          (addedStreams frameSize leads memory (frames ++ [pInFrames])) =
        average leads.length (frameSize * frames.length)
          (addedStreams frameSize leads memory frames) ++ (b.process pInFrames).2 := by
  obtain ⟨hsize, hcount, hmics, hbuffer, hbufferlen⟩ := h
  subst hsize
  set frameSize := b.frameSize_
  set streams := streamsFrom frameSize frames 0 leads with hstreams
  obtain ⟨rows, hrows, hextend, hnext, hlast, hsum⟩ := processMics_spec pInFrames hmics hbufferlen
    (List.length_replicate (n := frameSize) (a := (0 : F)))
  have hsame : SameFilters streams rows := (map_isSome_streamsFrom ..).trans hrows.isSome.symm
  have hlength : (frames ++ [pInFrames]).length = frames.length + 1 := by
    rw [List.length_append, List.length_singleton]
  have hstreamlen : ∀ s ∈ streams, ∀ out ∈ s.2, out.length = frameSize * frames.length :=
    length_of_mem_streamsFrom
  set old := buffers memory frames.length streams with hold
  have holdlen : old.length = frameSize * (frames.length + 1) := length_buffers hmemory hstreamlen
  have hbuffers : buffers memory (frames.length + 1) (extend streams rows) =
      old ++ lastBuffer b.frameBuffer_ rows := by
    rw [buffers_extend hsame hmemory, hbuffer]
  have hfirstlen : (old.take (frameSize * frames.length)).length = frameSize * frames.length :=
    List.length_take_of_le (by rw [holdlen]; exact Nat.mul_le_mul_left _ (Nat.le_succ _))
  have hadded : addedStreams frameSize leads memory (frames ++ [pInFrames]) =
      List.zipWith (· ++ ·) (addedStreams frameSize leads memory frames)
        (added b.frameBuffer_ rows) := by
    rw [addedStreams, hlength, hextend, hbuffers, List.take_left' holdlen, addedStreams, ← hstreams,
      ← hold, ← added_extend hsame, hbuffer, List.take_append_drop]
  have hout : (b.process pInFrames).2 =
      average leads.length frameSize (added b.frameBuffer_ rows) := by
    have hzero : List.zipWith (· + ·) (List.replicate frameSize (0 : F))
        (sumRows frameSize (added b.frameBuffer_ rows)) =
          sumRows frameSize (added b.frameBuffer_ rows) := by
      apply List.ext_getElem
      · simp
      · intro n hn hn'
        simp
    show ((processMics frameSize pInFrames 0 b.mics b.frameBuffer_ _).2.2.map fun sample ↦
      sample / (b.mics.length : F)) = _
    rw [hsum, hzero, hcount, average]
  constructor
  · refine ⟨rfl, (length_processMics ..).trans hcount, hnext, ?_, ?_⟩
    · show (processMics frameSize pInFrames 0 b.mics b.frameBuffer_ _).2.1 = _
      rw [hlast, hlength, hextend, hbuffers, List.drop_left' holdlen]
    · show (processMics frameSize pInFrames 0 b.mics b.frameBuffer_ _).2.1.length = _
      rw [hlast]
      exact length_lastBuffer hbufferlen fun s hs ↦ (hrows.length s hs).2
  · have hrowslen : ∀ samples ∈ addedStreams frameSize leads memory frames,
        samples.length = frameSize * frames.length :=
      length_of_mem_added hfirstlen hstreamlen
    have hsamelen : (addedStreams frameSize leads memory frames).length =
        (added b.frameBuffer_ rows).length := by
      rw [addedStreams, length_added, length_added]
      simpa using congrArg List.length hsame
    rw [hout, hadded, hlength, Nat.mul_succ, average, sumRows_append frameSize hrowslen hsamelen,
      List.map_append, average, average]

/-- The output of a run is the average of what is added. -/
theorem Holds.outputs {b : R2Beamformer F} {frameSize : ℕ} {leads : List (Lead F)}
    {memory : List F} (h : Holds b frameSize leads memory []) (hmemory : memory.length = frameSize)
    (frames : List (ℕ → F)) :
    Holds (Trace.run (fun b p ↦ (R2Beamformer.process b p).1) b frames) frameSize leads memory
        frames ∧
      Trace.outputs (fun b p ↦ (R2Beamformer.process b p).1)
          (fun b p ↦ (R2Beamformer.process b p).2) b frames =
        average leads.length (frameSize * frames.length)
          (addedStreams frameSize leads memory frames) := by
  induction frames using List.reverseRecOn with
  | nil => exact ⟨h, by simp [average, sumRows]⟩
  | append_singleton frames pInFrames ih =>
      obtain ⟨hold, hout⟩ := ih
      obtain ⟨hnext, hstep⟩ := hold.process hmemory pInFrames
      rw [Trace.outputs_concat, Trace.run_append, hout, hstep]
      exact ⟨hnext, rfl⟩

variable [LinearOrder F] [IsStrictOrderedRing F] [FloorRing F]

/-- The lead of an aligned delay. -/
def leadOf (sinc : F → Fin kSincFilterLength → F) (delay : F) : Lead F :=
  ⟨⌊delay⌋.toNat, fractionalFilter sinc delay⟩

omit [LinearOrder F] [IsStrictOrderedRing F] [FloorRing F] in
/-- A new filter behind a new delay line has heard nothing. -/
theorem Mic.holds_create {line : FrameDelayer F} {frameSize : ℕ} (lead : Lead F)
    (hline : line.Holds frameSize lead.delay [])
    (hpos : ∀ c, lead.coeffs = some c → 0 < c.length) :
    (⟨line, lead.coeffs.map FIRFilter.create⟩ : Mic F).Holds frameSize lead [] := by
  refine ⟨hline, fun hnone ↦ ?_, fun c hc ↦ ⟨hpos c hc, FIRFilter.create c, ?_, ?_⟩⟩
  · rw [hnone]
    rfl
  · rw [hc]
    rfl
  · have hnil : held lead.delay ([] : List F) = [] := by simp [held]
    rw [hnil]
    exact FIRFilter.holds_create c

omit [IsStrictOrderedRing F] in
/-- `Init` gives microphones that have heard nothing. -/
theorem micsHold_create (sinc : F → Fin kSincFilterLength → F) {frameSize : ℕ} {delays : List F}
    (hfit : ∀ delay ∈ delays, ⌊delay⌋ ≤ frameSize) (i : ℕ) :
    MicsHold frameSize [] i (delays.map (Mic.create sinc frameSize))
      (delays.map (leadOf sinc)) := by
  induction delays generalizing i with
  | nil => trivial
  | cons delay delays ih =>
      refine ⟨Mic.holds_create (leadOf sinc delay) ?_ ?_,
        ih (fun d hd ↦ hfit d (List.mem_cons_of_mem delay hd)) (i + 1)⟩
      · have hle := hfit delay List.mem_cons_self
        split_ifs with hpos
        · exact (FrameDelayer.holds_init (by omega)).2
        · rw [show (leadOf sinc delay).delay = 0 from Int.toNat_eq_zero.mpr (not_lt.mp hpos)]
          exact FrameDelayer.holds_new frameSize
      · intro c hc
        simp only [leadOf, fractionalFilter] at hc
        split_ifs at hc
        rw [← Option.some.inj hc, List.length_ofFn]
        exact Nat.succ_pos 10

omit [IsStrictOrderedRing F] in
theorem holds_init (sinc : F → Fin kSincFilterLength → F) {frameSize : ℕ} {delays memory : List F}
    (hfit : ∀ delay ∈ aligned delays, ⌊delay⌋ ≤ frameSize) (hmemory : memory.length = frameSize) :
    Holds (R2Beamformer.init sinc frameSize delays memory) frameSize
      ((aligned delays).map (leadOf sinc)) memory [] := by
  refine ⟨rfl, by simp [R2Beamformer.init], micsHold_create sinc hfit 0, ?_, hmemory⟩
  show memory = (buffers memory 0 _).drop (frameSize * 0)
  rw [Nat.mul_zero, List.drop_zero]
  unfold buffers
  split
  case h_1 out hfiltered =>
      obtain ⟨s, hs, hout⟩ := exists_of_lastFiltered hfiltered
      have hlength := length_of_mem_streamsFrom s hs out hout
      rw [List.length_nil, Nat.mul_zero] at hlength
      rw [List.length_eq_zero_iff.mp hlength, List.append_nil]
  case h_2 => exact (List.append_nil memory).symm

/-- The streams of the microphones in some frames. -/
def micStreams (sinc : F → Fin kSincFilterLength → F) (frameSize : ℕ) (delays : List F)
    (frames : List (ℕ → F)) : List (List F × Option (List F)) :=
  streamsFrom frameSize frames 0 ((aligned delays).map (leadOf sinc))

/-- The beam former's output over some frames. -/
def beamOutput (sinc : F → Fin kSincFilterLength → F) (frameSize : ℕ) (delays memory : List F)
    (frames : List (ℕ → F)) : List F :=
  Trace.outputs (fun b p ↦ (R2Beamformer.process b p).1) (fun b p ↦ (R2Beamformer.process b p).2)
    (R2Beamformer.init sinc frameSize delays memory) frames

omit [IsStrictOrderedRing F] [FloorRing F] in
theorem length_aligned (delays : List F) : (aligned delays).length = delays.length := by
  rw [aligned, List.length_map]

omit [IsStrictOrderedRing F] in
/-- The output is the average of the channels exactly if the rows added without a filter have the
right sums. -/
theorem beamOutput_iff (sinc : F → Fin kSincFilterLength → F) {frameSize : ℕ}
    {delays memory : List F} (hmics : delays ≠ [])
    (hfit : ∀ delay ∈ aligned delays, ⌊delay⌋ ≤ frameSize) (hmemory : memory.length = frameSize)
    (frames : List (ℕ → F)) :
    beamOutput sinc frameSize delays memory frames =
        average delays.length (frameSize * frames.length)
          ((micStreams sinc frameSize delays frames).map contribution) ↔
      sumRows (frameSize * frames.length)
          (stale ((buffers memory frames.length (micStreams sinc frameSize delays frames)).take
            (frameSize * frames.length)) (micStreams sinc frameSize delays frames)) =
        sumRows (frameSize * frames.length)
          (unfilteredRows (micStreams sinc frameSize delays frames)) := by
  have hcount : (delays.length : F) ≠ 0 :=
    Nat.cast_ne_zero.mpr (List.length_pos_iff.mpr hmics).ne'
  have hinj : Function.Injective fun sample : F ↦ sample / (delays.length : F) :=
    fun _ _ h ↦ (div_left_inj' hcount).mp h
  rw [beamOutput, ((holds_init sinc hfit hmemory).outputs hmemory frames).2, List.length_map,
    length_aligned, average, average, (List.map_injective_iff.mpr hinj).eq_iff]
  exact sumRows_added_iff _ _ _

/-! ## One channel -/

/-- A call of `Process`: the frame, and what the output frame holds before. -/
def R2FrameDelay.call (frameSize : ℕ) (d : R2FrameDelay F) (frames : (ℕ → F) × (ℕ → F)) :
    R2FrameDelay F × List F :=
  d.process (row frameSize frames.1 0) (row frameSize frames.2 0)

/-- The frame delay's output over some calls. -/
def delayOutput (sinc : F → Fin kSincFilterLength → F) (frameSize : ℕ) (delay : F)
    (calls : List ((ℕ → F) × (ℕ → F))) : Option (List F) :=
  (R2FrameDelay.init sinc frameSize delay).map fun d ↦
    Trace.outputs (fun d c ↦ (R2FrameDelay.call frameSize d c).1)
      (fun d c ↦ (R2FrameDelay.call frameSize d c).2) d calls

/-- The lead of a frame delay. -/
def R2FrameDelay.leadOf (sinc : F → Fin kSincFilterLength → F) (delay : F) : Lead F :=
  ⟨⌊delay⌋.toNat, R2FrameDelay.fractionalFilter sinc delay⟩

omit [LinearOrder F] [IsStrictOrderedRing F] [FloorRing F] in
/-- A run of the frame delay: the filtered stream, or what the output frames held. -/
theorem R2FrameDelay.outputs_streams {d : R2FrameDelay F} {frameSize : ℕ} {lead : Lead F}
    (h : d.delays.Holds frameSize lead []) (calls : List ((ℕ → F) × (ℕ → F))) :
    (Trace.run (fun d c ↦ (R2FrameDelay.call frameSize d c).1) d calls).delays.Holds frameSize lead
        (channel frameSize (calls.map Prod.fst) 0) ∧
      Trace.outputs (fun d c ↦ (R2FrameDelay.call frameSize d c).1)
          (fun d c ↦ (R2FrameDelay.call frameSize d c).2) d calls =
        (lead.streams (channel frameSize (calls.map Prod.fst) 0)).2.getD
          (channel frameSize (calls.map Prod.snd) 0) := by
  induction calls using List.reverseRecOn with
  | nil =>
      refine ⟨h, ?_⟩
      cases hcoeffs : lead.coeffs with
      | none => simp [Lead.streams, hcoeffs, channel]
      | some c => simp [Lead.streams, hcoeffs, channel, convolved, held]
  | append_singleton calls call ih =>
      obtain ⟨hold, hout⟩ := ih
      obtain ⟨hstreams, hnext, -, hisSome, -⟩ := hold.process (length_row frameSize call.1 0)
      have hsame : (lead.streams (channel frameSize (calls.map Prod.fst) 0)).2.isSome = _ :=
        Option.isSome_map.trans hisSome.symm
      rw [Trace.outputs_concat, Trace.run_append, List.map_append, List.map_append,
        List.map_singleton, List.map_singleton, channel_concat, channel_concat, hstreams,
        getD_append_of_isSome hsame, hout]
      exact ⟨hnext, rfl⟩

/-- The output is the delayed and filtered stream exactly if there is a filter, or the output frames
held the delayed stream. -/
theorem delayOutput_iff (sinc : F → Fin kSincFilterLength → F) {frameSize : ℕ} {delay : F}
    (hsize : 0 < frameSize) (hdelay : 0 ≤ delay) (hle : delay ≤ frameSize)
    (calls : List ((ℕ → F) × (ℕ → F))) :
    delayOutput sinc frameSize delay calls =
        some (contribution ((R2FrameDelay.leadOf sinc delay).streams
          (channel frameSize (calls.map Prod.fst) 0))) ↔
      0.001 < delay - ⌊delay⌋ ∨
        channel frameSize (calls.map Prod.snd) 0 =
          held ⌊delay⌋.toNat (channel frameSize (calls.map Prod.fst) 0) := by
  have hfloor : ⌊delay⌋.toNat ≤ frameSize := by
    have hmono : ⌊delay⌋ ≤ ⌊(frameSize : F)⌋ := Int.floor_mono hle
    rw [Int.floor_natCast] at hmono
    exact Int.toNat_le.mpr hmono
  obtain ⟨hinit, hline⟩ := FrameDelayer.holds_init (F := F) hfloor
  have hargs : ¬ (frameSize = 0 ∨ (frameSize : F) < delay ∨ ⌊delay⌋ < 0) := by
    rintro (hzero | hlt | hneg)
    · exact hsize.ne' hzero
    · exact hle.not_gt hlt
    · exact (Int.floor_nonneg.mpr hdelay).not_gt hneg
  have hmic := Mic.holds_create (R2FrameDelay.leadOf sinc delay) hline fun c hc ↦ by
    simp only [R2FrameDelay.leadOf, R2FrameDelay.fractionalFilter] at hc
    split_ifs at hc
    rw [← Option.some.inj hc, List.length_ofFn]
    exact Nat.succ_pos 10
  have hnew : R2FrameDelay.init sinc frameSize delay =
      some ⟨⟨(FrameDelayer.init frameSize ⌊delay⌋.toNat).1,
        (R2FrameDelay.leadOf sinc delay).coeffs.map FIRFilter.create⟩, frameSize⟩ := by
    rw [R2FrameDelay.init, if_neg hargs]
    exact if_pos hinit
  rw [delayOutput, hnew, Option.map_some, Option.some_inj,
    (R2FrameDelay.outputs_streams hmic calls).2, contribution]
  by_cases hlimit : 0.001 < delay - ⌊delay⌋
  · have hsome : (R2FrameDelay.leadOf sinc delay).coeffs =
        some (List.ofFn (sinc (delay - ⌊delay⌋))) := if_pos hlimit
    refine iff_of_true ?_ (.inl hlimit)
    rw [Lead.streams, hsome]
    rfl
  · have hnone : (R2FrameDelay.leadOf sinc delay).coeffs = none := if_neg hlimit
    rw [Lead.streams, hnone, or_iff_right hlimit]
    rfl

/-- **Delay and sum.** The beam former gives the average of the delayed and filtered channels
exactly if, at every sample, the delayed channels without a filter add up to what is added instead;
the frame delay gives the delayed and filtered stream exactly if it has a filter or its output
frames held the delayed stream before. -/
theorem delayAndSum_iff (sinc : F → Fin kSincFilterLength → F) {frameSize : ℕ}
    {delays memory : List F} (hmics : 2 ≤ delays.length)
    (hfit : ∀ delay ∈ aligned delays, ⌊delay⌋ ≤ frameSize) (hmemory : memory.length = frameSize)
    (frames : List (ℕ → F)) {size : ℕ} {delay : F} (hsize : 0 < size) (hdelay : 0 ≤ delay)
    (hle : delay ≤ size) (calls : List ((ℕ → F) × (ℕ → F))) :
    (beamOutput sinc frameSize delays memory frames =
        average delays.length (frameSize * frames.length)
          ((micStreams sinc frameSize delays frames).map contribution) ∧
      delayOutput sinc size delay calls =
        some (contribution ((R2FrameDelay.leadOf sinc delay).streams
          (channel size (calls.map Prod.fst) 0)))) ↔
      sumRows (frameSize * frames.length)
          (stale ((buffers memory frames.length (micStreams sinc frameSize delays frames)).take
            (frameSize * frames.length)) (micStreams sinc frameSize delays frames)) =
        sumRows (frameSize * frames.length)
          (unfilteredRows (micStreams sinc frameSize delays frames)) ∧
      (0.001 < delay - ⌊delay⌋ ∨
        channel size (calls.map Prod.snd) 0 =
          held ⌊delay⌋.toNat (channel size (calls.map Prod.fst) 0)) := by
  have hne : delays ≠ [] := by
    rintro rfl
    exact absurd hmics (Nat.not_le.mpr Nat.two_pos)
  exact and_congr (beamOutput_iff sinc hne hfit hmemory frames)
    (delayOutput_iff sinc hsize hdelay hle calls)

end Runs

/-! ## Two microphones in a row -/

/-- One frame of the samples. -/
def frameOf (samples : List ℚ) : ℕ → ℚ := fun n ↦ samples.getD n 0

/-- Whole delays, for which no filter is made. -/
def wholeDelays : List ℚ := [0, 1]

/-- A frame of two samples of both microphones. -/
def bothFrames : List (ℕ → ℚ) := [frameOf [1, 9, 2, 3]]

/-- A call of a frame delay whose output frame holds the delayed frame before. -/
def delayCalls : List ((ℕ → ℚ) × (ℕ → ℚ)) := [(frameOf [5, 7], frameOf [0, 5])]

theorem delayAndSum_whole :
    beamOutput (fun _ _ ↦ 0) 2 wholeDelays [1, 2] bothFrames =
        average wholeDelays.length (2 * bothFrames.length)
          ((micStreams (fun _ _ ↦ 0) 2 wholeDelays bothFrames).map contribution) ∧
      delayOutput (fun _ _ ↦ 0) 2 1 delayCalls =
        some (contribution ((R2FrameDelay.leadOf (fun _ _ ↦ 0) 1).streams
          (channel 2 (delayCalls.map Prod.fst) 0))) := by
  have hfit : ∀ delay ∈ aligned wholeDelays, ⌊delay⌋ ≤ (2 : ℕ) := by decide +kernel
  have hmemory : ([1, 2] : List ℚ).length = 2 := rfl
  have hle : (1 : ℚ) ≤ (2 : ℕ) := by norm_num
  refine (delayAndSum_iff (fun _ _ ↦ 0) (by decide) hfit hmemory bothFrames two_pos zero_le_one hle
    delayCalls).mpr ?_
  decide +kernel

/-- The first frame of a beam former without a filter: the memory is given, not the average. -/
theorem delayAndSum_unset :
    beamOutput (fun _ _ ↦ 0) 2 wholeDelays [7, 7] bothFrames ≠
      average wholeDelays.length (2 * bothFrames.length)
        ((micStreams (fun _ _ ↦ 0) 2 wholeDelays bothFrames).map contribution) := by
  decide +kernel

end Vsys.Bf
