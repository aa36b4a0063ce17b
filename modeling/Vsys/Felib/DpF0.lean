import Mathlib
import Vsys.Align.Trellis
import Vsys.Num.Numerals

/-!
# The path of the pitch

`dp_f0` in `felib/Pitch.cpp` chooses a candidate for the pitch in every frame: a peak of the
correlation, or none.  It keeps the cheapest path to each candidate, and gives frames out as soon as
the paths of all candidates meet, in several calls over a stream.  If they do not meet for too long
it gives out the path that is the cheapest so far.

When no output had to be forced, the path that has come out piece by piece is the cheapest one of
the whole stream.

Numbers are exact here, and `FLT_MAX` stands above all costs.  The arrays of a frame are functions
of the index; frames stand with the newest first.
-/

namespace Vsys.Felib

open Vsys.Align Vsys.Num

attribute [local instance] atLeastTwo_two atLeastTwo_three atLeastTwo_five atLeastTwo_eight
  atLeastTwo_million

/-- What the search is given, and the logarithm.  Paths are compared behind the newest frame, so
there must be two frames. -/
structure F0Search (K : Type*) where
  lagwt : K
  freqwt : K
  tcost : K
  tfactA : K
  tfactS : K
  vbias : K
  fdouble : K
  ln2 : K
  freq : K
  start : ℤ
  stop : ℤ
  sizeFrameHist : ℕ
  sizeFrameOut : ℕ
  sizeCirBuffer : ℕ
  log : K → K
  one_lt_hist : 1 < sizeFrameHist

/-- What has been measured of a frame. -/
structure PitchFrame (K : Type*) where
  peaks : List (ℤ × K)
  maxval : K
  sta : K
  rmsRatio : K
  rms : K
  correl : ℤ → K

/-- An entry of `locs`, `pvals` and `mpvals`. -/
structure PitchCand (K : Type*) where
  loc : ℤ
  pval : K
  mpval : K

/-- `Frame`: what has been measured, `dpvals` and `prept`. -/
abbrev DpFrame (K : Type*) := Column (PitchFrame K) K

/-- What comes out for a frame. -/
structure F0Out (K : Type*) where
  f0 : K
  vuv : K
  rms : K
  acpk : K
  deriving DecidableEq

variable {K : Type*} [Field K] (p : F0Search K)

/-! ## Costs -/

/-- The candidate without a voice. -/
def unvoiced (frame : PitchFrame K) : PitchCand K where
  loc := -1
  pval := frame.maxval
  mpval := p.vbias + frame.maxval

/-- The candidates of a frame. -/
def candidates (frame : PitchFrame K) : List (PitchCand K) :=
  frame.peaks.map (fun peak ↦
    { loc := peak.1
      pval := peak.2
      mpval := 1 - peak.2 * (1 - peak.1 * p.lagwt) }) ++ [unvoiced p frame]

/-- The candidate with an index. -/
def cand (frame : PitchFrame K) (k : ℕ) : PitchCand K :=
  (candidates p frame).getD k (unvoiced p frame)

theorem candidates_pos (frame : PitchFrame K) : 0 < (candidates p frame).length := by
  rw [candidates, List.length_append]
  exact Nat.succ_pos _

/-- The circular buffer: all frames so far, how many of them have not come out yet, how many frames
it has room for, and how often it has grown. -/
structure DpState (K : Type*) where
  frames : List (DpFrame K)
  active : ℕ
  ringSize : ℕ
  growth : ℕ

/-- `init_dp_f0`. -/
def DpState.initial : DpState K :=
  { frames := [], active := 0, ringSize := p.sizeCirBuffer, growth := 0 }

variable [LinearOrder K]

/-- The cost of a change of the period, or of a jump by an octave. -/
def periodCost (loc1 loc2 : ℤ) : K :=
  let ftemp := p.log (loc2 / loc1)
  let ttemp := |ftemp|
  let ft1 := p.fdouble + |ftemp + p.ln2|
  let ttemp := if ft1 < ttemp then ft1 else ttemp
  let ft1 := p.fdouble + |ftemp - p.ln2|
  let ttemp := if ft1 < ttemp then ft1 else ttemp
  ttemp * p.freqwt

/-- The cost of a transition into a candidate of the frame. -/
def transCost (frame : PitchFrame K) (loc1 loc2 : ℤ) : K :=
  if 0 < loc2 then
    if 0 < loc1 then periodCost p loc1 loc2
    else p.tcost + p.tfactS * frame.sta + p.tfactA / frame.rmsRatio
  else if 0 < loc1 then p.tcost + p.tfactS * frame.sta + p.tfactA * frame.rmsRatio
  else 0

/-- The costs as a trellis. -/
def pitchTrellis : Trellis (PitchFrame K) K where
  width frame := (candidates p frame).length
  node frame k := (cand p frame k).mpval
  edge before frame j k := transCost p frame (cand p before j).loc (cand p frame k).loc

/-! ## Filling frames -/

/-- What a candidate costs behind each candidate of the frame before, without its own cost. -/
def transErrs (prev : DpFrame K) (frame : PitchFrame K) (k : ℕ) : List K :=
  (List.range (candidates p prev.layer).length).map fun j ↦
    transCost p frame (cand p prev.layer j).loc (cand p frame k).loc + prev.total j

/-- The loop over the candidates of a frame.  The first frame of a stream has no frame before it. -/
def fillFrame (older : List (DpFrame K)) (frame : PitchFrame K) : DpFrame K :=
  match older with
  | [] => { layer := frame, total := fun k ↦ (cand p frame k).mpval, back := fun _ ↦ 0 }
  | prev :: _ =>
      { layer := frame
        total := fun k ↦
          (firstLeast (transErrs p prev frame k)).elim 0 Prod.fst + (cand p frame k).mpval
        back := fun k ↦ (firstLeast (transErrs p prev frame k)).elim 0 Prod.snd }

/-- A round of the main loop.  The buffer grows before its last frame is filled. -/
def DpState.add (st : DpState K) (frame : PitchFrame K) : Option (DpState K) :=
  let filled (st : DpState K) :=
    { st with frames := fillFrame p st.frames frame :: st.frames, active := st.active + 1 }
  if st.active + 1 = st.ringSize then
    if 5 < st.growth then none
    else
      some (filled
        { st with ringSize := st.ringSize + p.sizeCirBuffer, growth := st.growth + 1 })
  else some (filled st)

/-- The main loop. -/
def DpState.fill : DpState K → List (PitchFrame K) → Option (DpState K)
  | st, [] => some st
  | st, frame :: frames => (st.add p frame).bind fun st ↦ st.fill frames

/-! ## Giving frames out -/

/-- The best candidate of the newest frame. -/
def bestCand (head : DpFrame K) : ℕ :=
  (firstLeast ((List.range (candidates p head.layer).length).map head.total)).elim 0 Prod.snd

/-- Where the paths of all candidates of the newest frame meet. -/
def DpState.converged (st : DpState K) : Option (List (DpFrame K) × ℕ) :=
  match st.frames.take st.active with
  | [] => none
  | head :: older => meet ((List.range (candidates p head.layer).length).map head.back) older

/-- The frames that come out, and the candidate of the newest of them. -/
def DpState.outputs (st : DpState K) (lastTime : Bool) : Option (List (DpFrame K) × ℕ) :=
  let best := match st.frames with
    | [] => 0
    | head :: _ => bestCand p head
  if lastTime then some (st.frames.take st.active, best)
  else
    match st.converged p with
    | some found => some found
    | none => if st.active < p.sizeFrameOut then none else some (st.frames.take st.active, best)

/-- What is put out for a frame and a candidate; the period is interpolated. -/
def f0Out (frame : PitchFrame K) (k : ℕ) : F0Out K :=
  let c := cand p frame k
  let ftemp : K :=
    if p.start < c.loc ∧ c.loc < p.stop then
      let j := c.loc - p.start
      let cormax := frame.correl j
      let cprev := frame.correl (j + 1)
      let cnext := frame.correl (j - 1)
      let den := 2 * (cprev + cnext - 2 * cormax)
      if 1 / 1000000 < |den| then
        c.loc + (2 - (5 * cprev + 3 * cnext - 8 * cormax) / den)
      else c.loc
    else c.loc
  { f0 := if 0 < c.loc then p.freq / ftemp else 0
    vuv := if 0 < c.loc then 1 else 0
    rms := frame.rms
    acpk := c.pval }

/-- `dp_f0`: without a state it has given up. -/
def dpF0 (st : DpState K) (frames : List (PitchFrame K)) (lastTime : Bool) :
    Option (DpState K × List (F0Out K)) :=
  (st.fill p frames).map fun st ↦
    if p.sizeFrameHist ≤ st.active ∨ lastTime = true then
      match st.outputs p lastTime with
      | none => (st, [])
      | some (path, k) =>
          ({ st with active := st.active - path.length },
            List.zipWith (fun frame k ↦ f0Out p frame.layer k) path (traceback path k))
    else (st, [])

/-- The loop of `Get_f0` over the buffers; the last one ends the stream, and each output is
reversed. -/
def getF0 : DpState K → List (List (PitchFrame K)) → Option (List (F0Out K))
  | _, [] => some []
  | st, [buffer] => (dpF0 p st buffer true).map fun result ↦ result.2.reverse
  | st, buffer :: next :: buffers =>
      match dpF0 p st buffer false with
      | none => none
      | some (st, out) => (getF0 st (next :: buffers)).map (out.reverse ++ ·)

/-- The frames of the calls; the first call has one. -/
structure F0Stream (K : Type*) where
  frame : PitchFrame K
  frames : List (PitchFrame K)
  later : List (List (PitchFrame K))

namespace F0Stream

variable {K : Type*} (stream : F0Stream K)

def buffers : List (List (PitchFrame K)) := (stream.frame :: stream.frames) :: stream.later

/-- All frames, the newest first. -/
def inputs : List (PitchFrame K) := stream.buffers.flatten.reverse

theorem buffers_ne_nil : stream.buffers ≠ [] := List.cons_ne_nil _ _

theorem inputs_ne_nil : stream.inputs ≠ [] := by
  rw [inputs, buffers, List.flatten_cons, List.reverse_ne_nil_iff]
  exact List.append_ne_nil_of_left_ne_nil (List.cons_ne_nil _ _) _

end F0Stream

/-! ## The columns -/

/-- The columns of frames. -/
def frameList : List (PitchFrame K) → List (DpFrame K)
  | [] => []
  | frame :: frames => fillFrame p (frameList frames) frame :: frameList frames

section Columns

variable {p} {frame : PitchFrame K} {frames : List (PitchFrame K)}

@[simp]
theorem fillFrame_layer (older : List (DpFrame K)) (frame : PitchFrame K) :
    (fillFrame p older frame).layer = frame := by
  cases older <;> rfl

theorem frameList_layer (frames : List (PitchFrame K)) :
    (frameList p frames).map Column.layer = frames := by
  induction frames with
  | nil => rfl
  | cons frame frames ih => rw [frameList, List.map_cons, ih, fillFrame_layer]

/-- The least entry of a table over the candidates of a frame. -/
theorem firstLeast_candidates (frame : PitchFrame K) (f : ℕ → K) :
    ∃ i < (candidates p frame).length,
      firstLeast ((List.range (candidates p frame).length).map f) = some (f i, i) ∧
        ∀ j < (candidates p frame).length, f i ≤ f j := by
  have hne : (List.range (candidates p frame).length).map f ≠ [] := by
    rw [← List.length_pos_iff, List.length_map, List.length_range]
    exact candidates_pos p frame
  obtain ⟨v, i, hleast, hi, hv⟩ := firstLeast_spec hne
  rw [List.getElem?_map] at hi
  obtain ⟨i', hi', rfl⟩ := Option.map_eq_some_iff.mp hi
  obtain ⟨hlt, hget⟩ := List.getElem?_eq_some_iff.mp hi'
  rw [List.getElem_range] at hget
  subst hget
  rw [List.length_range] at hlt
  refine ⟨i, hlt, hleast, fun j hj ↦ hv _ ?_⟩
  exact List.mem_map_of_mem (List.mem_range.mpr hj)

/-- A frame goes on with the cheapest candidates of the frame before. -/
theorem extends_fillFrame (prev : DpFrame K) (older : List (DpFrame K)) (frame : PitchFrame K) :
    (pitchTrellis p).Extends (fillFrame p (prev :: older) frame) prev := by
  have hfound (k : ℕ) : ∃ i < (candidates p prev.layer).length,
      firstLeast (transErrs p prev frame k) = some
        (transCost p frame (cand p prev.layer i).loc (cand p frame k).loc + prev.total i, i) ∧
      ∀ j < (candidates p prev.layer).length,
        transCost p frame (cand p prev.layer i).loc (cand p frame k).loc + prev.total i ≤
          transCost p frame (cand p prev.layer j).loc (cand p frame k).loc + prev.total j :=
    firstLeast_candidates prev.layer _
  refine ⟨fun k _ ↦ ?_, fun k _ ↦ ?_, fun k _ j hj ↦ ?_⟩
  · obtain ⟨i, hi, hleast, -⟩ := hfound k
    rw [fillFrame]
    dsimp only
    rw [hleast]
    exact hi
  · obtain ⟨i, -, hleast, -⟩ := hfound k
    rw [fillFrame]
    dsimp only
    rw [hleast]
    rfl
  · obtain ⟨i, -, hleast, hle⟩ := hfound k
    rw [fillFrame]
    dsimp only
    rw [hleast]
    exact hle j hj

theorem solved_frameList (frames : List (PitchFrame K)) :
    (pitchTrellis p).Solved (frameList p frames) := by
  induction frames with
  | nil => trivial
  | cons frame frames ih =>
      cases frames with
      | nil => exact fun k _ ↦ rfl
      | cons before frames => exact ⟨extends_fillFrame .., ih⟩

theorem bestCand_spec (head : DpFrame K) :
    bestCand p head < (candidates p head.layer).length ∧
      ∀ j < (candidates p head.layer).length, head.total (bestCand p head) ≤ head.total j := by
  obtain ⟨i, hi, hleast, hle⟩ := firstLeast_candidates (p := p) head.layer head.total
  rw [bestCand, hleast]
  exact ⟨hi, hle⟩

end Columns

end Vsys.Felib
