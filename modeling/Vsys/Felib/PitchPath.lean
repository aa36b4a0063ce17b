import Vsys.Felib.DpF0

/-!
# The path that comes out

Each frame comes out once, in order, with one of its candidates.  As long as no output is forced,
every path that is still open goes through what has come out, and at the end of the stream the whole
is a cheapest path.
-/

namespace Vsys.Felib

open Vsys.Align

variable {K : Type*} [Field K] {p : F0Search K}

/-! ## What the state says -/

/-- Every open path goes through what has come out. -/
def DpState.Settles (p : F0Search K) (st : DpState K) (settled : List ℕ) : Prop :=
  ∀ head older, st.frames = head :: older → ∀ k < (candidates p head.layer).length,
    (traceback st.frames k).drop st.active = settled

theorem settles_initial : (DpState.initial p).Settles p [] :=
  fun _ _ h ↦ absurd h (List.cons_ne_nil _ _).symm

variable [LinearOrder K]

/-- The state after frames of which the older ones have come out with the candidates `settled`. -/
structure DpState.Good (p : F0Search K) (st : DpState K) (inputs : List (PitchFrame K))
    (settled : List ℕ) : Prop where
  frames_eq : st.frames = frameList p inputs
  active_le : st.active ≤ inputs.length
  chain : (pitchTrellis p).IsChain (inputs.drop st.active) settled

/-- What has come out, the newest first. -/
def shown (p : F0Search K) (st : DpState K) (inputs : List (PitchFrame K)) (settled : List ℕ) :
    List (F0Out K) := List.zipWith (f0Out p) (inputs.drop st.active) settled

theorem good_initial : (DpState.initial p).Good p [] [] := ⟨rfl, Nat.le_refl _, .nil⟩

section State

variable {st st' : DpState K} {inputs frames : List (PitchFrame K)} {settled : List ℕ}
  {frame : PitchFrame K}

theorem DpState.Good.solved (h : st.Good p inputs settled) : (pitchTrellis p).Solved st.frames :=
  h.frames_eq ▸ solved_frameList inputs

theorem DpState.Good.layers (h : st.Good p inputs settled) : st.frames.map Column.layer = inputs :=
  h.frames_eq ▸ frameList_layer inputs

theorem DpState.Good.length_frames (h : st.Good p inputs settled) :
    st.frames.length = inputs.length := by
  rw [← h.layers, List.length_map]

/-- What a round of the main loop does. -/
theorem add_eq_some (h : st.add p frame = some st') :
    st'.frames = fillFrame p st.frames frame :: st.frames ∧ st'.active = st.active + 1 := by
  rw [DpState.add] at h
  split_ifs at h
  · obtain rfl := Option.some.inj h
    exact ⟨rfl, rfl⟩
  · obtain rfl := Option.some.inj h
    exact ⟨rfl, rfl⟩

theorem DpState.Good.add (h : st.Good p inputs settled) (hadd : st.add p frame = some st') :
    st'.Good p (frame :: inputs) settled ∧ (st.Settles p settled → st'.Settles p settled) := by
  obtain ⟨hframes, hactive⟩ := add_eq_some hadd
  have hgood : st'.Good p (frame :: inputs) settled := by
    refine ⟨?_, ?_, ?_⟩
    · rw [hframes, h.frames_eq]
      rfl
    · rw [hactive, List.length_cons]
      exact Nat.succ_le_succ h.active_le
    · rw [hactive, List.drop_succ_cons]
      exact h.chain
  refine ⟨hgood, fun hsettles head older heq k hk ↦ ?_⟩
  rw [hframes, hactive, traceback, List.drop_succ_cons]
  cases hst : st.frames with
  | nil =>
      have hnone : inputs = [] := by
        rw [← h.layers, hst]
        rfl
      have hchain := h.chain
      rw [hnone, List.drop_nil] at hchain
      rw [List.forall₂_nil_left_iff.mp hchain]
      exact List.drop_nil
  | cons prev rest =>
      have hback := (extends_fillFrame (p := p) prev rest frame).back_lt k
      rw [hframes] at heq
      obtain ⟨rfl, -⟩ := List.cons.inj heq
      rw [hst] at hk
      rw [← hst]
      exact hsettles prev rest hst _ (hst ▸ hback hk)

theorem DpState.Good.fill (h : st.Good p inputs settled) (hfill : st.fill p frames = some st') :
    st'.Good p (frames.reverse ++ inputs) settled ∧
      st'.active = st.active + frames.length ∧
      (st.Settles p settled → st'.Settles p settled) := by
  induction frames generalizing st inputs with
  | nil =>
      obtain rfl := Option.some.inj hfill
      exact ⟨h, rfl, id⟩
  | cons frame frames ih =>
      obtain ⟨mid, hadd, hrest⟩ := Option.bind_eq_some_iff.mp hfill
      obtain ⟨hmid, hsettles⟩ := h.add hadd
      obtain ⟨hgood, hactive, hlater⟩ := ih hmid hrest
      refine ⟨?_, ?_, hlater ∘ hsettles⟩
      · rw [List.reverse_cons, List.append_assoc]
        exact hgood
      · rw [hactive, (add_eq_some hadd).2, List.length_cons]
        omega

/-! ## Giving frames out -/

/-- Some of the open frames come out with a chain of their candidates. -/
theorem DpState.Good.show (h : st.Good p inputs settled) {first path : List (DpFrame K)}
    {ks : List ℕ} (hact : st.frames.take st.active = first ++ path)
    (hks : (pitchTrellis p).IsChain (path.map Column.layer) ks) :
    DpState.Good p { st with active := st.active - path.length } inputs (ks ++ settled) ∧
      shown p { st with active := st.active - path.length } inputs (ks ++ settled) =
        List.zipWith (fun frame k ↦ f0Out p frame.layer k) path ks ++
          shown p st inputs settled := by
  have hlength := congrArg List.length hact
  rw [List.length_take_of_le (h.length_frames ▸ h.active_le), List.length_append] at hlength
  have hactive : st.active - path.length = first.length := by omega
  have hdrop : inputs.drop first.length = path.map Column.layer ++ inputs.drop st.active := by
    have hsplit := congrArg (List.map Column.layer) (List.take_append_drop st.active st.frames)
    rw [hact, h.layers, List.map_append, List.map_append, List.map_drop, h.layers,
      List.append_assoc] at hsplit
    rw [← hsplit, List.drop_left' (List.length_map _), hsplit]
  have hcount : (path.map Column.layer).length = ks.length := List.Forall₂.length_eq hks
  rw [hactive]
  refine ⟨⟨h.frames_eq, ?_, ?_⟩, ?_⟩
  · have hle : first.length ≤ st.active := by omega
    exact hle.trans h.active_le
  · dsimp only
    rw [hdrop]
    exact List.rel_append hks h.chain
  · rw [shown, shown]
    dsimp only
    rw [hdrop, List.zipWith_append hcount, List.zipWith_map_left]

/-- The whole of the open frames, from a candidate of the newest one. -/
theorem DpState.Good.isChain_take (h : st.Good p inputs settled) {k : ℕ}
    (hk : ∀ head ∈ st.frames.head?, k < (candidates p head.layer).length) :
    (pitchTrellis p).IsChain ((st.frames.take st.active).map Column.layer)
      (traceback (st.frames.take st.active) k) := by
  have hsolved := h.solved
  rw [← List.take_append_drop st.active st.frames] at hsolved
  cases hact : st.frames.take st.active with
  | nil => exact .nil
  | cons head older =>
      rw [hact] at hsolved
      refine hsolved.isChain_part (hk head ?_)
      rw [← List.take_append_drop st.active st.frames, hact]
      rfl

theorem bestCand_lt (frames : List (DpFrame K)) :
    ∀ head ∈ frames.head?, (match frames with
      | [] => 0
      | head :: _ => bestCand p head) < (candidates p head.layer).length := by
  intro head hhead
  cases frames with
  | nil => exact absurd hhead (Option.some_ne_none _).symm
  | cons head' frames =>
      obtain rfl := Option.some.inj hhead
      exact (bestCand_spec head').1

/-- Where the paths meet. -/
theorem DpState.Good.converged (h : st.Good p inputs settled) {path : List (DpFrame K)} {j : ℕ}
    (hmet : st.converged p = some (path, j)) :
    ∃ head first, st.frames.take st.active = head :: first ++ path ∧
      (pitchTrellis p).IsChain (path.map Column.layer) (traceback path j) ∧
      ∀ k < (candidates p head.layer).length, ancestor (head :: first) k = j := by
  rw [DpState.converged] at hmet
  cases hact : st.frames.take st.active with
  | nil =>
      rw [hact] at hmet
      exact absurd hmet (Option.some_ne_none _).symm
  | cons head older =>
      rw [hact] at hmet
      obtain ⟨hne, first, rfl, hfirst⟩ := meet_eq_some hmet
      have hancestor (k : ℕ) (hk : k < (candidates p head.layer).length) :
          ancestor (head :: first) k = j :=
        hfirst _ (List.mem_map_of_mem (List.mem_range.mpr hk))
      obtain ⟨c, rest, rfl⟩ := List.exists_cons_of_ne_nil hne
      have hsolved := h.solved
      rw [← List.take_append_drop st.active st.frames, hact] at hsolved
      have hpart : (pitchTrellis p).Solved
          (head :: first ++ c :: (rest ++ st.frames.drop st.active)) := by
        simpa only [List.cons_append, List.append_assoc] using hsolved
      have hj : j < (candidates p c.layer).length := by
        rw [← hancestor 0 (candidates_pos p head.layer)]
        refine hpart.ancestor_lt fun b hb ↦ ?_
        obtain rfl := Option.some.inj hb
        exact candidates_pos p head.layer
      refine ⟨head, first, rfl, ?_, hancestor⟩
      have hrest : (pitchTrellis p).Solved (c :: rest ++ st.frames.drop st.active) :=
        hpart.of_append
      exact hrest.isChain_part hj

/-- Any output is a chain of some of the open frames. -/
theorem DpState.Good.outputs (h : st.Good p inputs settled) {lastTime : Bool}
    {path : List (DpFrame K)} {k : ℕ} (hout : st.outputs p lastTime = some (path, k)) :
    ∃ first, st.frames.take st.active = first ++ path ∧
      (pitchTrellis p).IsChain (path.map Column.layer) (traceback path k) := by
  have hbest := h.isChain_take (bestCand_lt (p := p) st.frames)
  rw [DpState.outputs] at hout
  by_cases hlast : lastTime = true
  · rw [if_pos hlast] at hout
    obtain ⟨rfl, rfl⟩ := Prod.mk.inj (Option.some.inj hout)
    exact ⟨[], rfl, hbest⟩
  · rw [if_neg hlast] at hout
    cases hmet : st.converged p with
    | some found =>
        rw [hmet] at hout
        obtain rfl := Option.some.inj hout
        obtain ⟨head, first, hact, hchain, -⟩ := h.converged hmet
        exact ⟨head :: first, hact, hchain⟩
    | none =>
        rw [hmet] at hout
        dsimp only at hout
        split_ifs at hout
        obtain ⟨rfl, rfl⟩ := Prod.mk.inj (Option.some.inj hout)
        exact ⟨[], rfl, hbest⟩

theorem DpState.Good.length_take (h : st.Good p inputs settled) :
    (st.frames.take st.active).length = st.active :=
  List.length_take_of_le (h.length_frames ▸ h.active_le)

/-- The path of a candidate of the newest frame, through the open frames. -/
theorem DpState.Good.traceback_eq (h : st.Good p inputs settled) (hsettles : st.Settles p settled)
    {head : DpFrame K} {older : List (DpFrame K)} (hframes : st.frames = head :: older) {k : ℕ}
    (hk : k < (candidates p head.layer).length) :
    traceback st.frames k = traceback (st.frames.take st.active) k ++ settled := by
  have hsplit := traceback_append (st.frames.take st.active) (st.frames.drop st.active) k
  rw [List.take_append_drop] at hsplit
  have hdrop := hsettles head older hframes k hk
  rw [hsplit, List.drop_left' ((length_traceback _ k).trans h.length_take)] at hdrop
  rw [hsplit, hdrop]

/-- An output from where the paths meet leaves every open path going through it. -/
theorem DpState.Good.settles_converged (h : st.Good p inputs settled)
    (hsettles : st.Settles p settled) {path : List (DpFrame K)} {j : ℕ}
    (hmet : st.converged p = some (path, j)) :
    DpState.Settles p { st with active := st.active - path.length }
      (traceback path j ++ settled) := by
  obtain ⟨head, first, hact, -, hancestor⟩ := h.converged hmet
  have hlength := h.length_take
  rw [hact, List.length_append] at hlength
  intro head' older hframes k hk
  have hhead : head' = head := by
    have htake := congrArg List.head? hact
    rw [← List.take_append_drop st.active st.frames, hact] at hframes
    exact (List.cons.inj hframes).1.symm
  have htrace := h.traceback_eq hsettles hframes hk
  have hactive : st.active - path.length = (head :: first).length := by omega
  dsimp only
  rw [htrace, hact, traceback_append, hancestor k (hhead ▸ hk), List.append_assoc, hactive]
  exact List.drop_left' (length_traceback _ k)

/-- The last output ends the path of the best candidate. -/
theorem DpState.Good.settled_last (h : st.Good p inputs settled) (hsettles : st.Settles p settled)
    {head : DpFrame K} {older : List (DpFrame K)} (hframes : st.frames = head :: older) :
    traceback (st.frames.take st.active) (bestCand p head) ++ settled =
      traceback st.frames (bestCand p head) :=
  (h.traceback_eq hsettles hframes (bestCand_spec head).1).symm

/-! ## Calls -/

/-- The paths have not met, and the frames come out nevertheless. -/
def DpState.Forced (p : F0Search K) (st : DpState K) : Prop :=
  p.sizeFrameHist ≤ st.active ∧ st.converged p = none ∧ p.sizeFrameOut ≤ st.active

/-- The second half of `dp_f0`. -/
def DpState.finish (p : F0Search K) (st : DpState K) (lastTime : Bool) :
    DpState K × List (F0Out K) :=
  if p.sizeFrameHist ≤ st.active ∨ lastTime = true then
    match st.outputs p lastTime with
    | none => (st, [])
    | some (path, k) =>
        ({ st with active := st.active - path.length },
          List.zipWith (fun frame k ↦ f0Out p frame.layer k) path (traceback path k))
  else (st, [])

theorem dpF0_eq (st : DpState K) (frames : List (PitchFrame K)) (lastTime : Bool) :
    dpF0 p st frames lastTime = (st.fill p frames).map fun st ↦ st.finish p lastTime := rfl

/-- What comes out is a chain of frames. -/
theorem DpState.Good.finish (h : st.Good p inputs settled) (lastTime : Bool) :
    ∃ settled', (st.finish p lastTime).1.Good p inputs settled' ∧
      shown p (st.finish p lastTime).1 inputs settled' =
        (st.finish p lastTime).2 ++ shown p st inputs settled ∧
      (st.Settles p settled → ¬ st.Forced p → lastTime = false →
        (st.finish p lastTime).1.Settles p settled') ∧
      (lastTime = true → (st.finish p lastTime).1.active = 0 ∧
        (st.Settles p settled → ∀ head older, st.frames = head :: older →
          settled' = traceback st.frames (bestCand p head))) := by
  rw [DpState.finish]
  split_ifs with hdue
  · cases hout : st.outputs p lastTime with
    | none =>
        refine ⟨settled, h, rfl, fun hsettles _ _ ↦ hsettles, fun hlast ↦ ?_⟩
        rw [DpState.outputs, if_pos hlast] at hout
        exact absurd hout (Option.some_ne_none _)
    | some found =>
        obtain ⟨path, k⟩ := found
        obtain ⟨first, hact, hchain⟩ := h.outputs hout
        obtain ⟨hgood, hshown⟩ := h.show hact hchain
        refine ⟨traceback path k ++ settled, hgood, hshown, fun hsettles hforced hlast ↦ ?_,
          fun hlast ↦ ?_⟩
        · -- without force the paths have met
          rw [DpState.outputs, hlast, if_neg Bool.false_ne_true] at hout
          cases hmet : st.converged p with
          | some found =>
              rw [hmet] at hout
              obtain rfl := Option.some.inj hout
              exact h.settles_converged hsettles hmet
          | none =>
              rw [hmet] at hout
              have hhist : p.sizeFrameHist ≤ st.active := by
                rcases hdue with hhist | htrue
                · exact hhist
                · exact absurd (hlast.symm.trans htrue) Bool.false_ne_true
              have hlate : ¬ st.active < p.sizeFrameOut := fun hearly ↦ by
                rw [if_pos hearly] at hout
                exact absurd hout (Option.some_ne_none _).symm
              exact absurd ⟨hhist, hmet, Nat.not_lt.mp hlate⟩ hforced
        · rw [DpState.outputs, if_pos hlast] at hout
          obtain ⟨rfl, hbest⟩ := Prod.mk.inj (Option.some.inj hout)
          refine ⟨?_, fun hsettles head older hframes ↦ ?_⟩
          · dsimp only
            rw [h.length_take, Nat.sub_self]
          · rw [hframes] at hbest
            dsimp only at hbest
            rw [← hbest]
            exact h.settled_last hsettles hframes
  · refine ⟨settled, h, rfl, fun hsettles _ _ ↦ hsettles, fun hlast ↦ ?_⟩
    exact absurd (.inr hlast) hdue

theorem DpState.Good.shown_fill (h : st.Good p inputs settled)
    (hfill : st.fill p frames = some st') :
    shown p st' (frames.reverse ++ inputs) settled = shown p st inputs settled := by
  have hdrop : (frames.reverse ++ inputs).drop (st.active + frames.length) =
      inputs.drop st.active := by
    rw [List.drop_append, List.length_reverse, Nat.add_sub_cancel,
      List.drop_of_length_le (by rw [List.length_reverse]; exact Nat.le_add_left _ _),
      List.nil_append]
  rw [shown, shown, (h.fill hfill).2.1, hdrop]

end State

/-! ## Streams -/

/-- No output of the stream is forced. -/
def Unforced (p : F0Search K) : DpState K → List (List (PitchFrame K)) → Prop
  | st, buffer :: next :: buffers =>
      ∀ filled, st.fill p buffer = some filled →
        ¬ filled.Forced p ∧ Unforced p (filled.finish p false).1 (next :: buffers)
  | _, _ => True

theorem getF0_cons (st : DpState K) (buffer next : List (PitchFrame K))
    (buffers : List (List (PitchFrame K))) :
    getF0 p st (buffer :: next :: buffers) = (st.fill p buffer).bind fun filled ↦
      (getF0 p (filled.finish p false).1 (next :: buffers)).map
        ((filled.finish p false).2.reverse ++ ·) := by
  rw [getF0, dpF0_eq]
  cases st.fill p buffer <;> rfl

/-- A run over buffers. -/
theorem getF0_run {buffers : List (List (PitchFrame K))} (hne : buffers ≠ []) {st : DpState K}
    {inputs : List (PitchFrame K)} {settled : List ℕ} (h : st.Good p inputs settled)
    {outs : List (F0Out K)} (hrun : getF0 p st buffers = some outs) :
    ∃ settled', (pitchTrellis p).IsChain (buffers.flatten.reverse ++ inputs) settled' ∧
      List.zipWith (f0Out p) (buffers.flatten.reverse ++ inputs) settled' =
        outs.reverse ++ shown p st inputs settled ∧
      (st.Settles p settled → Unforced p st buffers → ∀ head older,
        frameList p (buffers.flatten.reverse ++ inputs) = head :: older →
          settled' = traceback (head :: older) (bestCand p head)) := by
  induction buffers generalizing st inputs settled outs with
  | nil => exact absurd rfl hne
  | cons buffer buffers ih =>
      cases buffers with
      | nil =>
          rw [getF0, dpF0_eq, Option.map_map] at hrun
          obtain ⟨filled, hfill, rfl⟩ := Option.map_eq_some_iff.mp hrun
          obtain ⟨hfilled, -, hsettles⟩ := h.fill hfill
          obtain ⟨settled', hgood, hshown, -, hlast⟩ := hfilled.finish true
          obtain ⟨hactive, htrace⟩ := hlast rfl
          have hchain := hgood.chain
          rw [shown, h.shown_fill hfill] at hshown
          rw [hactive, List.drop_zero] at hchain hshown
          rw [List.flatten_cons, List.flatten_nil, List.append_nil]
          refine ⟨settled', hchain, ?_, fun hst _ head older hframes ↦ ?_⟩
          · rw [hshown, Function.comp_apply, List.reverse_reverse]
          · rw [← hframes, ← hfilled.frames_eq]
            exact htrace (hsettles hst) head older (hfilled.frames_eq.trans hframes)
      | cons next buffers =>
          rw [getF0_cons] at hrun
          obtain ⟨filled, hfill, hmore⟩ := Option.bind_eq_some_iff.mp hrun
          obtain ⟨outs', hrest, rfl⟩ := Option.map_eq_some_iff.mp hmore
          obtain ⟨hfilled, -, hsettles⟩ := h.fill hfill
          obtain ⟨mid, hgood, hshown, hkeeps, -⟩ := hfilled.finish false
          obtain ⟨settled', hchain, hall, hbest⟩ := ih (List.cons_ne_nil _ _) hgood hrest
          have hflat : (buffer :: next :: buffers).flatten.reverse ++ inputs =
              (next :: buffers).flatten.reverse ++ (buffer.reverse ++ inputs) := by
            rw [List.flatten_cons, List.reverse_append, List.append_assoc]
          rw [hflat]
          refine ⟨settled', hchain, ?_, fun hst hunforced head older hframes ↦ ?_⟩
          · rw [hall, hshown, h.shown_fill hfill, List.reverse_append, List.reverse_reverse,
              List.append_assoc]
          · obtain ⟨hforced, hlater⟩ := hunforced filled hfill
            exact hbest (hkeeps (hsettles hst) hforced rfl) hlater head older hframes

section Results

variable {stream : F0Stream K} {outs : List (F0Out K)}

theorem getF0_stream (hrun : getF0 p (.initial p) stream.buffers = some outs) :
    ∃ ks, (pitchTrellis p).IsChain stream.inputs ks ∧
      outs.reverse = List.zipWith (f0Out p) stream.inputs ks ∧
      (Unforced p (.initial p) stream.buffers → ∀ head older,
        frameList p stream.inputs = head :: older →
          ks = traceback (head :: older) (bestCand p head)) := by
  obtain ⟨ks, hchain, houts, hbest⟩ := getF0_run stream.buffers_ne_nil good_initial hrun
  rw [List.append_nil] at hchain houts hbest
  refine ⟨ks, hchain, ?_, hbest settles_initial⟩
  rw [F0Stream.inputs, houts, shown, List.drop_nil, List.zipWith_nil_left, List.append_nil]

/-- **Each frame of the stream comes out once, in order**, with one of its candidates. -/
theorem getF0_frames (hrun : getF0 p (.initial p) stream.buffers = some outs) :
    ∃ ks, (pitchTrellis p).IsChain stream.inputs ks ∧
      outs.reverse = List.zipWith (f0Out p) stream.inputs ks := by
  obtain ⟨ks, hchain, houts, -⟩ := getF0_stream hrun
  exact ⟨ks, hchain, houts⟩

/-- A search over two open frames. -/
def twoFrameSearch : F0Search ℚ where
  lagwt := 0
  freqwt := 1
  tcost := 1 / 2
  tfactA := 0
  tfactS := 0
  vbias := 0
  fdouble := 1
  ln2 := 0
  freq := 8000
  start := 20
  stop := 100
  sizeFrameHist := 2
  sizeFrameOut := 2
  sizeCirBuffer := 6
  log := fun x ↦ x - 1
  one_lt_hist := Nat.one_lt_two

/-- A frame with one peak. -/
def peakFrame (loc : ℤ) (peak : ℚ) : PitchFrame ℚ where
  peaks := [(loc, peak)]
  maxval := peak
  sta := 0
  rmsRatio := 1
  rms := 3
  correl := fun j ↦ if j = loc - 20 then peak else 0

/-- Three frames in two calls; the first one comes out in the first call. -/
def threeFrames : F0Stream ℚ where
  frame := peakFrame 40 (9 / 10)
  frames := [peakFrame 40 (9 / 10)]
  later := [[peakFrame 50 (1 / 5)]]

/-- What comes out for them. -/
def threeOuts : List (F0Out ℚ) :=
  [{ f0 := 200, vuv := 1, rms := 3, acpk := 9 / 10 },
    { f0 := 200, vuv := 1, rms := 3, acpk := 9 / 10 },
    { f0 := 0, vuv := 0, rms := 3, acpk := 1 / 5 }]

theorem getF0_threeFrames :
    getF0 twoFrameSearch (.initial twoFrameSearch) threeFrames.buffers = some threeOuts := by
  decide +kernel

theorem unforced_threeFrames :
    Unforced twoFrameSearch (.initial twoFrameSearch) threeFrames.buffers := by
  intro filled hfill
  have hmet : (DpState.converged twoFrameSearch filled).isSome = true := by
    obtain rfl := Option.some.inj hfill
    decide +kernel
  refine ⟨fun hforced ↦ ?_, trivial⟩
  rw [hforced.2.1] at hmet
  exact absurd hmet Bool.false_ne_true

theorem getF0_frames_three : ∃ ks, (pitchTrellis twoFrameSearch).IsChain threeFrames.inputs ks ∧
    threeOuts.reverse = List.zipWith (f0Out twoFrameSearch) threeFrames.inputs ks :=
  getF0_frames getF0_threeFrames

/-- **What comes out piece by piece is a cheapest path of the whole stream**, as long as no output
has been forced. -/
theorem getF0_optimal [IsStrictOrderedRing K]
    (hrun : getF0 p (.initial p) stream.buffers = some outs)
    (hunforced : Unforced p (.initial p) stream.buffers) :
    ∃ ks, (pitchTrellis p).IsChain stream.inputs ks ∧
      outs.reverse = List.zipWith (f0Out p) stream.inputs ks ∧
      ∀ ks', (pitchTrellis p).IsChain stream.inputs ks' →
        (pitchTrellis p).cost stream.inputs ks ≤ (pitchTrellis p).cost stream.inputs ks' := by
  obtain ⟨ks, hchain, houts, hbest⟩ := getF0_stream hrun
  refine ⟨ks, hchain, houts, fun ks' hks' ↦ ?_⟩
  have hlayer := frameList_layer (p := p) stream.inputs
  have hsolved := solved_frameList (p := p) stream.inputs
  cases hframes : frameList p stream.inputs with
  | nil =>
      rw [hframes] at hlayer
      exact absurd hlayer.symm stream.inputs_ne_nil
  | cons head older =>
      obtain ⟨hlt, hle⟩ := bestCand_spec (p := p) head
      rw [hframes] at hlayer hsolved
      rw [hbest hunforced head older hframes, ← hlayer]
      exact hsolved.cost_traceback_le hlt hle (hlayer ▸ hks')

theorem getF0_optimal_three : ∃ ks, (pitchTrellis twoFrameSearch).IsChain threeFrames.inputs ks ∧
    threeOuts.reverse = List.zipWith (f0Out twoFrameSearch) threeFrames.inputs ks ∧
    ∀ ks', (pitchTrellis twoFrameSearch).IsChain threeFrames.inputs ks' →
      (pitchTrellis twoFrameSearch).cost threeFrames.inputs ks ≤
        (pitchTrellis twoFrameSearch).cost threeFrames.inputs ks' :=
  getF0_optimal getF0_threeFrames unforced_threeFrames

end Results

end Vsys.Felib
