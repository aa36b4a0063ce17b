import Vsys.R2ad.Mem1
import Vsys.Stream.Blocks
import Vsys.Trace.Run

/-!
# The echo canceller's stream

`r2mem_aec::process` collects the rows into frames of 256 samples for the engine, and gives out its
output in frames of 160.  Two residues are carried from call to call: the samples that do not fill a
frame of the engine, and the output that does not fill a frame.

`Cancels` says what the object has done with a stream.  A round of the loop keeps it (`Cancels.round`),
and so do the two steps before the loop.  `reblocks` is the result: for any split of the stream, the
output of a microphone is a prefix of what the engine gives for it on the consecutive frames.
-/

namespace Vsys.R2ad

open Vsys.Stream Vsys.Trace

variable {D ε : Type*}

/-! ## Loops over the microphones -/

/-- A loop that changes the row of every microphone, in a way that does nothing the second time. -/
theorem forMics_update (ids : List ℕ) (change : ℕ → (ℕ → Word) → ℕ → Word)
    (htwice : ∀ mic row, change mic (change mic row) = change mic row) (rows : Rows) (mic : ℕ) :
    forMics ids (fun rows mic _ ↦ Function.update rows mic (change mic (rows mic))) rows mic =
      if mic ∈ ids then change mic (rows mic) else rows mic := by
  induction ids using List.reverseRecOn with
  | nil => rfl
  | append_singleton ids last ih =>
      rw [forMics_concat]
      by_cases hlast : mic = last
      · rw [← hlast, Function.update_self, ih, if_pos (List.mem_append_right _ (List.mem_singleton_self _))]
        split_ifs
        · exact htwice mic (rows mic)
        · rfl
      · rw [Function.update_of_ne hlast, ih]
        have hmem : mic ∈ ids ++ [last] ↔ mic ∈ ids := by simp [hlast]
        simp only [hmem]

/-- The last place of a microphone in a list: what is written there stays. -/
def place (ids : List ℕ) (mic : ℕ) : ℕ := ids.length - 1 - ids.reverse.idxOf mic

theorem place_concat_self (ids : List ℕ) (mic : ℕ) : place (ids ++ [mic]) mic = ids.length := by
  simp [place]

theorem place_concat_of_ne {ids : List ℕ} {last mic : ℕ} (hne : mic ≠ last) :
    place (ids ++ [last]) mic = place ids mic := by
  rw [place, place, List.reverse_append, List.reverse_singleton, List.singleton_append,
    List.idxOf_cons_ne _ (Ne.symm hne), List.length_append, List.length_singleton]
  omega

/-- A loop that writes a stretch of every row. -/
theorem forMics_stretch (ids : List ℕ) (inside : ℕ → Prop) [DecidablePred inside]
    (value : ℕ → ℕ → Word) (rows : Rows) (mic k : ℕ) :
    forMics ids (fun rows mic j ↦ fun row k ↦
      if row = mic ∧ inside k then value j k else rows row k) rows mic k =
      if mic ∈ ids ∧ inside k then value (place ids mic) k else rows mic k := by
  induction ids using List.reverseRecOn with
  | nil => simp [forMics]
  | append_singleton ids last ih =>
      rw [forMics_concat, ih]
      by_cases hinside : inside k
      · by_cases hlast : mic = last
        · rw [hlast, place_concat_self]
          simp [hinside]
        · rw [place_concat_of_ne hlast]
          simp [hinside, hlast]
      · simp [hinside]

namespace Aec

/-! ## What the engine gives -/

section Engine

variable (F : FloatOps D) (E : AecEngine ε) (ids refs : List ℕ)

/-- What the object looks at: the other rows of its frame stay zero. -/
def heard (column : ℕ → Word) : ℕ → Word := fun mic ↦ if mic ∈ ids ++ refs then column mic else 0

/-- The rows of some microphones in a frame, one behind the other, as the engine gets them. -/
def engineRows (frame : List (ℕ → Word)) (mics : List ℕ) (k : ℕ) : Word :=
  F.div64 (frame.getD (k % frmLenAec) (fun _ ↦ 0) (mics.getD (k / frmLenAec) 0))

/-- The engine on one frame, with its output so far: for every sample, a value for each place. -/
def cancelFrame (s : ε × List (ℕ → Word)) (frame : List (ℕ → Word)) : ε × List (ℕ → Word) :=
  let answer := E.process (E.bufferFarend s.1 (engineRows F frame refs)) (engineRows F frame ids)
  (answer.1, s.2 ++ (List.range frmLenAec).map fun k j ↦ F.mul64 (answer.2.1 (j * frmLenAec + k)))

/-- The engine on the consecutive frames of a stream. -/
def cancel (stream : List (ℕ → Word)) : ε × List (ℕ → Word) :=
  (blocks frmLenAec stream).foldl (cancelFrame F E ids refs) (E.create, [])

/-- What `process` has done with a stream; `earlier` is the output of the calls before. -/
structure Cancels (stream : List (ℕ → Word)) (earlier : ℕ → List Word) (s : Aec ε) : Prop where
  lenIn_eq : s.lenIn = stream.length % frmLenAec
  pending : ∀ mic, (List.range s.lenIn).map (s.dataIn mic) =
    (leftover frmLenAec stream).map fun column ↦ column mic
  unused : ∀ mic ∉ ids ++ refs, s.dataIn mic = fun _ ↦ 0
  engine_eq : s.engine = (cancel F E ids refs stream).1
  out : ∀ mic ∈ ids, earlier mic ++ (List.range s.lenOut).map (s.dataOut mic) =
    (cancel F E ids refs stream).2.map fun values ↦ values (place ids mic)

end Engine

variable {F : FloatOps D} {E : AecEngine ε} {ids refs : List ℕ} {stream : List (ℕ → Word)}
  {earlier : ℕ → List Word} {s : Aec ε}

theorem frmLenAec_pos : 0 < frmLenAec := by decide

theorem create_cancels : (create E).Cancels F E ids refs [] (fun _ ↦ []) where
  lenIn_eq := rfl
  pending := fun _ ↦ rfl
  unused := fun _ _ ↦ rfl
  engine_eq := rfl
  out := fun _ _ ↦ rfl

/-! ## Before the loop -/

/-- A row with `left` of its entries moved to the front. -/
def moveRow (base left : ℕ) (row : ℕ → Word) : ℕ → Word := fun i ↦
  if i < left then row (base + i) else row i

/-- What is moved is not overwritten, unless it stays where it is. -/
theorem moveRow_moveRow {base left : ℕ} (hfar : base = 0 ∨ left ≤ base) (row : ℕ → Word) :
    moveRow base left (moveRow base left row) = moveRow base left row := by
  funext i
  unfold moveRow
  obtain rfl | hle := hfar
  · simp only [Nat.zero_add, ite_self]
  · rw [if_neg (show ¬base + i < left by omega)]
    split_ifs <;> rfl

/-- The rows after the output that made up frames has been given out. -/
theorem carry_dataOut (s : Aec ε) {mic : ℕ} (hmic : mic ∈ ids) {j : ℕ}
    (hj : j < s.lenOut % frmLenOut) :
    (s.carry ids refs).dataOut mic j = s.dataOut mic (s.lenOut / frmLenOut * frmLenOut + j) := by
  have hbase : s.lenOut - s.lenOut % frmLenOut = s.lenOut / frmLenOut * frmLenOut := by
    have hdiv := Nat.div_add_mod' s.lenOut frmLenOut
    omega
  have hfar : s.lenOut / frmLenOut * frmLenOut = 0 ∨
      s.lenOut % frmLenOut ≤ s.lenOut / frmLenOut * frmLenOut := by
    obtain hzero | hpos := Nat.eq_zero_or_pos (s.lenOut / frmLenOut)
    · exact .inl (by rw [hzero, Nat.zero_mul])
    · exact .inr ((Nat.mod_lt _ (by decide)).le.trans (Nat.le_mul_of_pos_left _ hpos))
  have hloop := forMics_update (ids ++ refs)
    (fun _ ↦ moveRow (s.lenOut - s.lenOut % frmLenOut) (s.lenOut % frmLenOut))
    (fun _ ↦ moveRow_moveRow (by rw [hbase]; exact hfar)) s.dataOut mic
  rw [if_pos (List.mem_append_left refs hmic)] at hloop
  calc
    (s.carry ids refs).dataOut mic j =
        moveRow (s.lenOut - s.lenOut % frmLenOut) (s.lenOut % frmLenOut) (s.dataOut mic) j :=
      congrFun hloop j
    _ = s.dataOut mic (s.lenOut / frmLenOut * frmLenOut + j) := by rw [hbase]; exact if_pos hj

theorem Cancels.carry (h : s.Cancels F E ids refs stream earlier) :
    (s.carry ids refs).Cancels F E ids refs stream (fun mic ↦
      earlier mic ++ (List.range (s.lenOut / frmLenOut * frmLenOut)).map (s.dataOut mic)) where
  lenIn_eq := h.lenIn_eq
  pending := h.pending
  unused := h.unused
  engine_eq := h.engine_eq
  out := by
    intro mic hmic
    have htail : (List.range (s.lenOut % frmLenOut)).map ((s.carry ids refs).dataOut mic) =
        (List.range (s.lenOut % frmLenOut)).map
          (s.dataOut mic ∘ (s.lenOut / frmLenOut * frmLenOut + ·)) := by
      apply List.map_congr_left
      intro j hj
      exact carry_dataOut s hmic (List.mem_range.mp hj)
    calc
      (earlier mic ++ (List.range (s.lenOut / frmLenOut * frmLenOut)).map (s.dataOut mic)) ++
          (List.range (s.lenOut % frmLenOut)).map ((s.carry ids refs).dataOut mic) =
          earlier mic ++ (List.range
            (s.lenOut / frmLenOut * frmLenOut + s.lenOut % frmLenOut)).map (s.dataOut mic) := by
        rw [htail, List.append_assoc, List.range_add, List.map_append, List.map_map]
      _ = (cancel F E ids refs stream).2.map fun values ↦ values (place ids mic) := by
        rw [Nat.div_add_mod']
        exact h.out mic hmic

theorem Cancels.reserve (h : s.Cancels F E ids refs stream earlier) (len : ℕ) :
    (s.reserve len).Cancels F E ids refs stream earlier := by
  rw [Aec.reserve]
  split_ifs
  · refine ⟨h.lenIn_eq, h.pending, h.unused, h.engine_eq, fun mic hmic ↦ ?_⟩
    rw [← h.out mic hmic]
    congr 1
    apply List.map_congr_left
    intro j hj
    exact if_pos (List.mem_range.mp hj)
  · exact h

/-! ## A round -/

/-- A piece of the chunk in the frame. -/
theorem fill_dataIn (s : Aec ε) (piece : List (ℕ → Word)) (mic : ℕ) :
    (s.fill ids refs piece).dataIn mic =
      if mic ∈ ids ++ refs then
        writeAt (s.dataIn mic) s.lenIn (piece.map fun sample ↦ sample mic)
      else s.dataIn mic :=
  forMics_update (ids ++ refs)
    (fun mic row ↦ writeAt row s.lenIn (piece.map fun sample : ℕ → Word ↦ sample mic))
    (fun _ _ ↦ writeAt_writeAt ..) s.dataIn mic

theorem Cancels.fill_pending (h : s.Cancels F E ids refs stream earlier) (piece : List (ℕ → Word))
    (mic : ℕ) :
    (List.range (s.lenIn + piece.length)).map ((s.fill ids refs piece).dataIn mic) =
      (leftover frmLenAec stream ++ piece.map (heard ids refs)).map fun column ↦ column mic := by
  rw [fill_dataIn, List.map_append, List.map_map]
  split_ifs with hmic
  · have hpiece : (fun column ↦ column mic) ∘ heard ids refs = fun column ↦ column mic := by
      funext column
      exact if_pos hmic
    have hwrite := map_range_writeAt (h.pending mic) (piece.map fun column ↦ column mic)
    rw [List.length_map] at hwrite
    rw [hwrite, hpiece]
  · have hpiece : (fun column ↦ column mic) ∘ heard ids refs = fun _ ↦ 0 := by
      funext column
      exact if_neg hmic
    rw [List.range_add, List.map_append, h.pending mic, hpiece, h.unused mic hmic]
    congr 1
    apply List.ext_getElem
    · rw [List.length_map, List.length_map, List.length_map, List.length_range]
    · intro k hk hpiece
      rw [List.getElem_map, List.getElem_map]

/-- The frame of the object is the frame of the stream. -/
theorem engineRows_eq {frame : List (ℕ → Word)}
    (hframe : ∀ mic, (List.range frmLenAec).map (s.dataIn mic) = frame.map fun column ↦ column mic)
    (mics : List ℕ) :
    (fun k ↦ F.div64 (s.dataIn (mics.getD (k / frmLenAec) 0) (k % frmLenAec))) =
      engineRows F frame mics := by
  funext k
  have hk : k % frmLenAec < frmLenAec := Nat.mod_lt _ frmLenAec_pos
  have hrow := congrArg (fun row ↦ row[k % frmLenAec]?) (hframe (mics.getD (k / frmLenAec) 0))
  rw [List.getElem?_map, List.getElem?_map, List.getElem?_range hk, Option.map_some] at hrow
  cases hcolumn : frame[k % frmLenAec]? with
  | none =>
      rw [hcolumn] at hrow
      exact absurd hrow (Option.some_ne_none _)
  | some column =>
      rw [hcolumn, Option.map_some, Option.some_inj] at hrow
      have hget : frame.getD (k % frmLenAec) (fun _ ↦ 0) = column := by
        rw [List.getD_eq_getElem?_getD, hcolumn, Option.getD_some]
      rw [engineRows, hget, hrow]

theorem processFrm_engine {frame : List (ℕ → Word)}
    (hframe : ∀ mic, (List.range frmLenAec).map (s.dataIn mic) = frame.map fun column ↦ column mic)
    (out : List (ℕ → Word)) :
    (s.processFrm F E ids refs).engine = (cancelFrame F E ids refs (s.engine, out) frame).1 := by
  rw [cancelFrame, ← engineRows_eq hframe, ← engineRows_eq hframe]
  rfl

/-- The output of a frame, behind the output so far. -/
theorem processFrm_dataOut {frame : List (ℕ → Word)}
    (hframe : ∀ mic, (List.range frmLenAec).map (s.dataIn mic) = frame.map fun column ↦ column mic)
    {front : List Word} {out : List (ℕ → Word)} {mic : ℕ} (hmic : mic ∈ ids)
    (hout : front ++ (List.range s.lenOut).map (s.dataOut mic) =
      out.map fun values ↦ values (place ids mic)) :
    front ++ (List.range (s.lenOut + frmLenAec)).map ((s.processFrm F E ids refs).dataOut mic) =
      (cancelFrame F E ids refs (s.engine, out) frame).2.map
        fun values ↦ values (place ids mic) := by
  set answer := E.process (E.bufferFarend s.engine (engineRows F frame refs))
    (engineRows F frame ids) with hanswer
  have hrow : ∀ k, (s.processFrm F E ids refs).dataOut mic k =
      if s.lenOut ≤ k ∧ k < s.lenOut + frmLenAec then
        F.mul64 (answer.2.1 (place ids mic * frmLenAec + (k - s.lenOut)))
      else s.dataOut mic k := by
    intro k
    have hloop := forMics_stretch ids (fun k ↦ s.lenOut ≤ k ∧ k < s.lenOut + frmLenAec)
      (fun j k ↦ F.mul64 (answer.2.1 (j * frmLenAec + (k - s.lenOut)))) s.dataOut mic k
    simp only [hmic, true_and] at hloop
    rw [← hloop, hanswer, ← engineRows_eq hframe, ← engineRows_eq hframe]
    rfl
  calc
    front ++ (List.range (s.lenOut + frmLenAec)).map ((s.processFrm F E ids refs).dataOut mic) =
        (front ++ (List.range s.lenOut).map (s.dataOut mic)) ++
          (List.range frmLenAec).map fun k ↦
            F.mul64 (answer.2.1 (place ids mic * frmLenAec + k)) := by
      rw [List.range_add, List.map_append, List.map_map, List.append_assoc]
      congr 2
      · apply List.map_congr_left
        intro k hk
        rw [hrow, if_neg fun h ↦ Nat.not_le.mpr (List.mem_range.mp hk) h.1]
      · apply List.map_congr_left
        intro k hk
        have hlt : s.lenOut + k < s.lenOut + frmLenAec :=
          Nat.add_lt_add_left (List.mem_range.mp hk) _
        rw [Function.comp_apply, hrow, if_pos ⟨Nat.le_add_right .., hlt⟩, Nat.add_sub_cancel_left]
    _ = _ := by
      rw [hout, cancelFrame, List.map_append, List.map_map]
      rfl

theorem cancel_append (F : FloatOps D) (E : AecEngine ε) (ids refs : List ℕ)
    (stream more : List (ℕ → Word)) :
    cancel F E ids refs (stream ++ more) =
      (blocks frmLenAec (leftover frmLenAec stream ++ more)).foldl (cancelFrame F E ids refs)
        (cancel F E ids refs stream) := by
  rw [cancel, blocks_append frmLenAec_pos, List.foldl_append]
  rfl

theorem Cancels.length_pending (h : s.Cancels F E ids refs stream earlier)
    (piece : List (ℕ → Word)) :
    (leftover frmLenAec stream ++ piece.map (heard ids refs)).length = s.lenIn + piece.length := by
  rw [List.length_append, leftover_length, ← h.lenIn_eq, List.length_map]

theorem Cancels.length_mod (h : s.Cancels F E ids refs stream earlier)
    (piece : List (ℕ → Word)) :
    (stream ++ piece.map (heard ids refs)).length % frmLenAec =
      (s.lenIn + piece.length) % frmLenAec := by
  rw [h.lenIn_eq, List.length_append, List.length_map, Nat.mod_add_mod]

theorem Cancels.fill_unused (h : s.Cancels F E ids refs stream earlier) (piece : List (ℕ → Word))
    (mic : ℕ) (hmic : mic ∉ ids ++ refs) : (s.fill ids refs piece).dataIn mic = fun _ ↦ 0 := by
  rw [fill_dataIn, if_neg hmic]
  exact h.unused mic hmic

/-- A piece that does not fill the frame. -/
theorem Cancels.fill_of_short (h : s.Cancels F E ids refs stream earlier) {piece : List (ℕ → Word)}
    (hpiece : s.lenIn + piece.length < frmLenAec) :
    (s.fill ids refs piece).Cancels F E ids refs (stream ++ piece.map (heard ids refs)) earlier := by
  have hshort : (leftover frmLenAec stream ++ piece.map (heard ids refs)).length < frmLenAec :=
    (h.length_pending piece).trans_lt hpiece
  have hcancel : cancel F E ids refs (stream ++ piece.map (heard ids refs)) =
      cancel F E ids refs stream := by
    rw [cancel_append, blocks_of_length_lt hshort]
    rfl
  refine ⟨?_, fun mic ↦ ?_, h.fill_unused piece, ?_, fun mic hmic ↦ ?_⟩
  · rw [h.length_mod, Nat.mod_eq_of_lt hpiece]
    rfl
  · rw [leftover_append frmLenAec_pos, leftover_of_length_lt hshort]
    exact h.fill_pending piece mic
  · rw [hcancel]
    exact h.engine_eq
  · rw [hcancel]
    exact h.out mic hmic

/-- A piece that fills the frame, which is given to the engine. -/
theorem Cancels.fill_of_full (h : s.Cancels F E ids refs stream earlier) {piece : List (ℕ → Word)}
    (hpiece : s.lenIn + piece.length = frmLenAec) :
    ((s.fill ids refs piece).processFrm F E ids refs).Cancels F E ids refs
      (stream ++ piece.map (heard ids refs)) earlier := by
  have hpending := h.fill_pending piece
  rw [hpiece] at hpending
  have hend : (leftover frmLenAec stream ++ piece.map (heard ids refs)).length = frmLenAec :=
    (h.length_pending piece).trans hpiece
  have hcancel : cancel F E ids refs (stream ++ piece.map (heard ids refs)) =
      cancelFrame F E ids refs (cancel F E ids refs stream)
        (leftover frmLenAec stream ++ piece.map (heard ids refs)) := by
    rw [cancel_append, blocks_of_length_eq frmLenAec_pos hend]
    rfl
  refine ⟨?_, fun mic ↦ ?_, h.fill_unused piece, ?_, fun mic hmic ↦ ?_⟩
  · rw [h.length_mod, hpiece, Nat.mod_self]
    rfl
  · rw [leftover_append frmLenAec_pos, leftover_of_length_eq frmLenAec_pos hend]
    rfl
  · rw [hcancel, processFrm_engine hpending (cancel F E ids refs stream).2]
    exact congrArg (fun engine ↦ (cancelFrame F E ids refs (engine, _) _).1) h.engine_eq
  · have hout := @processFrm_dataOut _ _ F E ids refs (s.fill ids refs piece) _ hpending (earlier mic) _
      mic hmic (h.out mic hmic)
    rw [hcancel]
    exact hout.trans (by rw [show (s.fill ids refs piece).engine = _ from h.engine_eq])

/-- **One round of the loop.** -/
theorem Cancels.round (h : s.Cancels F E ids refs stream earlier) {piece : List (ℕ → Word)}
    (hpiece : s.lenIn + piece.length ≤ frmLenAec) :
    (if (s.fill ids refs piece).lenIn = frmLenAec then
      (s.fill ids refs piece).processFrm F E ids refs
    else s.fill ids refs piece).Cancels F E ids refs (stream ++ piece.map (heard ids refs))
      earlier := by
  split_ifs with hfull
  · exact h.fill_of_full hfull
  · exact h.fill_of_short (Nat.lt_of_le_of_ne hpiece hfull)

/-! ## Calls -/

/-- **One call.** -/
theorem Cancels.process (h : s.Cancels F E ids refs stream earlier) (data : Rows) (len : ℕ) :
    (s.process F E ids refs data len).1.Cancels F E ids refs
      (stream ++ ((List.range len).map fun j mic ↦ data mic j).map (heard ids refs))
      (fun mic ↦
        earlier mic ++ (List.range (s.lenOut / frmLenOut * frmLenOut)).map (s.dataOut mic)) := by
  have hstart := h.carry.reserve len
  exact windowLoop_inv (l := [])
    (fun l (t : Aec ε) ↦ t.Cancels F E ids refs (stream ++ l.map (heard ids refs)) (fun mic ↦
      earlier mic ++ (List.range (s.lenOut / frmLenOut * frmLenOut)).map (s.dataOut mic)))
    (fun l t ht ↦ ht.lenIn_eq ▸ Nat.mod_lt _ frmLenAec_pos)
    (fun l t piece ht hpiece ↦ by
      rw [List.map_append, ← List.append_assoc]
      exact ht.round hpiece)
    (by rw [List.length_map, List.length_range]) (by rw [List.map_nil, List.append_nil]; exact hstart)

/-- The states a call goes through. -/
def states (F : FloatOps D) (E : AecEngine ε) (ids refs : List ℕ) (s : Aec ε) (data : Rows)
    (len : ℕ) : List (Aec ε) :=
  s.carry ids refs :: windowStates frmLenAec lenIn (fill ids refs) (processFrm F E ids refs) len
    ((List.range len).map fun j mic ↦ data mic j) ((s.carry ids refs).reserve len)

/-- Neither index is behind its buffer. -/
def Within (s : Aec ε) : Prop := s.lenIn ≤ frmLenAec ∧ s.lenOut ≤ s.lenOutTotal

theorem process_mem_states (s : Aec ε) (data : Rows) (len : ℕ) :
    (s.process F E ids refs data len).1 ∈ s.states F E ids refs data len := by
  apply List.mem_cons_of_mem
  exact List.mem_of_getLast? (getLast?_windowStates ..)

/-- **No index leaves its buffer.**  What is still to come of the chunk has its place in the reserve. -/
theorem states_within (h : s.Within) (hlt : s.lenIn < frmLenAec) (data : Rows) (len : ℕ) :
    ∀ t ∈ s.states F E ids refs data len, t.Within := by
  have hcarry : (s.carry ids refs).Within := ⟨h.1, (Nat.mod_le ..).trans h.2⟩
  have hreserve : ((s.carry ids refs).reserve len).lenIn < frmLenAec ∧
      ((s.carry ids refs).reserve len).lenOut + ((s.carry ids refs).reserve len).lenIn + len ≤
        ((s.carry ids refs).reserve len).lenOutTotal := by
    unfold reserve
    split_ifs with hsmall
    · exact ⟨hlt, by dsimp only; omega⟩
    · exact ⟨hlt, by omega⟩
  have hloop : ∀ t ∈ windowStates frmLenAec lenIn (fill ids refs) (processFrm F E ids refs) len
      ((List.range len).map fun j mic ↦ data mic j) ((s.carry ids refs).reserve len), t.Within := by
    refine @windowStates_all _ frmLenAec _ lenIn (fill ids refs) (processFrm F E ids refs) Within
      (fun rest t ↦ t.lenIn < frmLenAec ∧ t.lenOut + t.lenIn + rest.length ≤ t.lenOutTotal)
      (fun rest t ht ↦ ⟨ht.1.le, by omega⟩) ?_ (fun rest t ht ↦ ht.1.le) len _ _ ?_
    · intro piece rest t ht hpiece
      rw [List.length_append] at ht
      have hfill : t.lenIn + piece.length ≤ frmLenAec ∧ t.lenOut ≤ t.lenOutTotal :=
        ⟨hpiece, by omega⟩
      refine ⟨hfill, ?_⟩
      split_ifs with hfull
      · replace hfull : t.lenIn + piece.length = frmLenAec := hfull
        refine ⟨frmLenAec_pos, ?_⟩
        change t.lenOut + frmLenAec + 0 + rest.length ≤ t.lenOutTotal
        omega
      · replace hfull : t.lenIn + piece.length ≠ frmLenAec := hfull
        refine ⟨Nat.lt_of_le_of_ne hpiece hfull, ?_⟩
        change t.lenOut + (t.lenIn + piece.length) + rest.length ≤ t.lenOutTotal
        omega
    · rw [List.length_map, List.length_range]
      exact hreserve
  intro t ht
  obtain rfl | ht := List.mem_cons.mp ht
  · exact hcarry
  · exact hloop t ht

/-- An object over its calls, with the samples given to it and its output for every microphone. -/
structure Session (ε : Type*) where
  aec : Aec ε
  given : List (ℕ → Word)
  out : ℕ → List Word

namespace Session

/-- A new object. -/
def create (E : AecEngine ε) : Session ε := ⟨Aec.create E, [], fun _ ↦ []⟩

/-- The next call: the rows and their length. -/
def step (F : FloatOps D) (E : AecEngine ε) (ids refs : List ℕ) (s : Session ε)
    (call : Rows × ℕ) : Session ε :=
  let result := s.aec.process F E ids refs call.1 call.2
  { aec := result.1
    given := s.given ++ (List.range call.2).map fun j mic ↦ call.1 mic j
    out := fun mic ↦ s.out mic ++ (List.range result.2).map (result.1.dataOut mic) }

variable {F : FloatOps D} {E : AecEngine ε} {ids refs : List ℕ}

/-- What holds between the calls; the output of the last call is still in the rows. -/
structure Inv (F : FloatOps D) (E : AecEngine ε) (ids refs : List ℕ) (s : Session ε) : Prop where
  within : s.aec.Within
  cancels : ∃ earlier, s.aec.Cancels F E ids refs (s.given.map (heard ids refs)) earlier ∧
    ∀ mic, s.out mic = earlier mic ++
      (List.range (s.aec.lenOut / frmLenOut * frmLenOut)).map (s.aec.dataOut mic)

theorem create_inv : (create E).Inv F E ids refs where
  within := ⟨Nat.zero_le _, Nat.zero_le _⟩
  cancels := ⟨_, create_cancels, fun _ ↦ by simp [create, Aec.create]⟩

theorem Inv.lenIn_lt {s : Session ε} (h : s.Inv F E ids refs) : s.aec.lenIn < frmLenAec := by
  obtain ⟨earlier, hcancels, -⟩ := h.cancels
  rw [hcancels.lenIn_eq]
  exact Nat.mod_lt _ frmLenAec_pos

theorem Inv.step {s : Session ε} (h : s.Inv F E ids refs) (call : Rows × ℕ) :
    (s.step F E ids refs call).Inv F E ids refs where
  within := states_within h.within h.lenIn_lt call.1 call.2 _ (process_mem_states ..)
  cancels := by
    obtain ⟨earlier, hcancels, hout⟩ := h.cancels
    have hcall := hcancels.process call.1 call.2
    rw [← List.map_append] at hcall
    refine ⟨_, hcall, fun mic ↦ ?_⟩
    rw [← hout mic]
    rfl

theorem run_inv (calls : List (Rows × ℕ)) :
    (run (step F E ids refs) (create E) calls).Inv F E ids refs :=
  run_keeps (fun _ call h ↦ h.step call) create_inv calls

end Session

/-- **The re-blocking.**  For any split of the rows into calls, the output for a microphone is what the
engine gives for it on the consecutive frames, up to less than one output frame that is held back; and
in the next call no index leaves its buffer. -/
theorem reblocks (F : FloatOps D) (E : AecEngine ε) (ids refs : List ℕ) (calls : List (Rows × ℕ)) :
    let s := run (Session.step F E ids refs) (Session.create E) calls
    (∀ mic ∈ ids, ∃ held, held.length < frmLenOut ∧
      s.out mic ++ held = (cancel F E ids refs (s.given.map (heard ids refs))).2.map
        fun values ↦ values (place ids mic)) ∧
      ∀ (data : Rows) (len : ℕ), ∀ t ∈ s.aec.states F E ids refs data len, t.Within := by
  intro s
  have hinv : s.Inv F E ids refs := Session.run_inv calls
  refine ⟨fun mic hmic ↦ ?_, fun data len ↦ states_within hinv.within hinv.lenIn_lt data len⟩
  obtain ⟨earlier, hcancels, hout⟩ := hinv.cancels
  refine ⟨(List.range (s.aec.lenOut % frmLenOut)).map
    (s.aec.dataOut mic ∘ (s.aec.lenOut / frmLenOut * frmLenOut + ·)), ?_, ?_⟩
  · rw [List.length_map, List.length_range]
    exact Nat.mod_lt _ (by decide)
  · rw [hout mic, ← hcancels.out mic hmic, List.append_assoc, ← List.map_map, ← List.map_append,
      ← List.range_add, Nat.div_add_mod']

end Aec

end Vsys.R2ad
