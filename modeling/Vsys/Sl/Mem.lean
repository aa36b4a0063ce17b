import Mathlib.Algebra.BigOperators.Group.List.Basic
import Mathlib.Algebra.Order.Ring.Rat
import Mathlib.Data.List.Induction
import Vsys.Stream.Ring
import Vsys.Stream.Windows
import Vsys.Trace.Run

/-!
# Sound-source localisation `ZSlMem`

`PutData` cuts the stream into overlapping frames and stores the scores of every frame in a ring of
20 seconds, which `Reset` does not clear.  `GetCandidates` adds the scores of the frames between two
distances from the end, at least four of them, and returns the best sector.

A sample is the column of all microphones.  `ProcessSingleFrm` up to the store is a function of the
window.
-/

namespace Vsys.Sl

open Vsys.Stream Vsys.Trace

/-- `m_iWin`. -/
def slWin : ℕ := 1024

/-- `m_iSft`. -/
def slSft : ℕ := 256

/-- `m_iLoopSize`: the frames of 20 seconds. -/
def loopSize : ℕ := 20 * 16000 / slSft

/-- `m_iSectorNum`. -/
def sectorNum : ℕ := 72

/-- A sample of all microphones. -/
abbrev Sample (micNum : ℕ) := Fin micNum → ℚ

/-- The window buffer and the ring of scores. -/
structure ZSlMem (micNum : ℕ) where
  iPos : ℕ
  matWin : ℕ → Sample micNum
  loopPos : ℕ
  loopMat : ℕ → ℕ → ℚ

namespace ZSlMem

variable {micNum : ℕ}

/-- The constructor; the buffers come with what is in the memory. -/
def create (matWin : ℕ → Sample micNum) (loopMat : ℕ → ℕ → ℚ) : ZSlMem micNum where
  iPos := 0
  matWin := matWin
  loopPos := 0
  loopMat := loopMat

/-- `Reset`. -/
def reset (m : ZSlMem micNum) : ZSlMem micNum := { m with iPos := 0, loopPos := 0 }

variable (score : List (Sample micNum) → ℕ → ℚ)

/-- `ProcessSingleFrm`: the scores of the window go into the ring. -/
def processSingleFrm (m : ZSlMem micNum) : ZSlMem micNum :=
  { m with
    loopMat := Function.update m.loopMat m.loopPos (score ((List.range slWin).map m.matWin))
    loopPos := if m.loopPos + 1 = loopSize then 0 else m.loopPos + 1 }

/-- The first half of a round of `PutData`. -/
def fill (m : ZSlMem micNum) (piece : List (Sample micNum)) : ZSlMem micNum :=
  { m with iPos := m.iPos + piece.length, matWin := writeAt m.matWin m.iPos piece }

/-- The second half, for a full window: its end is moved to the front through `m_pData_NoNew`. -/
def full (m : ZSlMem micNum) : ZSlMem micNum :=
  let iLeft := slWin - slSft
  let t := m.processSingleFrm score
  { t with
    iPos := iLeft
    matWin := fun j ↦ if j < iLeft then t.matWin (slSft + j) else t.matWin j }

/-- `PutData`. -/
def putData (m : ZSlMem micNum) (data : List (Sample micNum)) : ZSlMem micNum :=
  windowLoop slWin iPos fill (full score) data.length data m

/-- The row of `m_pLoopMat` for a position that may be negative. -/
def loopRow (pos : ℤ) : ℕ := if 0 ≤ pos then pos.toNat else (pos % loopSize).toNat

/-- The first and the last frame, counted from the end; the divisions are those of C. -/
def frmRange (iStartPos iEndPos : ℕ) : ℤ × ℤ :=
  let iStartFrm := ((iStartPos : ℤ) - slWin).tdiv slSft + 1
  let iEndFrm := (iEndPos : ℤ).tdiv slSft
  (if iStartFrm < iEndFrm + 4 then iEndFrm + 4 else iStartFrm, iEndFrm)

/-- The rows `GetCandidates` adds, in its order. -/
def candidateRows (m : ZSlMem micNum) (iStartPos iEndPos : ℕ) : List ℕ :=
  let range := frmRange iStartPos iEndPos
  (List.range (range.1 - range.2).toNat).map fun k : ℕ ↦
    loopRow ((m.loopPos : ℤ) - (range.1 - (k : ℤ)))

/-- `m_pScore` after the loop over the frames. -/
def totals (m : ZSlMem micNum) (iStartPos iEndPos : ℕ) : ℕ → ℚ :=
  (m.candidateRows iStartPos iEndPos).foldl (fun total row j ↦ total j + m.loopMat row j) fun _ ↦ 0

/-- The loop over the sectors. -/
def maxId (total : ℕ → ℚ) : ℕ → ℕ
  | 0 => 0
  | n + 1 => if total (maxId total n) < total n then n else maxId total n

/-- `GetCandidates`: the sector whose entry of `m_pSectorInfo` is returned. -/
def getCandidates (m : ZSlMem micNum) (iStartPos iEndPos : ℕ) : ℕ :=
  maxId (m.totals iStartPos iEndPos) sectorNum

end ZSlMem

/-- A call that changes the state. -/
inductive SlOp (micNum : ℕ)
  | putData (data : List (Sample micNum))
  | reset

/-- The effect of a call. -/
def SlOp.apply {micNum : ℕ} (score : List (Sample micNum) → ℕ → ℚ) (m : ZSlMem micNum) :
    SlOp micNum → ZSlMem micNum
  | .putData data => m.putData score data
  | .reset => m.reset

/-- The stream since the last `Reset`. -/
def stream {micNum : ℕ} (ops : List (SlOp micNum)) : List (Sample micNum) :=
  ops.foldl (fun samples op ↦
    match op with
    | .putData data => samples ++ data
    | .reset => []) []

/-- The number of complete frames. -/
def frameCount {micNum : ℕ} (samples : List (Sample micNum)) : ℕ :=
  windowCount slWin slSft samples.length

/-- The scores of a frame. -/
def frameScore {micNum : ℕ} (score : List (Sample micNum) → ℕ → ℚ) (samples : List (Sample micNum))
    (frame : ℕ) : ℕ → ℚ :=
  score (window slWin slSft frame samples)

/-! ## The ring of scores -/

namespace ZSlMem

variable {micNum : ℕ} {score : List (Sample micNum) → ℕ → ℚ}

/-- The window buffer carries on the stream, and the ring holds the scores of its frames. -/
structure Inv (score : List (Sample micNum) → ℕ → ℚ) (samples : List (Sample micNum))
    (m : ZSlMem micNum) : Prop where
  iPos_lt : m.iPos < slWin
  carried : ∃ count, Carried slSft samples count m.iPos m.matWin ∧
    (count = 0 ∨ slWin - slSft ≤ m.iPos) ∧
    Holds loopSize m.loopPos m.loopMat ((List.range count).map (frameScore score samples))
  loopPos_lt : m.loopPos < loopSize

theorem inv_of_empty {m : ZSlMem micNum} (hiPos : m.iPos = 0) (hloopPos : m.loopPos = 0) :
    Inv score [] m where
  iPos_lt := by rw [hiPos]; decide
  carried := ⟨0, by rw [hiPos]; exact carried_nil _ _, .inl rfl, holds_nil _ _ _⟩
  loopPos_lt := by rw [hloopPos]; decide

/-- Frames that are complete keep their scores when the stream goes on. -/
theorem map_frameScore_append {samples : List (Sample micNum)} {count : ℕ}
    (hcount : count = 0 ∨ count * slSft + (slWin - slSft) ≤ samples.length)
    (piece : List (Sample micNum)) :
    (List.range count).map (frameScore score (samples ++ piece)) =
      (List.range count).map (frameScore score samples) := by
  apply List.map_congr_left
  intro frame hframe
  have hlt := List.mem_range.mp hframe
  have hmul : (frame + 1) * slSft ≤ count * slSft := Nat.mul_le_mul_right slSft hlt
  have hwin : slWin = slSft + (slWin - slSft) := rfl
  rw [Nat.add_mul, Nat.one_mul] at hmul
  rw [frameScore, frameScore, window_append (by omega)]

theorem Inv.round {samples : List (Sample micNum)} {m : ZSlMem micNum} (h : Inv score samples m)
    {piece : List (Sample micNum)} (hpiece : m.iPos + piece.length ≤ slWin) :
    Inv score (samples ++ piece)
      (if (m.fill piece).iPos = slWin then (m.fill piece).full score else m.fill piece) := by
  obtain ⟨-, ⟨count, hcarried, hleft, hholds⟩, hloop⟩ := h
  have hfilled : Carried slSft (samples ++ piece) count (m.iPos + piece.length)
      (m.fill piece).matWin := hcarried.fill piece
  have hlength := hcarried.length_eq
  have hscores : (List.range count).map (frameScore score (samples ++ piece)) = _ :=
    map_frameScore_append (hleft.imp_right fun hle ↦ by omega) piece
  rw [← hscores] at hholds
  split_ifs with hfull
  · have hwindow : Carried slSft (samples ++ piece) count slWin (m.fill piece).matWin :=
      hfull ▸ hfilled
    refine ⟨(by decide : slWin - slSft < slWin), ⟨count + 1,
      hwindow.shift (by decide) fun j hj ↦ if_pos hj, .inr (Nat.le_refl _), ?_⟩, ?_⟩
    · have hpush := hholds.push hloop (frameScore score (samples ++ piece) count)
      rw [List.range_succ, List.map_append, List.map_singleton]
      have hpos : ((m.fill piece).full score).loopPos = ahead loopSize m.loopPos 1 := by
        show (if m.loopPos + 1 = loopSize then 0 else m.loopPos + 1) = _
        rw [ahead]
        split_ifs <;> omega
      have hmat : ((m.fill piece).full score).loopMat = Function.update m.loopMat m.loopPos
          (frameScore score (samples ++ piece) count) := by
        rw [frameScore, ← hwindow.window]
        rfl
      rw [hpos, hmat]
      exact hpush
    · show (if m.loopPos + 1 = loopSize then 0 else m.loopPos + 1) < loopSize
      split_ifs <;> omega
  · refine ⟨Nat.lt_of_le_of_ne hpiece hfull, ⟨count, hfilled, ?_, hholds⟩, hloop⟩
    exact hleft.imp_right fun hle ↦ Nat.le_trans hle (Nat.le_add_right _ _)

theorem Inv.putData {samples : List (Sample micNum)} {m : ZSlMem micNum} (h : Inv score samples m)
    (data : List (Sample micNum)) : Inv score (samples ++ data) (m.putData score data) :=
  windowLoop_inv (Inv score) (fun _ _ h ↦ h.iPos_lt) (fun _ _ _ h hpiece ↦ h.round hpiece)
    (Nat.le_refl _) h

/-- The state after some calls. -/
def after (score : List (Sample micNum) → ℕ → ℚ) (start : ZSlMem micNum) (ops : List (SlOp micNum)) :
    ZSlMem micNum :=
  run (SlOp.apply score) start ops

theorem inv_after (matWin : ℕ → Sample micNum) (loopMat : ℕ → ℕ → ℚ) (ops : List (SlOp micNum)) :
    Inv score (stream ops) (after score (create matWin loopMat) ops) := by
  induction ops using List.reverseRecOn with
  | nil => exact inv_of_empty rfl rfl
  | append_singleton ops op ih =>
      rw [stream, List.foldl_concat, after, run_append]
      cases op with
      | putData data => exact ih.putData data
      | reset => exact inv_of_empty rfl rfl

/-- The row at a distance within the ring is that of the frame at that distance. -/
theorem Inv.loopMat_eq {samples : List (Sample micNum)} {m : ZSlMem micNum}
    (h : Inv score samples m) {d : ℕ} (hd : 1 ≤ d) (hring : d ≤ loopSize)
    (hframes : d ≤ frameCount samples) :
    m.loopMat (back loopSize m.loopPos d) = frameScore score samples (frameCount samples - d) := by
  obtain ⟨hpos, ⟨count, hcarried, hleft, hholds⟩, hloop⟩ := h
  have hcount : count = frameCount samples := hcarried.count_eq (by decide) hpos hleft
  subst hcount
  have hcell := hholds d hd hring (by simpa using hframes)
  rw [List.length_map, List.length_range, List.getElem?_map, List.getElem?_range (by omega),
    Option.map_some, Option.some_inj] at hcell
  exact hcell.symm

theorem loopRow_eq_back {loopPos d : ℕ} (hd : d ≤ loopSize) :
    loopRow ((loopPos : ℤ) - d) = back loopSize loopPos d := by
  rw [loopRow, back]
  split_ifs with hneg hle
  · omega
  · omega
  · omega
  · have hmod : ((loopPos : ℤ) - d) % loopSize = (loopPos : ℤ) - d + loopSize := by
      rw [← Int.add_emod_right, Int.emod_eq_of_lt] <;> omega
    rw [hmod]
    omega

/-! ## The best sector -/

/-- The sector with the largest total, the lowest one on ties. -/
def IsBest (total : ℕ → ℚ) (sector : ℕ) : Prop :=
  sector < sectorNum ∧
    ∀ j < sectorNum, total j ≤ total sector ∧ (total j = total sector → sector ≤ j)

theorem maxId_spec (total : ℕ → ℚ) (n : ℕ) :
    maxId total (n + 1) < n + 1 ∧ ∀ j < n + 1, total j ≤ total (maxId total (n + 1)) ∧
      (total j = total (maxId total (n + 1)) → maxId total (n + 1) ≤ j) := by
  induction n with
  | zero =>
      have hzero : maxId total 1 = 0 := by simp [maxId]
      rw [hzero]
      refine ⟨Nat.one_pos, fun j hj ↦ ?_⟩
      obtain rfl : j = 0 := by omega
      exact ⟨le_refl _, fun _ ↦ Nat.zero_le _⟩
  | succ n ih =>
      obtain ⟨hlt, hbest⟩ := ih
      rw [maxId]
      split_ifs with hless
      · refine ⟨Nat.lt_succ_self _, fun j hj ↦ ?_⟩
        obtain hj | rfl := Nat.lt_succ_iff_lt_or_eq.mp hj
        · have hj' := lt_of_le_of_lt (hbest j hj).1 hless
          exact ⟨hj'.le, fun heq ↦ absurd heq hj'.ne⟩
        · exact ⟨le_refl _, fun _ ↦ Nat.le_refl _⟩
      · refine ⟨Nat.lt_succ_of_lt hlt, fun j hj ↦ ?_⟩
        obtain hj | rfl := Nat.lt_succ_iff_lt_or_eq.mp hj
        · exact hbest j hj
        · exact ⟨not_lt.mp hless, fun _ ↦ hlt.le⟩

theorem isBest_maxId (total : ℕ → ℚ) : IsBest total (maxId total sectorNum) :=
  maxId_spec total 71

theorem foldl_totals (f : ℕ → ℕ → ℚ) (rows : List ℕ) (total : ℕ → ℚ) (j : ℕ) :
    rows.foldl (fun total row j ↦ total j + f row j) total j =
      total j + (rows.map fun row ↦ f row j).sum := by
  induction rows generalizing total with
  | nil => simp
  | cons row rows ih => rw [List.foldl_cons, ih, List.map_cons, List.sum_cons, add_assoc]

theorem totals_apply (m : ZSlMem micNum) (iStartPos iEndPos j : ℕ) :
    m.totals iStartPos iEndPos j =
      ((m.candidateRows iStartPos iEndPos).map fun row ↦ m.loopMat row j).sum := by
  rw [totals, foldl_totals, zero_add]

/-! ## The frames of a question -/

/-- The first frame of a question, counted from the end. -/
def spanStart (iStartPos iEndPos : ℕ) : ℕ :=
  max ((iStartPos - slWin) / slSft + 1) (iEndPos / slSft + 4)

theorem frmRange_eq (iStartPos iEndPos : ℕ) :
    frmRange iStartPos iEndPos =
      ((spanStart iStartPos iEndPos : ℤ), ((iEndPos / slSft : ℕ) : ℤ)) := by
  have hend : (iEndPos : ℤ).tdiv slSft = ((iEndPos / slSft : ℕ) : ℤ) := rfl
  rw [frmRange, hend, spanStart]
  generalize iEndPos / slSft = iEndFrm
  -- below one window both sides take the four frames
  obtain hwin | hwin := Nat.lt_or_ge iStartPos slWin
  · have hstart : ((iStartPos : ℤ) - slWin).tdiv slSft ≤ 0 := by
      have hneg : (iStartPos : ℤ) - slWin = -((slWin - iStartPos : ℕ) : ℤ) := by omega
      rw [hneg, Int.neg_tdiv]
      exact Int.neg_nonpos_of_nonneg (Int.tdiv_nonneg (Int.natCast_nonneg _) (by decide))
    have hzero : (iStartPos - slWin) / slSft = 0 := by
      rw [Nat.sub_eq_zero_of_le hwin.le, Nat.zero_div]
    rw [if_pos (by omega), hzero, Nat.max_eq_right (by omega)]
    rfl
  · have hstart : ((iStartPos : ℤ) - slWin).tdiv slSft =
        (((iStartPos - slWin) / slSft : ℕ) : ℤ) := by
      rw [← Nat.cast_sub hwin]
      rfl
    rw [hstart]
    split_ifs with hless
    · rw [Nat.max_eq_right (by omega)]
      rfl
    · rw [Nat.max_eq_left (by omega)]
      rfl

/-- The total of a sector over the frames of a question. -/
def spanTotal (score : List (Sample micNum) → ℕ → ℚ) (samples : List (Sample micNum))
    (iStartPos iEndPos j : ℕ) : ℚ :=
  let a := spanStart iStartPos iEndPos
  ((List.range (a - iEndPos / slSft)).map fun k ↦
    frameScore score samples (frameCount samples - a + k) j).sum

theorem spanStart_le_frameCount {iStartPos iEndPos : ℕ} {samples : List (Sample micNum)}
    (hstart : iStartPos ≤ samples.length) (hframes : iEndPos / slSft + 4 ≤ frameCount samples) :
    spanStart iStartPos iEndPos ≤ frameCount samples := by
  rw [spanStart, Nat.max_le]
  refine ⟨?_, hframes⟩
  simp only [frameCount, windowCount, slWin, slSft] at hframes ⊢
  omega

theorem spanStart_le_loopSize {iStartPos iEndPos : ℕ} (hstart : iStartPos < loopSize * slSft)
    (hend : iEndPos / slSft + 4 ≤ loopSize) : spanStart iStartPos iEndPos ≤ loopSize := by
  rw [spanStart, Nat.max_le]
  refine ⟨?_, hend⟩
  simp only [loopSize, slWin, slSft] at hstart ⊢
  omega

theorem Inv.totals_eq {samples : List (Sample micNum)} {m : ZSlMem micNum}
    (h : Inv score samples m) {iStartPos iEndPos : ℕ}
    (hring : spanStart iStartPos iEndPos ≤ loopSize)
    (hframes : spanStart iStartPos iEndPos ≤ frameCount samples) (j : ℕ) :
    m.totals iStartPos iEndPos j = spanTotal score samples iStartPos iEndPos j := by
  have hlen : ((spanStart iStartPos iEndPos : ℤ) - ((iEndPos / slSft : ℕ) : ℤ)).toNat =
      spanStart iStartPos iEndPos - iEndPos / slSft := by omega
  rw [totals_apply, candidateRows, frmRange_eq, spanTotal, List.map_map]
  dsimp only
  rw [hlen]
  generalize iEndPos / slSft = iEndFrm
  congr 1
  apply List.map_congr_left
  intro k hk
  have hlt := List.mem_range.mp hk
  have hcast : (m.loopPos : ℤ) - ((spanStart iStartPos iEndPos : ℤ) - (k : ℤ)) =
      (m.loopPos : ℤ) - ((spanStart iStartPos iEndPos - k : ℕ) : ℤ) := by omega
  have hframe : frameCount samples - (spanStart iStartPos iEndPos - k) =
      frameCount samples - spanStart iStartPos iEndPos + k := by omega
  rw [Function.comp_apply, hcast, loopRow_eq_back (by omega),
    h.loopMat_eq (by omega) (by omega) (by omega), hframe]

/-- **The direction is that of the frames asked for.** For every split of the stream since the last
`Reset`, and for positions whose four last frames are still in the ring, the result is the sector
with the largest total over exactly the frames between the two positions. -/
theorem getCandidates_isBest (matWin : ℕ → Sample micNum) (loopMat : ℕ → ℕ → ℚ)
    (ops : List (SlOp micNum)) (iStartPos iEndPos : ℕ)
    (hstream : iStartPos ≤ (stream ops).length) (hstart : iStartPos < loopSize * slSft)
    (hframes : iEndPos / slSft + 4 ≤ frameCount (stream ops))
    (hend : iEndPos / slSft + 4 ≤ loopSize) :
    IsBest (spanTotal score (stream ops) iStartPos iEndPos)
      ((after score (create matWin loopMat) ops).getCandidates iStartPos iEndPos) := by
  have htotals : (after score (create matWin loopMat) ops).totals iStartPos iEndPos =
      spanTotal score (stream ops) iStartPos iEndPos := by
    funext j
    exact (inv_after matWin loopMat ops).totals_eq (spanStart_le_loopSize hstart hend)
      (spanStart_le_frameCount hstream hframes) j
  rw [getCandidates, htotals]
  exact isBest_maxId _

/-- One microphone, the value `1` and then silence. -/
def click (length : ℕ) : List (Sample 1) := (fun _ ↦ 1) :: List.replicate length fun _ ↦ 0

/-- A score that gives the first value of a window to the sector with number 1. -/
def firstValue (samples : List (Sample 1)) (sector : ℕ) : ℚ :=
  if sector = 1 then samples.headD (fun _ ↦ 0) 0 else 0

theorem stream_click (length : ℕ) : stream [.putData (click length)] = click length := rfl

theorem length_click (length : ℕ) : (click length).length = length + 1 := by
  rw [click, List.length_cons, List.length_replicate]

theorem isBest_click :
    IsBest (spanTotal firstValue (click 2047) 2048 0)
      ((after firstValue (create (fun _ _ ↦ 0) fun _ _ ↦ 0)
        [.putData (click 2047)]).getCandidates 2048 0) := by
  refine getCandidates_isBest _ _ [.putData (click 2047)] 2048 0 ?_ (by decide) ?_ (by decide)
  · rw [stream_click, length_click]
  · rw [stream_click, frameCount, length_click]
    decide

/-! ## Beyond the ring -/

theorem frameScore_click {length frame : ℕ} (hframe : 0 < frame) (sector : ℕ) :
    frameScore firstValue (click length) frame sector = 0 := by
  have hdrop : (click length).drop (frame * slSft) =
      List.replicate (length - (frame * slSft - 1)) fun _ ↦ 0 := by
    obtain ⟨n, hn⟩ : ∃ n, frame * slSft = n + 1 :=
      ⟨frame * slSft - 1, by simp only [slSft]; omega⟩
    rw [hn, click, List.drop_succ_cons, List.drop_replicate, Nat.add_sub_cancel]
  rw [frameScore, window, hdrop, List.take_replicate, firstValue]
  cases min slWin (length - (frame * slSft - 1)) with
  | zero => simp
  | succ n => simp [List.replicate_succ]

theorem frameScore_click_zero (length : ℕ) : frameScore firstValue (click length) 0 1 = 1 := by
  rw [frameScore, window, Nat.zero_mul, List.drop_zero, click]
  rfl

/-- The oldest of the four frames has been overwritten: the newest one stands in its row. -/
theorem loopRow_overwritten (loopPos : ℕ) (hpos : loopPos < loopSize) :
    loopRow ((loopPos : ℤ) - (loopSize + 1 : ℕ)) = back loopSize loopPos 1 := by
  have hmod : ((loopPos : ℤ) - (loopSize + 1 : ℕ)) % loopSize = ((loopPos : ℤ) - 1) % loopSize := by
    rw [← Int.add_emod_right]
    congr 1
    omega
  rw [loopRow, if_neg (by omega), hmod, back]
  split_ifs with hone
  · rw [Int.emod_eq_of_lt (by omega) (by omega)]
    omega
  · rw [← Int.add_emod_right, Int.emod_eq_of_lt (by omega) (by omega)]
    omega

/-- In 1251 frames, the rows of four frames from the oldest one on: none of them is the first
frame's. -/
theorem totals_click {m : ZSlMem 1} (h : Inv firstValue (click 321023) m) (sector : ℕ) :
    m.totals 319233 319232 sector = 0 := by
  have hcount : frameCount (click 321023) = 1251 := by
    rw [frameCount, length_click]
    decide
  have hrow : ∀ d, 1 ≤ d → d ≤ loopSize → m.loopMat (back loopSize m.loopPos d) sector = 0 := by
    intro d hd hring
    have hbound : loopSize < 1251 := by decide
    rw [h.loopMat_eq hd hring (by omega), hcount]
    exact frameScore_click (by omega) sector
  have hrange : frmRange 319233 319232 = (1251, 1247) := by decide
  rw [totals_apply, candidateRows, hrange, List.map_map]
  apply List.sum_eq_zero
  intro value hvalue
  obtain ⟨k, hk, rfl⟩ := List.mem_map.mp hvalue
  have hk4 : k < 4 := List.mem_range.mp hk
  rw [Function.comp_apply]
  cases k with
  | zero =>
      have hfirst := loopRow_overwritten m.loopPos h.loopPos_lt
      rw [show ((1251 : ℤ) - ((0 : ℕ) : ℤ)) = ((loopSize + 1 : ℕ) : ℤ) by decide, hfirst]
      exact hrow 1 (Nat.le_refl 1) (by decide)
  | succ k =>
      have hcast : (1251 : ℤ) - ((k + 1 : ℕ) : ℤ) = ((1250 - k : ℕ) : ℤ) := by omega
      have hring : 1250 - k ≤ loopSize := Nat.sub_le 1250 k
      rw [hcast, loopRow_eq_back hring]
      exact hrow (1250 - k) (by omega) hring

theorem maxId_zero (n : ℕ) : maxId (fun _ ↦ 0) n = 0 := by
  induction n with
  | zero => rfl
  | succ n ih => rw [maxId, if_neg (lt_irrefl 0), ih]

/-- 1251 frames with one click in the first, and a question for the four frames from there on. -/
theorem not_isBest_far :
    ¬ ∀ (ops : List (SlOp 1)) (iStartPos iEndPos : ℕ), iEndPos < iStartPos →
      iStartPos ≤ (stream ops).length → iStartPos < loopSize * slSft →
      iEndPos / slSft + 4 ≤ frameCount (stream ops) →
      IsBest (spanTotal firstValue (stream ops) iStartPos iEndPos)
        ((after firstValue (create (fun _ _ ↦ 0) fun _ _ ↦ 0) ops).getCandidates
          iStartPos iEndPos) := by
  intro hclaim
  have hcount : frameCount (click 321023) = 1251 := by
    rw [frameCount, length_click]
    decide
  have hbest := hclaim [.putData (click 321023)] 319233 319232 (by decide)
    (by rw [stream_click, length_click]; decide) (by decide)
    (by rw [stream_click, hcount]; decide)
  have hinv := @inv_after _ firstValue (fun _ _ ↦ 0) (fun _ _ ↦ 0) [.putData (click 321023)]
  rw [stream_click] at hbest hinv
  have htotals : (after firstValue (create (fun _ _ ↦ 0) fun _ _ ↦ 0)
      [.putData (click 321023)]).totals 319233 319232 = fun _ ↦ 0 := funext (totals_click hinv)
  rw [getCandidates, htotals, maxId_zero] at hbest
  -- sector 1 has the click of frame 0 in its total, sector 0 has nothing
  have hspan : ∀ sector, spanTotal firstValue (click 321023) 319233 319232 sector =
      frameScore firstValue (click 321023) 0 sector := by
    intro sector
    have hstart : spanStart 319233 319232 = 1251 := by decide
    have hlater : ∀ k, frameScore firstValue (click 321023) (k + 1) sector = 0 :=
      fun k ↦ frameScore_click (Nat.succ_pos k) sector
    rw [spanTotal, hcount, hstart]
    simp [slSft, List.range_succ, hlater]
  have hless := (hbest.2 1 (by decide)).1
  rw [hspan, hspan, frameScore_click_zero, frameScore, firstValue, if_neg (by decide)] at hless
  exact absurd hless (by decide)

end ZSlMem

end Vsys.Sl
