import Mathlib.Algebra.BigOperators.Group.List.Basic
import Mathlib.Algebra.Order.Ring.Rat
import Mathlib.Analysis.Real.Sqrt
import Vsys.R2ad.MemIo

/-!
# `r2mem_rdc` as a filter on streams

The first `m_iMaxLen` samples behind the last call with something played are measured, and what
follows them leaves the stage without its mean, or as zeros if the deviation is too large.  The
deviation is the root of the variance and `0.1f`.

`Dc` is the stage for any arithmetic: on the bits of memory it is the one of `r2mem1`
(`Dc.process_words`), and `exact` is the arithmetic without rounding.  `outputs_eq` says that the
output is that of the stream, whatever the chunks are in which it comes.
-/

namespace Vsys.R2ad

/-! ## The stage -/

/-- The arithmetic on samples and on sums of squares. -/
structure DcOps (α δ : Type*) where
  zero : α
  nonzero : α → Bool
  add : α → α → α
  sub : α → α → α
  zeroSquare : δ
  addSquare : δ → α → δ
  mean : α → ℕ → α
  deviation : δ → α → ℕ → δ
  tooLarge : δ → Bool

/-- `r2mem_rdc`. -/
structure Dc (α δ : Type*) where
  curLen : ℕ
  rdc : ℕ → α
  rdcVar : ℕ → δ
  micOk : ℕ → ℕ

namespace Dc

variable {α δ : Type*} (F : DcOps α δ) (ids refs : List ℕ) (maxLen : ℕ)

/-- The constructor. -/
def create : Dc α δ := ⟨0, fun _ ↦ F.zero, fun _ ↦ F.zeroSquare, fun _ ↦ 1⟩

/-- `reset`; the verdicts stay. -/
def reset (s : Dc α δ) : Dc α δ :=
  { s with rdc := fun _ ↦ F.zero, rdcVar := fun _ ↦ F.zeroSquare, curLen := 0 }

/-- Something is played: a reference row is not silent. -/
def played (data : RowsOf α) (len : ℕ) : Bool :=
  refs.any fun mic ↦ (List.range len).any fun j ↦ F.nonzero (data mic j)

/-- The first samples join the sums. -/
def collect (s : Dc α δ) (data : RowsOf α) (iCur : ℕ) : Dc α δ :=
  { s with
    rdc := fun i ↦ (List.range iCur).foldl (fun sum j ↦ F.add sum (data (ids.getD i 0) j)) (s.rdc i)
    rdcVar := fun i ↦
      (List.range iCur).foldl (fun sum j ↦ F.addSquare sum (data (ids.getD i 0) j)) (s.rdcVar i)
    curLen := s.curLen + iCur }

/-- Mean, deviation and verdict, once there are enough samples. -/
def judge (s : Dc α δ) : Dc α δ :=
  if s.curLen = maxLen then
    let mean := fun i ↦ F.mean (s.rdc i) s.curLen
    let deviation := fun i ↦ F.deviation (s.rdcVar i) (mean i) s.curLen
    { s with
      rdc := mean
      rdcVar := deviation
      micOk := fun i ↦ if F.tooLarge (deviation i) then 0 else 1 }
  else s

/-- What becomes of a row: the samples that were not measured move to the front, without their
mean; the row of a bad microphone is silenced. -/
def removeRow (s : Dc α δ) (iCur left i : ℕ) (row : ℕ → α) : ℕ → α := fun j ↦
  if j < left then (if s.micOk i = 0 then F.zero else F.sub (row (j + iCur)) (s.rdc i)) else row j

/-- The rows of the list, one after the other. -/
def remove (s : Dc α δ) (iCur left : ℕ) (data : RowsOf α) : RowsOf α :=
  forPlaces ids (fun rows mic i ↦ Function.update rows mic (s.removeRow F iCur left i (rows mic)))
    data

/-- `process`: the rows are changed in place. -/
def process (s : Dc α δ) (data : RowsOf α) (len : ℕ) : Dc α δ × RowsOf α × ℕ :=
  let iCur := min (maxLen - s.curLen) len
  if s.curLen < maxLen ∧ played F refs data len then (s.reset F, data, 0)
  else
    let s := if s.curLen < maxLen then (s.collect F ids data iCur).judge F maxLen else s
    let left := len - iCur
    (s, if 0 < left then s.remove F ids iCur left data else data, left)

variable {F ids refs maxLen} {s : Dc α δ} {data : RowsOf α} {len : ℕ}

theorem process_played (hcur : s.curLen < maxLen) (hplayed : played F refs data len = true) :
    s.process F ids refs maxLen data len = (s.reset F, data, 0) := if_pos ⟨hcur, hplayed⟩

theorem process_measuring (hcur : s.curLen < maxLen) (hplayed : ¬played F refs data len = true) :
    s.process F ids refs maxLen data len =
      let iCur := min (maxLen - s.curLen) len
      let measured := (s.collect F ids data iCur).judge F maxLen
      (measured, if 0 < len - iCur then measured.remove F ids iCur (len - iCur) data else data,
        len - iCur) := by
  rw [process, if_neg fun h ↦ hplayed h.2, if_pos hcur]

theorem process_done (hcur : ¬s.curLen < maxLen) :
    s.process F ids refs maxLen data len =
      (s, if 0 < len then s.remove F ids 0 len data else data, len) := by
  have hzero : min (maxLen - s.curLen) len = 0 := by omega
  rw [process, if_neg fun h ↦ hcur h.1, if_neg hcur, hzero, Nat.sub_zero]

end Dc

/-! ## The bits of memory -/

/-- The arithmetic of `r2mem1`. -/
def FloatOps.dc {D : Type*} (F : FloatOps D) : DcOps Word D where
  zero := 0
  nonzero := nonzero
  add := F.add
  sub := F.sub
  zeroSquare := F.zero
  addSquare := F.addSquare
  mean := F.mean
  deviation := F.deviation
  tooLarge := F.tooLarge

/-- The state of `r2mem1`. -/
def Rdc.dc {D : Type*} (s : Rdc D) : Dc Word D := ⟨s.curLen, s.rdc, s.rdcVar, s.micOk⟩

/-- On the bits of memory this is the `r2mem_rdc` of `r2mem1`. -/
theorem Dc.process_words {D : Type*} (F : FloatOps D) (ids refs : List ℕ) (maxLen : ℕ) (s : Rdc D)
    (data : Rows) (len : ℕ) :
    s.dc.process F.dc ids refs maxLen data len =
      ((s.process F ids refs maxLen data len).1.dc, (s.process F ids refs maxLen data len).2) := by
  have hjudge : ∀ s : Rdc D, (s.judge F maxLen).dc = s.dc.judge F.dc maxLen := by
    intro s
    by_cases h : s.curLen = maxLen
    · rw [Rdc.judge, if_pos h, Dc.judge, if_pos (show s.dc.curLen = maxLen from h)]
      rfl
    · rw [Rdc.judge, if_neg h, Dc.judge, if_neg (show ¬s.dc.curLen = maxLen from h)]
  have hcollect : (s.collect F ids data (min (maxLen - s.curLen) len)).dc =
      s.dc.collect F.dc ids data (min (maxLen - s.curLen) len) := rfl
  have hremove : ∀ (s : Rdc D) (iCur left : ℕ),
      s.remove F ids iCur left data = s.dc.remove F.dc ids iCur left data := fun _ _ _ ↦ rfl
  -- the three cases of a call, in both stages
  by_cases hcur : s.curLen < maxLen
  · by_cases hplayed : R2ad.Rdc.played refs data len = true
    · rw [@process_played _ _ F.dc ids refs maxLen s.dc data len hcur hplayed, Rdc.process, if_pos ⟨hcur, hplayed⟩]
      rfl
    · have hnot : ¬(s.curLen < maxLen ∧ R2ad.Rdc.played refs data len = true) := fun h ↦ hplayed h.2
      rw [@process_measuring _ _ F.dc ids refs maxLen s.dc data len hcur hplayed, Rdc.process,
        if_neg hnot, if_pos hcur]
      dsimp only
      rw [hremove, hjudge, hcollect]
      rfl
  · have hzero : min (maxLen - s.curLen) len = 0 := by omega
    have hnot : ¬(s.curLen < maxLen ∧ R2ad.Rdc.played refs data len = true) := fun h ↦ hcur h.1
    rw [@process_done _ _ F.dc ids refs maxLen s.dc data len hcur, Rdc.process, if_neg hnot]
    dsimp only
    rw [if_neg hcur, hzero, Nat.sub_zero]
    rfl

/-! ## Rows that are changed one by one -/

/-- A row sees the changes for its own places only. -/
theorem forPlaces_update {α : Type*} (ids : List ℕ) (g : ℕ → (ℕ → α) → ℕ → α) (rows : RowsOf α)
    (mic : ℕ) :
    forPlaces ids (fun rows mic i ↦ Function.update rows mic (g i (rows mic))) rows mic =
      ((ids.zipIdx.filter fun place ↦ place.1 = mic).map Prod.snd).foldl (fun row i ↦ g i row)
        (rows mic) := by
  rw [forPlaces]
  generalize ids.zipIdx = places
  induction places generalizing rows with
  | nil => rfl
  | cons place places ih =>
      rw [List.foldl_cons, ih]
      by_cases hmic : place.1 = mic
      · rw [List.filter_cons_of_pos (by simpa using hmic), List.map_cons, List.foldl_cons, hmic,
          Function.update_self]
      · rw [List.filter_cons_of_neg (by simpa using hmic), Function.update_of_ne (Ne.symm hmic)]

/-- A microphone that is listed once has one place. -/
theorem exists_place {ids : List ℕ} {mic : ℕ} (h : ids.count mic = 1) :
    ∃ i, ids.getD i 0 = mic ∧
      (ids.zipIdx.filter fun place ↦ place.1 = mic).map Prod.snd = [i] := by
  have hone : (ids.zipIdx.filter fun place ↦ place.1 = mic).length = 1 := by
    calc
      _ = ids.zipIdx.countP ((· == mic) ∘ Prod.fst) := by
        rw [List.countP_eq_length_filter]
        rfl
      _ = ids.count mic := by
        rw [← List.countP_map, List.zipIdx_map_fst]
        rfl
      _ = 1 := h
  obtain ⟨⟨mic', i⟩, hplace⟩ := List.length_eq_one_iff.mp hone
  have hmem : (mic', i) ∈ ids.zipIdx.filter fun place ↦ place.1 = mic := by
    rw [hplace]
    exact List.mem_singleton_self _
  obtain ⟨hmem, hmic⟩ := List.mem_filter.mp hmem
  have hget := List.mem_zipIdx_iff_getElem?.mp hmem
  refine ⟨i, ?_, by rw [hplace]; rfl⟩
  rw [List.getD_eq_getElem?_getD, hget]
  simpa using hmic

theorem Dc.remove_apply {α δ : Type*} {F : DcOps α δ} {ids : List ℕ} {mic i : ℕ}
    (h : (ids.zipIdx.filter fun place ↦ place.1 = mic).map Prod.snd = [i]) (s : Dc α δ)
    (iCur left : ℕ) (data : RowsOf α) :
    s.remove F ids iCur left data mic = s.removeRow F iCur left i (data mic) := by
  rw [remove, forPlaces_update ids (fun i row ↦ s.removeRow F iCur left i row), h]
  rfl

/-! ## Streams -/

/-- The arithmetic without rounding; a deviation is given by its square. -/
def exact : DcOps ℚ ℚ where
  zero := 0
  nonzero := fun x ↦ decide (x ≠ 0)
  add := (· + ·)
  sub := (· - ·)
  zeroSquare := 0
  addSquare := fun sum x ↦ sum + x * x
  mean := fun sum n ↦ sum / n
  deviation := fun sum mean n ↦ sum / n - mean * mean + 13421773 / 2 ^ 27
  tooLarge := fun square ↦ decide (200000 ^ 2 < square)

theorem exact_mean (sum : ℚ) (n : ℕ) : exact.mean sum n = sum / n := rfl

theorem exact_deviation (sum mean : ℚ) (n : ℕ) :
    exact.deviation sum mean n = sum / n - mean * mean + 13421773 / 2 ^ 27 := rfl

/-- A call of `process`: the rows, and the number of samples in them. -/
structure DcCall where
  data : RowsOf ℚ
  len : ℕ

/-- The samples of a call, at each time one for each channel. -/
def DcCall.frames (call : DcCall) : List (ℕ → ℚ) :=
  (List.range call.len).map fun j mic ↦ call.data mic j

/-- The stream behind a call: with something played before enough was measured it begins anew. -/
def next (refs : List ℕ) (maxLen : ℕ) (x : List (ℕ → ℚ)) (call : DcCall) : List (ℕ → ℚ) :=
  if x.length < maxLen ∧ Dc.played exact refs call.data call.len then [] else x ++ call.frames

/-- The stream that follows the last call with something played before enough was measured. -/
def measured (refs : List ℕ) (maxLen : ℕ) (calls : List DcCall) : List (ℕ → ℚ) :=
  calls.foldl (next refs maxLen) []

/-- The mean of a channel. -/
def mean (x : List (ℕ → ℚ)) (mic : ℕ) : ℚ := (x.map fun frame ↦ frame mic).sum / x.length

/-- The variance of a channel. -/
def variance (x : List (ℕ → ℚ)) (mic : ℕ) : ℚ :=
  (x.map fun frame ↦ frame mic * frame mic).sum / x.length - mean x mic * mean x mic

open Classical in
/-- A sample without the mean of the first ones, or zero if their variance is not admitted. -/
noncomputable def cleanedSample (tooLarge : ℚ → Prop) (first : List (ℕ → ℚ)) (mic : ℕ)
    (frame : ℕ → ℚ) : ℚ :=
  if tooLarge (variance first mic) then 0 else frame mic - mean first mic

/-- What becomes of the samples of a channel behind the first `maxLen` ones. -/
noncomputable def cleaned (tooLarge : ℚ → Prop) (maxLen : ℕ) (x : List (ℕ → ℚ)) (mic : ℕ) : List ℚ :=
  (x.drop maxLen).map (cleanedSample tooLarge (x.take maxLen) mic)

/-- The deviation as the stage has it is too large. -/
def deviationTooLarge (variance : ℚ) : Prop :=
  200000 < √((variance + 13421773 / 2 ^ 27 : ℚ) : ℝ)

/-- What the calls put out in a channel. -/
def outputs (ids refs : List ℕ) (maxLen : ℕ) : Dc ℚ ℚ → List DcCall → ℕ → List ℚ
  | _, [], _ => []
  | s, call :: later, mic =>
      let r := s.process exact ids refs maxLen call.data call.len
      (List.range r.2.2).map (r.2.1 mic) ++ outputs ids refs maxLen r.1 later mic

/-- The number of samples that the calls put out. -/
def outputLen (ids refs : List ℕ) (maxLen : ℕ) : Dc ℚ ℚ → List DcCall → ℕ
  | _, [] => 0
  | s, call :: later =>
      let r := s.process exact ids refs maxLen call.data call.len
      r.2.2 + outputLen ids refs maxLen r.1 later

/-- The root is compared by its square. -/
theorem deviationTooLarge_iff (variance : ℚ) :
    deviationTooLarge variance ↔ exact.tooLarge (variance + 13421773 / 2 ^ 27) = true := by
  have hroot : (200000 : ℝ) < √((variance + 13421773 / 2 ^ 27 : ℚ) : ℝ) ↔
      ((200000 ^ 2 : ℚ) : ℝ) < ((variance + 13421773 / 2 ^ 27 : ℚ) : ℝ) := by
    rw [Real.lt_sqrt (by norm_num)]
    norm_num
  rw [deviationTooLarge, hroot, Rat.cast_lt, exact, decide_eq_true_iff]

/-! ## One call -/

/-- The sums of a loop. -/
theorem foldl_add_range (f : ℕ → ℚ) (n : ℕ) (start : ℚ) :
    (List.range n).foldl (fun sum j ↦ sum + f j) start = start + ((List.range n).map f).sum := by
  induction n with
  | zero => simp
  | succ n ih =>
      rw [List.range_succ, List.foldl_append, ih, List.map_append, List.sum_append]
      simp [add_assoc]

/-- What a loop over the first samples of a call sums up. -/
theorem DcCall.sum_take_frames (call : DcCall) {n : ℕ} (hn : n ≤ call.len) (f : ℚ → ℚ) (mic : ℕ) :
    ((call.frames.take n).map fun frame ↦ f (frame mic)).sum =
      ((List.range n).map fun j ↦ f (call.data mic j)).sum := by
  rw [frames, ← List.map_take, List.take_range, min_eq_left hn, List.map_map]
  rfl

theorem DcCall.length_frames (call : DcCall) : call.frames.length = call.len := by
  rw [frames, List.length_map, List.length_range]

/-- What the stage knows of the stream `x`: the sums of the samples as long as it measures, the mean
and the verdict when it is done. -/
structure Follows (ids : List ℕ) (maxLen : ℕ) (x : List (ℕ → ℚ)) (s : Dc ℚ ℚ) : Prop where
  curLen : s.curLen = min x.length maxLen
  sums : x.length < maxLen → ∀ i,
    s.rdc i = (x.map fun frame ↦ frame (ids.getD i 0)).sum ∧
      s.rdcVar i = (x.map fun frame ↦ frame (ids.getD i 0) * frame (ids.getD i 0)).sum
  verdict : maxLen ≤ x.length → ∀ i,
    s.rdc i = mean (x.take maxLen) (ids.getD i 0) ∧
      (s.micOk i = 0 ↔ deviationTooLarge (variance (x.take maxLen) (ids.getD i 0)))

section Call

variable {ids refs : List ℕ} {maxLen : ℕ} {x : List (ℕ → ℚ)} {s : Dc ℚ ℚ}

theorem not_deviationTooLarge_zero : ¬deviationTooLarge 0 := by
  rw [deviationTooLarge_iff]
  decide +kernel

theorem follows_nil (hrdc : s.rdc = fun _ ↦ 0) (hvar : s.rdcVar = fun _ ↦ 0) (hcur : s.curLen = 0)
    (hok : maxLen = 0 → ∀ i, s.micOk i ≠ 0) : Follows ids maxLen [] s where
  curLen := by rw [hcur, List.length_nil, Nat.zero_min]
  sums := fun _ i ↦ by rw [hrdc, hvar]; exact ⟨rfl, rfl⟩
  verdict := by
    intro hle i
    have hmean : mean ([].take maxLen) (ids.getD i 0) = 0 := by simp [mean]
    have hvariance : variance ([].take maxLen) (ids.getD i 0) = 0 := by simp [variance, mean]
    rw [hmean, hvariance, hrdc]
    exact ⟨rfl, iff_of_false (hok (Nat.le_zero.mp hle) i) not_deviationTooLarge_zero⟩

/-- The samples that are measured join the sums. -/
theorem Follows.collect (h : Follows ids maxLen x s) (hlt : x.length < maxLen) (call : DcCall) {n : ℕ}
    (hn : n ≤ call.len) (i : ℕ) :
    (s.collect exact ids call.data n).rdc i =
        ((x ++ call.frames.take n).map fun frame ↦ frame (ids.getD i 0)).sum ∧
      (s.collect exact ids call.data n).rdcVar i =
        ((x ++ call.frames.take n).map fun frame ↦
          frame (ids.getD i 0) * frame (ids.getD i 0)).sum := by
  obtain ⟨hrdc, hvar⟩ := h.sums hlt i
  constructor
  · calc
      (s.collect exact ids call.data n).rdc i =
          (List.range n).foldl (fun sum j ↦ sum + call.data (ids.getD i 0) j) (s.rdc i) := rfl
      _ = _ := by
        rw [foldl_add_range, hrdc, List.map_append, List.sum_append,
          call.sum_take_frames hn (fun a ↦ a)]
  · calc
      (s.collect exact ids call.data n).rdcVar i =
          (List.range n).foldl (fun sum j ↦
            sum + call.data (ids.getD i 0) j * call.data (ids.getD i 0) j) (s.rdcVar i) := rfl
      _ = _ := by
        rw [foldl_add_range, hvar, List.map_append, List.sum_append,
          call.sum_take_frames hn (fun a ↦ a * a)]

/-- The verdict on enough samples. -/
theorem judge_verdict {measured : List (ℕ → ℚ)} {i : ℕ} (hcur : s.curLen = maxLen)
    (hlength : measured.length = maxLen)
    (hrdc : s.rdc i = (measured.map fun frame ↦ frame (ids.getD i 0)).sum)
    (hvar : s.rdcVar i =
      (measured.map fun frame ↦ frame (ids.getD i 0) * frame (ids.getD i 0)).sum) :
    (s.judge exact maxLen).rdc i = mean measured (ids.getD i 0) ∧
      ((s.judge exact maxLen).micOk i = 0 ↔
        deviationTooLarge (variance measured (ids.getD i 0))) := by
  rw [Dc.judge, if_pos hcur]
  have hmean : exact.mean (s.rdc i) s.curLen = mean measured (ids.getD i 0) := by
    rw [hcur, hrdc, mean, hlength, exact_mean]
  have hdeviation : exact.deviation (s.rdcVar i) (exact.mean (s.rdc i) s.curLen) s.curLen =
      variance measured (ids.getD i 0) + 13421773 / 2 ^ 27 := by
    rw [hmean, hcur, hvar, variance, hlength, exact_deviation]
  have hiff := deviationTooLarge_iff (variance measured (ids.getD i 0))
  rw [← hdeviation] at hiff
  refine ⟨hmean, ?_⟩
  by_cases hlarge : exact.tooLarge
      (exact.deviation (s.rdcVar i) (exact.mean (s.rdc i) s.curLen) s.curLen) = true
  · exact iff_of_true (if_pos hlarge) (hiff.mpr hlarge)
  · exact iff_of_false (fun h ↦ Nat.one_ne_zero ((if_neg hlarge).symm.trans h)) (mt hiff.mp hlarge)

/-- A call without anything played while the stage measures. -/
theorem Follows.measure (h : Follows ids maxLen x s) (hlt : x.length < maxLen) (call : DcCall) :
    Follows ids maxLen (x ++ call.frames)
      ((s.collect exact ids call.data (min (maxLen - x.length) call.len)).judge exact maxLen) := by
  have hcur := h.curLen
  rw [min_eq_left hlt.le] at hcur
  have hn : min (maxLen - x.length) call.len ≤ call.len := min_le_right _ _
  have hcollected : (s.collect exact ids call.data (min (maxLen - x.length) call.len)).curLen =
      x.length + min (maxLen - x.length) call.len := by rw [← hcur]; rfl
  have hlength : (x ++ call.frames).length = x.length + call.len := by
    rw [List.length_append, call.length_frames]
  refine ⟨?_, fun hmore i ↦ ?_, fun henough i ↦ ?_⟩
  · have hjudge : ((s.collect exact ids call.data (min (maxLen - x.length) call.len)).judge exact
        maxLen).curLen = x.length + min (maxLen - x.length) call.len := by
      rw [← hcollected, Dc.judge]
      split <;> rfl
    rw [hjudge, hlength]
    omega
  · have hall : min (maxLen - x.length) call.len = call.len := by omega
    have hwhole : call.frames.take call.len = call.frames :=
      List.take_of_length_le call.length_frames.le
    have hsums := h.collect hlt call hn i
    rw [hall, hwhole] at hsums
    rw [Dc.judge, if_neg (by omega), hall]
    exact hsums
  · have hfull : x.length + min (maxLen - x.length) call.len = maxLen := by omega
    have htake : (x ++ call.frames).take maxLen =
        x ++ call.frames.take (min (maxLen - x.length) call.len) := by
      have hpart : min (maxLen - x.length) call.len = maxLen - x.length := by omega
      rw [List.take_append, List.take_of_length_le hlt.le, hpart]
    obtain ⟨hrdc, hvar⟩ := h.collect hlt call hn i
    rw [htake]
    apply judge_verdict (hcollected.trans hfull) _ hrdc hvar
    rw [List.length_append, List.length_take, call.length_frames]
    omega

/-- The samples that a call puts out in a channel of a stage that is done. -/
theorem Follows.removed (h : Follows ids maxLen x s) (henough : maxLen ≤ x.length) (call : DcCall)
    (iCur : ℕ) {mic : ℕ} (hmic : ids.count mic = 1) :
    (List.range (call.len - iCur)).map
        ((if 0 < call.len - iCur then s.remove exact ids iCur (call.len - iCur) call.data
          else call.data) mic) =
      (call.frames.drop iCur).map (cleanedSample deviationTooLarge (x.take maxLen) mic) := by
  obtain ⟨i, hi, hplace⟩ := exists_place hmic
  obtain ⟨hrdc, hok⟩ := h.verdict henough i
  rw [hi] at hrdc hok
  have hrange : call.frames.drop iCur =
      (List.range (call.len - iCur)).map fun j mic ↦ call.data mic (j + iCur) := by
    rw [DcCall.frames, ← List.map_drop, List.range_eq_range', List.drop_range', List.range'_eq_map_range,
      List.map_map]
    apply List.map_congr_left
    intro j _
    have hstart : 0 + iCur * 1 + j = j + iCur := by omega
    rw [Function.comp_apply, hstart]
  rw [hrange, List.map_map]
  apply List.map_congr_left
  intro j hj
  have hlt := List.mem_range.mp hj
  rw [if_pos (by omega), Dc.remove_apply hplace, Dc.removeRow, if_pos hlt, Function.comp_apply,
    cleanedSample, ← hrdc]
  by_cases hbad : s.micOk i = 0
  · rw [if_pos hbad, if_pos (hok.mp hbad)]
    rfl
  · rw [if_neg hbad, if_neg (mt hok.mpr hbad)]
    rfl

/-- A stage that is done follows the longer stream as it is. -/
theorem Follows.extend (h : Follows ids maxLen x s) (henough : maxLen ≤ x.length)
    (later : List (ℕ → ℚ)) : Follows ids maxLen (x ++ later) s := by
  have hcur := h.curLen
  have hlength : (x ++ later).length = x.length + later.length := List.length_append
  have htake : (x ++ later).take maxLen = x.take maxLen :=
    List.take_append_of_le_length henough
  refine ⟨by rw [hcur, hlength]; omega, fun hmore ↦ by omega, fun _ i ↦ ?_⟩
  rw [htake]
  exact h.verdict henough i

/-- Nothing is put out while the stage measures. -/
theorem cleaned_of_le {tooLarge : ℚ → Prop} (hle : x.length ≤ maxLen)
    (mic : ℕ) : cleaned tooLarge maxLen x mic = [] := by
  rw [cleaned, List.drop_eq_nil_of_le hle, List.map_nil]

/-- **One call.** -/
theorem Follows.process (h : Follows ids maxLen x s) (call : DcCall) :
    Follows ids maxLen (next refs maxLen x call)
        (s.process exact ids refs maxLen call.data call.len).1 ∧
      (next refs maxLen x call).length - maxLen =
        x.length - maxLen + (s.process exact ids refs maxLen call.data call.len).2.2 ∧
      ∀ mic, ids.count mic = 1 →
        cleaned deviationTooLarge maxLen (next refs maxLen x call) mic =
          cleaned deviationTooLarge maxLen x mic ++
            (List.range (s.process exact ids refs maxLen call.data call.len).2.2).map
              ((s.process exact ids refs maxLen call.data call.len).2.1 mic) := by
  have hcur := h.curLen
  have hlength : (x ++ call.frames).length = x.length + call.len := by
    rw [List.length_append, call.length_frames]
  by_cases hlt : x.length < maxLen
  · have hmeasuring : s.curLen < maxLen := by omega
    have hempty : ∀ mic, cleaned deviationTooLarge maxLen x mic = [] := cleaned_of_le hlt.le
    by_cases hplayed : Dc.played exact refs call.data call.len = true
    · rw [next, if_pos ⟨hlt, hplayed⟩, Dc.process_played hmeasuring hplayed]
      refine ⟨follows_nil rfl rfl rfl (by omega), ?_, fun mic _ ↦ ?_⟩
      · simp only [List.length_nil, Nat.zero_sub]
        omega
      · rw [hempty, cleaned, List.drop_nil]
        rfl
    · have hnext := h.measure hlt call
      have hcurLen : s.curLen = x.length := by omega
      rw [next, if_neg fun h ↦ hplayed h.2, Dc.process_measuring hmeasuring hplayed, hcurLen]
      refine ⟨hnext, ?_, fun mic hmic ↦ ?_⟩
      · dsimp only
        omega
      · dsimp only
        rcases Nat.lt_or_ge (x.length + call.len) maxLen with hmore | henough
        · have hall : call.len - min (maxLen - x.length) call.len = 0 := by omega
          rw [hall, hempty, cleaned, List.drop_eq_nil_of_le (by omega)]
          rfl
        · have hpart : min (maxLen - x.length) call.len = maxLen - x.length := by omega
          rw [hnext.removed (by omega) call _ hmic, hempty, cleaned, hpart, List.drop_append,
            List.drop_eq_nil_of_le hlt.le, List.nil_append, List.nil_append]
  · have hdone : ¬s.curLen < maxLen := by omega
    have hnext := h.extend (not_lt.mp hlt) call.frames
    rw [next, if_neg fun h ↦ hlt h.1, Dc.process_done hdone]
    refine ⟨hnext, ?_, fun mic hmic ↦ ?_⟩
    · dsimp only
      omega
    · have hremoved := h.removed (by omega) call 0 hmic
      rw [Nat.sub_zero, List.drop_zero] at hremoved
      dsimp only
      rw [hremoved, cleaned, cleaned, List.drop_append_of_le_length (by omega),
        List.take_append_of_le_length (by omega), List.map_append]

end Call

/-! ## Whole runs -/

section Run

variable {ids refs : List ℕ} {maxLen : ℕ} {x : List (ℕ → ℚ)} {s : Dc ℚ ℚ}

theorem Follows.outputLen (h : Follows ids maxLen x s) (calls : List DcCall) :
    (calls.foldl (next refs maxLen) x).length - maxLen =
      x.length - maxLen + outputLen ids refs maxLen s calls := by
  induction calls generalizing x s with
  | nil => rfl
  | cons call calls ih =>
      obtain ⟨hnext, hlength, -⟩ := @Follows.process ids refs maxLen x s h call
      rw [List.foldl_cons, ih hnext, hlength, R2ad.outputLen, Nat.add_assoc]

theorem Follows.outputs (h : Follows ids maxLen x s) (calls : List DcCall) {mic : ℕ}
    (hmic : ids.count mic = 1) :
    cleaned deviationTooLarge maxLen (calls.foldl (next refs maxLen) x) mic =
      cleaned deviationTooLarge maxLen x mic ++ outputs ids refs maxLen s calls mic := by
  induction calls generalizing x s with
  | nil => rw [R2ad.outputs, List.append_nil]; rfl
  | cons call calls ih =>
      obtain ⟨hnext, -, hcleaned⟩ := @Follows.process ids refs maxLen x s h call
      rw [List.foldl_cons, ih hnext, hcleaned mic hmic, R2ad.outputs, List.append_assoc]

end Run

theorem create_follows (ids : List ℕ) (maxLen : ℕ) : Follows ids maxLen [] (Dc.create exact) :=
  follows_nil rfl rfl rfl fun _ _ ↦ Nat.one_ne_zero

/-- **The mean is taken off.** For every sequence of calls on a new object: as many samples are put
out as the stream behind the last activity has behind its first `maxLen` ones, and in each channel
that is listed once they are these samples without the mean of the first ones, or zeros if the
deviation of the first ones is too large. -/
theorem outputs_eq (ids refs : List ℕ) (maxLen : ℕ) (calls : List DcCall) :
    outputLen ids refs maxLen (Dc.create exact) calls = (measured refs maxLen calls).length - maxLen ∧
      ∀ mic, ids.count mic = 1 →
        outputs ids refs maxLen (Dc.create exact) calls mic =
          cleaned deviationTooLarge maxLen (measured refs maxLen calls) mic := by
  have hcreate := create_follows ids maxLen
  constructor
  · have hlength := @Follows.outputLen ids refs maxLen [] _ hcreate calls
    rw [List.length_nil, Nat.zero_sub, Nat.zero_add] at hlength
    exact hlength.symm
  · intro mic hmic
    have houtputs := @Follows.outputs ids refs maxLen [] _ hcreate calls mic hmic
    have hnone : cleaned deviationTooLarge maxLen [] mic = [] := by
      rw [cleaned, List.drop_nil, List.map_nil]
    rw [hnone, List.nil_append] at houtputs
    exact houtputs.symm

/-- Two calls: the first one is played over, the second one is measured and cleaned. -/
theorem outputs_eq_small :
    outputs [0] [1] 2 (Dc.create exact) [⟨fun _ _ ↦ 1, 3⟩, ⟨fun mic j ↦ if mic = 0 then j else 0, 4⟩] 0 =
      cleaned deviationTooLarge 2
        (measured [1] 2 [⟨fun _ _ ↦ 1, 3⟩, ⟨fun mic j ↦ if mic = 0 then j else 0, 4⟩]) 0 :=
  (outputs_eq [0] [1] 2 [⟨fun _ _ ↦ 1, 3⟩, ⟨fun mic j ↦ if mic = 0 then j else 0, 4⟩]).2 0 (by decide)

theorem cleaned_eq {tooLarge : ℚ → Prop} {test : ℚ → Bool} (h : ∀ v, tooLarge v ↔ test v = true)
    (maxLen : ℕ) (x : List (ℕ → ℚ)) (mic : ℕ) :
    cleaned tooLarge maxLen x mic = (x.drop maxLen).map fun frame ↦
      if test (variance (x.take maxLen) mic) then 0 else frame mic - mean (x.take maxLen) mic := by
  apply List.map_congr_left
  intro frame _
  rw [cleanedSample]
  by_cases hlarge : tooLarge (variance (x.take maxLen) mic)
  · rw [if_pos hlarge, if_pos ((h _).mp hlarge)]
  · rw [if_neg hlarge, if_neg (mt (h _).mpr hlarge)]

/-- A channel that is listed twice loses its mean twice, and a deviation at the limit is already too
large, with the `0.1f` under the root. -/
theorem not_outputs :
    (¬∀ (ids refs : List ℕ) (maxLen : ℕ) (calls : List DcCall), ∀ mic ∈ ids,
      outputs ids refs maxLen (Dc.create exact) calls mic =
        cleaned deviationTooLarge maxLen (measured refs maxLen calls) mic) ∧
    ¬∀ (ids refs : List ℕ) (maxLen : ℕ) (calls : List DcCall) (mic : ℕ), ids.count mic = 1 →
      outputs ids refs maxLen (Dc.create exact) calls mic =
        cleaned (fun variance ↦ 200000 < √(variance : ℝ)) maxLen (measured refs maxLen calls) mic := by
  constructor
  · intro h
    have htwice := h [0, 0] [] 1 [⟨fun _ j ↦ if j = 0 then 1 else 5, 4⟩] 0 (by decide)
    rw [cleaned_eq deviationTooLarge_iff] at htwice
    exact absurd htwice (by decide +kernel)
  · intro h
    have hroot : ∀ v : ℚ, 200000 < √(v : ℝ) ↔ decide (200000 ^ 2 < v) = true := by
      intro v
      rw [Real.lt_sqrt (by norm_num), decide_eq_true_iff]
      exact_mod_cast Iff.rfl
    have hlimit := h [0] [] 2 [⟨fun _ j ↦ if j = 0 then 200000 else if j = 1 then -200000 else 5, 3⟩] 0
      (by decide)
    rw [cleaned_eq hroot] at hlimit
    exact absurd hlimit (by decide +kernel)

end Vsys.R2ad
