import Mathlib.Data.List.Find
import Mathlib.Data.Rat.Floor
import Vsys.Ztvad.Bookkeeping

/-!
# Where a voice begins and ends

What the detector looks for, said about the results of the whole stream and in absolute frames: a
voice begins at the first frame of voice with enough frames of voice before it (`firstStart`), and
ends at the first frame of silence, late enough, with enough silence before it (`firstStop`).

The detector finds the same frames however the stream is cut into calls (`endpoints_of_calls`).  The
two judges scan tables that are cut under them, but the scans only see windows that lie in the
tables (`scanBegin_eq`, `scanEnd_eq`), and where a long silence is removed, the frames that are no
longer scanned have been judged before (`Waiting`).
-/

namespace Vsys.Ztvad

open Vsys.Stream VoiceDetector

variable {F σ π : Type}

/-! ## The frames to be found -/

section Spec

variable [Field F] [LinearOrder F]

/-- The `w` frames before frame `t`. -/
def windowOf (results : List (F × F)) (w t : ℕ) : List (F × F) := (results.drop (t - w)).take w

/-- A voice may begin at frame `t`: it is a frame of voice, and enough of those before it are. -/
def begins [FloorRing F] (cfg : Config F) (results : List (F × F)) (t : ℕ) : Bool :=
  decide (cfg.nMinVocFrameNum ≤ t) && results[t]?.any voice &&
    decide (⌊(cfg.nMinVocFrameNum : F) * cfg.fMinVoiceRatio⌋ ≤
      ((windowOf results cfg.nMinVocFrameNum.toNat t).countP voice : ℤ))

/-- A voice may end at frame `t`: it is a frame of silence, and the frames before it are silent on
the whole, and enough of them are. -/
def ends (cfg : Config F) (results : List (F × F)) (t : ℕ) : Bool :=
  let window := windowOf results cfg.nMinSilFrameNum.toNat t
  results[t]?.any (fun p ↦ !voice p) && decide ((window.map Prod.snd).sum < (window.map Prod.fst).sum) &&
    decide (cfg.fMinSilRatio * (cfg.nMinSilFrameNum : F) ≤ (window.countP (fun p ↦ !voice p) : F))

/-- The frame at which a voice is found. -/
def firstStart [FloorRing F] (cfg : Config F) (results : List (F × F)) : Option ℕ :=
  (List.range results.length).find? (begins cfg results)

/-- The first frame of a voice that is found at frame `s`: its lead-in is part of it. -/
def startOf (cfg : Config F) (s : ℕ) : ℤ := max 0 (s - cfg.nMinVocFrameNum - cfg.nPreFrameNum)

/-- Frame `t` is late enough to end a voice that was found at frame `s`, and may end it. -/
def endsAfter (cfg : Config F) (results : List (F × F)) (s t : ℕ) : Bool :=
  decide (max (startOf cfg s + cfg.nMinSpeechFrameNum) (s + cfg.nMinSilFrameNum) ≤ t) &&
    ends cfg results t

/-- The frame at which the end of a voice is found. -/
def firstStop (cfg : Config F) (results : List (F × F)) (s : ℕ) : Option ℕ :=
  (List.range results.length).find? (endsAfter cfg results s)

/-- What `GetVoiceStartFrame` should return. -/
def startFrame [FloorRing F] (cfg : Config F) (results : List (F × F)) : ℤ :=
  match firstStart cfg results with
  | none => -1
  | some s => startOf cfg s

/-- What `GetVoiceStopFrame` should return. -/
def stopFrame [FloorRing F] (cfg : Config F) (results : List (F × F)) : ℤ :=
  match firstStart cfg results with
  | none => -1
  | some s =>
      match firstStop cfg results s with
      | none => -1
      | some t => t

end Spec

/-! ## The scans -/

section Scan

theorem windowOf_drop (results : List (F × F)) (off : ℕ) {w j : ℕ} (hw : w ≤ j) :
    windowOf (results.drop off) w j = windowOf results w (off + j) := by
  rw [windowOf, windowOf, List.drop_drop, Nat.add_sub_assoc hw]

/-- Later results do not change a window. -/
theorem windowOf_append (results more : List (F × F)) {w t : ℕ} (hw : w ≤ t)
    (ht : t ≤ results.length) : windowOf (results ++ more) w t = windowOf results w t := by
  rw [windowOf, windowOf, List.drop_append_of_le_length (by omega), List.take_append_of_le_length]
  rw [List.length_drop]
  omega

variable [LinearOrder F]

/-- What a frame adds to the sums of a scan. -/
def weightOf (counted : Bool) (p : F × F) : F × F × ℤ :=
  (p.1, p.2, if voice p = counted then 1 else 0)

variable {d : VoiceDetector F σ π} {results : List (F × F)} {off : ℕ}

theorem VoiceDetector.ProbsAt.tabulates_weight (h : ProbsAt d results off) (counted : Bool) :
    Tabulates (d.weight counted) (results.map (weightOf counted)) := by
  intro i x hx
  rw [List.getElem?_map, Option.map_eq_some_iff] at hx
  obtain ⟨p, hp, rfl⟩ := hx
  have hflag : (results.map voice)[i]? = some (voice p) := by
    rw [List.getElem?_map, hp]
    rfl
  rw [weight, weightOf, h.probs i p hp, h.bprobs i _ hflag]

/-- The flags of the detector are those of the results. -/
theorem any_voice (h : ProbsAt d results off) {j : ℕ} (hj : j < results.length) (g : Bool → Bool) :
    results[j]?.any (fun p ↦ g (voice p)) = g (d.bprobs j) := by
  have hget : results[j]? = some results[j] := List.getElem?_eq_getElem hj
  have hflag : (results.map voice)[j]? = some (voice results[j]) := by
    rw [List.getElem?_map, hget]
    rfl
  rw [h.bprobs j _ hflag, hget]
  rfl

variable [Field F]

theorem sum_weightOf (counted : Bool) (window : List (F × F)) :
    (window.map (weightOf counted)).sum =
      ((window.map Prod.fst).sum, (window.map Prod.snd).sum,
        (window.countP fun p ↦ voice p == counted : ℤ)) := by
  induction window with
  | nil => rfl
  | cons p window ih =>
      rw [List.map_cons, List.sum_cons, ih, List.map_cons, List.sum_cons, List.map_cons,
        List.sum_cons, List.countP_cons]
      simp only [weightOf, Prod.mk_add_mk, beq_iff_eq, Prod.mk.injEq, true_and]
      split
      · push_cast
        ring
      · simp

/-- The sums of a scan at a frame with a full window. -/
theorem VoiceDetector.ProbsAt.windowSum_eq (h : ProbsAt d (results.drop off) off) (counted : Bool) {w j : ℕ}
    (hw : w ≤ j) (hj : j ≤ (results.drop off).length) :
    windowSum (d.weight counted) w j =
      (((windowOf results w (off + j)).map Prod.fst).sum,
        ((windowOf results w (off + j)).map Prod.snd).sum,
        ((windowOf results w (off + j)).countP fun p ↦ voice p == counted : ℤ)) := by
  have hlength : j ≤ ((results.drop off).map (weightOf counted)).length := by
    rw [List.length_map]
    exact hj
  rw [windowSum_eq_sum (h.tabulates_weight counted) hw hlength, ← List.map_drop, ← List.map_take,
    sum_weightOf]
  have hwindow := windowOf_drop results off hw
  rw [windowOf] at hwindow
  rw [hwindow]

variable {cfg : Config F}

theorem truncate_le_natCast [FloorRing F] (x : F) (n : ℕ) : truncate x ≤ (n : ℤ) ↔ ⌊x⌋ ≤ (n : ℤ) := by
  rw [truncate]
  split
  case isTrue => exact Iff.rfl
  case isFalse hneg =>
      have hx : x ≤ 0 := (not_le.mp hneg).le
      refine iff_of_true ?_ ?_
      · exact (Int.ceil_nonpos.mpr hx).trans (Int.natCast_nonneg n)
      · exact (Int.floor_nonpos hx).trans (Int.natCast_nonneg n)

/-- **The scan of `JudgeVoiceBegin`** finds the first frame, of those with a full window in the
tables, at which a voice may begin. -/
theorem scanBegin_eq [FloorRing F] (h : ProbsAt d (results.drop off) off)
    (hpitch : cfg.bEnablePitch = false) {w : ℕ} (hw : cfg.nMinVocFrameNum = w) :
    d.scanBegin cfg = ((List.range (results.drop off).length).find? fun j ↦
      decide (w ≤ j) && begins cfg results (off + j)).map fun j : ℕ ↦ (j : ℤ) := by
  have hnat : cfg.nMinVocFrameNum.toNat = w := by
    rw [hw, Int.toNat_natCast]
  rw [scanBegin, hw, slide_start, h.cur]
  simp only [Int.toNat_natCast, zero_add, hpitch, Bool.not_false, Bool.true_or, Bool.and_true]
  congr 1
  apply List.find?_congr
  intro j hj
  rw [List.mem_range] at hj
  by_cases hfull : w ≤ j
  · have hlate : (w : ℤ) ≤ (off + j : ℕ) := by omega
    have hflag : results[off + j]?.any voice = d.bprobs j := by
      rw [← List.getElem?_drop]
      exact any_voice h hj id
    rw [h.windowSum_eq true hfull hj.le, begins, hflag, hnat, hw]
    simp only [hlate, hfull, beq_true, truncate_le_natCast, decide_true, Bool.true_and]
    rw [Bool.and_comm]
  · simp only [hfull, decide_false, Bool.false_and]

/-- **The scan of `JudgeVoiceEnd`** finds the first frame at which the voice may end, of those that
have a full window after the frame it starts at. -/
theorem scanEnd_eq (h : ProbsAt d (results.drop off) off) (hpitch : cfg.bEnablePitch = false)
    {w start : ℕ} (hw : cfg.nMinSilFrameNum = w)
    (hstart : max (d.nVocStartFrame + cfg.nMinSpeechFrameNum - cfg.nMinSilFrameNum)
      d.nVocStartOffset = start) :
    d.scanEnd cfg = ((List.range ((results.drop off).length - start)).find? fun j ↦
      decide (w ≤ j) && ends cfg results (off + (start + j))).map fun j : ℕ ↦ (start : ℤ) + j := by
  have hnat : cfg.nMinSilFrameNum.toNat = w := by
    rw [hw, Int.toNat_natCast]
  have hpos : (if d.nVocStartFrame + cfg.nMinSpeechFrameNum - cfg.nMinSilFrameNum <
      d.nVocStartOffset then d.nVocStartOffset
      else d.nVocStartFrame + cfg.nMinSpeechFrameNum - cfg.nMinSilFrameNum) = start := by
    rw [← hstart]
    split
    · omega
    · omega
  have hcount : (d.nCurProbFrameNum - (start : ℤ)).toNat = (results.drop off).length - start := by
    rw [h.cur]
    omega
  rw [scanEnd]
  simp only [hpos, hcount, hpitch, Bool.false_and, Bool.or_false]
  rw [hw, slide_start]
  congr 1
  apply List.find?_congr
  intro j hj
  rw [List.mem_range] at hj
  by_cases hfull : w ≤ j
  · have hj' : start + j < (results.drop off).length := by omega
    have hwindow : w ≤ start + j := by omega
    have hflag : results[off + (start + j)]?.any (fun p ↦ !voice p) = !d.bprobs (start + j : ℕ) := by
      rw [← List.getElem?_drop]
      exact any_voice h hj' not
    rw [← Nat.cast_add, h.windowSum_eq false hwindow hj'.le, ends, hflag, hnat, hw]
    simp only [hfull, beq_false, decide_true, Bool.true_and, Int.cast_natCast]
    rw [Bool.and_comm, Bool.and_assoc]
  · simp only [hfull, decide_false, Bool.false_and]

end Scan

/-! ## The search for the end -/

section Ending

variable [Field F] [LinearOrder F]

/-- The parameters: no pitch, a window of voice, a lead-in of at most 100 frames that does not end
after the frame at which the voice is found, a window of silence, voices of at most 30 seconds. -/
structure Config.Plain (cfg : Config F) : Prop where
  pitch : cfg.bEnablePitch = false
  minVoc : 0 < cfg.nMinVocFrameNum
  pre : -100 ≤ cfg.nPreFrameNum
  lead_nonneg : 0 ≤ cfg.nMinVocFrameNum + cfg.nPreFrameNum
  lead_le : cfg.nMinVocFrameNum + cfg.nPreFrameNum ≤ 100
  minSil : 0 ≤ cfg.nMinSilFrameNum
  maxSpeech : cfg.nMaxSpeechFrameNum ≤ 3000

variable {cfg : Config F} {d : VoiceDetector F σ π} {results : List (F × F)} {off s : ℕ}

/-- The tests at the beginning of `JudgeVoiceEnd` only save a scan that finds nothing. -/
theorem judgeVoiceEnd_eq (hcfg : cfg.Plain) (h : ProbsAt d (results.drop off) off) {w start : ℕ}
    (hw : cfg.nMinSilFrameNum = w)
    (hstart : max (d.nVocStartFrame + cfg.nMinSpeechFrameNum - cfg.nMinSilFrameNum)
      d.nVocStartOffset = start) :
    d.judgeVoiceEnd cfg =
      (d.scanEnd cfg).elim d fun i ↦ { d with nVocStopFrame := i } := by
  have hnone : (d.nCurProbFrameNum < d.nVocStartFrame + cfg.nMinSpeechFrameNum ∨
      d.nCurProbFrameNum ≤ d.nVocStartOffset + cfg.nMinSilFrameNum) → d.scanEnd cfg = none := by
    intro hshort
    rw [scanEnd_eq h hcfg.pitch hw hstart, Option.map_eq_none_iff, List.find?_range_eq_none]
    intro j hj
    have hcur := h.cur
    have hfull : ¬ w ≤ j := by omega
    rw [decide_eq_false hfull, Bool.false_and]
    rfl
  rw [judgeVoiceEnd]
  split
  case isTrue hshort =>
      rw [hnone (.inl hshort)]
      rfl
  case isFalse =>
      split
      case isTrue hshort =>
          rw [hnone (.inr hshort)]
          rfl
      case isFalse =>
          cases d.scanEnd cfg with
          | none => rfl
          | some i => rfl

variable [FloorRing F]

/-- A voice has been found at frame `s`, and the tables begin with it. -/
structure Found (cfg : Config F) (d : VoiceDetector F σ π) (results : List (F × F)) (off s : ℕ) :
    Prop where
  start : d.nVocStartFrame = 0
  first : firstStart cfg results = some s
  offset : (off : ℤ) = startOf cfg s
  startOffset : d.nVocStartOffset + off = s

/-- The frames that can end the voice, counted from where `JudgeVoiceEnd` starts to scan. -/
theorem firstStop_eq (hfound : Found cfg d results off s) {w start : ℕ}
    (hw : cfg.nMinSilFrameNum = w)
    (hstart : max (d.nVocStartFrame + cfg.nMinSpeechFrameNum - cfg.nMinSilFrameNum)
      d.nVocStartOffset = start) :
    firstStop cfg results s = ((List.range ((results.drop off).length - start)).find? fun j ↦
      decide (w ≤ j) && ends cfg results (off + (start + j))).map fun j ↦ off + start + j := by
  -- the earliest end is a full window after the scan starts
  have hbound : max (startOf cfg s + cfg.nMinSpeechFrameNum) (s + cfg.nMinSilFrameNum) =
      ((off + start + w : ℕ) : ℤ) := by
    have hstart' := hfound.start
    have hoffset := hfound.offset
    have hfirst := hfound.startOffset
    push_cast
    omega
  have hearly : ∀ t < off + start, endsAfter cfg results s t = false := by
    intro t ht
    have hnot : ¬ ((off + start + w : ℕ) : ℤ) ≤ t := by omega
    rw [endsAfter, hbound, decide_eq_false hnot, Bool.false_and]
  rw [firstStop, find?_range_shift hearly, List.length_drop, Nat.sub_sub]
  congr 1
  apply List.find?_congr
  intro j _
  have hlate : ((off + start + w : ℕ) : ℤ) ≤ ((off + start + j : ℕ) : ℤ) ↔ w ≤ j := by omega
  rw [endsAfter, hbound, decide_eq_decide.mpr hlate, Nat.add_assoc]

/-- **`JudgeVoiceEnd` finds the end of the voice** when it is in the tables. -/
theorem detectEnd_spec (hcfg : cfg.Plain) (h : ProbsAt d (results.drop off) off)
    (hfound : Found cfg d results off s) (hstop : d.nVocStopFrame = -1) :
    (firstStop cfg results s = none ∧ d.detectEnd cfg false = d) ∨
      ∃ t : ℕ, firstStop cfg results s = some t ∧ off ≤ t ∧
        d.detectEnd cfg false = { d with nVocStopFrame := (t : ℤ) - off, bIsEnd := true } := by
  have hlead := hcfg.lead_nonneg
  have hoffset := hfound.offset
  have hstartOffset := hfound.startOffset
  obtain ⟨w, hw⟩ := Int.eq_ofNat_of_zero_le hcfg.minSil
  have hnonneg : 0 ≤ max (d.nVocStartFrame + cfg.nMinSpeechFrameNum - cfg.nMinSilFrameNum)
      d.nVocStartOffset := by
    rw [startOf] at hoffset
    omega
  obtain ⟨start, hstart⟩ := Int.eq_ofNat_of_zero_le hnonneg
  have hscan := scanEnd_eq h hcfg.pitch hw hstart
  have hjudge := judgeVoiceEnd_eq hcfg h hw hstart
  rw [firstStop_eq hfound hw hstart]
  have hcond : 0 ≤ d.nVocStartFrame ∧ d.nVocStopFrame = -1 := ⟨hfound.start.ge, hstop⟩
  rw [detectEnd, if_pos hcond]
  cases hfind : (List.range ((results.drop off).length - start)).find? fun j ↦
      decide (w ≤ j) && ends cfg results (off + (start + j)) with
  | none =>
      rw [hfind] at hscan
      rw [hscan] at hjudge
      have hnot : ¬ 0 ≤ d.nVocStopFrame := by omega
      refine .inl ⟨rfl, ?_⟩
      simp only [hjudge, Option.map_none, Option.elim_none, if_neg hnot, Bool.false_eq_true, if_false]
  | some j =>
      rw [hfind] at hscan
      rw [hscan] at hjudge
      have hpos : (0 : ℤ) ≤ start + j := by omega
      have heq : (start : ℤ) + j = ((off + start + j : ℕ) : ℤ) - off := by omega
      refine .inr ⟨off + start + j, rfl, by omega, ?_⟩
      rw [← heq]
      simp only [hjudge, Option.map_some, Option.elim_some, if_pos hpos]

end Ending

/-! ## The search for the beginning -/

section Beginning

variable [Field F] [LinearOrder F] [FloorRing F] {cfg : Config F} {d : VoiceDetector F σ π}
  {results more : List (F × F)} {off s : ℕ}

/-- Whether a voice may begin at a frame is known when the frame is there. -/
theorem begins_append (more : List (F × F)) {t : ℕ} (ht : t < results.length) :
    begins cfg (results ++ more) t = begins cfg results t := by
  rw [begins, begins, List.getElem?_append_left ht]
  by_cases hlate : cfg.nMinVocFrameNum ≤ t
  · rw [windowOf_append results more (by omega) ht.le]
  · simp only [decide_eq_false hlate, Bool.false_and]

theorem firstStart_append (h : firstStart cfg results = some s) (more : List (F × F)) :
    firstStart cfg (results ++ more) = some s := by
  obtain ⟨hbegins, hlt, hbefore⟩ := List.find?_range_eq_some.mp h
  rw [List.mem_range] at hlt
  apply List.find?_range_eq_some.mpr
  refine ⟨?_, ?_, ?_⟩
  · rw [begins_append more hlt]
    exact hbegins
  · rw [List.mem_range, List.length_append]
    omega
  · intro t ht
    rw [begins_append more (ht.trans hlt)]
    exact hbefore t ht

/-- No voice may begin at a frame before those that the scan of the tables tests. -/
theorem firstStart_eq {w : ℕ} (hold : ∀ t < off + w, begins cfg results t = false) :
    firstStart cfg results = ((List.range (results.drop off).length).find? fun j ↦
      decide (w ≤ j) && begins cfg results (off + j)).map fun j ↦ off + j := by
  have hbefore : ∀ t < off, begins cfg results t = false := fun t ht ↦ hold t (by omega)
  rw [firstStart, find?_range_shift hbefore, List.length_drop]
  congr 1
  apply List.find?_congr
  intro j _
  by_cases hfull : w ≤ j
  · rw [decide_eq_true hfull, Bool.true_and]
  · rw [decide_eq_false hfull, Bool.false_and]
    exact hold (off + j) (by omega)

/-- No voice has been found.  Where frames have been removed, enough are left for a lead-in before
every frame to come. -/
structure Waiting (cfg : Config F) (d : VoiceDetector F σ π) (results : List (F × F)) (off : ℕ) :
    Prop where
  start : d.nVocStartFrame = -1
  stop : d.nVocStopFrame = -1
  isEnd : d.bIsEnd = false
  first : firstStart cfg results = none
  left : off = 0 ∨
    cfg.nMinVocFrameNum + cfg.nPreFrameNum + 100 ≤ (results.length : ℤ) - off
  short : (results.length : ℤ) - off < 3000 + cfg.nMinVocFrameNum + cfg.nPreFrameNum

theorem begins_of_first (h : firstStart cfg results = none) {t : ℕ} (ht : t < results.length) :
    begins cfg results t = false := by
  have hnone := List.find?_range_eq_none.mp h t ht
  simpa using hnone

/-- What the scan of a call does not test has been judged before. -/
theorem begins_of_judged (hcfg : cfg.Plain) (hfirst : firstStart cfg results = none)
    (hleft : off = 0 ∨
      cfg.nMinVocFrameNum + cfg.nPreFrameNum + 100 ≤ (results.length : ℤ) - off)
    {w : ℕ} (hw : cfg.nMinVocFrameNum = w) (more : List (F × F)) {t : ℕ} (ht : t < off + w) :
    begins cfg (results ++ more) t = false := by
  by_cases hold : t < results.length
  · rw [begins_append more hold]
    exact begins_of_first hfirst hold
  · have hpre := hcfg.pre
    have hearly : ¬ cfg.nMinVocFrameNum ≤ t := by omega
    rw [begins, decide_eq_false hearly, Bool.false_and, Bool.false_and]

/-- The test at the beginning of `JudgeVoiceBegin` only saves a scan that finds nothing. -/
theorem judgeVoiceBegin_eq (hcfg : cfg.Plain) (V : FrameVad F σ) (nIsAec : Bool)
    (h : ProbsAt d (results.drop off) off) {w : ℕ} (hw : cfg.nMinVocFrameNum = w) :
    d.judgeVoiceBegin cfg V nIsAec = (d.scanBegin cfg).elim (some d) fun i ↦
      d.beginVoice V nIsAec (i - cfg.nMinVocFrameNum - cfg.nPreFrameNum) i := by
  rw [judgeVoiceBegin]
  split
  case isTrue hshort =>
      have hnone : d.scanBegin cfg = none := by
        rw [scanBegin_eq h hcfg.pitch hw, Option.map_eq_none_iff, List.find?_range_eq_none]
        intro j hj
        have hcur := h.cur
        have hfull : ¬ w ≤ j := by omega
        rw [decide_eq_false hfull, Bool.false_and]
        rfl
      rw [hnone]
      rfl
  case isFalse =>
      cases d.scanBegin cfg with
      | none => rfl
      | some i => rfl

variable {isFloat : Bool} {accepted : List F}

/-- **`JudgeVoiceBegin` finds the voice** in the call that delivers the frame. -/
theorem judgeVoiceBegin_spec (hcfg : cfg.Plain) (V : FrameVad F σ) (nIsAec : Bool)
    (h : Books isFloat d accepted (results ++ more) off) (hend : d.bIsEnd = false)
    (hfirst : firstStart cfg results = none)
    (hleft : off = 0 ∨
      cfg.nMinVocFrameNum + cfg.nPreFrameNum + 100 ≤ (results.length : ℤ) - off) :
    (firstStart cfg (results ++ more) = none ∧ d.judgeVoiceBegin cfg V nIsAec = some d) ∨
      ∃ e off' s, d.judgeVoiceBegin cfg V nIsAec = some e ∧
        Books isFloat e accepted (results ++ more) off' ∧
        Found cfg e (results ++ more) off' s ∧
        e.nVocStopFrame = d.nVocStopFrame ∧ e.bIsEnd = false := by
  have hlead := hcfg.lead_nonneg
  obtain ⟨w, hw⟩ := Int.eq_ofNat_of_zero_le hcfg.minVoc.le
  have hjudge := judgeVoiceBegin_eq hcfg V nIsAec h.probs hw
  have hscan := scanBegin_eq h.probs hcfg.pitch hw
  have hfind := firstStart_eq fun t ht ↦ begins_of_judged hcfg hfirst hleft hw more ht
  cases hfound : (List.range ((results ++ more).drop off).length).find? fun j ↦
      decide (w ≤ j) && begins cfg (results ++ more) (off + j) with
  | none =>
      rw [hfound] at hscan hfind
      rw [hscan] at hjudge
      exact .inl ⟨hfind, hjudge⟩
  | some j =>
      rw [hfound] at hscan hfind
      rw [hscan] at hjudge
      obtain ⟨hbegins, hj, -⟩ := List.find?_range_eq_some.mp hfound
      rw [List.mem_range] at hj
      -- a frame at which a voice begins is a new one
      have hnew : results.length ≤ off + j := by
        by_contra hold
        have hfalse := begins_of_first hfirst (Nat.lt_of_not_le hold)
        rw [← begins_append more (Nat.lt_of_not_le hold)] at hfalse
        rw [hfalse, Bool.and_false] at hbegins
        exact Bool.false_ne_true hbegins
      have hstart : (j : ℤ) - cfg.nMinVocFrameNum - cfg.nPreFrameNum ≤
          ((results ++ more).drop off).length := by omega
      obtain ⟨e, he, hbooks, hzero, hoffset, hstop, hopen⟩ := beginVoice_spec V nIsAec h hend hstart j
      refine .inr ⟨e, _, off + j, hjudge.trans he, hbooks, ⟨hzero, hfind, ?_, ?_⟩, hstop, hopen⟩
      · rw [startOf]
        omega
      · rw [hoffset]
        omega

omit [FloorRing F] [Field F] [LinearOrder F] in
theorem silFrames_eq (cfg : Config F) (d : VoiceDetector F σ π) :
    d.silFrames cfg = max 0 (d.nCurProbFrameNum - cfg.nMinVocFrameNum - cfg.nPreFrameNum) := by
  rw [silFrames]
  split
  · omega
  · omega

/-- **The search for the beginning**, with the removal of a long silence. -/
theorem detectBegin_spec (hcfg : cfg.Plain) (V : FrameVad F σ) (nIsAec : Bool)
    (h : Books isFloat d accepted (results ++ more) off) (hstart : d.nVocStartFrame = -1)
    (hstop : d.nVocStopFrame = -1) (hend : d.bIsEnd = false)
    (hfirst : firstStart cfg results = none)
    (hleft : off = 0 ∨
      cfg.nMinVocFrameNum + cfg.nPreFrameNum + 100 ≤ (results.length : ℤ) - off) :
    ∃ e off', d.detectBegin V cfg nIsAec = some e ∧
      Books isFloat e accepted (results ++ more) off' ∧
      (Waiting cfg e (results ++ more) off' ∨
        e.nVocStopFrame = -1 ∧ e.bIsEnd = false ∧ ∃ s, Found cfg e (results ++ more) off' s) := by
  have hlead := hcfg.lead_nonneg
  have hoff := h.off_le
  have hcur := h.probs.cur
  rw [List.length_drop] at hcur
  rw [detectBegin, if_pos hstart]
  obtain ⟨hnone, hjudge⟩ | ⟨e, off', s, hjudge, hbooks, hfound, hstop', hopen⟩ :=
    judgeVoiceBegin_spec hcfg V nIsAec h hend hfirst hleft
  · have hsil := silFrames_eq cfg d
    simp only [hjudge, Option.bind_eq_bind, Option.bind_some, if_pos hstart]
    split
    case isTrue hlong =>
        have hbound : (3000 : ℤ) ≤ d.silFrames cfg := hlong.1
        obtain ⟨n, hn⟩ := Int.eq_ofNat_of_zero_le (a := d.silFrames cfg - 100) (by omega)
        have hdrop : n ≤ ((results ++ more).drop off).length := by
          rw [List.length_drop]
          omega
        obtain ⟨e, he, hbooks, hsame⟩ := offsetWaveFrame_spec h hn (by omega) hdrop
        refine ⟨e, off + n, he, hbooks, .inl ⟨hsame.start.trans hstart, hsame.stop.trans hstop,
          hsame.isEnd.trans hend, hnone, .inr ?_, ?_⟩⟩
        · omega
        · omega
    case isFalse hshort =>
        refine ⟨d, off, rfl, h, .inl ⟨hstart, hstop, hend, hnone, ?_, ?_⟩⟩
        · rw [List.length_append]
          omega
        · have hbound : ¬ (3000 : ℤ) ≤ d.silFrames cfg := fun hlong ↦ hshort ⟨hlong, hend⟩
          omega
  · have hfoundStart : ¬ e.nVocStartFrame = -1 := by
      rw [hfound.start]
      decide
    refine ⟨e, off', ?_, hbooks, .inr ⟨hstop'.trans hstop, hopen, s, hfound⟩⟩
    simp only [hjudge, Option.bind_eq_bind, Option.bind_some, if_neg hfoundStart]

omit [FloorRing F] in
/-- Whether a voice may end at a frame is known when the frame is there. -/
theorem endsAfter_append (more : List (F × F)) {t : ℕ} (ht : t < results.length) :
    endsAfter cfg (results ++ more) s t = endsAfter cfg results s t := by
  rw [endsAfter, endsAfter]
  by_cases hlate : max (startOf cfg s + cfg.nMinSpeechFrameNum) (s + cfg.nMinSilFrameNum) ≤ t
  · have hfull : cfg.nMinSilFrameNum.toNat ≤ t := by omega
    rw [ends, ends, List.getElem?_append_left ht, windowOf_append results more hfull ht.le]
  · simp only [decide_eq_false hlate, Bool.false_and]

omit [FloorRing F] in
theorem firstStop_append {t : ℕ} (h : firstStop cfg results s = some t) (more : List (F × F)) :
    firstStop cfg (results ++ more) s = some t := by
  obtain ⟨hends, hlt, hbefore⟩ := List.find?_range_eq_some.mp h
  rw [List.mem_range] at hlt
  apply List.find?_range_eq_some.mpr
  refine ⟨?_, ?_, ?_⟩
  · rw [endsAfter_append more hlt]
    exact hends
  · rw [List.mem_range, List.length_append]
    omega
  · intro u hu
    rw [endsAfter_append more (hu.trans hlt)]
    exact hbefore u hu

/-- A start that has been found stays. -/
theorem startFrame_append (h : startFrame cfg results ≠ -1) (more : List (F × F)) :
    startFrame cfg (results ++ more) = startFrame cfg results := by
  cases hfirst : firstStart cfg results with
  | none =>
      rw [startFrame, hfirst] at h
      exact absurd rfl h
  | some s => simp only [startFrame, hfirst, firstStart_append hfirst more]

/-- And a stop. -/
theorem stopFrame_append (h : stopFrame cfg results ≠ -1) (more : List (F × F)) :
    stopFrame cfg (results ++ more) = stopFrame cfg results := by
  cases hfirst : firstStart cfg results with
  | none =>
      rw [stopFrame, hfirst] at h
      exact absurd rfl h
  | some s =>
      cases hstop : firstStop cfg results s with
      | none =>
          simp only [stopFrame, hfirst, hstop] at h
          exact absurd rfl h
      | some t =>
          simp only [stopFrame, hfirst, firstStart_append hfirst more, hstop,
            firstStop_append hstop more]

end Beginning

/-! ## Runs -/

section Runs

variable [Field F] [LinearOrder F] [FloorRing F]

/-- Where a run is: no voice found, a voice found but not its end, or both. -/
inductive Phase (cfg : Config F) (d : VoiceDetector F σ π) (results : List (F × F)) (off : ℕ) : Prop
  | waiting (h : Waiting cfg d results off)
  | speaking (s : ℕ) (h : Found cfg d results off s) (stop : d.nVocStopFrame = -1)
      (isEnd : d.bIsEnd = false) (first : firstStop cfg results s = none)
  | ended (s t : ℕ) (h : Found cfg d results off s) (stop : d.nVocStopFrame = (t : ℤ) - off)
      (le : off ≤ t) (isEnd : d.bIsEnd = true) (first : firstStop cfg results s = some t)

variable {cfg : Config F} {d : VoiceDetector F σ π} {results : List (F × F)} {off : ℕ}

theorem Phase.congr {e : VoiceDetector F σ π} (h : Phase cfg d results off)
    (hsame : SameVoice d e) : Phase cfg e results off := by
  have hfound : ∀ s, Found cfg d results off s → Found cfg e results off s := fun s hs ↦
    ⟨hsame.start.trans hs.start, hs.first, hs.offset, hsame.startOffset ▸ hs.startOffset⟩
  cases h with
  | waiting h =>
      exact .waiting ⟨hsame.start.trans h.start, hsame.stop.trans h.stop,
        hsame.isEnd.trans h.isEnd, h.first, h.left, h.short⟩
  | speaking s h stop isEnd first =>
      exact .speaking s (hfound s h) (hsame.stop.trans stop) (hsame.isEnd.trans isEnd) first
  | ended s t h stop le isEnd first =>
      exact .ended s t (hfound s h) (hsame.stop.trans stop) le (hsame.isEnd.trans isEnd) first

/-- The answers of the detector in each of them. -/
theorem Phase.answers (h : Phase cfg d results off) (hoff : d.nOffsetFrame = off) :
    d.getVoiceStartFrame = startFrame cfg results ∧ d.getVoiceStopFrame = stopFrame cfg results := by
  have hfound : ∀ s, Found cfg d results off s → d.getVoiceStartFrame = startFrame cfg results := by
    intro s hs
    rw [getVoiceStartFrame, if_pos hs.start.ge, hs.start, hoff, hs.offset, startFrame, hs.first,
      zero_add]
  cases h with
  | waiting h =>
      have hnostart : ¬ 0 ≤ d.nVocStartFrame := by
        rw [h.start]
        decide
      have hnostop : ¬ 0 ≤ d.nVocStopFrame := by
        rw [h.stop]
        decide
      rw [getVoiceStartFrame, if_neg hnostart, startFrame, getVoiceStopFrame, if_neg hnostop,
        stopFrame, h.first]
      exact ⟨rfl, rfl⟩
  | speaking s h stop isEnd first =>
      have hnostop : ¬ 0 ≤ d.nVocStopFrame := by
        rw [stop]
        decide
      refine ⟨hfound s h, ?_⟩
      rw [getVoiceStopFrame, if_neg hnostop, stopFrame, h.first]
      simp only [first]
  | ended s t h stop le isEnd first =>
      have hstop : 0 ≤ d.nVocStopFrame := by omega
      refine ⟨hfound s h, ?_⟩
      rw [getVoiceStopFrame, if_pos hstop, stopFrame, h.first, stop, hoff]
      simp only [first]
      omega

/-- The search for the end, once a voice is found. -/
theorem phase_detectEnd (hcfg : cfg.Plain) (hprobs : ProbsAt d (results.drop off) off) {s : ℕ}
    (hfound : Found cfg d results off s) (hstop : d.nVocStopFrame = -1) (hend : d.bIsEnd = false) :
    Phase cfg (d.detectEnd cfg false) results off := by
  obtain ⟨hnone, heq⟩ | ⟨t, hsome, hle, heq⟩ := detectEnd_spec hcfg hprobs hfound hstop
  · rw [heq]
    exact .speaking s hfound hstop hend hnone
  · rw [heq]
    exact .ended s t ⟨hfound.start, hfound.first, hfound.offset, hfound.startOffset⟩ rfl hle rfl hsome

/-- Before a voice is found nothing is done about its end. -/
theorem Waiting.detectEnd (h : Waiting cfg d results off) : d.detectEnd cfg false = d := by
  have hnostart : ¬ 0 ≤ d.nVocStartFrame := by
    rw [h.start]
    decide
  rw [VoiceDetector.detectEnd, if_neg fun hcond ↦ hnostart hcond.1]

variable {isFloat : Bool} {accepted : List F}

/-- **One call in a run.** -/
theorem phase_call (hcfg : cfg.Plain) (V : FrameVad F σ) (nIsAec : Bool)
    {more : List (F × F)} {e : VoiceDetector F σ π}
    (hphase : Phase cfg d results off) (hopen : d.bIsEnd = false)
    (hbooks : Books isFloat e accepted (results ++ more) off)
    (hstart : e.nVocStartFrame = d.nVocStartFrame) (hstop : e.nVocStopFrame = d.nVocStopFrame)
    (hstartOffset : e.nVocStartOffset = d.nVocStartOffset) (hend : e.bIsEnd = false) :
    ∃ e' off', (e.detectBegin V cfg nIsAec).map (fun e' ↦ e'.detectEnd cfg false) = some e' ∧
      Books isFloat e' accepted (results ++ more) off' ∧ Phase cfg e' (results ++ more) off' := by
  cases hphase with
  | waiting h =>
      obtain ⟨e', off', he, hbooks', hwait | ⟨hstop', hend', s, hfound⟩⟩ := detectBegin_spec hcfg V
        nIsAec hbooks (hstart.trans h.start) (hstop.trans h.stop) hend h.first h.left
      · refine ⟨e', off', ?_, hbooks', .waiting hwait⟩
        rw [he, Option.map_some, hwait.detectEnd]
      · refine ⟨e'.detectEnd cfg false, off', ?_, detectEnd_books cfg hbooks' false, ?_⟩
        · rw [he, Option.map_some]
        · exact phase_detectEnd hcfg hbooks'.probs hfound hstop' hend'
  | speaking s h stop isEnd first =>
      have hfound : Found cfg e (results ++ more) off s :=
        ⟨hstart.trans h.start, firstStart_append h.first more, h.offset,
          hstartOffset ▸ h.startOffset⟩
      have hnot : ¬ e.nVocStartFrame = -1 := by
        rw [hfound.start]
        decide
      refine ⟨e.detectEnd cfg false, off, ?_, detectEnd_books cfg hbooks false, ?_⟩
      · rw [detectBegin, if_neg hnot, Option.map_some]
      · exact phase_detectEnd hcfg hbooks.probs hfound (hstop.trans stop) hend
  | ended s t h stop le isEnd first => exact absurd (hopen.symm.trans isEnd) Bool.false_ne_true

omit [FloorRing F] in
/-- A call of at most 2900 frames does not fill a buffer with fewer than 3100. -/
theorem not_isFull (h : Books isFloat d accepted results off) {data : List (Sample F isFloat)}
    (hdata : data.length ≤ 2900 * frameSize) (hcur : d.nCurProbFrameNum < 3100) :
    ((d.fed isFloat data).waveBuf isFloat).isFull = false := by
  obtain ⟨hat, halloc, hbytes⟩ := h.wave.alloc
  have hsound := hat.sound_waveBuf
  have hfed : (d.fed isFloat data).waveBuf isFloat =
      ((d.allocWave isFloat).waveBuf isFloat).feed data := by
    rw [fed, feedWave, waveBuf_setWaveBuf]
  have hsize : (((d.allocWave isFloat).waveBuf isFloat).feed data).bufSize = waveBufSize := by
    rw [ByteBuffer.feed, if_pos halloc]
    exact hsound.size halloc
  have hframes : (d.waveBuf isFloat).bytes.length / frameSize < 3100 := by
    have hnum := h.waveFrameNum_eq
    rw [h.probs.cur, ← hnum] at hcur
    exact_mod_cast hcur
  have hlength : (((d.allocWave isFloat).waveBuf isFloat).feed data).bytes.length < waveBufSize := by
    rw [hsound.feed_bytes halloc, hbytes]
    refine lt_of_le_of_lt (List.length_take_le' _ _) ?_
    rw [List.length_append, waveBufSize]
    rw [frameSize] at hdata hframes
    omega
  rw [hfed, ByteBuffer.isFull, hsize, beq_eq_false_iff_ne.mpr hlength.ne, Bool.and_false]

/-- The frames in the tables when a call comes that the parameters allow. -/
theorem Phase.cur_lt (h : Phase cfg d results off) (hcfg : cfg.Plain) (hopen : d.bIsEnd = false)
    (hcur : d.nCurProbFrameNum = (results.drop off).length) (hoff : off ≤ results.length)
    (hvoice : d.getVoiceFrameNum < cfg.nMaxSpeechFrameNum) : d.nCurProbFrameNum < 3100 := by
  rw [List.length_drop] at hcur
  cases h with
  | waiting h =>
      have hshort := h.short
      have hlead := hcfg.lead_le
      omega
  | speaking s h stop isEnd first =>
      have hnostop : ¬ 0 ≤ d.nVocStopFrame := by
        rw [stop]
        decide
      have hmax := hcfg.maxSpeech
      have hstart := h.start
      rw [getVoiceFrameNum, if_pos h.start.ge, if_neg hnostop] at hvoice
      omega
  | ended s t h stop le isEnd first => exact absurd (hopen.symm.trans isEnd) Bool.false_ne_true

/-! ## The answers of a run -/

/-- A call of `InputFloatWave` that is not said to be the last: its samples and `nIsAec`. -/
def Session.call (V : FrameVad F σ) (P : PitchExtr F π) (cfg : Config F)
    (s : Option (Session F σ π)) (c : List F × Bool) : Option (Session F σ π) :=
  Session.next V P cfg s (.input c.1 false c.2 : Op F true)

/-- The calls of a run: at most 2900 frames each, while the voice is not too long. -/
def Session.Allowed (cfg : Config F) (s : Option (Session F σ π)) (c : List F × Bool) : Prop :=
  c.1.length ≤ 2900 * frameSize ∧ ∀ t ∈ s, t.det.getVoiceFrameNum < cfg.nMaxSpeechFrameNum

instance (cfg : Config F) (s : Option (Session F σ π)) (c : List F × Bool) :
    Decidable (Session.Allowed cfg s c) :=
  inferInstanceAs (Decidable (_ ∧ _))

/-- A detector after a `Restart`. -/
def Session.restarted (V : FrameVad F σ) (P : PitchExtr F π) (cfg : Config F)
    (d : VoiceDetector F σ π) : Session F σ π :=
  ⟨d.restart V P cfg, [], []⟩

/-- What the runs keep. -/
def Session.Tracks (cfg : Config F) (s : Session F σ π) : Prop :=
  ∃ off, Books true s.det s.accepted (s.judged.map Prod.snd) off ∧
    Phase cfg s.det (s.judged.map Prod.snd) off

theorem Session.Tracks.call {s : Session F σ π} (h : s.Tracks cfg) (hcfg : cfg.Plain)
    (V : FrameVad F σ) (P : PitchExtr F π) {c : List F × Bool} (hc : Allowed cfg (some s) c) :
    ∃ s', Session.call V P cfg (some s) c = some s' ∧ s'.Tracks cfg ∧ s.judged <+: s'.judged := by
  obtain ⟨off, hbooks, hphase⟩ := h
  obtain ⟨data, nIsAec⟩ := c
  have hvoice := hc.2 s rfl
  cases hend : s.det.bIsEnd with
  | true =>
      refine ⟨{ s with det := s.det.allocWave true }, ?_, ⟨off, allocWave_books hbooks, ?_⟩,
        List.prefix_rfl⟩
      · simp only [Session.call, Session.next, Option.bind_some, Session.step,
          internalInputWave_of_isEnd V P cfg hend, hend, Option.map_some, if_true]
      · obtain ⟨_, _, halloc⟩ := s.det.allocWave_eq true
        refine hphase.congr ?_
        rw [halloc]
        exact ⟨rfl, rfl, rfl, rfl⟩
  | false =>
      obtain ⟨e, hjudging, hcall⟩ := internalInputWave_eq V P cfg hbooks hend data false nIsAec
      have hcur := hphase.cur_lt hcfg hend hbooks.probs.cur hbooks.off_le hvoice
      have hopen : e.bIsEnd = false := by
        rw [hjudging.isEnd, not_isFull hbooks hc.1 hcur, decide_eq_false (not_le.mpr hvoice)]
        rfl
      obtain ⟨e', off', he, hbooks', hphase'⟩ := phase_call hcfg V nIsAec hphase hend hjudging.books
        hjudging.start hjudging.stop hjudging.startOffset hopen
      rw [hopen, he] at hcall
      have hlength := length_judge V nIsAec s.det.vad.state (s.det.newFrames true data)
      have hresults : (s.judged ++ (s.det.newFrames true data).zip
          (V.judge nIsAec s.det.vad.state (s.det.newFrames true data))).map Prod.snd =
          s.judged.map Prod.snd ++
            V.judge nIsAec s.det.vad.state (s.det.newFrames true data) := by
        rw [List.map_append, List.map_snd_zip hlength.le]
      refine ⟨⟨e', s.accepted ++ s.det.accepts true data, s.judged ++
        (s.det.newFrames true data).zip
          (V.judge nIsAec s.det.vad.state (s.det.newFrames true data))⟩, ?_, ⟨off', ?_, ?_⟩,
        List.prefix_append _ _⟩
      · simp only [Session.call, Session.next, Option.bind_some, Session.step, hcall, hend,
          Option.map_some, Bool.false_eq_true, if_false]
      · rw [hresults]
        exact hbooks'
      · rw [hresults]
        exact hphase'

/-- A run of allowed calls never fails, and only adds results. -/
theorem Session.Tracks.run {s : Session F σ π} (h : s.Tracks cfg) (hcfg : cfg.Plain)
    (V : FrameVad F σ) (P : PitchExtr F π) {calls : List (List F × Bool)}
    (hcalls : Trace.Along (Session.call V P cfg) (Allowed cfg) (some s) calls) :
    ∃ s', Trace.run (Session.call V P cfg) (some s) calls = some s' ∧ s'.Tracks cfg ∧
      s.judged <+: s'.judged := by
  induction calls generalizing s with
  | nil => exact ⟨s, rfl, h, List.prefix_rfl⟩
  | cons c calls ih =>
      obtain ⟨next, hnext, htracks, hprefix⟩ := h.call hcfg V P hcalls.1
      have hrest := hcalls.2
      rw [hnext] at hrest
      obtain ⟨s', hrun, htracks', hprefix'⟩ := ih htracks hrest
      refine ⟨s', ?_, htracks', hprefix.trans hprefix'⟩
      rw [Trace.run_cons, hnext]
      exact hrun

theorem Session.Tracks.answers {s : Session F σ π} (h : s.Tracks cfg) :
    s.det.getVoiceStartFrame = startFrame cfg (s.judged.map Prod.snd) ∧
      s.det.getVoiceStopFrame = stopFrame cfg (s.judged.map Prod.snd) := by
  obtain ⟨off, hbooks, hphase⟩ := h
  exact hphase.answers hbooks.probs.offset

theorem Session.tracks_restarted (hcfg : cfg.Plain) (V : FrameVad F σ) (P : PitchExtr F π)
    {d : VoiceDetector F σ π} (hd : d.Sound) : (restarted V P cfg d).Tracks cfg := by
  have hlead := hcfg.lead_nonneg
  have hoff : ¬ cfg.bEnablePitch = true := by
    rw [hcfg.pitch]
    exact Bool.false_ne_true
  refine ⟨0, restart_books V P cfg hd true, .waiting ?_⟩
  rw [restarted, VoiceDetector.restart, if_neg hoff]
  refine ⟨rfl, rfl, rfl, rfl, .inl rfl, ?_⟩
  show (0 : ℤ) - 0 < _
  omega

/-- **Endpoint detection.**  However a stream is cut into calls, after each call the detector says
that the voice starts and ends where the results of the frames so far say, and what it has said once
it says for the rest of the run. -/
theorem Session.endpoints_of_calls (hcfg : cfg.Plain) (V : FrameVad F σ) (P : PitchExtr F π)
    {d : VoiceDetector F σ π} (hd : d.Sound) {calls : List (List F × Bool)}
    (hcalls : Trace.Along (Session.call V P cfg) (Allowed cfg) (some (restarted V P cfg d)) calls) :
    ∃ s, Trace.run (Session.call V P cfg) (some (restarted V P cfg d)) calls = some s ∧
      ∀ first, first <+: calls →
        ∃ t, Trace.run (Session.call V P cfg) (some (restarted V P cfg d)) first = some t ∧
          t.judged <+: s.judged ∧
          t.det.getVoiceStartFrame = startFrame cfg (t.judged.map Prod.snd) ∧
          t.det.getVoiceStopFrame = stopFrame cfg (t.judged.map Prod.snd) ∧
          (t.det.getVoiceStartFrame ≠ -1 → s.det.getVoiceStartFrame = t.det.getVoiceStartFrame) ∧
          (t.det.getVoiceStopFrame ≠ -1 → s.det.getVoiceStopFrame = t.det.getVoiceStopFrame) := by
  have hstart := tracks_restarted hcfg V P hd
  obtain ⟨s, hrun, hs, -⟩ := hstart.run hcfg V P hcalls
  refine ⟨s, hrun, fun first hfirst ↦ ?_⟩
  obtain ⟨t, hrun', ht, -⟩ := hstart.run hcfg V P (Trace.along_of_isPrefix hfirst hcalls)
  obtain ⟨later, rfl⟩ := hfirst
  have hlater : Trace.Along (Session.call V P cfg) (Allowed cfg) (some t) later := by
    have hboth := Trace.along_append_iff.mp hcalls
    rw [hrun'] at hboth
    exact hboth.2
  obtain ⟨s', hrun'', -, hprefix⟩ := ht.run hcfg V P hlater
  have heq : s' = s := by
    rw [Trace.run_append, hrun', hrun''] at hrun
    exact Option.some.inj hrun
  obtain ⟨more, hmore⟩ := heq ▸ hprefix
  have hresults : s.judged.map Prod.snd = t.judged.map Prod.snd ++ more.map Prod.snd := by
    rw [← hmore, List.map_append]
  refine ⟨t, hrun', heq ▸ hprefix, ht.answers.1, ht.answers.2, ?_, ?_⟩
  · rw [ht.answers.1, hs.answers.1, hresults]
    intro hfound
    exact startFrame_append hfound _
  · rw [ht.answers.2, hs.answers.2, hresults]
    intro hfound
    exact stopFrame_append hfound _

end Runs

/-! ## Two runs -/

/-- An energy VAD that takes the last sample of a frame for its energy. -/
def lastSample : EnergyParam ℚ :=
  { EnergyParam.new (fun window ↦ window.getLastD 0) id with fSmoothFactor := 1 }

/-- A pitch extractor that is never ready. -/
def noPitch : PitchExtr ℚ Unit where
  recreate := id
  process extr frame := (extr, frame)
  acceptWaveform extr _ := extr
  numFramesReady _ := 0
  prob _ _ := 0

/-- Windows of one frame. -/
def shortWindows : Config ℚ :=
  { Config.new with
    nPreFrameNum := 0
    nMinVocFrameNum := 1
    fMinVoiceRatio := 1
    nMinSpeechFrameNum := 1
    nMinSilFrameNum := 1
    bEnablePitch := false }

/-- The memory of a detector before its constructor. -/
def blank : VoiceDetector ℚ (EnergyState ℚ) Unit where
  vad := ⟨fun _ ↦ 0, 0, 0, 0, ⟨false, 0, [], [], false, 0, 0, 0, 0, .new⟩⟩
  bbWave := .new
  bbFloatWave := .new
  nCurProbFrameNum := 0
  probs _ := 0
  bprobs _ := false
  nVocStartFrame := 0
  nVocStopFrame := 0
  nOffsetFrame := 0
  nVocStartOffset := 0
  bIsEnd := false
  pitchExtr := ()
  nCurPitchProbFrameNum := 0
  pitchprobs _ := 0

/-- A new detector. -/
def fresh (cfg : Config ℚ) : VoiceDetector ℚ (EnergyState ℚ) Unit :=
  VoiceDetector.new (energyVad lastSample) noPitch cfg blank

theorem fresh_sound (cfg : Config ℚ) : (fresh cfg).Sound :=
  (new_books (energyVad lastSample) noPitch cfg blank true).sound

/-- Frames of the given levels. -/
def levels (l : List ℚ) : List ℚ := l.flatMap (List.replicate frameSize)

/-- Silence, two frames of voice and two of silence, cut within a frame. -/
def threeCalls : List (List ℚ × Bool) :=
  [(levels [0, 30000, 30000] ++ List.replicate 40 0, false), (List.replicate 120 0, false),
    (levels [0], false)]

theorem shortWindows_plain : shortWindows.Plain := by
  refine ⟨rfl, ?_, ?_, ?_, ?_, ?_, ?_⟩ <;> decide

theorem endpoints_of_threeCalls :
    ∃ s, Trace.run (Session.call (energyVad lastSample) noPitch shortWindows)
        (some (Session.restarted (energyVad lastSample) noPitch shortWindows (fresh shortWindows)))
        threeCalls = some s ∧
      ∀ first, first <+: threeCalls →
        ∃ t, Trace.run (Session.call (energyVad lastSample) noPitch shortWindows)
            (some (Session.restarted (energyVad lastSample) noPitch shortWindows
              (fresh shortWindows))) first = some t ∧
          t.judged <+: s.judged ∧
          t.det.getVoiceStartFrame = startFrame shortWindows (t.judged.map Prod.snd) ∧
          t.det.getVoiceStopFrame = stopFrame shortWindows (t.judged.map Prod.snd) ∧
          (t.det.getVoiceStartFrame ≠ -1 → s.det.getVoiceStartFrame = t.det.getVoiceStartFrame) ∧
          (t.det.getVoiceStopFrame ≠ -1 → s.det.getVoiceStopFrame = t.det.getVoiceStopFrame) :=
  Session.endpoints_of_calls shortWindows_plain (energyVad lastSample) noPitch
    (fresh_sound shortWindows) (by decide +kernel)

/-- A lead-in that ends five frames after the frame at which a voice is found. -/
def lateLead : Config ℚ := { shortWindows with nPreFrameNum := -5 }

/-- **A lead-in that ends too late** would begin with frames the detector does not have, and it lets
the voice begin with the tables. -/
theorem start_of_lateLead :
    lateLead.bEnablePitch = false ∧ 0 < lateLead.nMinVocFrameNum ∧
      lateLead.nMinVocFrameNum + lateLead.nPreFrameNum ≤ 100 ∧ 0 ≤ lateLead.nMinSilFrameNum ∧
      lateLead.nMaxSpeechFrameNum ≤ 3000 ∧
      Trace.Along (Session.call (energyVad lastSample) noPitch lateLead) (Session.Allowed lateLead)
        (some (Session.restarted (energyVad lastSample) noPitch lateLead (fresh lateLead)))
        [(levels [30000, 30000], false)] ∧
      (Trace.run (Session.call (energyVad lastSample) noPitch lateLead)
        (some (Session.restarted (energyVad lastSample) noPitch lateLead (fresh lateLead)))
        [(levels [30000, 30000], false)]).map (fun s ↦
          (s.det.getVoiceStartFrame, startFrame lateLead (s.judged.map Prod.snd))) = some (0, 5) := by
  refine ⟨rfl, ?_, ?_, ?_, ?_, ?_, ?_⟩
  · decide
  · decide
  · decide
  · decide
  · decide +kernel
  · decide +kernel

end Vsys.Ztvad
