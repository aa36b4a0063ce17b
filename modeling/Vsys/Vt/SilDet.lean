import Mathlib.Algebra.Order.BigOperators.Group.List
import Mathlib.Algebra.Order.Field.Rat
import Mathlib.Tactic.Linarith
import Mathlib.Tactic.NormNum
import Vsys.Align.Best
import Vsys.Stream.Windows

/-!
# The silence checks of `ZSilDet3`

Before and after a wake word the detector looks at the energies of the frames there, normalised
between the silence level and the voice level.  `CheckLeftSilence` and `CheckRightSilence` slide a
window of `m_iFrmNum` frames over them and compare the largest mean of a window with a shield.

Both loops end one window early, and with too few frames for a loop only one of the two copies takes
the mean over what there is.  `checkSilence_iff` says when the verdicts are the intended ones all
the same.

The arithmetic is exact, and a mean of no numbers, which is not a number in the source, is `none`.
-/

namespace Vsys.Vt

open Vsys.Align Vsys.Stream

/-- `m_fStartShield`. -/
def startShield : ℚ := 5 / 4

/-- `m_fEndShield`. -/
def endShield : ℚ := 5 / 2

/-- The detector between `SetVtEnergy` and `Reset`: the silence level is below the voice level, and
stays there when the shield is lowered. -/
structure ZSilDet3 where
  iFrmNum : ℕ
  iFrmNum_pos : 0 < iFrmNum
  silShield : ℚ
  silEnergy : ℚ
  vtEnergy : ℚ
  leftSilShield : ℚ
  rightSilShield : ℚ
  sil_lt_vt : silEnergy < vtEnergy
  shield_lt_vt : silShield * startShield < vtEnergy
  deriving DecidableEq

/-- The two levels that `SetVtEnergy` chooses for a wake word of the mean energy `fVtEnergy`. -/
def levels (fSilShield fVtEnergy : ℚ) : ℚ × ℚ :=
  (fSilShield * startShield,
    if fSilShield * endShield < fVtEnergy / 3 then fVtEnergy / 3 else fSilShield * endShield)

theorem levels_lt (fSilShield : ℚ) {fVtEnergy : ℚ} (h : 300 ≤ fVtEnergy) :
    (levels fSilShield fVtEnergy).1 < (levels fSilShield fVtEnergy).2 := by
  dsimp only [levels]
  split_ifs with hvoice
  · simp only [startShield, endShield] at hvoice ⊢
    by_cases hpos : 0 < fSilShield
    · linarith
    · linarith
  · simp only [startShield, endShield] at hvoice ⊢
    linarith

/-- `SetVtEnergy` and the check of `ProcessMsg_Energy` behind it, which gives up on a wake word that
is not loud enough. -/
def setVtEnergy (iFrmNum : ℕ) (hpos : 0 < iFrmNum)
    (fSilShield leftSilShield rightSilShield fVtEnergy : ℚ) : Option ZSilDet3 :=
  if h : 300 ≤ fVtEnergy then
    some
      { iFrmNum
        iFrmNum_pos := hpos
        silShield := fSilShield
        silEnergy := (levels fSilShield fVtEnergy).1
        vtEnergy := (levels fSilShield fVtEnergy).2
        leftSilShield
        rightSilShield
        sil_lt_vt := levels_lt fSilShield h
        shield_lt_vt := levels_lt fSilShield h }
  else none

/-- `a / b` for a sum `a` of `b` numbers. -/
def ratio (a : ℚ) (b : ℕ) : Option ℚ := if b = 0 then none else some (a / b)

/-- `a < b`, which is false of what is not a number. -/
def below (a : Option ℚ) (b : ℚ) : Bool := a.any fun x ↦ decide (x < b)

namespace ZSilDet3

variable (s : ZSilDet3)

/-- `NormEnergy`. -/
def normEnergy (fEnergy : ℚ) : ℚ :=
  if fEnergy < s.silEnergy then 0
  else if s.vtEnergy < fEnergy then 1
  else (fEnergy - s.silEnergy) / (s.vtEnergy - s.silEnergy)

/-- `pEnergyProb`. -/
def energyProb (energies : List ℚ) : List ℚ := energies.map s.normEnergy

/-- The loop over the windows: the largest sum of `m_iFrmNum` entries at one of the first
`windows` positions. -/
def maxWindow (windows : ℕ) (probs : List ℚ) : ℚ :=
  greatest (fun i ↦ (window s.iFrmNum 1 i probs).sum) 0 (List.range windows)

/-- The shield and the silence level after a quiet piece of the mean energy `fAvg`. -/
def lowerShield (fAvg : Option ℚ) : ZSilDet3 :=
  match fAvg with
  | none => s
  | some fLeftAvg =>
      if h : fLeftAvg < s.silShield then
        have hlevel : fLeftAvg * startShield < s.vtEnergy :=
          (mul_lt_mul_of_pos_right h (by norm_num [startShield])).trans s.shield_lt_vt
        { s with
          silShield := fLeftAvg
          silEnergy := fLeftAvg * startShield
          sil_lt_vt := hlevel
          shield_lt_vt := hlevel }
      else s

/-- `CheckLeftSilence`, on the energies of the frames. -/
def checkLeftSilence (energies : List ℚ) : Bool × ZSilDet3 :=
  let probs := s.energyProb energies
  let leftMax := ratio (s.maxWindow (energies.length - s.iFrmNum) probs) s.iFrmNum
  let leftAvg := ratio energies.sum energies.length
  if below leftMax s.leftSilShield then (true, s.lowerShield leftAvg) else (false, s)

/-- `CheckRightSilence`, on the energies of the frames. -/
def checkRightSilence (energies : List ℚ) : Bool :=
  let probs := s.energyProb energies
  let rightMax :=
    if s.iFrmNum < energies.length then
      ratio (s.maxWindow (energies.length - s.iFrmNum) probs) s.iFrmNum
    else ratio probs.sum energies.length
  below rightMax s.rightSilShield

/-! ## What the checks are for -/

/-- The mean of some numbers. -/
def mean (l : List ℚ) : Option ℚ := ratio l.sum l.length

/-- Every window of `m_iFrmNum` frames is silent, or all the frames together where there are no
more than that. -/
def Silent (shield : ℚ) (energies : List ℚ) : Prop :=
  if s.iFrmNum < energies.length then
    ∀ i ≤ energies.length - s.iFrmNum,
      below (mean (window s.iFrmNum 1 i (s.energyProb energies))) shield = true
  else below (mean (s.energyProb energies)) shield = true

/-- The last window is silent, or an earlier one is not. -/
def LastTold (shield : ℚ) (energies : List ℚ) : Prop :=
  below (mean (window s.iFrmNum 1 (energies.length - s.iFrmNum) (s.energyProb energies))) shield =
      true ∨
    ∃ i < energies.length - s.iFrmNum,
      below (mean (window s.iFrmNum 1 i (s.energyProb energies))) shield = false

/-! ## Windows and means -/

variable {s} {shield : ℚ} {energies : List ℚ}

theorem normEnergy_nonneg (fEnergy : ℚ) : 0 ≤ s.normEnergy fEnergy := by
  rw [normEnergy]
  split_ifs with hsil hvt
  · exact le_rfl
  · exact zero_le_one
  · exact div_nonneg (sub_nonneg.mpr (not_lt.mp hsil)) (sub_nonneg.mpr s.sil_lt_vt.le)

@[simp] theorem length_energyProb : (s.energyProb energies).length = energies.length :=
  List.length_map _

theorem sum_window_nonneg (i : ℕ) :
    0 ≤ (window s.iFrmNum 1 i (s.energyProb energies)).sum := by
  apply List.sum_nonneg
  intro x hx
  have hmem : x ∈ s.energyProb energies := List.mem_of_mem_drop (List.mem_of_mem_take hx)
  obtain ⟨fEnergy, -, rfl⟩ := List.mem_map.mp hmem
  exact normEnergy_nonneg fEnergy

/-- The mean of a window that lies within the frames. -/
theorem mean_window {i : ℕ} (h : i + s.iFrmNum ≤ energies.length) :
    mean (window s.iFrmNum 1 i (s.energyProb energies)) =
      ratio (window s.iFrmNum 1 i (s.energyProb energies)).sum s.iFrmNum := by
  have hlength : (window s.iFrmNum 1 i (s.energyProb energies)).length = s.iFrmNum := by
    rw [window, List.length_take, List.length_drop, length_energyProb, Nat.mul_one]
    exact Nat.min_eq_left (by omega)
  rw [mean, hlength]

theorem below_ratio_iff {a b : ℚ} {n : ℕ} : below (ratio a n) b = true ↔ n ≠ 0 ∧ a < b * n := by
  rw [ratio]
  split_ifs with hn
  · simp [below, hn]
  · have hpos : (0 : ℚ) < n := Nat.cast_pos.mpr (Nat.pos_of_ne_zero hn)
    simp [below, hn, div_lt_iff₀ hpos]

/-- What the loop over at least one window finds. -/
theorem below_maxWindow_iff {windows : ℕ} (hpos : 0 < windows)
    (hwindows : windows + s.iFrmNum ≤ energies.length + 1) :
    below (ratio (s.maxWindow windows (s.energyProb energies)) s.iFrmNum) shield = true ↔
      ∀ i < windows,
        below (mean (window s.iFrmNum 1 i (s.energyProb energies))) shield = true := by
  have hmean : ∀ i < windows,
      (below (mean (window s.iFrmNum 1 i (s.energyProb energies))) shield = true ↔
        s.iFrmNum ≠ 0 ∧
          (window s.iFrmNum 1 i (s.energyProb energies)).sum < shield * s.iFrmNum) := by
    intro i hi
    rw [mean_window (by omega), below_ratio_iff]
  rw [below_ratio_iff, maxWindow, greatest_lt_iff]
  constructor
  · rintro ⟨hw, -, hall⟩ i hi
    exact (hmean i hi).mpr ⟨hw, hall i (List.mem_range.mpr hi)⟩
  · intro hall
    have hfirst := (hmean 0 hpos).mp (hall 0 hpos)
    refine ⟨hfirst.1, (sum_window_nonneg 0).trans_lt hfirst.2, ?_⟩
    intro i hi
    have hlt := List.mem_range.mp hi
    exact ((hmean i hlt).mp (hall i hlt)).2

/-- With no window the loop's maximum is 0. -/
theorem below_maxWindow_zero :
    below (ratio (s.maxWindow 0 (s.energyProb energies)) s.iFrmNum) shield = true ↔
      0 < shield := by
  have hpos : (0 : ℚ) < s.iFrmNum := Nat.cast_pos.mpr s.iFrmNum_pos
  rw [below_ratio_iff, maxWindow, List.range_zero, greatest, List.foldl_nil, mul_pos_iff_of_pos_right hpos,
    and_iff_right s.iFrmNum_pos.ne']

/-- A mean below a shield makes the shield positive. -/
theorem pos_of_below_mean (h : below (mean (s.energyProb energies)) shield = true) :
    0 < shield := by
  rw [mean, below_ratio_iff] at h
  have hnonneg : 0 ≤ (s.energyProb energies).sum := by
    apply List.sum_nonneg
    intro x hx
    obtain ⟨fEnergy, -, rfl⟩ := List.mem_map.mp hx
    exact normEnergy_nonneg fEnergy
  have hpos : (0 : ℚ) < (s.energyProb energies).length := Nat.cast_pos.mpr (Nat.pos_of_ne_zero h.1)
  exact (mul_pos_iff_of_pos_right hpos).mp (hnonneg.trans_lt h.2)

/-! ## The verdicts -/

/-- With enough frames both loops look at every window but the last one. -/
theorem below_maxWindow_iff_silent (hlength : s.iFrmNum < energies.length) :
    (below (ratio (s.maxWindow (energies.length - s.iFrmNum) (s.energyProb energies)) s.iFrmNum)
        shield = true ↔ s.Silent shield energies) ↔ s.LastTold shield energies := by
  rw [below_maxWindow_iff (Nat.sub_pos_of_lt hlength) (by omega), Silent, if_pos hlength, LastTold]
  constructor
  · intro h
    by_cases hall : ∀ i < energies.length - s.iFrmNum,
        below (mean (window s.iFrmNum 1 i (s.energyProb energies))) shield = true
    · exact Or.inl (h.mp hall _ le_rfl)
    · push Not at hall
      obtain ⟨i, hi, hloud⟩ := hall
      exact Or.inr ⟨i, hi, Bool.eq_false_of_not_eq_true hloud⟩
  · rintro (hlast | ⟨i, hi, hloud⟩)
    · refine ⟨fun hall i hi ↦ ?_, fun hall i hi ↦ hall i hi.le⟩
      rcases hi.lt_or_eq with hlt | rfl
      · exact hall i hlt
      · exact hlast
    · refine ⟨fun hall ↦ ?_, fun hall ↦ ?_⟩
      · rw [hall i hi] at hloud
        cases hloud
      · rw [hall i hi.le] at hloud
        cases hloud

theorem checkRightSilence_iff_of_le (hlength : energies.length ≤ s.iFrmNum) :
    s.checkRightSilence energies = true ↔ s.Silent s.rightSilShield energies := by
  rw [checkRightSilence, if_neg hlength.not_gt, Silent, if_neg hlength.not_gt, mean,
    length_energyProb]

theorem checkLeftSilence_eq_true_iff :
    (s.checkLeftSilence energies).1 = true ↔
      below (ratio (s.maxWindow (energies.length - s.iFrmNum) (s.energyProb energies)) s.iFrmNum)
        s.leftSilShield = true := by
  rw [checkLeftSilence]
  split_ifs with hbelow
  · simp [hbelow]
  · simp [hbelow]

/-- With too few frames for the loop the left check only looks at its shield. -/
theorem checkLeftSilence_iff_of_le (hlength : energies.length ≤ s.iFrmNum) :
    ((s.checkLeftSilence energies).1 = true ↔ s.Silent s.leftSilShield energies) ↔
      below (mean (s.energyProb energies)) s.leftSilShield = true ∨ s.leftSilShield ≤ 0 := by
  rw [checkLeftSilence_eq_true_iff, Nat.sub_eq_zero_of_le hlength, below_maxWindow_zero, Silent,
    if_neg hlength.not_gt]
  constructor
  · intro h
    by_cases hpos : 0 < s.leftSilShield
    · exact Or.inl (h.mp hpos)
    · exact Or.inr (not_lt.mp hpos)
  · rintro (hbelow | hle)
    · exact ⟨fun _ ↦ hbelow, pos_of_below_mean⟩
    · exact ⟨fun hpos ↦ absurd hpos hle.not_gt, pos_of_below_mean⟩

/-- **The silence checks decide by every window of `m_iFrmNum` frames, or by the mean of fewer
frames, as long as the last window does not matter and the left one is not asked about too few
loud frames.** -/
theorem checkSilence_iff (s : ZSilDet3) (energies : List ℚ) :
    (((s.checkLeftSilence energies).1 = true ↔ s.Silent s.leftSilShield energies) ∧
        (s.checkRightSilence energies = true ↔ s.Silent s.rightSilShield energies)) ↔
      if s.iFrmNum < energies.length then
        s.LastTold s.leftSilShield energies ∧ s.LastTold s.rightSilShield energies
      else
        below (mean (s.energyProb energies)) s.leftSilShield = true ∨ s.leftSilShield ≤ 0 := by
  split_ifs with hlength
  · have hright : s.checkRightSilence energies =
        below (ratio (s.maxWindow (energies.length - s.iFrmNum) (s.energyProb energies)) s.iFrmNum)
          s.rightSilShield := by
      rw [checkRightSilence, if_pos hlength]
    rw [checkLeftSilence_eq_true_iff, hright, below_maxWindow_iff_silent hlength,
      below_maxWindow_iff_silent hlength]
  · rw [checkLeftSilence_iff_of_le (not_lt.mp hlength)]
    exact and_iff_left (checkRightSilence_iff_of_le (not_lt.mp hlength))

/-- A detector with a window of 30 frames, for a wake word of the mean energy 300. -/
def quietDetector : ZSilDet3 where
  iFrmNum := 30
  iFrmNum_pos := by decide
  silShield := 100
  silEnergy := 125
  vtEnergy := 250
  leftSilShield := 3 / 10
  rightSilShield := 3 / 10
  sil_lt_vt := by norm_num
  shield_lt_vt := by norm_num [startShield]

example :
    setVtEnergy 30 (by decide) 100 (3 / 10) (3 / 10) 300 = some quietDetector := by
  decide +kernel

/-- 22 silent frames and 9 loud ones behind them: the window over the last 30 frames has nine loud
ones, which no iteration of the loops sees. -/
theorem checkSilence_last_window :
    ¬∀ (s : ZSilDet3) (energies : List ℚ),
      ((s.checkLeftSilence energies).1 = true ↔ s.Silent s.leftSilShield energies) ∧
        (s.checkRightSilence energies = true ↔ s.Silent s.rightSilShield energies) := by
  intro h
  have hchecked : (quietDetector.checkLeftSilence
      (List.replicate 22 0 ++ List.replicate 9 300)).1 = true := by decide +kernel
  have hsilent := (h quietDetector (List.replicate 22 0 ++ List.replicate 9 300)).1.mp hchecked
  rw [Silent, if_pos (by decide)] at hsilent
  have hlast : below (mean (window 30 1 1 (quietDetector.energyProb
      (List.replicate 22 0 ++ List.replicate 9 300)))) (3 / 10) = false := by decide +kernel
  exact Bool.false_ne_true (hlast.symm.trans (hsilent 1 (by decide)))

end ZSilDet3

end Vsys.Vt
