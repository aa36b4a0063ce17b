import Mathlib.Tactic.Linarith
import Mathlib.Tactic.Positivity
import Mathlib.Algebra.Order.Field.Rat
import Mathlib.Algebra.Order.BigOperators.Group.List
import Vsys.Trace.Run
import Vsys.Ztvad.Vad

/-!
# The bounds of the energy VAD

`FrameVad` leaves open how a frame is judged; here the rule of the source, `energyVad`, is looked
at alone.  The state is changed by five calls, and next to each function stand the numbers it
divides by.

The threshold is clamped wherever it is computed, and the range in which the probability rises is
at least `m_fMinDynaEnergy` wide, so these two bounds hold in every state.  The frozen threshold is
not clamped.  `FreezeSpeech` copies the voice average into it, which is 0 until the first frame
without echo cancelling, and that frame then divides by it.
-/

namespace Vsys.Ztvad

open Vsys.Trace (run Along Throughout outputs)

variable {F : Type} [Field F] [LinearOrder F]

/-! ## The functions with their divisors -/

namespace EnergyState

variable (p : EnergyParam F) (s : EnergyState F)

/-- The numbers that `updateThreshold` divides by. -/
def thresholdDivisors : List F :=
  if s.ctxEnergies = [] then [] else [(s.ctxEnergies.length : F)]

/-- The context of silence after a frame of the given energy. -/
def pushSilence (energy : F) : List F :=
  let pushed :=
    if p.fMinEnergy ≤ energy ∧ energy ≤ p.fMaxEnergy then s.ctxEnergies ++ [energy]
    else s.ctxEnergies
  if p.nCtxFrameNum < pushed.length then pushed.tail else pushed

/-- The numbers that `updateContext` divides by. -/
def contextDivisors (energy : F) : List F :=
  let ctxVoiceEnergies := pushContext p s.ctxVoiceEnergies energy
  (if ctxVoiceEnergies = [] then [] else [(ctxVoiceEnergies.length : F)]) ++
    if s.bFreeze then [] else { s with ctxEnergies := s.pushSilence p energy }.thresholdDivisors

/-- The threshold a frame is compared with. -/
def usedThreshold : F := if s.bFreezeSpeech then s.fFreezeThreshold else s.fThresholdEnergy

/-- `min` in `CalcFrameEnergyProb`. -/
def minBound : F := s.usedThreshold * p.fBaseRange

/-- `fDynaRange` in `CalcFrameEnergyProb`. -/
def dynaRange : F :=
  let range := s.fVoiceAvgEnergy / s.usedThreshold
  if 0 < s.fVoiceAvgEnergy then
    if range < p.fMinDynaRange then p.fMinDynaRange
    else if p.fMaxDynaRange < range then p.fMaxDynaRange
    else range
  else p.fMinDynaRange

/-- `max` in `CalcFrameEnergyProb`. -/
def maxBound : F :=
  let max := s.usedThreshold * s.dynaRange p
  if max - s.minBound p < p.fMinDynaEnergy then s.minBound p + p.fMinDynaEnergy else max

/-- The numbers that `CalcFrameEnergyProb` divides by. -/
def probDivisors (energy : F) : List F :=
  (if 0 < s.fVoiceAvgEnergy then [s.usedThreshold] else []) ++
    if s.maxBound p ≤ energy ∨ energy ≤ s.minBound p then [] else [s.maxBound p - s.minBound p]

/-- The state and the energy for which a frame calls `CalcFrameEnergyProb`. -/
def heard (nIsAec : Bool) (samples : List F) : EnergyState F × F :=
  let (s, energy) := s.getFrameEnergy p samples
  let smoothed := p.fSmoothFactor * energy + (1 - p.fSmoothFactor) * s.fPrevEnergy
  if nIsAec then
    (if s.fThresholdEnergy < p.fMinAecEnergy then { s with fThresholdEnergy := p.fMinAecEnergy }
      else s, energy)
  else (s.updateContext p smoothed, smoothed)

/-- The numbers that one round of the loop of `DoEnergyVad` divides by. -/
def frameDivisors (nIsAec : Bool) (samples : List F) : List F :=
  let (fed, energy) := s.getFrameEnergy p samples
  let smoothed := p.fSmoothFactor * energy + (1 - p.fSmoothFactor) * s.fPrevEnergy
  let heard := s.heard p nIsAec samples
  (if nIsAec then [] else fed.contextDivisors p smoothed) ++ heard.1.probDivisors p heard.2

/-- The numbers that `Freeze` divides by. -/
def freezeDivisors (bFreeze nIsAec : Bool) : List F :=
  if bFreeze && !nIsAec then
    { s with ctxEnergies := s.ctxEnergies.take (s.ctxEnergies.length - 30) }.thresholdDivisors
  else []

/-- The numbers that `FreezeSpeech` divides by. -/
def freezeSpeechDivisors (bFreeze : Bool) (nFrameNum : ℤ) : List F :=
  if bFreeze then
    if 0 < nFrameNum ∧ nFrameNum < s.ctxVoiceEnergies.length then [(nFrameNum : F), (3 : ℕ)] else []
  else []

theorem frame_fst (nIsAec : Bool) (samples : List F) :
    (s.frame p nIsAec samples).1 =
      { (s.heard p nIsAec samples).1 with
        fEnergyProb :=
          (s.heard p nIsAec samples).1.calcFrameEnergyProb p (s.heard p nIsAec samples).2 } := by
  cases nIsAec <;> rfl

/-! ## Frames and calls -/

/-- A call of the energy VAD. -/
inductive Call (F : Type) where
  | inputFloatWave (wave : List F) (frameNum : ℕ) (nIsAec : Bool)
  | freeze (bFreeze nIsAec : Bool)
  | freezeSpeech (bFreeze : Bool) (nFrameNum : ℤ)
  | restart
  | reset
deriving DecidableEq

/-- The frames of a wave, one after the other. -/
def frames (wave : List F) (frameNum : ℕ) : List (List F) :=
  (List.range frameNum).map (VAD.frameOf wave)

omit [Field F] [LinearOrder F] in
theorem length_frames (wave : List F) (frameNum : ℕ) :
    (frames wave frameNum).length = frameNum := by
  rw [frames, List.length_map, List.length_range]

/-- What the loop of `DoEnergyVad` does to the state. -/
def doEnergyVad (nIsAec : Bool) (frames : List (List F)) : EnergyState F :=
  run (fun s samples ↦ (s.frame p nIsAec samples).1) s frames

/-- The state after a call. -/
def call : Call F → EnergyState F
  | .inputFloatWave wave frameNum nIsAec => s.doEnergyVad p nIsAec (frames wave frameNum)
  | .freeze bFreeze nIsAec => s.freeze p bFreeze nIsAec
  | .freezeSpeech bFreeze nFrameNum => s.freezeSpeech bFreeze nFrameNum
  | .restart => s.restart
  | .reset => s.reset p

/-- The numbers that a call divides by. -/
def divisors : Call F → List F
  | .inputFloatWave wave frameNum nIsAec =>
      outputs (fun s samples ↦ (s.frame p nIsAec samples).1)
        (fun s samples ↦ s.frameDivisors p nIsAec samples) s (frames wave frameNum)
  | .freeze bFreeze nIsAec => s.freezeDivisors bFreeze nIsAec
  | .freezeSpeech bFreeze nFrameNum => s.freezeSpeechDivisors bFreeze nFrameNum
  | .restart => []
  | .reset => []

/-- The table of results does not enter the state. -/
theorem state_doEnergyVad {v v' : VAD F (EnergyState F)} {nIsAec : Bool} {frames : List (List F)}
    (h : VAD.doEnergyVad (energyVad p) nIsAec v frames = some v') :
    v'.state = v.state.doEnergyVad p nIsAec frames := by
  induction frames generalizing v with
  | nil =>
      rw [VAD.doEnergyVad, Option.some_inj] at h
      rw [← h]
      rfl
  | cons samples frames ih =>
      simp only [VAD.doEnergyVad, Option.bind_eq_bind, Option.bind_eq_some_iff] at h
      obtain ⟨_, -, _, -, h⟩ := h
      exact ih h

/-- A call that stays within the table changes the state as `call` says. -/
theorem state_inputFloatWave {v v' : VAD F (EnergyState F)} {wave : List F} {frameNum : ℕ}
    {nIsAec : Bool} (h : v.inputFloatWave (energyVad p) wave frameNum nIsAec = some v') :
    v'.state = v.state.call p (.inputFloatWave wave frameNum nIsAec) :=
  state_doEnergyVad p h

end EnergyState

/-! ## The parameters -/

/-- What the parameters are assumed to be.  `m_fSmoothFactor` and the two probabilities are
constants of the source. -/
structure EnergyParam.Valid (p : EnergyParam F) : Prop where
  minEnergy_pos : 0 < p.fMinEnergy
  minEnergy_le : p.fMinEnergy ≤ p.fMaxEnergy
  minDynaEnergy_pos : 0 < p.fMinDynaEnergy
  smooth_nonneg : 0 ≤ p.fSmoothFactor
  smooth_le : p.fSmoothFactor ≤ 1
  minProb_le : p.fMinProb ≤ p.fMaxProb
  energy_nonneg : ∀ bytes, 0 ≤ p.frameEnergy bytes

/-- The parameters that the constructor sets are valid. -/
theorem EnergyParam.new_valid [IsStrictOrderedRing F] (frameEnergy : List F → F)
    (fastLog : F → F) (h : ∀ bytes, 0 ≤ frameEnergy bytes) :
    (EnergyParam.new frameEnergy fastLog).Valid where
  minEnergy_pos := by norm_num [EnergyParam.new]
  minEnergy_le := by norm_num [EnergyParam.new]
  minDynaEnergy_pos := by norm_num [EnergyParam.new]
  smooth_nonneg := by norm_num [EnergyParam.new]
  smooth_le := by norm_num [EnergyParam.new]
  minProb_le := by norm_num [EnergyParam.new]
  energy_nonneg := h

/-! ## The probability -/

/-- `value` brought between two bounds, the upper one first. -/
def clamp {α : Type} [LinearOrder α] (lo hi value : α) : α :=
  if hi < value then hi else if value < lo then lo else value

theorem clamp_eq {α : Type} [LinearOrder α] {lo hi : α} (h : lo ≤ hi) (value : α) :
    clamp lo hi value = max lo (min hi value) := by
  unfold clamp
  split_ifs with hhi hlo
  · rw [min_eq_left hhi.le, max_eq_right h]
  · rw [min_eq_right (hlo.le.trans h), max_eq_left hlo.le]
  · rw [min_eq_right (not_lt.mp hhi), max_eq_right (not_lt.mp hlo)]

/-- The rise from 0 to 1 between two bounds. -/
def ramp (lo hi energy : F) : F :=
  if hi ≤ energy then 1 else if energy ≤ lo then 0 else (energy - lo) / (hi - lo)

theorem EnergyState.calcFrameEnergyProb_eq (p : EnergyParam F) (s : EnergyState F) (energy : F) :
    s.calcFrameEnergyProb p energy =
      clamp p.fMinProb p.fMaxProb (ramp (s.minBound p) (s.maxBound p) energy) := rfl

namespace EnergyState

variable {p : EnergyParam F} {s : EnergyState F}

theorem calcFrameEnergyProb_mem (hp : p.Valid) (s : EnergyState F) (energy : F) :
    p.fMinProb ≤ s.calcFrameEnergyProb p energy ∧ s.calcFrameEnergyProb p energy ≤ p.fMaxProb := by
  rw [calcFrameEnergyProb_eq, clamp_eq hp.minProb_le]
  exact ⟨le_max_left _ _, max_le hp.minProb_le (min_le_left _ _)⟩

/-! ## What the functions change -/

/-- A threshold is brought between the two bounds, the lower one first. -/
theorem threshold_mem (hp : p.Valid) (threshold : F) :
    p.fMinEnergy ≤
        (if threshold < p.fMinEnergy then p.fMinEnergy
        else if p.fMaxEnergy < threshold then p.fMaxEnergy else threshold) ∧
      (if threshold < p.fMinEnergy then p.fMinEnergy
        else if p.fMaxEnergy < threshold then p.fMaxEnergy else threshold) ≤ p.fMaxEnergy := by
  split_ifs with hmin hmax
  · exact ⟨le_rfl, hp.minEnergy_le⟩
  · exact ⟨hp.minEnergy_le, le_rfl⟩
  · exact ⟨not_lt.mp hmin, not_lt.mp hmax⟩

/-- `updateThreshold` changes the threshold only, to one between the two bounds. -/
theorem updateThreshold_spec (hp : p.Valid) (s : EnergyState F) :
    ∃ threshold, s.updateThreshold p = { s with fThresholdEnergy := threshold } ∧
      (threshold = s.fThresholdEnergy ∨ p.fMinEnergy ≤ threshold ∧ threshold ≤ p.fMaxEnergy) := by
  by_cases hctx : s.ctxEnergies = []
  · exact ⟨s.fThresholdEnergy, if_pos hctx, .inl rfl⟩
  · exact ⟨_, if_neg hctx, .inr (threshold_mem hp _)⟩

/-- The average of the voices heard so far, with the smallest energy added. -/
def voiceAverage (p : EnergyParam F) (context : List F) : F :=
  let average := p.fMinEnergy + context.sum
  if context = [] then average else average / context.length

/-- All that `updateContext` changes. -/
theorem updateContext_spec (hp : p.Valid) (s : EnergyState F) (energy : F) :
    ∃ context threshold average,
      s.updateContext p energy =
        { s with
          fPrevEnergy := energy
          ctxVoiceEnergies := pushContext p s.ctxVoiceEnergies energy
          ctxEnergies := context
          fThresholdEnergy := threshold
          fVoiceAvgEnergy := average } ∧
      (threshold = s.fThresholdEnergy ∨ p.fMinEnergy ≤ threshold ∧ threshold ≤ p.fMaxEnergy) ∧
      voiceAverage p (pushContext p s.ctxVoiceEnergies energy) ≤ average := by
  let voices := pushContext p s.ctxVoiceEnergies energy
  let heard : EnergyState F :=
    { s with
      fPrevEnergy := energy
      ctxVoiceEnergies := voices
      fVoiceAvgEnergy := voiceAverage p voices }
  let judged : EnergyState F :=
    if s.bFreeze then heard
    else { heard with ctxEnergies := s.pushSilence p energy }.updateThreshold p
  have hjudged : ∃ context threshold,
      judged = { heard with ctxEnergies := context, fThresholdEnergy := threshold } ∧
      (threshold = s.fThresholdEnergy ∨ p.fMinEnergy ≤ threshold ∧ threshold ≤ p.fMaxEnergy) := by
    by_cases hfreeze : s.bFreeze = true
    · exact ⟨s.ctxEnergies, s.fThresholdEnergy, if_pos hfreeze, .inl rfl⟩
    · obtain ⟨threshold, heq, hthreshold⟩ :=
        updateThreshold_spec hp { heard with ctxEnergies := s.pushSilence p energy }
      exact ⟨s.pushSilence p energy, threshold, (if_neg hfreeze).trans heq, hthreshold⟩
  have heq : s.updateContext p energy =
      if judged.fVoiceAvgEnergy < judged.fThresholdEnergy then
        { judged with fVoiceAvgEnergy := judged.fThresholdEnergy }
      else judged := rfl
  obtain ⟨context, threshold, hcontext, hthreshold⟩ := hjudged
  rw [heq, hcontext]
  by_cases hlow : voiceAverage p voices < threshold
  · exact ⟨context, threshold, threshold, if_pos hlow, hthreshold, hlow.le⟩
  · exact ⟨context, threshold, _, if_neg hlow, hthreshold, le_rfl⟩

/-! ## Frames -/

/-- All that a frame with echo cancelling changes. -/
theorem frame_aec_spec (p : EnergyParam F) (s : EnergyState F) (samples : List F) :
    ∃ bytes threshold,
      (s.heard p true samples).1 = { s with bfFft := bytes, fThresholdEnergy := threshold } ∧
      (threshold = s.fThresholdEnergy ∨
        s.fThresholdEnergy < p.fMinAecEnergy ∧ threshold = p.fMinAecEnergy) := by
  by_cases hlow : s.fThresholdEnergy < p.fMinAecEnergy
  · exact ⟨_, p.fMinAecEnergy, if_pos hlow, .inr ⟨hlow, rfl⟩⟩
  · exact ⟨_, s.fThresholdEnergy, if_neg hlow, .inl rfl⟩

omit [Field F] [LinearOrder F] in
theorem mem_pushContext {context : List F} {energy entry : F}
    (h : entry ∈ pushContext p context energy) : entry ∈ context ∨ entry = energy := by
  have hmem : entry ∈ context ++ [energy] := by
    dsimp only [pushContext] at h
    split_ifs at h
    · exact List.mem_of_mem_tail h
    · exact h
  simpa using hmem

/-! ## The invariant -/

/-- What holds of the state after every call. -/
structure Sound (p : EnergyParam F) (s : EnergyState F) : Prop where
  min_le : p.fMinEnergy ≤ s.fThresholdEnergy
  le_max : s.fThresholdEnergy ≤ max p.fMaxEnergy p.fMinAecEnergy
  prev_nonneg : 0 ≤ s.fPrevEnergy
  voices_nonneg : ∀ energy ∈ s.ctxVoiceEnergies, 0 ≤ energy
  average_nonneg : 0 ≤ s.fVoiceAvgEnergy
  voices_nil : s.fVoiceAvgEnergy = 0 → s.ctxVoiceEnergies = []

theorem Sound.threshold (hs : Sound p s) {threshold : F}
    (h : threshold = s.fThresholdEnergy ∨ p.fMinEnergy ≤ threshold ∧ threshold ≤ p.fMaxEnergy) :
    p.fMinEnergy ≤ threshold ∧ threshold ≤ max p.fMaxEnergy p.fMinAecEnergy := by
  cases h with
  | inl h => exact h ▸ ⟨hs.min_le, hs.le_max⟩
  | inr h => exact ⟨h.1, h.2.trans (le_max_left _ _)⟩

theorem sound_reset (hp : p.Valid) (s : EnergyState F) : (s.reset p).Sound p where
  min_le := le_rfl
  le_max := hp.minEnergy_le.trans (le_max_left _ _)
  prev_nonneg := le_rfl
  voices_nonneg := fun _ h ↦ nomatch h
  average_nonneg := le_rfl
  voices_nil := fun _ ↦ rfl

theorem Sound.usedThreshold_pos (hp : p.Valid) (hs : s.Sound p) (hfree : s.bFreezeSpeech = false) :
    0 < s.usedThreshold := by
  rw [usedThreshold, hfree]
  exact hp.minEnergy_pos.trans_le hs.min_le

/-- A frame with echo cancelling keeps the averages. -/
theorem sound_aec (hs : s.Sound p) (samples : List F) :
    (s.heard p true samples).1.Sound p := by
  obtain ⟨bytes, threshold, heq, hthreshold⟩ := frame_aec_spec p s samples
  rw [heq]
  refine ⟨?_, ?_, hs.prev_nonneg, hs.voices_nonneg, hs.average_nonneg, hs.voices_nil⟩
  · cases hthreshold with
    | inl h => exact h ▸ hs.min_le
    | inr h => exact hs.min_le.trans (h.2 ▸ h.1.le)
  · cases hthreshold with
    | inl h => exact h ▸ hs.le_max
    | inr h => exact h.2 ▸ le_max_right _ _

/-- The state whose context a frame without echo cancelling updates. -/
theorem Sound.getFrameEnergy (hs : s.Sound p) (samples : List F) :
    (s.getFrameEnergy p samples).1.Sound p :=
  ⟨hs.min_le, hs.le_max, hs.prev_nonneg, hs.voices_nonneg, hs.average_nonneg, hs.voices_nil⟩

theorem sound_freeze (hp : p.Valid) (hs : s.Sound p) (bFreeze nIsAec : Bool) :
    (s.freeze p bFreeze nIsAec).Sound p ∧
      (s.freeze p bFreeze nIsAec).fVoiceAvgEnergy = s.fVoiceAvgEnergy ∧
      (s.freeze p bFreeze nIsAec).bFreezeSpeech = s.bFreezeSpeech ∧
      (s.freeze p bFreeze nIsAec).fFreezeThreshold = s.fFreezeThreshold := by
  by_cases h : (bFreeze && !nIsAec) = true
  · obtain ⟨threshold, heq, hthreshold⟩ := updateThreshold_spec hp
      { s with bFreeze := bFreeze, ctxEnergies := s.ctxEnergies.take (s.ctxEnergies.length - 30) }
    obtain ⟨hmin, hmax⟩ := hs.threshold hthreshold
    rw [show s.freeze p bFreeze nIsAec = _ from (if_pos h).trans heq]
    exact ⟨⟨hmin, hmax, hs.prev_nonneg, hs.voices_nonneg, hs.average_nonneg, hs.voices_nil⟩,
      rfl, rfl, rfl⟩
  · rw [show s.freeze p bFreeze nIsAec = { s with bFreeze := bFreeze } from if_neg h]
    exact ⟨⟨hs.min_le, hs.le_max, hs.prev_nonneg, hs.voices_nonneg, hs.average_nonneg,
      hs.voices_nil⟩, rfl, rfl, rfl⟩

/-- All that `FreezeSpeech` changes: the frozen threshold is the voice average or above it, and
the voice average itself while no voice is in the context. -/
theorem freezeSpeech_spec (s : EnergyState F) (bFreeze : Bool) (nFrameNum : ℤ) :
    ∃ threshold,
      s.freezeSpeech bFreeze nFrameNum =
        { s with bFreezeSpeech := bFreeze, fFreezeThreshold := threshold } ∧
      (bFreeze = true → s.fVoiceAvgEnergy ≤ threshold) ∧
      (bFreeze = true → s.ctxVoiceEnergies = [] → threshold = s.fVoiceAvgEnergy) := by
  cases bFreeze with
  | false => exact ⟨s.fFreezeThreshold, rfl, nofun, nofun⟩
  | true =>
      by_cases h : 0 < nFrameNum ∧ nFrameNum < s.ctxVoiceEnergies.length
      · refine ⟨_, if_pos h, fun _ ↦ ?_, fun _ hnil ↦ ?_⟩
        · dsimp only
          split_ifs with hlow
          · exact le_rfl
          · exact not_lt.mp hlow
        · rw [hnil] at h
          exact absurd (h.1.trans h.2) (lt_irrefl _)
      · exact ⟨s.fVoiceAvgEnergy, if_neg h, fun _ ↦ le_rfl, fun _ _ ↦ rfl⟩

variable [IsStrictOrderedRing F]

theorem ramp_mem {lo hi : F} (h : lo < hi) (energy : F) :
    0 ≤ ramp lo hi energy ∧ ramp lo hi energy ≤ 1 := by
  unfold ramp
  split_ifs with hhi hlo
  · exact ⟨zero_le_one, le_rfl⟩
  · exact ⟨le_rfl, zero_le_one⟩
  · have hpos : 0 < hi - lo := sub_pos.mpr h
    have hlow : 0 ≤ energy - lo := sub_nonneg.mpr (not_le.mp hlo).le
    refine ⟨div_nonneg hlow hpos.le, (div_le_one hpos).mpr ?_⟩
    exact sub_le_sub_right (not_le.mp hhi).le lo

theorem ramp_mono {lo hi : F} (h : lo < hi) : Monotone (ramp lo hi) := by
  intro a b hab
  by_cases hb : hi ≤ b
  · rw [show ramp lo hi b = 1 from if_pos hb]
    exact (ramp_mem h a).2
  · have ha : ¬ hi ≤ a := fun hle ↦ hb (hle.trans hab)
    by_cases hlo : a ≤ lo
    · rw [show ramp lo hi a = 0 by rw [ramp, if_neg ha, if_pos hlo]]
      exact (ramp_mem h b).1
    · have hblo : ¬ b ≤ lo := fun hle ↦ hlo (hab.trans hle)
      rw [ramp, ramp, if_neg hb, if_neg ha, if_neg hlo, if_neg hblo]
      apply div_le_div_of_nonneg_right (sub_le_sub_right hab lo)
      exact (sub_pos.mpr h).le

/-- The range in which the probability rises is never empty. -/
theorem minBound_lt_maxBound (hp : p.Valid) (s : EnergyState F) : s.minBound p < s.maxBound p := by
  have hpos := hp.minDynaEnergy_pos
  dsimp only [maxBound]
  split_ifs with h
  · exact lt_add_of_pos_right _ hpos
  · exact sub_pos.mp (hpos.trans_le (not_lt.mp h))

theorem calcFrameEnergyProb_mono (hp : p.Valid) (s : EnergyState F) :
    Monotone (s.calcFrameEnergyProb p) := by
  intro a b hab
  have hramp := ramp_mono (minBound_lt_maxBound hp s) hab
  rw [calcFrameEnergyProb_eq, calcFrameEnergyProb_eq, clamp_eq hp.minProb_le,
    clamp_eq hp.minProb_le]
  exact max_le_max_left _ (min_le_min_left _ hramp)

/-- A positive number divides wherever `CalcFrameEnergyProb` is called, if the threshold it uses
is one. -/
theorem probDivisors_pos_iff (hp : p.Valid) (s : EnergyState F)
    (energy : F) :
    (∀ divisor ∈ s.probDivisors p energy, 0 < divisor) ↔
      (0 < s.fVoiceAvgEnergy → 0 < s.usedThreshold) := by
  have hrange : 0 < s.maxBound p - s.minBound p := sub_pos.mpr (minBound_lt_maxBound hp s)
  simp only [probDivisors, List.forall_mem_append]
  constructor
  · rintro ⟨hused, -⟩ haverage
    rw [if_pos haverage] at hused
    exact hused _ (List.mem_singleton_self _)
  · intro hused
    constructor
    · split_ifs with haverage
      · simpa using hused haverage
      · simp
    · split_ifs
      · simp
      · simpa using hrange

theorem voiceAverage_pos (hp : p.Valid) {context : List F}
    (hcontext : ∀ energy ∈ context, 0 ≤ energy) : 0 < voiceAverage p context := by
  have hsum : 0 < p.fMinEnergy + context.sum :=
    add_pos_of_pos_of_nonneg hp.minEnergy_pos (List.sum_nonneg hcontext)
  dsimp only [voiceAverage]
  split_ifs with hnil
  · exact hsum
  · exact div_pos hsum (Nat.cast_pos.mpr (List.length_pos_iff.mpr hnil))

/-- A frame without echo cancelling makes the voice average positive. -/
theorem sound_context (hp : p.Valid) (hs : s.Sound p) {energy : F} (henergy : 0 ≤ energy) :
    (s.updateContext p energy).Sound p ∧ 0 < (s.updateContext p energy).fVoiceAvgEnergy ∧
      (s.updateContext p energy).bFreezeSpeech = s.bFreezeSpeech ∧
      (s.updateContext p energy).fFreezeThreshold = s.fFreezeThreshold := by
  obtain ⟨context, threshold, average, heq, hthreshold, haverage⟩ := updateContext_spec hp s energy
  obtain ⟨hmin, hmax⟩ := hs.threshold hthreshold
  have hvoices : ∀ entry ∈ pushContext p s.ctxVoiceEnergies energy, 0 ≤ entry := by
    intro entry hentry
    cases mem_pushContext hentry with
    | inl h => exact hs.voices_nonneg entry h
    | inr h => exact h ▸ henergy
  have hpos : 0 < average := (voiceAverage_pos hp hvoices).trans_le haverage
  rw [heq]
  exact ⟨⟨hmin, hmax, henergy, hvoices, hpos.le, fun h ↦ absurd h hpos.ne'⟩, hpos, rfl, rfl⟩

/-- The smoothed energy of a frame. -/
def smoothed (p : EnergyParam F) (s : EnergyState F) (samples : List F) : F :=
  p.fSmoothFactor * (s.getFrameEnergy p samples).2 + (1 - p.fSmoothFactor) * s.fPrevEnergy

theorem smoothed_nonneg (hp : p.Valid) (hs : s.Sound p) (samples : List F) :
    0 ≤ s.smoothed p samples :=
  add_nonneg (mul_nonneg hp.smooth_nonneg (hp.energy_nonneg _))
    (mul_nonneg (sub_nonneg.mpr hp.smooth_le) hs.prev_nonneg)

/-! ## The calls -/

/-- What the calls so far tell: whether a frame without echo cancelling has come since the last
reset, and whether the speech threshold is frozen. -/
structure Seen where
  fed : Bool
  frozen : Bool
deriving DecidableEq

namespace Seen

/-- After a reset. -/
def start : Seen := ⟨false, false⟩

/-- After one more call. -/
def call (seen : Seen) : Call F → Seen
  | .inputFloatWave _ frameNum nIsAec =>
      { seen with fed := seen.fed || (!nIsAec && decide (0 < frameNum)) }
  | .freeze _ _ => seen
  | .freezeSpeech bFreeze _ => { seen with frozen := bFreeze }
  | .restart => seen
  | .reset => start

/-- The first frame without echo cancelling does not come while the speech threshold is frozen. -/
def Thawed (seen : Seen) : Call F → Prop
  | .inputFloatWave _ frameNum nIsAec =>
      0 < frameNum → nIsAec = false → seen.fed = false → seen.frozen = false
  | _ => True

end Seen

/-- The state and what the calls tell of it. -/
structure Related (p : EnergyParam F) (s : EnergyState F) (seen : Seen) : Prop where
  sound : s.Sound p
  fed_iff : 0 < s.fVoiceAvgEnergy ↔ seen.fed = true
  frozen_eq : s.bFreezeSpeech = seen.frozen
  frozen_pos_iff : s.bFreezeSpeech = true → (0 < s.fFreezeThreshold ↔ 0 < s.fVoiceAvgEnergy)

omit [IsStrictOrderedRing F] in
theorem related_reset (hp : p.Valid) (s : EnergyState F) : Related p (s.reset p) Seen.start where
  sound := sound_reset hp s
  fed_iff := by simp [reset, Seen.start]
  frozen_eq := rfl
  frozen_pos_iff := nofun

omit [IsStrictOrderedRing F] in
/-- Once a frame was heard, the threshold in use is positive, frozen or not. -/
theorem Related.usedThreshold_pos {seen : Seen} (hp : p.Valid) (h : Related p s seen)
    (haverage : 0 < s.fVoiceAvgEnergy) : 0 < s.usedThreshold := by
  cases hfrozen : s.bFreezeSpeech with
  | false => exact h.sound.usedThreshold_pos hp hfrozen
  | true =>
      rw [usedThreshold, if_pos hfrozen]
      exact (h.frozen_pos_iff hfrozen).mpr haverage

/-- What a frame with echo cancelling divides by is positive. -/
theorem Related.aec {seen : Seen} (hp : p.Valid) (h : Related p s seen) (samples : List F) :
    (∀ divisor ∈ s.frameDivisors p true samples, 0 < divisor) ∧
      Related p (s.frame p true samples).1 seen := by
  have hsound := sound_aec h.sound samples
  obtain ⟨bytes, threshold, heq, -⟩ := frame_aec_spec p s samples
  have hrelated : Related p (s.heard p true samples).1 seen := by
    rw [heq] at hsound ⊢
    exact ⟨hsound, h.fed_iff, h.frozen_eq, h.frozen_pos_iff⟩
  constructor
  · exact (probDivisors_pos_iff hp _ _).mpr (hrelated.usedThreshold_pos hp)
  · rw [frame_fst]
    obtain ⟨hs, hfed, hfrozen, hpos⟩ := hrelated
    exact ⟨⟨hs.min_le, hs.le_max, hs.prev_nonneg, hs.voices_nonneg, hs.average_nonneg,
      hs.voices_nil⟩, hfed, hfrozen, hpos⟩

/-- What `updateContext` divides by is positive. -/
theorem contextDivisors_pos (p : EnergyParam F) (s : EnergyState F) (energy : F) :
    ∀ divisor ∈ s.contextDivisors p energy, 0 < divisor := by
  have hlength : ∀ context : List F,
      ∀ divisor ∈ if context = [] then [] else [(context.length : F)], 0 < divisor := by
    intro context divisor h
    split_ifs at h with hnil
    · exact absurd h List.not_mem_nil
    · rw [List.mem_singleton.mp h]
      exact Nat.cast_pos.mpr (List.length_pos_iff.mpr hnil)
  rw [contextDivisors, List.forall_mem_append]
  refine ⟨hlength _, fun divisor h ↦ ?_⟩
  split_ifs at h
  · exact absurd h List.not_mem_nil
  · exact hlength _ divisor h

/-- A frame without echo cancelling divides by positive numbers exactly if it is not the first
one of a frozen speech. -/
theorem Related.normal_iff {seen : Seen} (hp : p.Valid) (h : Related p s seen) (samples : List F) :
    (∀ divisor ∈ s.frameDivisors p false samples, 0 < divisor) ↔
      (seen.fed = false → seen.frozen = false) := by
  obtain ⟨hsound, haverage, hfreeze, hthreshold⟩ :=
    sound_context hp (h.sound.getFrameEnergy samples) (smoothed_nonneg hp h.sound samples)
  set heard := (s.getFrameEnergy p samples).1.updateContext p (s.smoothed p samples) with hheard
  have hsplit : (∀ divisor ∈ s.frameDivisors p false samples, 0 < divisor) ↔
      ∀ divisor ∈ heard.probDivisors p (s.smoothed p samples), 0 < divisor := by
    refine Iff.trans (List.forall_mem_append ..) (and_iff_right ?_)
    exact contextDivisors_pos p _ _
  rw [hsplit, probDivisors_pos_iff hp, imp_iff_right haverage]
  cases hfrozen : seen.frozen with
  | false =>
      have hfree : heard.bFreezeSpeech = false := hfreeze.trans (h.frozen_eq.trans hfrozen)
      exact iff_of_true (hsound.usedThreshold_pos hp hfree) fun _ ↦ rfl
  | true =>
      have hs : s.bFreezeSpeech = true := h.frozen_eq.trans hfrozen
      rw [usedThreshold, if_pos (hfreeze.trans hs), hthreshold]
      calc
        0 < s.fFreezeThreshold ↔ 0 < s.fVoiceAvgEnergy := h.frozen_pos_iff hs
        _ ↔ seen.fed = true := h.fed_iff
        _ ↔ (seen.fed = false → true = false) := by simp

theorem Related.normal {seen : Seen} (hp : p.Valid) (h : Related p s seen) (samples : List F)
    (hthawed : seen.fed = false → seen.frozen = false) :
    Related p (s.frame p false samples).1 { seen with fed := true } := by
  obtain ⟨hsound, haverage, hfreeze, hthreshold⟩ :=
    sound_context hp (h.sound.getFrameEnergy samples) (smoothed_nonneg hp h.sound samples)
  rw [frame_fst]
  refine ⟨⟨hsound.min_le, hsound.le_max, hsound.prev_nonneg, hsound.voices_nonneg,
    hsound.average_nonneg, hsound.voices_nil⟩, iff_of_true haverage rfl,
    hfreeze.trans h.frozen_eq, fun hfrozen ↦ iff_of_true ?_ haverage⟩
  have hs : s.bFreezeSpeech = true := hfreeze.symm.trans hfrozen
  have hfed : seen.fed = true := by
    by_contra hfed
    have := hthawed (Bool.eq_false_of_not_eq_true hfed)
    rw [← h.frozen_eq, hs] at this
    exact Bool.noConfusion this
  exact lt_of_lt_of_eq ((h.frozen_pos_iff hs).mpr (h.fed_iff.mpr hfed)) hthreshold.symm

/-- One frame, with echo cancelling or without it. -/
theorem Related.frame {seen : Seen} (hp : p.Valid) (h : Related p s seen) (nIsAec : Bool)
    (samples : List F) :
    ((∀ divisor ∈ s.frameDivisors p nIsAec samples, 0 < divisor) ↔
        (nIsAec = false → seen.fed = false → seen.frozen = false)) ∧
      ((nIsAec = false → seen.fed = false → seen.frozen = false) →
        Related p (s.frame p nIsAec samples).1 { seen with fed := seen.fed || !nIsAec }) := by
  cases nIsAec with
  | true =>
      obtain ⟨hpos, hrelated⟩ := h.aec hp samples
      refine ⟨iff_of_true hpos nofun, fun _ ↦ ?_⟩
      simpa using hrelated
  | false =>
      refine ⟨(h.normal_iff hp samples).trans (imp_iff_right rfl).symm, fun hthawed ↦ ?_⟩
      simpa using h.normal hp samples (hthawed rfl)

/-- The loop of `DoEnergyVad`: only its first frame may be the first one that is heard. -/
theorem Related.loop {seen : Seen} (hp : p.Valid) (h : Related p s seen) (nIsAec : Bool)
    (frames : List (List F)) :
    (Along (fun s samples ↦ (s.frame p nIsAec samples).1)
        (fun s samples ↦ ∀ divisor ∈ s.frameDivisors p nIsAec samples, 0 < divisor) s frames ↔
        (0 < frames.length → nIsAec = false → seen.fed = false → seen.frozen = false)) ∧
      ((0 < frames.length → nIsAec = false → seen.fed = false → seen.frozen = false) →
        Related p (s.doEnergyVad p nIsAec frames)
          { seen with fed := seen.fed || (!nIsAec && decide (0 < frames.length)) }) := by
  induction frames generalizing s seen with
  | nil => exact ⟨iff_of_true trivial nofun, fun _ ↦ by simpa [doEnergyVad] using h⟩
  | cons samples frames ih =>
      obtain ⟨hdivisors, hkeep⟩ := h.frame hp nIsAec samples
      have hlater : nIsAec = false → (seen.fed || !nIsAec) = false → seen.frozen = false := by
        intro hnormal hfed
        simp [hnormal] at hfed
      have hcons : 0 < (samples :: frames).length := Nat.succ_pos _
      rw [Along, hdivisors, imp_iff_right hcons]
      constructor
      · refine ⟨And.left, fun hthawed ↦ ⟨hthawed, ?_⟩⟩
        exact (ih (hkeep hthawed)).1.mpr fun _ ↦ hlater
      · intro hthawed
        have hrest := (ih (hkeep hthawed)).2 fun _ ↦ hlater
        have hfed : (seen.fed || !nIsAec || (!nIsAec && decide (0 < frames.length))) =
            (seen.fed || (!nIsAec && decide (0 < (samples :: frames).length))) := by
          cases nIsAec <;> simp
        rw [hfed] at hrest
        exact hrest

/-- A call divides by positive numbers exactly if it does not bring the first frame of a frozen
speech. -/
theorem Related.divisors_iff {seen : Seen} (hp : p.Valid) (h : Related p s seen) (call : Call F) :
    (∀ divisor ∈ s.divisors p call, 0 < divisor) ↔ seen.Thawed call := by
  cases call with
  | inputFloatWave wave frameNum nIsAec =>
      have hloop := (h.loop hp nIsAec (frames wave frameNum)).1
      rw [length_frames] at hloop
      exact Trace.forall_mem_outputs_iff.trans hloop
  | freeze bFreeze nIsAec =>
      refine iff_of_true (fun divisor hmem ↦ ?_) trivial
      simp only [divisors, freezeDivisors, thresholdDivisors] at hmem
      split_ifs at hmem with _ hnil
      · exact absurd hmem List.not_mem_nil
      · rw [List.mem_singleton.mp hmem]
        exact Nat.cast_pos.mpr (List.length_pos_iff.mpr hnil)
      · exact absurd hmem List.not_mem_nil
  | freezeSpeech bFreeze nFrameNum =>
      refine iff_of_true (fun divisor hmem ↦ ?_) trivial
      simp only [divisors, freezeSpeechDivisors] at hmem
      split_ifs at hmem with _ hcount
      · rcases List.mem_pair.mp hmem with rfl | rfl
        · exact Int.cast_pos.mpr hcount.1
        · exact three_pos
      all_goals exact absurd hmem List.not_mem_nil
  | restart => exact iff_of_true nofun trivial
  | reset => exact iff_of_true nofun trivial

theorem Related.call {seen : Seen} (hp : p.Valid) (h : Related p s seen) (call : Call F)
    (hthawed : seen.Thawed call) : Related p (s.call p call) (seen.call call) := by
  cases call with
  | inputFloatWave wave frameNum nIsAec =>
      have hloop := (h.loop hp nIsAec (frames wave frameNum)).2
      rw [length_frames] at hloop
      exact hloop hthawed
  | freeze bFreeze nIsAec =>
      obtain ⟨hsound, haverage, hfreeze, hthreshold⟩ := sound_freeze hp h.sound bFreeze nIsAec
      refine ⟨hsound, ?_, hfreeze.trans h.frozen_eq, fun hfrozen ↦ ?_⟩
      · exact (Iff.of_eq (congrArg _ haverage)).trans h.fed_iff
      · have hpos := h.frozen_pos_iff (hfreeze.symm.trans hfrozen)
        rw [← haverage, ← hthreshold] at hpos
        exact hpos
  | freezeSpeech bFreeze nFrameNum =>
      obtain ⟨threshold, heq, hle, hnil⟩ := freezeSpeech_spec s bFreeze nFrameNum
      have hs := h.sound
      rw [show s.call p (.freezeSpeech bFreeze nFrameNum) = _ from heq]
      refine ⟨⟨hs.min_le, hs.le_max, hs.prev_nonneg, hs.voices_nonneg, hs.average_nonneg,
        hs.voices_nil⟩, h.fed_iff, rfl, fun hfrozen ↦ ⟨fun hpos ↦ ?_, fun hpos ↦ ?_⟩⟩
      · refine lt_of_le_of_ne hs.average_nonneg fun hzero ↦ ?_
        have hthreshold : threshold = s.fVoiceAvgEnergy := hnil hfrozen (hs.voices_nil hzero.symm)
        exact hpos.ne' (hthreshold.trans hzero.symm)
      · exact hpos.trans_le (hle hfrozen)
  | restart =>
      have hs := h.sound
      exact ⟨⟨hs.min_le, hs.le_max, hs.prev_nonneg, hs.voices_nonneg, hs.average_nonneg,
        hs.voices_nil⟩, h.fed_iff, h.frozen_eq, h.frozen_pos_iff⟩
  | reset => exact related_reset hp s

/-! ## The bounds -/

theorem Sound.frame (hp : p.Valid) (hs : s.Sound p) (nIsAec : Bool) (samples : List F) :
    (s.frame p nIsAec samples).1.Sound p := by
  have hheard : (s.heard p nIsAec samples).1.Sound p := by
    cases nIsAec with
    | true => exact sound_aec hs samples
    | false =>
        exact (sound_context hp (hs.getFrameEnergy samples) (smoothed_nonneg hp hs samples)).1
  rw [frame_fst]
  exact ⟨hheard.min_le, hheard.le_max, hheard.prev_nonneg, hheard.voices_nonneg,
    hheard.average_nonneg, hheard.voices_nil⟩

/-- Every call keeps the bounds, whether its divisors are positive or not. -/
theorem Sound.call (hp : p.Valid) (s : EnergyState F) (call : Call F) (hs : s.Sound p) :
    (s.call p call).Sound p := by
  cases call with
  | inputFloatWave wave frameNum nIsAec =>
      exact Trace.run_keeps (fun _ samples h ↦ h.frame hp nIsAec samples) hs _
  | freeze bFreeze nIsAec => exact (sound_freeze hp hs bFreeze nIsAec).1
  | freezeSpeech bFreeze nFrameNum =>
      obtain ⟨threshold, heq, -⟩ := freezeSpeech_spec s bFreeze nFrameNum
      rw [show s.call p (.freezeSpeech bFreeze nFrameNum) = _ from heq]
      exact ⟨hs.min_le, hs.le_max, hs.prev_nonneg, hs.voices_nonneg, hs.average_nonneg,
        hs.voices_nil⟩
  | restart =>
      exact ⟨hs.min_le, hs.le_max, hs.prev_nonneg, hs.voices_nonneg, hs.average_nonneg,
        hs.voices_nil⟩
  | reset => exact sound_reset hp s

/-- The threshold is within its bounds, and `CalcFrameEnergyProb` does not fall with the energy
and stays within the two probabilities. -/
structure Bounded (p : EnergyParam F) (s : EnergyState F) : Prop where
  min_le : p.fMinEnergy ≤ s.fThresholdEnergy
  le_max : s.fThresholdEnergy ≤ max p.fMaxEnergy p.fMinAecEnergy
  prob_mono : Monotone (s.calcFrameEnergyProb p)
  minProb_le : ∀ energy, p.fMinProb ≤ s.calcFrameEnergyProb p energy
  prob_le : ∀ energy, s.calcFrameEnergyProb p energy ≤ p.fMaxProb

theorem Sound.bounded (hp : p.Valid) (hs : s.Sound p) : s.Bounded p where
  min_le := hs.min_le
  le_max := hs.le_max
  prob_mono := calcFrameEnergyProb_mono hp s
  minProb_le := fun energy ↦ (calcFrameEnergyProb_mem hp s energy).1
  prob_le := fun energy ↦ (calcFrameEnergyProb_mem hp s energy).2

/-- **Energy thresholds.** In every state that calls reach from a reset the threshold and the
probability are within their bounds; everything that is divided by is positive exactly if no first
frame without echo cancelling since a reset comes while the speech threshold is frozen. -/
theorem energy_bounds_iff (hp : p.Valid) (s : EnergyState F) (calls : List (Call F)) :
    (Throughout (call p) (Bounded p) (s.reset p) calls ∧
        Along (call p) (fun s call ↦ ∀ divisor ∈ s.divisors p call, 0 < divisor) (s.reset p)
          calls) ↔
      Along Seen.call Seen.Thawed Seen.start calls := by
  have hbounded : Throughout (call p) (Bounded p) (s.reset p) calls := fun first _ ↦
    (Trace.run_keeps (Sound.call hp) (sound_reset hp s) first).bounded hp
  refine (and_iff_right hbounded).trans ?_
  exact Trace.along_simulate (Related p) (fun _ _ call h hthawed ↦ h.call hp call hthawed)
    (fun _ _ call h ↦ h.divisors_iff hp call) (related_reset hp s) calls

/-- The constructor's parameters, for a device that hears nothing. -/
def silent : EnergyParam ℚ := EnergyParam.new (fun _ ↦ 0) id

/-- A state before the first reset. -/
def unset : EnergyState ℚ where
  bFreeze := true
  fPrevEnergy := 17
  ctxEnergies := []
  ctxVoiceEnergies := []
  bFreezeSpeech := true
  fFreezeThreshold := -3
  fThresholdEnergy := 0
  fVoiceAvgEnergy := 0
  fEnergyProb := 0
  bfFft := ByteBuffer.new

theorem silent_valid : silent.Valid := EnergyParam.new_valid _ _ fun _ ↦ le_rfl

/-- A frame without echo cancelling. -/
def quiet : Call ℚ := .inputFloatWave (List.replicate frameSize 0) 1 false

theorem energy_bounds_heard :
    Throughout (call silent) (Bounded silent) (unset.reset silent)
        [quiet, .freezeSpeech true 1, quiet, .freeze true false, .restart, quiet] ∧
      Along (call silent) (fun s call ↦ ∀ divisor ∈ s.divisors silent call, 0 < divisor)
        (unset.reset silent)
        [quiet, .freezeSpeech true 1, quiet, .freeze true false, .restart, quiet] :=
  (energy_bounds_iff silent_valid unset _).mpr
    ⟨fun _ _ _ ↦ rfl, trivial, fun _ _ h ↦ Bool.noConfusion h, trivial, trivial,
      fun _ _ h ↦ Bool.noConfusion h, trivial⟩

/-- Speech that is frozen before the first frame: that frame divides by the frozen threshold 0. -/
theorem energy_bounds_early_freeze :
    ¬ Along (call silent) (fun s call ↦ ∀ divisor ∈ s.divisors silent call, 0 < divisor)
      (unset.reset silent) [.freezeSpeech true 0, quiet] := by
  decide +kernel

end EnergyState

end Vsys.Ztvad
