import Mathlib.Data.Rat.Floor
import Vsys.Trace.Run
import Vsys.Ztvad.VoiceDetector

/-!
# The indices of the judges

`JudgePitchVoiceBegin` and `JudgePitchVoiceEnd` look backwards in the table of the pitch, from the
frame that they are asked about or, if that is not in the table yet, from its last entry.  They do
not look whether the table has as many entries as they count back.

The indices that a judge uses are listed here beside its loops.  `uses_within_iff` says for every
run which states make all of them fall into the tables.  The run may mix both kinds of samples;
only those of `InputFloatWave` fill the table of the pitch.
-/

namespace Vsys.Ztvad

open Vsys.Stream Vsys.Trace

variable {F σ π : Type}

/-- All indices fall into a table of so many entries. -/
def Within (uses : List ℤ) (num : ℤ) : Prop := ∀ j ∈ uses, 0 ≤ j ∧ j < num

namespace VoiceDetector

/-! ## The indices that are used -/

section Uses

variable [Field F] [LinearOrder F] (cfg : Config F) (d : VoiceDetector F σ π)

/-- The frame that a judge of the pitch counts back from. -/
def pitchIndex (nCurFrameIdx : ℤ) : ℤ :=
  if d.nCurPitchProbFrameNum ≤ nCurFrameIdx then d.nCurPitchProbFrameNum - 1 else nCurFrameIdx

/-- What the loop of `JudgePitchVoiceBegin` uses of `m_pitchprobs`. -/
def pitchBeginUses (nCurFrameIdx : ℤ) : ℕ → ℤ → ℤ → List ℤ
  | 0, _, _ => []
  | n + 1, i, nPitchFrameNum =>
      (nCurFrameIdx - i) ::
        let nPitchFrameNum :=
          if cfg.fPitchProbThreshold ≤ d.pitchprobs (nCurFrameIdx - i) then nPitchFrameNum + 1
          else nPitchFrameNum
        if cfg.nMinBeginPitchFrameNum ≤ nPitchFrameNum then []
        else pitchBeginUses nCurFrameIdx n (i + 1) nPitchFrameNum

/-- What `JudgePitchVoiceBegin` uses. -/
def judgePitchVoiceBeginUses (nCurFrameIdx : ℤ) : List ℤ :=
  if nCurFrameIdx < cfg.nMinVocFrameNum then []
  else d.pitchBeginUses cfg (d.pitchIndex nCurFrameIdx) cfg.nMinVocFrameNum.toNat 0 0

/-- What the loop of `JudgePitchVoiceEnd` uses of `m_pitchprobs`. -/
def pitchEndUses (nCurFrameIdx : ℤ) : ℕ → ℤ → ℤ → List ℤ
  | 0, _, _ => []
  | n + 1, i, nPitchFrameNum =>
      (nCurFrameIdx - i) ::
        let nPitchFrameNum :=
          if cfg.fPitchProbThreshold ≤ d.pitchprobs (nCurFrameIdx - i) then nPitchFrameNum + 1
          else nPitchFrameNum
        if cfg.nMinEndPitchFrameNum ≤ nPitchFrameNum + 1 then []
        else pitchEndUses nCurFrameIdx n (i + 1) (nPitchFrameNum + 1)

/-- What `JudgePitchVoiceEnd` uses. -/
def judgePitchVoiceEndUses (nCurFrameIdx : ℤ) : List ℤ :=
  let nCheckFrameNum := cfg.nMinSilFrameNum + cfg.nMinVocFrameNum
  if nCurFrameIdx < nCheckFrameNum then []
  else d.pitchEndUses cfg (d.pitchIndex nCurFrameIdx) nCheckFrameNum.toNat 0 0

/-- Enough of the frames before are of voice, and so is the frame itself. -/
def voiced [FloorRing F] (i : ℤ) (sums : F × F × ℤ) : Bool :=
  decide (truncate ((cfg.nMinVocFrameNum : F) * cfg.fMinVoiceRatio) ≤ sums.2.2) && d.bprobs i

/-- The test in the loop of `JudgeVoiceBegin`. -/
def beginHit [FloorRing F] (i : ℤ) (sums : F × F × ℤ) : Bool :=
  d.voiced cfg i sums && (!cfg.bEnablePitch || d.judgePitchVoiceBegin cfg i)

/-- The turns of the loop of `JudgeVoiceBegin`. -/
def beginTurns [FloorRing F] : List (ℤ × F × F × ℤ) :=
  if d.nCurProbFrameNum ≤ cfg.nMinVocFrameNum then []
  else
    slideTurns (d.weight true) cfg.nMinVocFrameNum 0 (d.beginHit cfg) d.nCurProbFrameNum.toNat 0 0

/-- What is used of `m_pitchprobs` when `JudgeVoiceBegin` asks for the pitch. -/
def judgeVoiceBeginPitchUses [FloorRing F] : List ℤ :=
  (d.beginTurns cfg).flatMap fun turn ↦
    if 0 + cfg.nMinVocFrameNum ≤ turn.1 ∧ d.voiced cfg turn.1 turn.2 = true ∧
        cfg.bEnablePitch = true then
      d.judgePitchVoiceBeginUses cfg turn.1
    else []

/-- `nStartPos` in `JudgeVoiceEnd`. -/
def endStartPos : ℤ :=
  let nStartPos := d.nVocStartFrame + cfg.nMinSpeechFrameNum - cfg.nMinSilFrameNum
  if nStartPos < d.nVocStartOffset then d.nVocStartOffset else nStartPos

/-- The first half of the test in the loop of `JudgeVoiceEnd`. -/
def silent (i : ℤ) (sums : F × F × ℤ) : Bool :=
  decide (sums.2.1 < sums.1) &&
    decide (cfg.fMinSilRatio * (cfg.nMinSilFrameNum : F) ≤ (sums.2.2 : F)) && !d.bprobs i

/-- The test in the loop of `JudgeVoiceEnd`. -/
def endHit (i : ℤ) (sums : F × F × ℤ) : Bool :=
  d.silent cfg i sums || (cfg.bEnablePitch && d.judgePitchVoiceEnd cfg i)

/-- The turns of the loop of `JudgeVoiceEnd`. -/
def endTurns : List (ℤ × F × F × ℤ) :=
  if d.nCurProbFrameNum < d.nVocStartFrame + cfg.nMinSpeechFrameNum then []
  else if d.nCurProbFrameNum ≤ d.nVocStartOffset + cfg.nMinSilFrameNum then []
  else
    slideTurns (d.weight false) cfg.nMinSilFrameNum (d.endStartPos cfg) (d.endHit cfg)
      (d.nCurProbFrameNum - d.endStartPos cfg).toNat (d.endStartPos cfg) 0

/-- What is used of `m_pitchprobs` when `JudgeVoiceEnd` asks for the pitch. -/
def judgeVoiceEndPitchUses : List ℤ :=
  (d.endTurns cfg).flatMap fun turn ↦
    if d.endStartPos cfg + cfg.nMinSilFrameNum ≤ turn.1 ∧ d.silent cfg turn.1 turn.2 = false ∧
        cfg.bEnablePitch = true then
      d.judgePitchVoiceEndUses cfg turn.1
    else []

/-- What `JudgeVoiceEnd` uses of `m_probs` and `m_bprobs`. -/
def judgeVoiceEndUses : List ℤ :=
  (d.endTurns cfg).flatMap fun turn ↦
    if d.endStartPos cfg + cfg.nMinSilFrameNum ≤ turn.1 then
      [turn.1, turn.1 - cfg.nMinSilFrameNum]
    else [turn.1]

/-- The loops are those of the two scans. -/
theorem scanBegin_eq_slide [FloorRing F] :
    d.scanBegin cfg = slide (d.weight true) cfg.nMinVocFrameNum 0 (d.beginHit cfg)
      d.nCurProbFrameNum.toNat 0 0 := rfl

theorem scanEnd_eq_slide :
    d.scanEnd cfg = slide (d.weight false) cfg.nMinSilFrameNum (d.endStartPos cfg) (d.endHit cfg)
      (d.nCurProbFrameNum - d.endStartPos cfg).toNat (d.endStartPos cfg) 0 := rfl

end Uses

/-! ## When they fall into the tables -/

section Ready

variable [Field F] [LinearOrder F] (cfg : Config F) (d : VoiceDetector F σ π)

/-- How many of the `m` entries before `i` and at `i` reach the threshold of the pitch. -/
def pitchedNum (i : ℤ) (m : ℕ) : ℕ :=
  ((List.range m).filter fun t : ℕ ↦ cfg.fPitchProbThreshold ≤ d.pitchprobs (i - (t : ℤ))).length

/-- The table of the pitch has as many entries as `JudgePitchVoiceBegin` counts back, or enough of
them have pitch. -/
def PitchReady : Prop :=
  cfg.nMinVocFrameNum ≤ d.nCurPitchProbFrameNum ∨
    cfg.nMinBeginPitchFrameNum ≤
      (d.pitchedNum cfg (d.nCurPitchProbFrameNum - 1) d.nCurPitchProbFrameNum.toNat : ℤ)

/-- If the pitch of a frame is asked for by `JudgeVoiceBegin`, the table of the pitch is ready. -/
def BeginReady [FloorRing F] : Prop :=
  ∀ i : ℤ, cfg.nMinVocFrameNum ≤ i → i < d.nCurProbFrameNum →
    d.voiced cfg i (windowSum (d.weight true) cfg.nMinVocFrameNum.toNat i) = true → d.PitchReady cfg

/-- If `JudgeVoiceEnd` comes to its first test, the table of the pitch is not empty, or the sums say
that the voice ends there. -/
def EndReady : Prop :=
  d.nVocStartFrame + cfg.nMinSpeechFrameNum ≤ d.nCurProbFrameNum →
    d.endStartPos cfg + cfg.nMinSilFrameNum < d.nCurProbFrameNum →
      0 < d.nCurPitchProbFrameNum ∨
        d.silent cfg (d.endStartPos cfg + cfg.nMinSilFrameNum)
          (windowSum (d.weight false) cfg.nMinSilFrameNum.toNat
            (d.endStartPos cfg + cfg.nMinSilFrameNum)) = true

end Ready

end VoiceDetector

/-- Parameters as the constructor sets them: the pitch is on, the windows are not empty, and the
shortest voice is long enough for the window of `JudgePitchVoiceEnd`. -/
structure Config.Regular (cfg : Config F) : Prop where
  enablePitch : cfg.bEnablePitch = true
  minVoc : 0 < cfg.nMinVocFrameNum
  minSil : 0 ≤ cfg.nMinSilFrameNum
  minSpeech : cfg.nMinSilFrameNum + cfg.nMinVocFrameNum ≤ cfg.nMinSpeechFrameNum
  minBeginPitch : 0 < cfg.nMinBeginPitchFrameNum
  minEndPitch : cfg.nMinEndPitchFrameNum ≤ 1

theorem Config.regular_new [Field F] : (Config.new : Config F).Regular where
  enablePitch := rfl
  minVoc := (by decide : (0 : ℤ) < 30)
  minSil := (by decide : (0 : ℤ) ≤ 45)
  minSpeech := (by decide : (45 : ℤ) + 30 ≤ 90)
  minBeginPitch := (by decide : (0 : ℤ) < 4)
  minEndPitch := (by decide : (0 : ℤ) ≤ 1)

namespace VoiceDetector

section Judges

variable [LinearOrder F] {cfg : Config F} {d : VoiceDetector F σ π}

/-! ## `JudgePitchVoiceBegin` -/

theorem pitchedNum_succ (i : ℤ) (m : ℕ) :
    d.pitchedNum cfg i (m + 1) =
      d.pitchedNum cfg i m + if cfg.fPitchProbThreshold ≤ d.pitchprobs (i - (m : ℤ)) then 1 else 0 := by
  rw [pitchedNum, List.range_succ, List.filter_append, List.length_append, pitchedNum]
  split_ifs with h
  · rw [List.filter_cons_of_pos (by simpa using h)]
    rfl
  · rw [List.filter_cons_of_neg (by simpa using h)]
    rfl

theorem pitchedNum_mono (i : ℤ) : Monotone (d.pitchedNum cfg i) := by
  apply monotone_nat_of_le_succ
  intro m
  rw [pitchedNum_succ]
  exact Nat.le_add_right _ _

/-- The loop counts back until it has seen enough. -/
theorem mem_pitchBeginUses_iff {i j : ℤ} (n k : ℕ)
    (hfew : (d.pitchedNum cfg i k : ℤ) < cfg.nMinBeginPitchFrameNum) :
    j ∈ d.pitchBeginUses cfg i n k (d.pitchedNum cfg i k) ↔
      ∃ t, k ≤ t ∧ t < k + n ∧ j = i - (t : ℤ) ∧
        (d.pitchedNum cfg i t : ℤ) < cfg.nMinBeginPitchFrameNum := by
  induction n generalizing k with
  | zero =>
      constructor
      · exact fun h ↦ absurd h List.not_mem_nil
      · rintro ⟨t, hk, ht, -⟩
        omega
  | succ n ih =>
      have hnum : (if cfg.fPitchProbThreshold ≤ d.pitchprobs (i - (k : ℤ)) then
          (d.pitchedNum cfg i k : ℤ) + 1 else (d.pitchedNum cfg i k : ℤ)) =
          d.pitchedNum cfg i (k + 1) := by
        rw [pitchedNum_succ]
        split_ifs
        · rfl
        · rfl
      have hnext : (k : ℤ) + 1 = (k + 1 : ℕ) := (Nat.cast_add_one k).symm
      rw [pitchBeginUses, List.mem_cons, hnum, hnext]
      dsimp only
      split_ifs with henough
      · constructor
        · rintro (hj | hj)
          · exact ⟨k, le_rfl, by omega, hj, hfew⟩
          · exact absurd hj List.not_mem_nil
        · rintro ⟨t, hk, -, hj, hless⟩
          obtain rfl | hlt := hk.eq_or_lt
          · exact .inl hj
          · have hmono : d.pitchedNum cfg i (k + 1) ≤ d.pitchedNum cfg i t :=
              pitchedNum_mono i (Nat.succ_le_of_lt hlt)
            omega
      · rw [ih (k + 1) (not_le.mp henough)]
        constructor
        · rintro (hj | ⟨t, hk, ht, hj, hless⟩)
          · exact ⟨k, le_rfl, by omega, hj, hfew⟩
          · exact ⟨t, by omega, by omega, hj, hless⟩
        · rintro ⟨t, hk, ht, hj, hless⟩
          obtain rfl | hlt := hk.eq_or_lt
          · exact .inl hj
          · exact .inr ⟨t, hlt, by omega, hj, hless⟩

/-- **The beginning.** A judge that is asked about a frame stays in the table if that is ready. -/
theorem judgePitchVoiceBeginUses_within_iff (hcfg : cfg.Regular) {i : ℤ}
    (hi : cfg.nMinVocFrameNum ≤ i) :
    Within (d.judgePitchVoiceBeginUses cfg i) d.nCurPitchProbFrameNum ↔ d.PitchReady cfg := by
  have hvoc := hcfg.minVoc
  have hfew : ((d.pitchedNum cfg (d.pitchIndex i) 0 : ℕ) : ℤ) < cfg.nMinBeginPitchFrameNum :=
    hcfg.minBeginPitch
  have hmem : ∀ j, j ∈ d.judgePitchVoiceBeginUses cfg i ↔
      ∃ t : ℕ, t < cfg.nMinVocFrameNum.toNat ∧ j = d.pitchIndex i - (t : ℤ) ∧
        (d.pitchedNum cfg (d.pitchIndex i) t : ℤ) < cfg.nMinBeginPitchFrameNum := by
    intro j
    have h := mem_pitchBeginUses_iff (j := j) cfg.nMinVocFrameNum.toNat 0 hfew
    have hzero : ((d.pitchedNum cfg (d.pitchIndex i) 0 : ℕ) : ℤ) = 0 := rfl
    rw [judgePitchVoiceBeginUses, if_neg (not_lt.mpr hi)]
    simpa [hzero] using h
  have hlast : d.nCurPitchProbFrameNum ≤ i → d.pitchIndex i = d.nCurPitchProbFrameNum - 1 :=
    fun h ↦ if_pos h
  constructor
  · intro hwithin
    by_contra hnot
    obtain ⟨hshort, hpitched⟩ := not_or.mp hnot
    rw [not_le] at hshort hpitched
    -- the loop comes to the entry before the first
    have huse := hwithin (d.pitchIndex i - (d.nCurPitchProbFrameNum.toNat : ℤ)) ((hmem _).mpr
      ⟨d.nCurPitchProbFrameNum.toNat, by omega, rfl, by rwa [hlast (by omega)]⟩)
    rw [hlast (by omega)] at huse
    omega
  · rintro hready j hj
    obtain ⟨t, ht, rfl, hless⟩ := (hmem j).mp hj
    by_cases hlong : cfg.nMinVocFrameNum ≤ d.nCurPitchProbFrameNum
    · rw [pitchIndex]
      split_ifs <;> omega
    · have henough := hready.resolve_left hlong
      rw [hlast (by omega)] at hless ⊢
      have hbefore : t < d.nCurPitchProbFrameNum.toNat := by
        by_contra hbehind
        have hmono : d.pitchedNum cfg (d.nCurPitchProbFrameNum - 1) d.nCurPitchProbFrameNum.toNat ≤
            d.pitchedNum cfg (d.nCurPitchProbFrameNum - 1) t := pitchedNum_mono _ (not_lt.mp hbehind)
        omega
      omega

/-! ## `JudgePitchVoiceEnd` -/

/-- The judge looks at one frame only. -/
theorem judgePitchVoiceEndUses_eq (hcfg : cfg.Regular) {i : ℤ}
    (hi : cfg.nMinSilFrameNum + cfg.nMinVocFrameNum ≤ i) :
    d.judgePitchVoiceEndUses cfg i = [d.pitchIndex i] := by
  have hvoc := hcfg.minVoc
  have hsil := hcfg.minSil
  have hend := hcfg.minEndPitch
  obtain ⟨n, hn⟩ : ∃ n, (cfg.nMinSilFrameNum + cfg.nMinVocFrameNum).toNat = n + 1 :=
    Nat.exists_eq_add_one.mpr (by omega)
  have hstop : cfg.nMinEndPitchFrameNum ≤
      (if cfg.fPitchProbThreshold ≤ d.pitchprobs (d.pitchIndex i - 0) then (0 : ℤ) + 1 else 0) + 1 := by
    split_ifs <;> omega
  rw [judgePitchVoiceEndUses, if_neg (not_lt.mpr hi), hn, pitchEndUses]
  dsimp only
  rw [if_pos hstop, sub_zero]

theorem judgePitchVoiceEndUses_within_iff (hcfg : cfg.Regular) {i : ℤ}
    (hi : cfg.nMinSilFrameNum + cfg.nMinVocFrameNum ≤ i) :
    Within (d.judgePitchVoiceEndUses cfg i) d.nCurPitchProbFrameNum ↔ 0 < d.nCurPitchProbFrameNum := by
  have hvoc := hcfg.minVoc
  have hsil := hcfg.minSil
  rw [judgePitchVoiceEndUses_eq hcfg hi, Within, List.forall_mem_singleton, pitchIndex]
  split_ifs <;> omega

end Judges

/-! ## The two scans -/

theorem endStartPos_bounds (d : VoiceDetector F σ π) (cfg : Config F) :
    d.nVocStartFrame + cfg.nMinSpeechFrameNum - cfg.nMinSilFrameNum ≤ d.endStartPos cfg ∧
      d.nVocStartOffset ≤ d.endStartPos cfg := by
  rw [endStartPos]
  split_ifs <;> omega

section Scans

variable [Field F] [LinearOrder F] {cfg : Config F} {d : VoiceDetector F σ π}

/-- Every index of a list of lists falls into the table if those of each list do. -/
theorem within_flatMap_iff {α : Type} {l : List α} {uses : α → List ℤ} {num : ℤ} :
    Within (l.flatMap uses) num ↔ ∀ a ∈ l, Within (uses a) num := by
  constructor
  · exact fun h a ha j hj ↦ h j (List.mem_flatMap.mpr ⟨a, ha, hj⟩)
  · intro h j hj
    obtain ⟨a, ha, hmem⟩ := List.mem_flatMap.mp hj
    exact h a ha j hmem

/-- The loop of `JudgeVoiceBegin` comes to a frame if it has not found the voice before. -/
theorem mem_beginTurns_iff [FloorRing F] (hcfg : cfg.Regular) {turn : ℤ × F × F × ℤ} :
    turn ∈ d.beginTurns cfg ↔
      cfg.nMinVocFrameNum < d.nCurProbFrameNum ∧
        ∃ j : ℕ, (j : ℤ) < d.nCurProbFrameNum ∧
          turn = ((j : ℤ), scanSum (d.weight true) cfg.nMinVocFrameNum.toNat 0 j) ∧
          ∀ t < j, cfg.nMinVocFrameNum.toNat ≤ t →
            d.beginHit cfg t (windowSum (d.weight true) cfg.nMinVocFrameNum.toNat t) = false := by
  have hvoc : cfg.nMinVocFrameNum = (cfg.nMinVocFrameNum.toNat : ℤ) :=
    (Int.toNat_of_nonneg hcfg.minVoc.le).symm
  have hturns := mem_slideTurns_iff (d.weight true) cfg.nMinVocFrameNum.toNat 0 (d.beginHit cfg)
    d.nCurProbFrameNum.toNat turn
  rw [← hvoc] at hturns
  simp only [zero_add] at hturns
  rw [beginTurns]
  split_ifs with hfew
  · exact iff_of_false List.not_mem_nil fun h ↦ absurd h.1 (not_lt.mpr hfew)
  · rw [hturns, and_iff_right (not_le.mp hfew)]
    apply exists_congr
    intro j
    rw [Int.lt_toNat]

theorem judgeVoiceBeginPitchUses_within_iff [FloorRing F] (hcfg : cfg.Regular) :
    Within (d.judgeVoiceBeginPitchUses cfg) d.nCurPitchProbFrameNum ↔ d.BeginReady cfg := by
  have hpitch := hcfg.enablePitch
  rw [judgeVoiceBeginPitchUses, within_flatMap_iff]
  constructor
  · intro hwithin
    -- the first frame that is asked about is as good as any
    have hfirst : ∀ k : ℕ, cfg.nMinVocFrameNum ≤ k → (k : ℤ) < d.nCurProbFrameNum →
        d.voiced cfg k (windowSum (d.weight true) cfg.nMinVocFrameNum.toNat k) = true →
          d.PitchReady cfg := by
      intro k
      induction k using Nat.strong_induction_on with
      | h k ih =>
          intro hmin hlt hvoiced
          by_cases hbefore : ∃ t < k, cfg.nMinVocFrameNum ≤ (t : ℤ) ∧
              d.voiced cfg t (windowSum (d.weight true) cfg.nMinVocFrameNum.toNat t) = true
          · obtain ⟨t, htk, htmin, htvoiced⟩ := hbefore
            exact ih t htk htmin (by omega) htvoiced
          · have hturn : ((k : ℤ), scanSum (d.weight true) cfg.nMinVocFrameNum.toNat 0 k) ∈
                d.beginTurns cfg := by
              refine (mem_beginTurns_iff hcfg).mpr ⟨by omega, k, hlt, rfl, fun t htk htmin ↦ ?_⟩
              rw [beginHit, Bool.and_eq_false_iff]
              left
              rw [← Bool.not_eq_true]
              exact fun htvoiced ↦ hbefore ⟨t, htk, by omega, htvoiced⟩
            have hsum : scanSum (d.weight true) cfg.nMinVocFrameNum.toNat 0 k =
                windowSum (d.weight true) cfg.nMinVocFrameNum.toNat k := by
              rw [scanSum_of_le _ _ (by omega), zero_add]
            have huses := hwithin _ hturn
            rw [hsum, zero_add, if_pos ⟨hmin, hvoiced, hpitch⟩] at huses
            exact (judgePitchVoiceBeginUses_within_iff hcfg hmin).mp huses
    intro i hmin hlt hvoiced
    have hvoc := hcfg.minVoc
    obtain ⟨k, rfl⟩ := Int.eq_ofNat_of_zero_le (by omega : 0 ≤ i)
    exact hfirst k hmin hlt hvoiced
  · intro hready turn hturn
    obtain ⟨-, j, hlt, rfl, -⟩ := (mem_beginTurns_iff hcfg).mp hturn
    split_ifs with hasked
    · obtain ⟨hmin, hvoiced, -⟩ := hasked
      rw [zero_add] at hmin
      have hvoc := hcfg.minVoc
      have hsum : scanSum (d.weight true) cfg.nMinVocFrameNum.toNat 0 j =
          windowSum (d.weight true) cfg.nMinVocFrameNum.toNat j := by
        rw [scanSum_of_le _ _ (by omega), zero_add]
      rw [hsum] at hvoiced
      exact (judgePitchVoiceBeginUses_within_iff hcfg hmin).mpr (hready j hmin hlt hvoiced)
    · exact fun k hk ↦ absurd hk List.not_mem_nil

/-- The loop of `JudgeVoiceEnd` comes to a frame if it has not found the end before. -/
theorem mem_endTurns_iff (hcfg : cfg.Regular) {turn : ℤ × F × F × ℤ} :
    turn ∈ d.endTurns cfg ↔
      d.nVocStartFrame + cfg.nMinSpeechFrameNum ≤ d.nCurProbFrameNum ∧
        d.nVocStartOffset + cfg.nMinSilFrameNum < d.nCurProbFrameNum ∧
        ∃ j : ℕ, d.endStartPos cfg + j < d.nCurProbFrameNum ∧
          turn = (d.endStartPos cfg + (j : ℤ),
            scanSum (d.weight false) cfg.nMinSilFrameNum.toNat (d.endStartPos cfg) j) ∧
          ∀ t < j, cfg.nMinSilFrameNum.toNat ≤ t →
            d.endHit cfg (d.endStartPos cfg + t)
              (windowSum (d.weight false) cfg.nMinSilFrameNum.toNat (d.endStartPos cfg + t)) =
                false := by
  have hsil : cfg.nMinSilFrameNum = (cfg.nMinSilFrameNum.toNat : ℤ) :=
    (Int.toNat_of_nonneg hcfg.minSil).symm
  have hturns := mem_slideTurns_iff (d.weight false) cfg.nMinSilFrameNum.toNat (d.endStartPos cfg)
    (d.endHit cfg) (d.nCurProbFrameNum - d.endStartPos cfg).toNat turn
  rw [← hsil] at hturns
  rw [endTurns]
  split_ifs with hshort hfew
  · exact iff_of_false List.not_mem_nil fun h ↦ absurd h.1 (not_le.mpr hshort)
  · exact iff_of_false List.not_mem_nil fun h ↦ absurd h.2.1 (not_lt.mpr hfew)
  · rw [hturns, and_iff_right (not_lt.mp hshort), and_iff_right (not_le.mp hfew)]
    apply exists_congr
    intro j
    rw [Int.lt_toNat, lt_sub_iff_add_lt']

/-- **The end.** The tables of the results are used where they have entries. -/
theorem judgeVoiceEndUses_within (hcfg : cfg.Regular) (hstart : 0 ≤ d.nVocStartFrame) :
    Within (d.judgeVoiceEndUses cfg) d.nCurProbFrameNum := by
  have hvoc := hcfg.minVoc
  have hsil := hcfg.minSil
  have hspeech := hcfg.minSpeech
  have hbounds := d.endStartPos_bounds cfg
  rw [judgeVoiceEndUses, within_flatMap_iff]
  intro turn hturn
  obtain ⟨-, -, j, hlt, rfl, -⟩ := (mem_endTurns_iff hcfg).mp hturn
  dsimp only
  split_ifs with htested
  · intro k hk
    rw [List.mem_cons, List.mem_singleton] at hk
    obtain rfl | rfl := hk <;> omega
  · intro k hk
    rw [List.mem_singleton] at hk
    omega

theorem judgeVoiceEndPitchUses_within_iff (hcfg : cfg.Regular) (hstart : 0 ≤ d.nVocStartFrame) :
    Within (d.judgeVoiceEndPitchUses cfg) d.nCurPitchProbFrameNum ↔ d.EndReady cfg := by
  have hsil := hcfg.minSil
  have hspeech := hcfg.minSpeech
  have hpitch := hcfg.enablePitch
  have hbounds := d.endStartPos_bounds cfg
  have hcast : (cfg.nMinSilFrameNum.toNat : ℤ) = cfg.nMinSilFrameNum := Int.toNat_of_nonneg hsil
  have hsum : ∀ j : ℕ, cfg.nMinSilFrameNum.toNat ≤ j →
      scanSum (d.weight false) cfg.nMinSilFrameNum.toNat (d.endStartPos cfg) j =
        windowSum (d.weight false) cfg.nMinSilFrameNum.toNat (d.endStartPos cfg + j) :=
    fun j hj ↦ scanSum_of_le _ _ hj
  rw [judgeVoiceEndPitchUses, within_flatMap_iff]
  constructor
  · intro hwithin hlong htest
    by_contra hnot
    obtain ⟨hempty, hloud⟩ := not_or.mp hnot
    have hturn : (d.endStartPos cfg + (cfg.nMinSilFrameNum.toNat : ℤ),
        scanSum (d.weight false) cfg.nMinSilFrameNum.toNat (d.endStartPos cfg)
          cfg.nMinSilFrameNum.toNat) ∈ d.endTurns cfg :=
      (mem_endTurns_iff hcfg).mpr ⟨hlong, by omega, cfg.nMinSilFrameNum.toNat, by omega, rfl,
        fun t ht hmin ↦ absurd ht (not_lt.mpr hmin)⟩
    have huses := hwithin _ hturn
    rw [hsum _ le_rfl, hcast, if_pos ⟨le_rfl, Bool.not_eq_true _ ▸ hloud, hpitch⟩] at huses
    exact hempty ((judgePitchVoiceEndUses_within_iff hcfg (by omega)).mp huses)
  · intro hready turn hturn
    obtain ⟨hlong, -, j, hlt, rfl, hbefore⟩ := (mem_endTurns_iff hcfg).mp hturn
    split_ifs with hasked
    · obtain ⟨htested, hloud, -⟩ := hasked
      dsimp only at htested hloud
      have hj : cfg.nMinSilFrameNum.toNat ≤ j := by omega
      obtain hsome | hsilent := hready hlong (by omega)
      · exact (judgePitchVoiceEndUses_within_iff hcfg (by omega)).mpr hsome
      · -- the first test is a hit, so that there is no later one
        exfalso
        obtain rfl | hlater := hj.eq_or_lt
        · rw [hsum _ le_rfl, hcast, hsilent] at hloud
          exact absurd hloud.symm Bool.false_ne_true
        · have hmiss := hbefore _ hlater le_rfl
          rw [endHit, hcast, hsilent, Bool.true_or] at hmiss
          exact absurd hmiss.symm Bool.false_ne_true
    · exact fun k hk ↦ absurd hk List.not_mem_nil

end Scans

/-! ## Runs -/

section Runs

variable [Field F] [LinearOrder F] [FloorRing F]

/-- The detector when a call of `InternalInputWave` starts to look for the voice. -/
def judging (V : FrameVad F σ) (P : PitchExtr F π) (cfg : Config F) (isFloat : Bool)
    (data : List (Sample F isFloat)) (bIsEnd nIsAec : Bool) (d : VoiceDetector F σ π) :
    Option (VoiceDetector F σ π) :=
  let d := d.allocWave isFloat
  let nPrevFrameNum := d.waveFrameNum isFloat
  let d := d.feedWave isFloat data
  let bIsEnd := bIsEnd || (d.waveBuf isFloat).isFull ||
    decide (cfg.nMaxSpeechFrameNum ≤ d.getVoiceFrameNum)
  { d with bIsEnd := bIsEnd }.calcProbs V P cfg isFloat nIsAec nPrevFrameNum

/-- A call looks for the beginning in that state, and for the end in the state behind it. -/
theorem internalInputWave_eq_judging (V : FrameVad F σ) (P : PitchExtr F π) (cfg : Config F)
    (isFloat : Bool) (data : List (Sample F isFloat)) (bIsEnd nIsAec : Bool)
    {d : VoiceDetector F σ π} (hopen : ¬ (d.allocWave isFloat).bIsEnd = true) :
    ∃ bEnd, d.internalInputWave V P cfg isFloat data bIsEnd nIsAec =
      (d.judging V P cfg isFloat data bIsEnd nIsAec).bind fun e ↦
        (e.detectBegin V cfg nIsAec).bind fun e' ↦ some (e'.detectEnd cfg bEnd) := by
  let fed := (d.allocWave isFloat).feedWave isFloat data
  refine ⟨bIsEnd || (fed.waveBuf isFloat).isFull ||
    decide (cfg.nMaxSpeechFrameNum ≤ fed.getVoiceFrameNum), ?_⟩
  rw [internalInputWave, if_neg hopen]
  rfl

end Runs

end VoiceDetector

/-- The calls of a run, which may mix both kinds of samples. -/
inductive Call (F : Type)
  | input (isFloat : Bool) (data : List (Sample F isFloat)) (bIsEnd nIsAec : Bool)
  | setStart (nIsAec : Bool)
  | restart
  | reset

namespace Call

variable [Field F] [LinearOrder F] [FloorRing F] (V : FrameVad F σ) (P : PitchExtr F π)
  (cfg : Config F)

/-- A call; it fails if the detector does. -/
def step (d : VoiceDetector F σ π) : Call F → Option (VoiceDetector F σ π)
  | .input isFloat data bIsEnd nIsAec => d.internalInputWave V P cfg isFloat data bIsEnd nIsAec
  | .setStart nIsAec => (d.setStart V nIsAec).map Prod.fst
  | .restart => some (d.restart V P cfg)
  | .reset => some (d.reset V P cfg)

/-- A call in a run, which goes on only if it has not failed. -/
def next (d : Option (VoiceDetector F σ π)) (call : Call F) : Option (VoiceDetector F σ π) :=
  d.bind fun d ↦ call.step V P cfg d

/-- If the call looks for the beginning of a voice, it does so where `begins` holds, and if it looks
for the end, it does so where `ends` holds. -/
def Looks (begins ends : VoiceDetector F σ π → Prop) (d : Option (VoiceDetector F σ π)) :
    Call F → Prop
  | .input isFloat data bIsEnd nIsAec =>
      ∀ old ∈ d, ¬ (old.allocWave isFloat).bIsEnd = true →
        ∀ e ∈ old.judging V P cfg isFloat data bIsEnd nIsAec,
          (e.nVocStartFrame = -1 → begins e) ∧
            ∀ e' ∈ e.detectBegin V cfg nIsAec,
              0 ≤ e'.nVocStartFrame → e'.nVocStopFrame = -1 → ends e'
  | _ => True

variable {V P cfg}

theorem looks_congr {begins ends begins' ends' : VoiceDetector F σ π → Prop}
    (hbegins : ∀ e, begins e ↔ begins' e) (hends : ∀ e, 0 ≤ e.nVocStartFrame → (ends e ↔ ends' e))
    (d : Option (VoiceDetector F σ π)) (call : Call F) :
    Looks V P cfg begins ends d call ↔ Looks V P cfg begins' ends' d call := by
  cases call with
  | input isFloat data bIsEnd nIsAec =>
      apply forall₄_congr
      intro _ _ _ e
      apply imp_congr_right
      intro _
      apply and_congr (imp_congr_right fun _ ↦ hbegins e)
      apply forall₃_congr
      intro e' _ hstart
      exact imp_congr_right fun _ ↦ hends e' hstart
  | setStart nIsAec => exact Iff.rfl
  | restart => exact Iff.rfl
  | reset => exact Iff.rfl

theorem looks_of_forall {begins ends : VoiceDetector F σ π → Prop} (hbegins : ∀ e, begins e)
    (hends : ∀ e, 0 ≤ e.nVocStartFrame → ends e) (d : Option (VoiceDetector F σ π))
    (call : Call F) : Looks V P cfg begins ends d call := by
  cases call with
  | input isFloat data bIsEnd nIsAec =>
      exact fun _ _ _ e _ ↦ ⟨fun _ ↦ hbegins e, fun e' _ hstart _ ↦ hends e' hstart⟩
  | setStart nIsAec => trivial
  | restart => trivial
  | reset => trivial

end Call

open VoiceDetector

/-- **The indices of the judges.** In every run of a new detector `JudgeVoiceEnd` uses the tables of
the results where they have entries.  The judges of the pitch use the table of the pitch where it
has entries, throughout the run, if and only if that table is ready whenever they are asked. -/
theorem uses_within_iff [Field F] [LinearOrder F] [FloorRing F] (V : FrameVad F σ)
    (P : PitchExtr F π) {cfg : Config F} (hcfg : cfg.Regular) (memory : VoiceDetector F σ π)
    (calls : List (Call F)) :
    Along (Call.next V P cfg)
        (Call.Looks V P cfg (fun _ ↦ True) fun e ↦ Within (e.judgeVoiceEndUses cfg) e.nCurProbFrameNum)
        (some (new V P cfg memory)) calls ∧
      (Along (Call.next V P cfg)
          (Call.Looks V P cfg
            (fun e ↦ Within (e.judgeVoiceBeginPitchUses cfg) e.nCurPitchProbFrameNum)
            fun e ↦ Within (e.judgeVoiceEndPitchUses cfg) e.nCurPitchProbFrameNum)
          (some (new V P cfg memory)) calls ↔
        Along (Call.next V P cfg)
          (Call.Looks V P cfg (fun e ↦ e.BeginReady cfg) fun e ↦ e.EndReady cfg)
          (some (new V P cfg memory)) calls) := by
  constructor
  · apply along_of_forall
    intro call _ d
    exact Call.looks_of_forall (fun _ ↦ trivial)
      (fun _ hstart ↦ judgeVoiceEndUses_within hcfg hstart) d call
  · apply along_congr (fun _ ↦ True) (fun _ _ _ ↦ trivial) _ trivial
    intro d call _
    exact Call.looks_congr (fun _ ↦ judgeVoiceBeginPitchUses_within_iff hcfg)
      (fun _ hstart ↦ judgeVoiceEndPitchUses_within_iff hcfg hstart) d call

/-! ## A voice from the first frame on -/

/-- Every frame is of voice. -/
def loudVad : FrameVad ℚ Unit where
  frame _ _ _ := ((), (0, 1))
  freeze _ _ _ := ()
  freezeSpeech _ _ _ := ()
  restart _ := ()
  reset _ := ()

/-- No frame has pitch; the state is the number of frames that were accepted. -/
def flatPitch : PitchExtr ℚ ℕ where
  recreate _ := 0
  process e frame := (e, frame)
  acceptWaveform e _ := e + 1
  numFramesReady e := e - 4
  prob _ _ := 0

/-- What the memory is before the constructor. -/
def blankDetector : VoiceDetector ℚ Unit ℕ where
  vad := ⟨fun _ ↦ 0, 0, 0, 0, ()⟩
  bbWave := .new
  bbFloatWave := .new
  nCurProbFrameNum := 0
  probs := fun _ ↦ (0, 0)
  bprobs := fun _ ↦ false
  nVocStartFrame := 0
  nVocStopFrame := 0
  nOffsetFrame := 0
  nVocStartOffset := 0
  bIsEnd := false
  pitchExtr := 0
  nCurPitchProbFrameNum := 0
  pitchprobs := fun _ ↦ 0

theorem uses_within_iff_started :
    Along (Call.next loudVad flatPitch Config.new)
        (Call.Looks loudVad flatPitch Config.new (fun _ ↦ True)
          fun e ↦ Within (e.judgeVoiceEndUses Config.new) e.nCurProbFrameNum)
        (some (new loudVad flatPitch Config.new blankDetector)) [.setStart false, .restart] ∧
      (Along (Call.next loudVad flatPitch Config.new)
          (Call.Looks loudVad flatPitch Config.new
            (fun e ↦ Within (e.judgeVoiceBeginPitchUses Config.new) e.nCurPitchProbFrameNum)
            fun e ↦ Within (e.judgeVoiceEndPitchUses Config.new) e.nCurPitchProbFrameNum)
          (some (new loudVad flatPitch Config.new blankDetector)) [.setStart false, .restart] ↔
        Along (Call.next loudVad flatPitch Config.new)
          (Call.Looks loudVad flatPitch Config.new (fun e ↦ e.BeginReady Config.new)
            fun e ↦ e.EndReady Config.new)
          (some (new loudVad flatPitch Config.new blankDetector)) [.setStart false, .restart]) :=
  uses_within_iff loudVad flatPitch Config.regular_new blankDetector [.setStart false, .restart]

/-- 31 frames of voice at once: 27 of them have a pitch, and 30 are counted back. -/
theorem not_within_of_31_frames :
    ¬ Along (Call.next loudVad flatPitch Config.new)
      (Call.Looks loudVad flatPitch Config.new
        (fun e ↦ Within (e.judgeVoiceBeginPitchUses Config.new) e.nCurPitchProbFrameNum)
        fun e ↦ Within (e.judgeVoiceEndPitchUses Config.new) e.nCurPitchProbFrameNum)
      (some (new loudVad flatPitch Config.new blankDetector))
      [.input true (List.replicate (frameSize * 31) 0) false false] := by
  have hstate : ((new loudVad flatPitch Config.new blankDetector).judging loudVad flatPitch
      Config.new true (List.replicate (frameSize * 31) 0) false false).map (fun e ↦
        (e.nVocStartFrame, e.nCurProbFrameNum, e.nCurPitchProbFrameNum,
          e.voiced Config.new 30 (windowSum (e.weight true) 30 30),
          e.pitchedNum Config.new 26 27)) = some (-1, 31, 27, true, 0) := by
    decide +kernel
  obtain ⟨e, he, hfacts⟩ := Option.map_eq_some_iff.mp hstate
  simp only [Prod.mk.injEq] at hfacts
  obtain ⟨hstart, hprob, hpitch, hvoiced, hpitched⟩ := hfacts
  intro h
  have hwithin := (h.1 _ rfl Bool.false_ne_true e he).1 hstart
  have hready := (judgeVoiceBeginPitchUses_within_iff Config.regular_new).mp hwithin 30 le_rfl
    (by rw [hprob]; decide) hvoiced
  rw [PitchReady, hpitch] at hready
  obtain hlong | hpitch' := hready
  · exact absurd hlong (by decide : ¬ (30 : ℤ) ≤ 27)
  · have hnone : (4 : ℤ) ≤ (e.pitchedNum Config.new 26 27 : ℤ) := hpitch'
    rw [hpitched] at hnone
    exact absurd hnone (by decide)

end Vsys.Ztvad
