import Mathlib.Algebra.BigOperators.Ring.List
import Mathlib.Algebra.Order.BigOperators.Group.List
import Mathlib.Order.Bounds.Basic
import Vsys.Align.Best
import Vsys.Audio.Coder
import Vsys.Stream.Sliding

/-!
# The gain of `r2mem_cod`

Before the first frame of a voice segment is encoded, `processdata` looks for the loudest window of
`m_iLen_Am` samples and chooses the gain with which the mean amplitude of that window would be at
most `0.3`.  The loop keeps the sum over a window and takes its maximum from the first sample on
that leaves the window again, so the window at the very beginning does not take part.

`shieldAm_iff` says when that makes a difference.
-/

namespace Vsys.Audio

open Vsys.Align Vsys.Stream

/-- The mean amplitude in the window of `lenAm` samples from `k` on. -/
def windowMean (data : List ℚ) (k : ℕ) : ℚ :=
  (((data.map (|·|)).drop k).take lenAm).sum / lenAm

/-- The largest mean amplitude of a window. -/
def maxMean (data : List ℚ) : ℚ :=
  (keepMax (0, 0) ((List.range (data.length + 1 - lenAm)).map fun k ↦ (k, windowMean data k))).2

/-- `min(1, 0.3 / M)`, which is 1 for silence. -/
def idealGain (M : ℚ) : ℚ := if M = 0 then 1 else min 1 (3 / 10 / M)

/-! ## Gains -/

theorem gainOf_eq_idealGain {M : ℚ} (h : 0 ≤ M) : Cod.gainOf M = idealGain M := by
  rw [Cod.gainOf, idealGain]
  split_ifs with hloud hzero hzero
  · rw [hzero] at hloud
    norm_num at hloud
  · have hpos : 0 < M := by linarith
    rw [min_eq_right ((div_le_one hpos).mpr hloud.le)]
  · rfl
  · have hpos : 0 < M := lt_of_le_of_ne h (Ne.symm hzero)
    rw [min_eq_left ((one_le_div hpos).mpr (not_lt.mp hloud))]

theorem gainOf_pos (M : ℚ) : 0 < Cod.gainOf M := by
  rw [Cod.gainOf]
  split_ifs with hloud
  · exact div_pos (by norm_num) (by linarith)
  · exact one_pos

/-- The gain is right for everything up to the mean it was chosen for. -/
theorem mul_gainOf_le {m M : ℚ} (h : m ≤ M) : m * Cod.gainOf M ≤ 3 / 10 := by
  rw [Cod.gainOf]
  split_ifs with hloud
  · have hpos : 0 < M := by linarith
    calc
      m * (3 / 10 / M) ≤ M * (3 / 10 / M) := mul_le_mul_of_nonneg_right h (by positivity)
      _ = 3 / 10 := mul_div_cancel₀ _ hpos.ne'
  · rw [mul_one]
    exact h.trans (not_lt.mp hloud)

/-- It is wrong for a loud window with a larger mean. -/
theorem lt_mul_gainOf {m M : ℚ} (hloud : 3 / 10 < m) (h : M < m) : 3 / 10 < m * Cod.gainOf M := by
  rw [Cod.gainOf]
  split_ifs with hM
  · have hpos : 0 < M := by linarith
    calc
      3 / 10 = M * (3 / 10 / M) := (mul_div_cancel₀ _ hpos.ne').symm
      _ < m * (3 / 10 / M) := mul_lt_mul_of_pos_right h (by positivity)
  · rw [mul_one]
    exact hloud

/-! ## Windows -/

section Windows

variable {data : List ℚ}

theorem lenAm_pos : (0 : ℚ) < lenAm := by norm_num [lenAm, lenFrmCod, audioSampleRate, audioFrameMs]

theorem windowMean_nonneg (data : List ℚ) (k : ℕ) : 0 ≤ windowMean data k := by
  apply div_nonneg _ lenAm_pos.le
  apply List.sum_nonneg
  intro x hx
  obtain ⟨y, -, rfl⟩ := List.mem_map.mp (List.mem_of_mem_drop (List.mem_of_mem_take hx))
  exact abs_nonneg y

/-- A gain applies to every mean. -/
theorem windowMean_map_mul (data : List ℚ) {gain : ℚ} (hgain : 0 ≤ gain) (k : ℕ) :
    windowMean (data.map (· * gain)) k = windowMean data k * gain := by
  have habs : (data.map (· * gain)).map (|·|) = (data.map (|·|)).map (· * gain) := by
    rw [List.map_map, List.map_map]
    apply List.map_congr_left
    intro x _
    show |x * gain| = |x| * gain
    rw [abs_mul, abs_of_nonneg hgain]
  rw [windowMean, windowMean, habs, ← List.map_drop, ← List.map_take, List.sum_map_mul_right,
    List.map_id', mul_div_right_comm]

/-- The windows of a signal, from the one at `first` on. -/
def means (data : List ℚ) (first : ℕ) : Set ℚ :=
  {m | ∃ k, first ≤ k ∧ k + lenAm ≤ data.length ∧ windowMean data k = m}

theorem isGreatest_maxMean (hlen : lenAm ≤ data.length) :
    IsGreatest (means data 0) (maxMean data) := by
  have hmem : ∀ k, k + lenAm ≤ data.length → (k, windowMean data k) ∈
      (List.range (data.length + 1 - lenAm)).map fun k ↦ (k, windowMean data k) := fun k hk ↦
    List.mem_map.mpr ⟨k, List.mem_range.mpr (by omega), rfl⟩
  constructor
  · obtain hfirst | hwindow := keepMax_mem (0, 0)
      ((List.range (data.length + 1 - lenAm)).map fun k ↦ (k, windowMean data k))
    · -- all windows are silent
      have hle := le_keepMax (0, 0) (hmem 0 (by omega))
      rw [hfirst] at hle
      have hzero : windowMean data 0 = 0 := le_antisymm hle (windowMean_nonneg data 0)
      rw [maxMean, hfirst]
      exact ⟨0, le_rfl, (Nat.zero_add lenAm).le.trans hlen, hzero⟩
    · obtain ⟨k, hk, heq⟩ := List.mem_map.mp hwindow
      rw [List.mem_range] at hk
      rw [maxMean, ← heq]
      exact ⟨k, Nat.zero_le k, by omega, rfl⟩
  · rintro m ⟨k, -, hk, rfl⟩
    have hle := le_keepMax (0, 0) (hmem k hk)
    rw [maxMean]
    exact hle

/-- The amplitudes as a table. -/
def amplitude (data : List ℚ) (i : ℤ) : ℚ := |data.getD i.toNat 0|

theorem tabulates_amplitude (data : List ℚ) : Tabulates (amplitude data) (data.map (|·|)) := by
  intro i x hx
  rw [List.getElem?_map, Option.map_eq_some_iff] at hx
  obtain ⟨y, hy, rfl⟩ := hx
  rw [amplitude, Int.toNat_natCast, List.getD_eq_getElem?_getD, hy]
  rfl

/-- The sum the loop has behind the window from `k` on. -/
theorem scanSum_amplitude {k : ℕ} (hk : k + lenAm ≤ data.length) :
    scanSum (amplitude data) lenAm 0 (k + lenAm) = windowMean data k * lenAm := by
  have hsum := windowSum_eq_sum (w := lenAm) (tabulates_amplitude data)
    (Nat.le_add_left lenAm k) (by rw [List.length_map]; exact hk)
  rw [scanSum_of_le _ _ (Nat.le_add_left lenAm k), zero_add, hsum, Nat.add_sub_cancel, windowMean,
    div_mul_cancel₀ _ lenAm_pos.ne']

/-- A round of the loop: the sum over the last window, and the largest one so far. -/
def windowStep (data : List ℚ) (acc : ℚ × ℚ) (i : ℕ) : ℚ × ℚ :=
  if i < lenAm then (acc.1 + |data.getD i 0|, acc.2)
  else
    let total := acc.1 + (|data.getD i 0| - |data.getD (i - lenAm) 0|)
    (total, if acc.2 < total then total else acc.2)

/-- The loop over the first `n` samples: the sum is that of the last window, and the maximum is over
the windows that do not begin at the first sample. -/
structure Scanned (data : List ℚ) (n : ℕ) (acc : ℚ × ℚ) : Prop where
  total_eq : acc.1 = scanSum (amplitude data) lenAm 0 n
  max_nonneg : 0 ≤ acc.2
  le_max : ∀ k, 1 ≤ k → k + lenAm ≤ n → scanSum (amplitude data) lenAm 0 (k + lenAm) ≤ acc.2
  max_eq : acc.2 = 0 ∨ ∃ k, 1 ≤ k ∧ k + lenAm ≤ n ∧
    scanSum (amplitude data) lenAm 0 (k + lenAm) = acc.2

theorem scanned_zero (data : List ℚ) : Scanned data 0 (0, 0) where
  total_eq := by simp [scanSum, windowSum]
  max_nonneg := le_rfl
  le_max := fun k _ hk ↦ by omega
  max_eq := .inl rfl

/-- **One round of the loop.** -/
theorem Scanned.step {n : ℕ} {acc : ℚ × ℚ} (h : Scanned data n acc) :
    Scanned data (n + 1) (windowStep data acc n) := by
  obtain ⟨htotal, hnonneg, hle, heq⟩ := h
  have hnow : amplitude data (0 + (n : ℤ)) = |data.getD n 0| := by
    rw [amplitude, zero_add, Int.toNat_natCast]
  unfold windowStep
  split_ifs with hfill
  · refine ⟨?_, hnonneg, fun k hk hkn ↦ hle k hk (by omega), ?_⟩
    · rw [scanSum_succ_of_lt _ _ hfill, hnow, htotal]
    · exact heq.imp_right fun ⟨k, hk, hkn, hmax⟩ ↦ ⟨k, hk, by omega, hmax⟩
  · have hfull : lenAm ≤ n := Nat.le_of_not_lt hfill
    have hgone : amplitude data (0 + (n : ℤ) - lenAm) = |data.getD (n - lenAm) 0| := by
      rw [amplitude, zero_add, ← Nat.cast_sub hfull, Int.toNat_natCast]
    have hnext : acc.1 + (|data.getD n 0| - |data.getD (n - lenAm) 0|) =
        scanSum (amplitude data) lenAm 0 (n + 1) := by
      rw [scanSum_succ_of_le _ _ hfull, hnow, hgone, htotal]
      ring
    -- the new window begins behind the first sample
    have hwindow : n + 1 = n + 1 - lenAm + lenAm := by omega
    dsimp only
    rw [hnext]
    refine ⟨rfl, ?_, fun k hk hkn ↦ ?_, ?_⟩
    · dsimp only
      split_ifs with hless
      · exact hnonneg.trans hless.le
      · exact hnonneg
    · dsimp only
      obtain hlast | hbefore := Nat.eq_or_lt_of_le hkn
      · rw [hlast]
        split_ifs with hless
        · exact le_rfl
        · exact not_lt.mp hless
      · refine (hle k hk (by omega)).trans ?_
        split_ifs with hless
        · exact hless.le
        · exact le_rfl
    · dsimp only
      split_ifs with hless
      · refine .inr ⟨n + 1 - lenAm, by omega, hwindow.ge, ?_⟩
        rw [← hwindow]
      · exact heq.imp_right fun ⟨k, hk, hkn, hmax⟩ ↦ ⟨k, hk, by omega, hmax⟩

theorem scanned_foldl (data : List ℚ) (n : ℕ) :
    Scanned data n ((List.range n).foldl (windowStep data) (0, 0)) := by
  induction n with
  | zero => exact scanned_zero data
  | succ n ih =>
      rw [List.range_succ, List.foldl_concat]
      exact ih.step

/-- **The loop finds the largest mean of the windows but the first one.** -/
theorem isGreatest_windowMax (hlen : lenAm < data.length) :
    IsGreatest (means data 1) (Cod.windowMax data / lenAm) := by
  obtain ⟨-, hnonneg, hle, heq⟩ := scanned_foldl data data.length
  have hmax : Cod.windowMax data =
      ((List.range data.length).foldl (windowStep data) (0, 0)).2 := rfl
  rw [← hmax] at hnonneg hle heq
  have hmean : ∀ k, 1 ≤ k → k + lenAm ≤ data.length →
      windowMean data k ≤ Cod.windowMax data / lenAm := by
    intro k hk hkn
    rw [le_div_iff₀ lenAm_pos, ← scanSum_amplitude hkn]
    exact hle k hk hkn
  constructor
  · obtain hzero | ⟨k, hk, hkn, hsum⟩ := heq
    · have hone := hmean 1 le_rfl (by omega)
      rw [hzero, zero_div] at hone ⊢
      exact ⟨1, le_rfl, by omega, le_antisymm hone (windowMean_nonneg data 1)⟩
    · refine ⟨k, hk, hkn, ?_⟩
      rw [← hsum, scanSum_amplitude hkn, mul_div_cancel_right₀ _ lenAm_pos.ne']
  · rintro m ⟨k, hk, hkn, rfl⟩
    exact hmean k hk hkn

end Windows

/-! ## The first call -/

section FirstCall

variable {σ : Type*} (E : Encoder σ) {c : Cod σ}

theorem shieldAm_encodeLoop (rounds : ℕ) (c : Cod σ) :
    (Cod.encodeLoop E rounds c).shieldAm = c.shieldAm := by
  induction rounds generalizing c with
  | zero => rfl
  | succ rounds ih =>
      rw [Cod.encodeLoop]
      split_ifs
      · exact ih (c.encodeFrm E)
      · rfl

/-- The gain of a signal that is longer than a window. -/
theorem shieldAm_processData (hfirst : c.lenCod = 0) (hlong : lenAm < c.dataIn.length) :
    (c.processData E).shieldAm = Cod.gainOf (Cod.windowMax c.dataIn / lenAm) := by
  have hframe : lenFrmCod < c.dataIn.length := lt_trans (by decide) hlong
  rw [Cod.processData, shieldAm_encodeLoop, Cod.updateShield, if_pos ⟨hfirst, hframe⟩,
    if_neg (not_lt.mpr hlong.le)]

/-- No window is loud with a gain. -/
def Quiet (data : List ℚ) (gain : ℚ) : Prop :=
  ∀ k, k + lenAm ≤ data.length → windowMean (data.map (· * gain)) k ≤ 3 / 10

/-- The largest mean is that of the first window or of another one. -/
theorem maxMean_eq_max {data : List ℚ} (hlen : lenAm < data.length) :
    maxMean data = max (windowMean data 0) (Cod.windowMax data / lenAm) := by
  have hlater := isGreatest_windowMax hlen
  apply (isGreatest_maxMean hlen.le).unique
  constructor
  · obtain hle | hle := le_total (windowMean data 0) (Cod.windowMax data / lenAm)
    · obtain ⟨k, -, hk, heq⟩ := hlater.1
      rw [max_eq_right hle]
      exact ⟨k, Nat.zero_le k, hk, heq⟩
    · rw [max_eq_left hle]
      exact ⟨0, le_rfl, (Nat.zero_add lenAm).le.trans hlen.le, rfl⟩
  · rintro m ⟨k, -, hk, rfl⟩
    obtain rfl | hpos := Nat.eq_zero_or_pos k
    · exact le_max_left _ _
    · exact (hlater.2 ⟨k, hpos, hk, rfl⟩).trans (le_max_right _ _)

/-- With the gain for the other windows a first window that is louder than all of them is too loud. -/
theorem not_quiet_of_loud (hfirst : c.lenCod = 0) (hlong : lenAm < c.dataIn.length)
    (hloud : 3 / 10 < windowMean c.dataIn 0)
    (hless : ∀ k, 0 < k → k + lenAm ≤ c.dataIn.length →
      windowMean c.dataIn k < windowMean c.dataIn 0) :
    ¬ Quiet c.dataIn (c.processData E).shieldAm := by
  intro h
  have hzero := h 0 ((Nat.zero_add lenAm).le.trans hlong.le)
  obtain ⟨k, hk, hkn, heq⟩ := (isGreatest_windowMax hlong).1
  rw [windowMean_map_mul _ (by rw [shieldAm_processData E hfirst hlong]; exact (gainOf_pos _).le),
    shieldAm_processData E hfirst hlong, ← heq] at hzero
  exact absurd (lt_mul_gainOf hloud (hless k hk hkn)) (not_lt.mpr hzero)

/-- **The gain of the first call.**  For every encoder and every signal that is longer than a window
when the first frame is to be encoded: the gain is that of the loudest window, and with it no window
is louder than `0.3`, exactly if the first window is not louder than that by itself, or another
window is as loud. -/
theorem shieldAm_iff (hfirst : c.lenCod = 0) (hlong : lenAm < c.dataIn.length) :
    ((c.processData E).shieldAm = idealGain (maxMean c.dataIn) ∧
        Quiet c.dataIn (c.processData E).shieldAm) ↔
      windowMean c.dataIn 0 ≤ 3 / 10 ∨ ∃ k, 0 < k ∧ k + lenAm ≤ c.dataIn.length ∧
        windowMean c.dataIn 0 ≤ windowMean c.dataIn k := by
  constructor
  · rintro ⟨-, h⟩
    by_contra hloud
    rw [not_or, not_le] at hloud
    exact not_quiet_of_loud E hfirst hlong hloud.1 (fun k hk hkn ↦ not_le.mp fun hle ↦
      hloud.2 ⟨k, hk, hkn, hle⟩) h
  · intro h
    have hlater := isGreatest_windowMax hlong
    have hmax := maxMean_eq_max hlong
    rw [shieldAm_processData E hfirst hlong]
    generalize Cod.windowMax c.dataIn / lenAm = later at hlater hmax ⊢
    have hnonneg : 0 ≤ maxMean c.dataIn := by
      rw [hmax]
      exact (windowMean_nonneg c.dataIn 0).trans (le_max_left _ _)
    -- the gains for the two means agree
    have hgain : Cod.gainOf later = Cod.gainOf (maxMean c.dataIn) := by
      obtain hle | hlt := le_or_gt (windowMean c.dataIn 0) later
      · rw [hmax, max_eq_right hle]
      · have hsoft : windowMean c.dataIn 0 ≤ 3 / 10 := h.resolve_right fun ⟨k, hk, hkn, hle⟩ ↦
          absurd (hle.trans (hlater.2 ⟨k, hk, hkn, rfl⟩)) (not_le.mpr hlt)
        rw [hmax, max_eq_left hlt.le, Cod.gainOf, Cod.gainOf, if_neg (not_lt.mpr hsoft),
          if_neg (not_lt.mpr (hlt.le.trans hsoft))]
    refine ⟨by rw [hgain, gainOf_eq_idealGain hnonneg], fun k hk ↦ ?_⟩
    rw [windowMean_map_mul _ (gainOf_pos later).le, hgain]
    exact mul_gainOf_le ((isGreatest_maxMean hlong.le).2 ⟨k, Nat.zero_le k, hk, rfl⟩)

/-- A signal of silence, one sample longer than a window. -/
theorem shieldAm_iff_silence :
    let c := (Cod.create (.pcm16 32768)).process (List.replicate (lenAm + 1) 0)
    c.lenCod = 0 ∧ lenAm < c.dataIn.length ∧
      (((c.processData (.pcm16 32768)).shieldAm = idealGain (maxMean c.dataIn) ∧
          Quiet c.dataIn (c.processData (.pcm16 32768)).shieldAm) ↔
        windowMean c.dataIn 0 ≤ 3 / 10 ∨ ∃ k, 0 < k ∧ k + lenAm ≤ c.dataIn.length ∧
          windowMean c.dataIn 0 ≤ windowMean c.dataIn k) := by
  intro c
  have hfirst : c.lenCod = 0 := rfl
  have hlong : lenAm < c.dataIn.length := by
    simp [c, Cod.process, Cod.create]
  exact ⟨hfirst, hlong, shieldAm_iff (.pcm16 32768) hfirst hlong⟩

/-- A window at full amplitude, and one silent sample behind it. -/
def loudStart : Cod Unit :=
  (Cod.create (.pcm16 32768)).process (List.replicate lenAm 32768 ++ [0])

theorem dataIn_loudStart : loudStart.dataIn = List.replicate lenAm 1 ++ [0] := by
  rw [loudStart, Cod.process, Cod.create]
  dsimp only
  rw [List.nil_append, List.map_append, List.map_replicate]
  norm_num

/-- The window at the beginning does not take part, and stays too loud. -/
theorem not_shieldAm_loudStart :
    loudStart.lenCod = 0 ∧ lenAm < loudStart.dataIn.length ∧
      ¬ ((loudStart.processData (.pcm16 32768)).shieldAm = idealGain (maxMean loudStart.dataIn) ∧
        Quiet loudStart.dataIn (loudStart.processData (.pcm16 32768)).shieldAm) := by
  have hlength : loudStart.dataIn.length = lenAm + 1 := by
    rw [dataIn_loudStart, List.length_append, List.length_replicate, List.length_singleton]
  have habs : loudStart.dataIn.map (|·|) = List.replicate lenAm 1 ++ [0] := by
    rw [dataIn_loudStart, List.map_append, List.map_replicate]
    norm_num
  have hzero : windowMean loudStart.dataIn 0 = 1 := by
    rw [windowMean, habs, List.drop_zero, List.take_left' List.length_replicate,
      List.sum_replicate, nsmul_one, div_self lenAm_pos.ne']
  have hone : windowMean loudStart.dataIn 1 < 1 := by
    have hsum : (((List.replicate lenAm (1 : ℚ) ++ [0]).drop 1).take lenAm).sum =
        (lenAm : ℚ) - 1 := by
      rw [List.drop_append_of_le_length (by rw [List.length_replicate]; decide),
        List.drop_replicate, List.take_of_length_le (by simp; decide), List.sum_append,
        List.sum_replicate, nsmul_one, List.sum_singleton, add_zero, Nat.cast_pred (by decide)]
    rw [windowMean, habs, hsum, div_lt_one lenAm_pos]
    linarith
  refine ⟨rfl, by omega, fun h ↦ ?_⟩
  refine not_quiet_of_loud (.pcm16 32768) rfl (by omega) (by rw [hzero]; norm_num)
    (fun k hk hkn ↦ ?_) h.2
  obtain rfl : k = 1 := by omega
  rw [hzero]
  exact hone

end FirstCall

end Vsys.Audio
