import Vsys.Rs.Mem
import Mathlib.Algebra.Order.BigOperators.Group.LocallyFinite
import Mathlib.Tactic.Ring

/-!
# The resampled stream

However the input is cut into calls, the outputs of the calls are together the resampled signal
(`resampled_of_calls`).  The matrix applied to one window is a polyphase filter (`product_eq`), a
batch is a number of windows (`storeBlocks_eq`), and the loop of a call feeds a buffer of windows.
-/

namespace Vsys.Rs

open Vsys.Stream

open scoped BigOperators

/-! ## Rates and sizes -/

theorem zGcd_eq (m : ℕ) {n : ℕ} (hn : 0 < n) : zGcd m n = Nat.gcd m n := by
  have hrec : Nat.gcd m n = Nat.gcd (m % n) n := by
    rw [Nat.gcd_comm m n, Nat.gcd_rec]
  induction m, n using zGcd.induct with
  | case1 m n hmod =>
      rw [zGcd, if_pos hmod, Nat.gcd_eq_right (Nat.dvd_of_mod_eq_zero hmod)]
  | case2 m n hm hmod =>
      rw [zGcd, if_neg hm, if_pos hmod, hrec, Nat.gcd_eq_left (Nat.dvd_of_mod_eq_zero hmod)]
  | case3 m n hm hmod ih =>
      have hrec' : Nat.gcd (m % n) (n % (m % n)) = Nat.gcd (m % n % (n % (m % n))) (n % (m % n)) := by
        rw [Nat.gcd_comm (m % n) (n % (m % n)), Nat.gcd_rec]
      rw [zGcd, if_neg hm, if_neg hmod, ih (Nat.pos_of_ne_zero hmod) hrec', hrec,
        Nat.gcd_comm (m % n) (n % (m % n)), ← Nat.gcd_rec]

theorem zLcm_eq (m : ℕ) {n : ℕ} (hn : 0 < n) : zLcm m n = Nat.lcm m n := by
  have hleft : Nat.gcd m n * (m / Nat.gcd m n) = m := Nat.mul_div_cancel' (Nat.gcd_dvd_left m n)
  show _ = m * n / Nat.gcd m n
  rw [zLcm, zGcd_eq m hn, hleft, Nat.mul_div_assoc m (Nat.gcd_dvd_right m n)]

theorem doublings_pos (rounds n : ℕ) : 0 < doublings rounds n := by
  induction rounds generalizing n with
  | zero => exact Nat.one_pos
  | succ rounds ih =>
      rw [doublings]
      split
      · exact Nat.one_pos
      · exact Nat.mul_pos Nat.two_pos (ih _)

/-- Two rounds are enough: the loop has ended. -/
theorem mul_doublings_mod (n : ℕ) : n * doublings 2 n % 4 = 0 := by
  simp only [doublings]
  split
  · omega
  · split
    · omega
    · omega

/-- What the constructor needs to be given: positive rates and frame. -/
structure Config.Proper {R : Type*} (c : Config R) : Prop where
  iL : 0 < c.iL
  iM : 0 < c.iM
  iQ : 0 < c.iQ
  iBatchSize : 0 < c.iBatchSize
  frames : c.iFrmOut ∣ c.iL * c.iBatchSize
  four : c.iL % 4 = 0

theorem div_zGcd_pos {m n d : ℕ} (hd : 0 < d) (hn : 0 < n) (h : Nat.gcd m n ∣ d) :
    0 < d / zGcd m n := by
  rw [zGcd_eq m hn]
  exact Nat.div_pos (Nat.le_of_dvd hd h) (Nat.gcd_pos_of_pos_right m hn)

theorem create_proper {R : Type*} (design : ℕ → ℕ → TvFlt R) (iCn : ℕ) {iSrIn iSrOut iFrmOut : ℕ}
    (hin : 0 < iSrIn) (hout : 0 < iSrOut) (hfrm : 0 < iFrmOut) :
    (Config.create design iCn iSrIn iSrOut iFrmOut).Proper := by
  have hL : 0 < (Config.create design iCn iSrIn iSrOut iFrmOut).iL :=
    Nat.mul_pos (div_zGcd_pos hout hout (Nat.gcd_dvd_right _ _)) (doublings_pos _ _)
  have hdvd : (Config.create design iCn iSrIn iSrOut iFrmOut).iL ∣
      zLcm (Config.create design iCn iSrIn iSrOut iFrmOut).iL iFrmOut := by
    rw [zLcm_eq _ hfrm]
    exact Nat.dvd_lcm_left _ _
  have hlcm : 0 < zLcm (Config.create design iCn iSrIn iSrOut iFrmOut).iL iFrmOut := by
    rw [zLcm_eq _ hfrm]
    exact Nat.lcm_pos hL hfrm
  refine ⟨hL, ?_, (design _ _).k_pos, ?_, ?_, mul_doublings_mod _⟩
  · exact Nat.mul_pos (div_zGcd_pos hin hout (Nat.gcd_dvd_left _ _)) (doublings_pos _ _)
  · exact Nat.mul_pos (Nat.div_pos (Nat.le_of_dvd hlcm hdvd) hL) (doublings_pos _ _)
  · have hwhole : (Config.create design iCn iSrIn iSrOut iFrmOut).iL *
        (zLcm (Config.create design iCn iSrIn iSrOut iFrmOut).iL iFrmOut /
          (Config.create design iCn iSrIn iSrOut iFrmOut).iL) =
        zLcm (Config.create design iCn iSrIn iSrOut iFrmOut).iL iFrmOut :=
      Nat.mul_div_cancel' hdvd
    have hframe : iFrmOut ∣ zLcm (Config.create design iCn iSrIn iSrOut iFrmOut).iL iFrmOut := by
      rw [zLcm_eq _ hfrm]
      exact Nat.dvd_lcm_right _ _
    have hmul := Dvd.dvd.mul_right (hwhole.symm ▸ hframe)
      (doublings 2 (zLcm (Config.create design iCn iSrIn iSrOut iFrmOut).iL iFrmOut /
          (Config.create design iCn iSrIn iSrOut iFrmOut).iL * iCn))
    rw [Nat.mul_assoc] at hmul
    exact hmul

/-! ## Places -/

variable {R : Type*} {cn : ℕ} {c : Config R}

/-- The row of a phase begins before the last of the new samples. -/
theorem row_start_lt (hc : c.Proper) {row : ℕ} (hrow : row < c.iL) :
    row * c.iM / c.iL < c.iM := by
  rw [Nat.div_lt_iff_lt_mul hc.iL, Nat.mul_comm c.iM]
  exact Nat.mul_lt_mul_of_pos_right hrow hc.iM

/-- The place of an output sample: its phase and where its window ends. -/
theorem place_of_block (hc : c.Proper) (block : ℕ) {row : ℕ} (hrow : row < c.iL) :
    (block * c.iL + row) % c.iL = row ∧
      (block * c.iL + row) * c.iM / c.iL = block * c.iM + row * c.iM / c.iL := by
  constructor
  · rw [Nat.mul_comm, Nat.mul_add_mod, Nat.mod_eq_of_lt hrow]
  · have hmul : (block * c.iL + row) * c.iM = row * c.iM + block * c.iM * c.iL := by ring
    rw [hmul, Nat.add_mul_div_right _ _ hc.iL, Nat.add_comm]

/-- The samples of whole batches have complete windows. -/
theorem window_lt (hc : c.Proper) {batches n length : ℕ}
    (hlength : batches * (c.iM * c.iBatchSize) ≤ length)
    (hn : n < batches * (c.iL * c.iBatchSize)) : n * c.iM / c.iL < length := by
  have hmul : n * c.iM < batches * (c.iM * c.iBatchSize) * c.iL := by
    calc
      n * c.iM < batches * (c.iL * c.iBatchSize) * c.iM := Nat.mul_lt_mul_of_pos_right hn hc.iM
      _ = batches * (c.iM * c.iBatchSize) * c.iL := by ring
  exact ((Nat.div_lt_iff_lt_mul hc.iL).mpr hmul).trans_le hlength

/-! ## One window -/

variable [Semiring R]

/-- A row of the matrix is zero outside the taps of its phase. -/
theorem filter_of_not_mem {i col : ℕ}
    (h : ¬ (i * c.iM / c.iL ≤ col ∧ col < i * c.iM / c.iL + c.iQ)) : c.filter i col = 0 := by
  rw [Config.filter, writeAt]
  split
  · rename_i hle
    have hout : c.iQ ≤ col - i * c.iM / c.iL := by omega
    simp [List.getD_eq_getElem?_getD, hout]
  · rfl

theorem filter_of_lt (i : ℕ) {j : ℕ} (hj : j < c.iQ) :
    c.filter i (i * c.iM / c.iL + j) = c.g i (c.iQ - 1 - j) := by
  rw [Config.filter, writeAt, if_pos (Nat.le_add_right _ _), Nat.add_sub_cancel_left]
  simp [List.getD_eq_getElem?_getD, hj]

/-- A sum with few terms that are not zero. -/
theorem sum_range_of_window {f : ℕ → R} {n start width : ℕ} (hfit : start + width ≤ n)
    (hzero : ∀ col, ¬ (start ≤ col ∧ col < start + width) → f col = 0) :
    ∑ col ∈ Finset.range n, f col = ∑ j ∈ Finset.range width, f (start + j) := by
  have hsub : Finset.Ico start (start + width) ⊆ Finset.range n := by
    intro col hcol
    have hmem := Finset.mem_Ico.mp hcol
    exact Finset.mem_range.mpr (by omega)
  rw [← Finset.sum_subset hsub, Finset.sum_Ico_eq_sum_range, Nat.add_sub_cancel_left]
  intro col _ hcol
  exact hzero col fun h ↦ hcol (Finset.mem_Ico.mpr h)

/-- **One window.** The matrix filters the window with the taps of the row's phase. -/
theorem product_eq (hc : c.Proper) (s : ZRsMem cn R) (i : Fin cn) (j : ℕ) {row : ℕ}
    (hrow : row < c.iL) :
    s.product c i j row =
      ∑ k ∈ Finset.range c.iQ,
        c.g row k * s.audIn (j * c.iM + (row * c.iM / c.iL + (c.iQ - 1 - k))) i := by
  have hstart := row_start_lt hc hrow
  have hQ := hc.iQ
  have hfit : row * c.iM / c.iL + c.iQ ≤ c.iM + c.iQ - 1 := by omega
  rw [ZRsMem.product, sum_range_of_window hfit]
  · rw [← Finset.sum_range_reflect]
    apply Finset.sum_congr rfl
    intro k hk
    have hlt := Finset.mem_range.mp hk
    have hreflect : c.iQ - 1 - (c.iQ - 1 - k) = k := by omega
    rw [filter_of_lt row (by omega), hreflect]
  · intro col hcol
    rw [filter_of_not_mem hcol, zero_mul]

/-- The output of several windows, place by place. -/
theorem storeBlocks_eq (hc : c.Proper) (s : ZRsMem cn R) (n : ℕ) (i : Fin cn) (p : ℕ) :
    s.storeBlocks c n i p =
      if s.lenOut ≤ p ∧ p < s.lenOut + n * c.iL then
        s.product c i ((p - s.lenOut) / c.iL) ((p - s.lenOut) % c.iL)
      else s.audOut i p := by
  induction n with
  | zero =>
      rw [ZRsMem.storeBlocks, if_neg (by omega)]
  | succ n ih =>
      have hsucc : (n + 1) * c.iL = n * c.iL + c.iL := Nat.succ_mul n c.iL
      rw [ZRsMem.storeBlocks, hsucc]
      dsimp only
      by_cases hlast : s.lenOut + n * c.iL ≤ p ∧ p < s.lenOut + n * c.iL + c.iL
      · have hplace : p - s.lenOut = p - (s.lenOut + n * c.iL) + n * c.iL := by omega
        have hrow : p - (s.lenOut + n * c.iL) < c.iL := by omega
        rw [if_pos hlast, if_pos (by omega), hplace, Nat.add_mul_div_right _ _ hc.iL,
          Nat.add_mul_mod_self_right, Nat.div_eq_of_lt hrow, Nat.mod_eq_of_lt hrow, Nat.zero_add]
      · rw [if_neg hlast, ih]
        by_cases hearlier : s.lenOut ≤ p ∧ p < s.lenOut + n * c.iL
        · rw [if_pos hearlier, if_pos (by omega)]
        · rw [if_neg hearlier, if_neg (by omega)]

/-! ## One batch -/

/-- The padded stream: what a new object holds, and what it is fed. -/
def padded (c : Config R) (x : List (Sample cn R)) : List (Sample cn R) :=
  List.replicate (c.iQ - 1) 0 ++ x

/-- A sample of the padded stream is one of the past. -/
theorem padded_eq_past {x : List (Sample cn R)} {p k : ℕ} (hk : k ≤ c.iQ - 1) {value : Sample cn R}
    (h : (padded c x)[p + (c.iQ - 1 - k)]? = some value) (i : Fin cn) : value i = past x i p k := by
  rw [padded] at h
  rw [past]
  by_cases hpast : k ≤ p
  · rw [List.getElem?_append_right (by rw [List.length_replicate]; omega), List.length_replicate] at h
    have hindex : p + (c.iQ - 1 - k) - (c.iQ - 1) = p - k := by omega
    rw [hindex] at h
    rw [if_pos hpast, List.getD_eq_getElem?_getD, h]
    rfl
  · rw [List.getElem?_append_left (by rw [List.length_replicate]; omega),
      List.getElem?_replicate, if_pos (by omega)] at h
    rw [if_neg hpast, ← Option.some.inj h]
    rfl

/-- A value of a full batch is a sample of the resampled signal. -/
theorem product_eq_resampled (hc : c.Proper) {x : List (Sample cn R)} {s : ZRsMem cn R} {batches : ℕ}
    (hcarried : Carried (c.iM * c.iBatchSize) (padded c x) batches c.lenInTotal s.audIn) (i : Fin cn)
    {block row : ℕ} (hblock : block < c.iBatchSize) (hrow : row < c.iL) :
    s.product c i block row =
      resampled c x i ((batches * c.iBatchSize + block) * c.iL + row) := by
  obtain ⟨hphase, hend⟩ := place_of_block hc (batches * c.iBatchSize + block) hrow
  have hstart := row_start_lt hc hrow
  rw [product_eq hc s i block hrow, resampled, hphase, hend]
  apply Finset.sum_congr rfl
  intro k hk
  have hlt := Finset.mem_range.mp hk
  have hwindow : block * c.iM + c.iM ≤ c.iM * c.iBatchSize := by
    calc
      block * c.iM + c.iM = (block + 1) * c.iM := by ring
      _ ≤ c.iBatchSize * c.iM := Nat.mul_le_mul_right c.iM hblock
      _ = c.iM * c.iBatchSize := Nat.mul_comm _ _
  have hcell := hcarried.cells (block * c.iM + (row * c.iM / c.iL + (c.iQ - 1 - k))) (by
    rw [Config.lenInTotal]
    omega)
  have hplace : batches * (c.iM * c.iBatchSize) +
      (block * c.iM + (row * c.iM / c.iL + (c.iQ - 1 - k))) =
      (batches * c.iBatchSize + block) * c.iM + row * c.iM / c.iL + (c.iQ - 1 - k) := by
    ring
  rw [hplace] at hcell
  rw [padded_eq_past (by omega) hcell]

/-- Samples of the resampled signal whose window is complete do not change. -/
theorem resampled_append {x : List (Sample cn R)} (more : List (Sample cn R))
    (i : Fin cn) {n : ℕ} (hn : n * c.iM / c.iL < x.length) :
    resampled c (x ++ more) i n = resampled c x i n := by
  apply Finset.sum_congr rfl
  intro k _
  have hindex : n * c.iM / c.iL - k < x.length := (Nat.sub_le _ _).trans_lt hn
  rw [past, past, List.getD_eq_getElem?_getD, List.getD_eq_getElem?_getD,
    List.getElem?_append_left hindex]

/-! ## One call -/

/-- What holds in a call, with `before` batches done before it and the stream `x` so far. -/
structure Inv (c : Config R) (before : ℕ) (x : List (Sample cn R)) (s : ZRsMem cn R) (batches : ℕ) :
    Prop where
  carried : Carried (c.iM * c.iBatchSize) (padded c x) batches s.lenIn s.audIn
  history : c.iQ - 1 ≤ s.lenIn
  space : s.lenIn < c.lenInTotal
  lenOut : before * (c.iL * c.iBatchSize) + s.lenOut = batches * (c.iL * c.iBatchSize)
  audOut : ∀ i, ∀ p < s.lenOut,
    s.audOut i p = resampled c x i (before * (c.iL * c.iBatchSize) + p)

variable {x : List (Sample cn R)} {s : ZRsMem cn R} {before batches : ℕ}

theorem length_padded (c : Config R) (x : List (Sample cn R)) :
    (padded c x).length = c.iQ - 1 + x.length := by
  rw [padded, List.length_append, List.length_replicate]

theorem padded_append (c : Config R) (x more : List (Sample cn R)) :
    padded c (x ++ more) = padded c x ++ more := by
  rw [padded, padded, List.append_assoc]

/-- The batches done are the complete ones of the stream. -/
theorem Inv.batches_eq (hc : c.Proper) (h : Inv c before x s batches) :
    batches = x.length / (c.iM * c.iBatchSize) := by
  have hlength := h.carried.length_eq
  have hspace := h.space
  have hhistory := h.history
  have hhop := Nat.mul_pos hc.iM hc.iBatchSize
  rw [length_padded] at hlength
  rw [Config.lenInTotal] at hspace
  have hsplit : x.length = s.lenIn - (c.iQ - 1) + batches * (c.iM * c.iBatchSize) := by omega
  rw [hsplit, Nat.add_mul_div_right _ _ hhop, Nat.div_eq_of_lt (by omega), Nat.zero_add]

/-- The output so far stays the output when the stream goes on. -/
theorem Inv.audOut_append (hc : c.Proper) (h : Inv c before x s batches)
    (more : List (Sample cn R)) (i : Fin cn) {p : ℕ} (hp : p < s.lenOut) :
    s.audOut i p = resampled c (x ++ more) i (before * (c.iL * c.iBatchSize) + p) := by
  have hlength := h.carried.length_eq
  have hhistory := h.history
  have hlenOut := h.lenOut
  rw [length_padded] at hlength
  have hwindow := window_lt hc (show batches * (c.iM * c.iBatchSize) ≤ x.length by omega)
    (show before * (c.iL * c.iBatchSize) + p < batches * (c.iL * c.iBatchSize) by omega)
  rw [h.audOut i p hp, resampled_append more i hwindow]

@[simp]
theorem reserve_audIn (c : Config R) (s : ZRsMem cn R) : (s.reserve c).audIn = s.audIn := by
  rw [ZRsMem.reserve]
  split <;> rfl

@[simp]
theorem reserve_lenOut (c : Config R) (s : ZRsMem cn R) : (s.reserve c).lenOut = s.lenOut := by
  rw [ZRsMem.reserve]
  split <;> rfl

theorem reserve_audOut (c : Config R) (s : ZRsMem cn R) (i : Fin cn) {p : ℕ} (hp : p < s.lenOut) :
    (s.reserve c).audOut i p = s.audOut i p := by
  rw [ZRsMem.reserve]
  split
  · exact if_pos hp
  · rfl

/-- **One batch.** A full buffer gives the next samples of the resampled signal. -/
theorem processBatch_audOut (hc : c.Proper)
    (hcarried : Carried (c.iM * c.iBatchSize) (padded c x) batches c.lenInTotal s.audIn) (i : Fin cn)
    {p : ℕ} (hp : s.lenOut ≤ p) (hlt : p < s.lenOut + c.iL * c.iBatchSize) :
    (s.processBatch c).audOut i p =
      resampled c x i (batches * (c.iL * c.iBatchSize) + (p - s.lenOut)) := by
  have hplace : p - s.lenOut < c.iBatchSize * c.iL := by
    rw [Nat.mul_comm]
    omega
  have hblock : (p - s.lenOut) / c.iL < c.iBatchSize := (Nat.div_lt_iff_lt_mul hc.iL).mpr hplace
  have hrow : (p - s.lenOut) % c.iL < c.iL := Nat.mod_lt _ hc.iL
  have hcarried' : Carried (c.iM * c.iBatchSize) (padded c x) batches c.lenInTotal
      (s.reserve c).audIn := by
    rwa [reserve_audIn]
  have hsample : (batches * c.iBatchSize + (p - s.lenOut) / c.iL) * c.iL + (p - s.lenOut) % c.iL =
      batches * (c.iL * c.iBatchSize) + (p - s.lenOut) := by
    have hdivmod := Nat.div_add_mod' (p - s.lenOut) c.iL
    calc
      (batches * c.iBatchSize + (p - s.lenOut) / c.iL) * c.iL + (p - s.lenOut) % c.iL =
          batches * (c.iL * c.iBatchSize) +
            ((p - s.lenOut) / c.iL * c.iL + (p - s.lenOut) % c.iL) := by ring
      _ = batches * (c.iL * c.iBatchSize) + (p - s.lenOut) := by rw [hdivmod]
  rw [← hsample, ← product_eq_resampled hc hcarried' i hblock hrow]
  have hbound : p < s.lenOut + c.iBatchSize * c.iL := by omega
  show (s.reserve c).storeBlocks c c.iBatchSize i p = _
  rw [storeBlocks_eq hc, reserve_lenOut, if_pos ⟨hp, hbound⟩]

/-- The output before a batch is kept. -/
theorem processBatch_audOut_of_lt (hc : c.Proper) (s : ZRsMem cn R) (i : Fin cn) {p : ℕ}
    (hp : p < s.lenOut) : (s.processBatch c).audOut i p = s.audOut i p := by
  show (s.reserve c).storeBlocks c c.iBatchSize i p = _
  rw [storeBlocks_eq hc, reserve_lenOut, if_neg (by omega), reserve_audOut c s i hp]

theorem processBatch_lenOut (c : Config R) (s : ZRsMem cn R) :
    (s.processBatch c).lenOut = s.lenOut + c.iL * c.iBatchSize := by
  show (s.reserve c).lenOut + _ = _
  rw [reserve_lenOut]

theorem processBatch_audIn (c : Config R) (s : ZRsMem cn R) :
    (s.processBatch c).audIn = s.audIn := reserve_audIn c s

/-- One round of the loop: a piece is collected, and a full buffer is processed. -/
theorem Inv.round (hc : c.Proper) (h : Inv c before x s batches) {piece : List (Sample cn R)}
    (hpiece : s.lenIn + piece.length ≤ c.lenInTotal) :
    ∃ batches', Inv c before (x ++ piece)
      (if (s.fill piece).lenIn = c.lenInTotal then (s.fill piece).full c else s.fill piece)
        batches' := by
  have hfilled : Carried (c.iM * c.iBatchSize) (padded c (x ++ piece)) batches (s.fill piece).lenIn
      (s.fill piece).audIn := by
    rw [padded_append]
    exact h.carried.fill piece
  have hlenOut := h.lenOut
  by_cases hfull : (s.fill piece).lenIn = c.lenInTotal
  · rw [if_pos hfull]
    rw [hfull] at hfilled
    have hwidth : c.lenInTotal - c.iM * c.iBatchSize = c.iQ - 1 := by
      rw [Config.lenInTotal, Nat.add_sub_cancel]
    have hnext : ((s.fill piece).full c).lenOut = s.lenOut + c.iL * c.iBatchSize :=
      processBatch_lenOut c (s.fill piece)
    have hbatch : (batches + 1) * (c.iL * c.iBatchSize) =
        batches * (c.iL * c.iBatchSize) + c.iL * c.iBatchSize := Nat.succ_mul _ _
    refine ⟨batches + 1, ?_, le_rfl, ?_, ?_, ?_⟩
    · have hshift := @Carried.shift _ _ _ _ _ _ ((s.fill piece).full c).audIn hfilled
        (Nat.le_add_left _ _) (by
          intro j hj
          rw [hwidth] at hj
          show (if j < c.iQ - 1 then ((s.fill piece).processBatch c).audIn (c.iM * c.iBatchSize + j)
            else ((s.fill piece).processBatch c).audIn j) = _
          rw [if_pos hj, processBatch_audIn])
      rwa [hwidth] at hshift
    · show c.iQ - 1 < c.lenInTotal
      have hpos := Nat.mul_pos hc.iM hc.iBatchSize
      rw [Config.lenInTotal]
      omega
    · rw [hnext, hbatch]
      omega
    · intro i p hp
      rw [hnext] at hp
      show ((s.fill piece).processBatch c).audOut i p = _
      by_cases hold : p < s.lenOut
      · rw [processBatch_audOut_of_lt hc (s.fill piece) i hold]
        exact h.audOut_append hc piece i hold
      · rw [processBatch_audOut hc hfilled i (Nat.not_lt.mp hold) hp]
        congr 1
        show batches * (c.iL * c.iBatchSize) + (p - s.lenOut) = _
        omega
  · rw [if_neg hfull]
    have hle : (s.fill piece).lenIn ≤ c.lenInTotal := hpiece
    exact ⟨batches, hfilled, h.history.trans (Nat.le_add_right _ _), by omega, h.lenOut,
      fun i p hp ↦ h.audOut_append hc piece i hp⟩

/-- **One call.** It gives the samples of the batches that it completes. -/
theorem process_inv (hc : c.Proper) (h : Inv c before x s batches) (wavIn : List (Sample cn R)) :
    ∃ batches', Inv c batches (x ++ wavIn) (s.process c wavIn) batches' := by
  have hbegin : Inv c batches x { s with lenOut := 0, audOut := fun _ _ ↦ 0 } batches :=
    ⟨h.carried, h.history, h.space, rfl, fun _ p hp ↦ absurd hp (Nat.not_lt_zero p)⟩
  exact windowLoop_inv (fun x s ↦ ∃ batches', Inv c batches x s batches')
    (fun _ _ h ↦ h.choose_spec.space) (fun _ _ _ h hpiece ↦ h.choose_spec.round hc hpiece)
    (Nat.le_succ _) ⟨batches, hbegin⟩

theorem create_inv (hc : c.Proper) : Inv c 0 ([] : List (Sample cn R)) (.create c) 0 where
  carried := by
    refine ⟨by simp [padded, ZRsMem.create], fun j hj ↦ ?_⟩
    have hlt : j < c.iQ - 1 := hj
    rw [padded, List.append_nil, Nat.zero_mul, Nat.zero_add, List.getElem?_replicate, if_pos hlt]
    rfl
  history := le_rfl
  space := by
    have hpos := Nat.mul_pos hc.iM hc.iBatchSize
    show c.iQ - 1 < c.lenInTotal
    rw [Config.lenInTotal]
    omega
  lenOut := rfl
  audOut := fun _ p hp ↦ absurd hp (Nat.not_lt_zero p)

/-! ## Whole streams -/

/-- The output of a call is a stretch of the resampled signal. -/
theorem Inv.wavOut_eq (hc : c.Proper) (h : Inv c before x s batches) (more : List (Sample cn R))
    (i : Fin cn) :
    s.wavOut i = (List.range' (before * (c.iL * c.iBatchSize)) s.lenOut).map
      (resampled c (x ++ more) i) := by
  rw [ZRsMem.wavOut, List.range'_eq_map_range, List.map_map]
  apply List.map_congr_left
  intro p hp
  exact h.audOut_append hc more i (List.mem_range.mp hp)

/-- The outputs of a sequence of calls follow each other. -/
theorem flatMap_wavOut (hc : c.Proper) (h : Inv c before x s batches)
    (calls : List (List (Sample cn R))) (i : Fin cn) :
    (s.states c calls).flatMap (fun s ↦ s.wavOut i) =
      (List.range' (batches * (c.iL * c.iBatchSize))
        ((x.length + calls.flatten.length) / (c.iM * c.iBatchSize) * (c.iL * c.iBatchSize) -
          batches * (c.iL * c.iBatchSize))).map (resampled c (x ++ calls.flatten) i) := by
  induction calls generalizing before x s batches with
  | nil =>
      rw [List.flatten_nil, List.length_nil, Nat.add_zero, ← h.batches_eq hc, Nat.sub_self]
      rfl
  | cons wavIn calls ih =>
      obtain ⟨batches', hnext⟩ := process_inv hc h wavIn
      have hlater := ih hnext
      have hlenOut := hnext.lenOut
      have hle : batches' * (c.iL * c.iBatchSize) ≤
          (x.length + (wavIn :: calls).flatten.length) / (c.iM * c.iBatchSize) *
            (c.iL * c.iBatchSize) := by
        apply Nat.mul_le_mul_right
        rw [hnext.batches_eq hc]
        apply Nat.div_le_div_right
        rw [List.length_append, List.flatten_cons, List.length_append]
        omega
      have hlength : (x ++ wavIn).length + calls.flatten.length =
          x.length + (wavIn :: calls).flatten.length := by
        rw [List.length_append, List.flatten_cons, List.length_append, Nat.add_assoc]
      have hstream : x ++ wavIn ++ calls.flatten = x ++ (wavIn :: calls).flatten := by
        rw [List.append_assoc, List.flatten_cons]
      rw [ZRsMem.states, List.flatMap_cons, hlater, hnext.wavOut_eq hc calls.flatten i, hlength,
        hstream, ← List.map_append, ← hlenOut, List.range'_append_1, hlenOut]
      congr 2
      omega

/-- The number of output samples of every call is a multiple of the output frame. -/
theorem dvd_lenOut (hc : c.Proper) (h : Inv c before x s batches)
    (calls : List (List (Sample cn R))) : ∀ s' ∈ s.states c calls, c.iFrmOut ∣ s'.lenOut := by
  induction calls generalizing before x s batches with
  | nil => simp [ZRsMem.states]
  | cons wavIn calls ih =>
      obtain ⟨batches', hnext⟩ := process_inv hc h wavIn
      intro s' hs'
      obtain rfl | hs' := List.mem_cons.mp hs'
      · have hlenOut := hnext.lenOut
        have hframes : ∀ n, c.iFrmOut ∣ n * (c.iL * c.iBatchSize) := fun n ↦ hc.frames.mul_left n
        exact (Nat.dvd_add_right (hframes batches)).mp (hlenOut ▸ hframes batches')
      · exact ih hnext s' hs'

end Vsys.Rs
