import Vsys.Rs.Stream

/-!
# The resampler behind a reset

`ZRsMem::Reset` clears the collected input and sets its length to `Q`, while the constructor sets
it to `Q - 1`: behind a reset the resampler is as if it had been given one sample, zero, before the
stream.  Its batches are complete one sample earlier, and every output sample is that of the stream
one sample later.

`stretches` is what the calls give, from the number of batches that are done at each time and the
signal; `states_create` and `states_reset` say that both objects give such outputs, and
`reset_iff` when they are the same.
-/

namespace Vsys.Rs

open Vsys.Stream

open scoped BigOperators

/-! ## The outputs of a sequence of calls -/

/-- The lengths of the stream at the ends of the calls. -/
def ends {α : Type*} : ℕ → List (List α) → List ℕ
  | _, [] => []
  | n, wavIn :: later => (n + wavIn.length) :: ends (n + wavIn.length) later

/-- The outputs of the calls of a signal `f`, with `count n` pieces of `size` samples done when the
stream has `n` samples: their length, and the samples of each channel. -/
def stretches {α R : Type*} {cn : ℕ} (size : ℕ) (count : ℕ → ℕ) (f : Fin cn → ℕ → R) :
    ℕ → List (List α) → List (ℕ × (Fin cn → List R))
  | _, [] => []
  | n, wavIn :: later =>
      (((count (n + wavIn.length) - count n) * size),
        fun i ↦ (List.range' (count n * size)
          ((count (n + wavIn.length) - count n) * size)).map (f i)) ::
        stretches size count f (n + wavIn.length) later

section Stretches

variable {α R : Type*} {cn size : ℕ} {count count' : ℕ → ℕ} {f f' : Fin cn → ℕ → R}

theorem range'_map_eq_iff {g g' : ℕ → R} {start len : ℕ} :
    (List.range' start len).map g = (List.range' start len).map g' ↔
      ∀ p, start ≤ p → p < start + len → g p = g' p := by
  rw [List.map_inj_left]
  constructor
  · intro h p hstart hend
    exact h p (List.mem_range'_1.mpr ⟨hstart, hend⟩)
  · intro h p hp
    obtain ⟨hstart, hend⟩ := List.mem_range'_1.mp hp
    exact h p hstart hend

/-- **When outputs are the same.** As many pieces are done at the end of every call, and the signals
have the same samples in them. -/
theorem stretches_eq_iff (hsize : 0 < size) (hcount : Monotone count) (hcount' : Monotone count')
    {n : ℕ} (hn : count n = count' n) (calls : List (List α)) :
    stretches size count f n calls = stretches size count' f' n calls ↔
      (∀ m ∈ ends n calls, count m = count' m) ∧
        ∀ i p, count n * size ≤ p → p < count (n + calls.flatten.length) * size →
          f i p = f' i p := by
  induction calls generalizing n with
  | nil =>
      simp only [stretches, ends, List.not_mem_nil, false_implies, implies_true, true_and,
        List.flatten_nil, List.length_nil, Nat.add_zero, true_iff]
      intro i p hle hlt
      exact absurd hle (Nat.not_le.mpr hlt)
  | cons wavIn calls ih =>
      have hle := Nat.mul_le_mul_right size (hcount (Nat.le_add_right n wavIn.length))
      have hle' : count' n ≤ count' (n + wavIn.length) := hcount' (Nat.le_add_right _ _)
      have hlater : count (n + wavIn.length) * size ≤
          count (n + (wavIn :: calls).flatten.length) * size := by
        apply Nat.mul_le_mul_right
        apply hcount
        rw [List.flatten_cons, List.length_append]
        omega
      have htotal : n + wavIn.length + calls.flatten.length =
          n + (wavIn :: calls).flatten.length := by
        rw [List.flatten_cons, List.length_append, Nat.add_assoc]
      have hend : count n * size + (count (n + wavIn.length) - count n) * size =
          count (n + wavIn.length) * size := by
        rw [Nat.sub_mul, Nat.add_sub_cancel' hle]
      rw [stretches, stretches, List.cons.injEq, Prod.mk.injEq, ends, List.forall_mem_cons]
      by_cases hm : count (n + wavIn.length) = count' (n + wavIn.length)
      · have hhead : (fun i : Fin cn ↦ (List.range' (count n * size)
            ((count (n + wavIn.length) - count n) * size)).map (f i)) =
            (fun i ↦ (List.range' (count n * size)
              ((count (n + wavIn.length) - count n) * size)).map (f' i)) ↔
            ∀ i p, count n * size ≤ p → p < count (n + wavIn.length) * size → f i p = f' i p := by
          rw [funext_iff]
          apply forall_congr'
          intro i
          rw [range'_map_eq_iff, hend]
        rw [← hn, ← hm, hhead, ih hm, htotal]
        constructor
        · rintro ⟨⟨-, hfirst⟩, hcounts, hrest⟩
          refine ⟨⟨rfl, hcounts⟩, fun i p hstart hlt ↦ ?_⟩
          rcases Nat.lt_or_ge p (count (n + wavIn.length) * size) with hp | hp
          · exact hfirst i p hstart hp
          · exact hrest i p hp hlt
        · rintro ⟨⟨-, hcounts⟩, h⟩
          exact ⟨⟨rfl, fun i p hstart hp ↦ h i p hstart (hp.trans_le hlater)⟩, hcounts,
            fun i p hstart hlt ↦ h i p (hle.trans hstart) hlt⟩
      · have hle := hcount (Nat.le_add_right n wavIn.length)
        refine iff_of_false (fun h ↦ hm ?_) fun h ↦ hm h.1.1
        have hlength := Nat.eq_of_mul_eq_mul_right hsize h.1.1
        omega

/-- Outputs at other lengths of the stream with the same numbers of pieces. -/
theorem stretches_add {d n : ℕ} (h : ∀ m, n ≤ m → count (m + d) = count' m)
    (calls : List (List α)) :
    stretches size count f (n + d) calls = stretches size count' f n calls := by
  induction calls generalizing n with
  | nil => rfl
  | cons wavIn calls ih =>
      have hnext : n + d + wavIn.length = n + wavIn.length + d := by omega
      rw [stretches, stretches, hnext, h n le_rfl, h _ (Nat.le_add_right n _),
        ih fun m hm ↦ h m ((Nat.le_add_right n _).trans hm)]

end Stretches

/-! ## Batches -/

variable {R : Type*} {cn : ℕ} {c : Config R}

/-- The batches that are done behind a reset. -/
def resetBatches (c : Config R) (n : ℕ) : ℕ := if n = 0 then 0 else (n + 1) / (c.iM * c.iBatchSize)

theorem resetBatches_eq_iff (c : Config R) (n : ℕ) :
    resetBatches c n = n / (c.iM * c.iBatchSize) ↔ n = 0 ∨ ¬c.iM * c.iBatchSize ∣ n + 1 := by
  rw [resetBatches]
  by_cases hn : n = 0
  · rw [if_pos hn, hn, Nat.zero_div]
    exact iff_of_true rfl (.inl rfl)
  · rw [if_neg hn, Nat.succ_div]
    split_ifs with hdvd
    · exact iff_of_false (by omega) (by simp [hn, hdvd])
    · exact iff_of_true (Nat.add_zero _) (.inr hdvd)

theorem resetBatches_mono (c : Config R) : Monotone (resetBatches c) := by
  intro m n h
  rw [resetBatches, resetBatches]
  split_ifs with hm hn
  · exact Nat.zero_le _
  · exact Nat.zero_le _
  · omega
  · exact Nat.div_le_div_right (by omega)

theorem fill_nil (s : ZRsMem cn R) : s.fill [] = s := by
  have hwrite : writeAt s.audIn s.lenIn [] = s.audIn := by
    funext j
    rw [writeAt, List.getD_nil, ite_self]
  rw [ZRsMem.fill, hwrite, List.length_nil, Nat.add_zero]

/-! ## A new object -/

variable [Semiring R]

/-- What a call has given: the number of samples, and the samples. -/
def ZRsMem.output (s : ZRsMem cn R) : ℕ × (Fin cn → List R) := (s.lenOut, s.wavOut)

variable {x : List (Sample cn R)} {s : ZRsMem cn R} {before batches : ℕ}

/-- The output of a call, when the stream goes on. -/
theorem Inv.output_eq (hc : c.Proper) (h : Inv c before x s batches) (more : List (Sample cn R)) :
    s.output = ((batches - before) * (c.iL * c.iBatchSize),
      fun i ↦ (List.range' (before * (c.iL * c.iBatchSize))
        ((batches - before) * (c.iL * c.iBatchSize))).map (resampled c (x ++ more) i)) := by
  have hlen : s.lenOut = (batches - before) * (c.iL * c.iBatchSize) := by
    have hlenOut := h.lenOut
    rw [Nat.sub_mul]
    omega
  rw [ZRsMem.output, ← hlen]
  congr 1
  funext i
  exact h.wavOut_eq hc more i

theorem map_output (hc : c.Proper) (h : Inv c before x s batches)
    (calls : List (List (Sample cn R))) :
    (s.states c calls).map ZRsMem.output =
      stretches (c.iL * c.iBatchSize) (· / (c.iM * c.iBatchSize))
        (resampled c (x ++ calls.flatten)) x.length calls := by
  induction calls generalizing before x s batches with
  | nil => rfl
  | cons wavIn calls ih =>
      obtain ⟨batches', hnext⟩ := process_inv hc h wavIn
      have hstream : x ++ (wavIn :: calls).flatten = x ++ wavIn ++ calls.flatten := by
        rw [List.flatten_cons, List.append_assoc]
      have hlength : (x ++ wavIn).length = x.length + wavIn.length := List.length_append
      rw [ZRsMem.states, List.map_cons, stretches, ih hnext, hnext.output_eq hc calls.flatten,
        hnext.batches_eq hc, h.batches_eq hc, hstream, hlength]

/-! ## A reset object -/

/-- What a reset object is in front of its first sample. -/
structure Cleared (c : Config R) (s : ZRsMem cn R) : Prop where
  audIn : s.audIn = fun _ ↦ 0
  lenIn : s.lenIn = c.iQ

theorem reset_cleared (c : Config R) (s : ZRsMem cn R) : Cleared c (s.reset c) := ⟨rfl, rfl⟩

/-- The zero of the reset is a sample: with a batch of one sample the buffer is already full. -/
theorem Cleared.inv (hc : c.Proper) (h : Cleared c s) (hlenOut : s.lenOut = 0) :
    ∃ batches, Inv c 0 ([0] : List (Sample cn R))
      (if s.lenIn = c.lenInTotal then s.full c else s) batches := by
  have hQ := hc.iQ
  have hpos := Nat.mul_pos hc.iM hc.iBatchSize
  have hfill : ({ s with lenIn := c.iQ - 1 } : ZRsMem cn R).fill [0] = s := by
    have hwrite : writeAt s.audIn (c.iQ - 1) [0] = s.audIn := by
      funext j
      rw [writeAt, h.audIn]
      split_ifs
      · cases j - (c.iQ - 1) <;> rfl
      · rfl
    have hlenIn : c.iQ - 1 + 1 = s.lenIn := by
      rw [h.lenIn]
      omega
    rw [ZRsMem.fill]
    dsimp only
    rw [hwrite, List.length_singleton, hlenIn]
  have hempty : Inv c 0 ([] : List (Sample cn R)) { s with lenIn := c.iQ - 1 } 0 := by
    refine ⟨⟨by simp [padded], fun j hj ↦ ?_⟩, le_rfl, ?_, ?_, ?_⟩
    · have hlt : j < c.iQ - 1 := hj
      rw [padded, List.append_nil, Nat.zero_mul, Nat.zero_add, List.getElem?_replicate, if_pos hlt]
      dsimp only
      rw [h.audIn]
    · show c.iQ - 1 < c.lenInTotal
      rw [Config.lenInTotal]
      omega
    · show 0 * _ + s.lenOut = 0 * _
      rw [hlenOut, Nat.add_zero]
    · intro i p hp
      have hlt : p < s.lenOut := hp
      omega
  have hround := hempty.round hc (by
    show c.iQ - 1 + 1 ≤ c.lenInTotal
    rw [Config.lenInTotal]
    omega : ({ s with lenIn := c.iQ - 1 } : ZRsMem cn R).lenIn + [(0 : Sample cn R)].length ≤ _)
  rwa [hfill] at hround

/-- The first call with samples. -/
theorem Cleared.process_inv (hc : c.Proper) (h : Cleared c s) {wavIn : List (Sample cn R)}
    (hne : wavIn ≠ []) : ∃ batches, Inv c 0 (0 :: wavIn) (s.process c wavIn) batches := by
  have hbegin : Cleared c { s with lenOut := 0, audOut := fun _ _ ↦ 0 } := ⟨h.audIn, h.lenIn⟩
  have hround := hbegin.inv hc rfl
  rw [ZRsMem.process]
  generalize ({ s with lenOut := 0, audOut := fun _ _ ↦ 0 } : ZRsMem cn R) = s at hbegin hround
  have hrest {rounds : ℕ} (hrounds : wavIn.length ≤ rounds) {s : ZRsMem cn R}
      (hs : ∃ batches, Inv c 0 [0] s batches) : ∃ batches, Inv c 0 (0 :: wavIn)
        (windowLoop c.lenInTotal ZRsMem.lenIn ZRsMem.fill (ZRsMem.full c) rounds wavIn s) batches :=
    windowLoop_inv (fun x s ↦ ∃ batches, Inv c 0 x s batches) (fun _ _ h ↦ h.choose_spec.space)
      (fun _ _ _ h hpiece ↦ h.choose_spec.round hc hpiece) hrounds hs
  by_cases hfull : s.lenIn = c.lenInTotal
  · rw [if_pos hfull] at hround
    rw [windowLoop, if_neg hne, hfull, Nat.sub_self]
    dsimp only
    rw [List.take_zero, List.length_nil, List.drop_zero, fill_nil, if_pos hfull]
    exact hrest le_rfl hround
  · rw [if_neg hfull] at hround
    exact hrest (Nat.le_succ _) hround

/-- A call without samples. -/
theorem Cleared.process_nil (h : Cleared c s) :
    Cleared c (s.process c []) ∧ (s.process c []).output = (0, fun _ ↦ []) := by
  rw [ZRsMem.process, windowLoop_nil]
  exact ⟨⟨h.audIn, h.lenIn⟩, rfl⟩

theorem map_output_cleared (hc : c.Proper) (h : Cleared c s) (calls : List (List (Sample cn R))) :
    (s.states c calls).map ZRsMem.output =
      stretches (c.iL * c.iBatchSize) (resetBatches c) (resampled c (0 :: calls.flatten)) 0
        calls := by
  induction calls generalizing s with
  | nil => rfl
  | cons wavIn calls ih =>
      by_cases hne : wavIn = []
      · subst hne
        obtain ⟨hnext, houtput⟩ := h.process_nil
        rw [ZRsMem.states, List.map_cons, stretches, ih hnext, houtput, List.length_nil,
          Nat.add_zero, Nat.sub_self, Nat.zero_mul, List.flatten_cons, List.nil_append]
        rfl
      · obtain ⟨batches, hnext⟩ := h.process_inv hc hne
        have hpos := List.length_pos_of_ne_nil hne
        have hbatches : resetBatches c (0 + wavIn.length) = batches := by
          rw [resetBatches, Nat.zero_add, if_neg hpos.ne', hnext.batches_eq hc, List.length_cons]
        have hzero : resetBatches c 0 = 0 := if_pos rfl
        have hlater := @stretches_add (Sample cn R) R cn (c.iL * c.iBatchSize)
          (· / (c.iM * c.iBatchSize)) (resetBatches c)
          (resampled c (0 :: wavIn ++ calls.flatten)) 1 (0 + wavIn.length) (by
            intro m hm
            rw [resetBatches, if_neg (by omega)]) calls
        rw [ZRsMem.states, List.map_cons, stretches, hbatches, hzero, hnext.output_eq hc calls.flatten,
          map_output hc hnext, List.flatten_cons, ← List.cons_append, ← hlater, Nat.zero_add,
          List.length_cons]

/-! ## The same outputs -/

/-- The signal behind a reset is that of one sample later. -/
theorem past_cons (x : List (Sample cn R)) (i : Fin cn) (p k : ℕ) :
    past (0 :: x) i p k = past x i p (k + 1) := by
  rw [past, past]
  rcases Nat.lt_trichotomy p k with hlt | rfl | hlt
  · rw [if_neg (by omega), if_neg (by omega)]
  · rw [if_pos le_rfl, if_neg (by omega), Nat.sub_self]
    rfl
  · obtain ⟨d, rfl⟩ : ∃ d, p = k + 1 + d := ⟨p - (k + 1), by omega⟩
    have hindex : k + 1 + d - k = d + 1 := by omega
    rw [if_pos (by omega), if_pos (by omega), hindex, Nat.add_sub_cancel_left, List.getD_cons_succ]

/-- Behind a reset the calls give what they give to a new object. -/
structure Unnoticed (c : Config R) (calls : List (List (Sample cn R))) : Prop where
  /-- No call ends one sample in front of the end of a batch. -/
  batches : ∀ n ∈ ends 0 calls, n = 0 ∨ ¬c.iM * c.iBatchSize ∣ n + 1
  /-- The filter does not see the difference of a sample in the batches that are complete. -/
  signal : ∀ (i : Fin cn), ∀ p < calls.flatten.length / (c.iM * c.iBatchSize) *
      (c.iL * c.iBatchSize),
    ∑ k ∈ Finset.range c.iQ, c.g (p % c.iL) k * past calls.flatten i (p * c.iM / c.iL) (k + 1) =
      ∑ k ∈ Finset.range c.iQ, c.g (p % c.iL) k * past calls.flatten i (p * c.iM / c.iL) k

theorem outputs_eq_iff (hc : c.Proper) {reset new : ZRsMem cn R} (hreset : Cleared c reset)
    (hnew : Inv c before ([] : List (Sample cn R)) new batches)
    (calls : List (List (Sample cn R))) :
    (reset.states c calls).map ZRsMem.output = (new.states c calls).map ZRsMem.output ↔
      Unnoticed c calls := by
  have hsize : 0 < c.iL * c.iBatchSize := Nat.mul_pos hc.iL hc.iBatchSize
  have hdiv : Monotone (· / (c.iM * c.iBatchSize)) := fun _ _ h ↦ Nat.div_le_div_right h
  have hzero : resetBatches c 0 = 0 / (c.iM * c.iBatchSize) := (resetBatches_eq_iff c 0).mpr (.inl rfl)
  rw [map_output_cleared hc hreset, map_output hc hnew, List.length_nil, List.nil_append, eq_comm,
    stretches_eq_iff hsize hdiv (resetBatches_mono c) hzero.symm]
  have hsignal (i : Fin cn) (p : ℕ) : resampled c calls.flatten i p =
      resampled c (0 :: calls.flatten) i p ↔
      ∑ k ∈ Finset.range c.iQ, c.g (p % c.iL) k * past calls.flatten i (p * c.iM / c.iL) (k + 1) =
        ∑ k ∈ Finset.range c.iQ, c.g (p % c.iL) k * past calls.flatten i (p * c.iM / c.iL) k := by
    rw [resampled, resampled, eq_comm]
    simp only [past_cons]
  have hbatches (n : ℕ) : n / (c.iM * c.iBatchSize) = resetBatches c n ↔
      n = 0 ∨ ¬c.iM * c.iBatchSize ∣ n + 1 := eq_comm.trans (resetBatches_eq_iff c n)
  simp only [hsignal, hbatches, Nat.zero_div, Nat.zero_mul, Nat.zero_le, true_implies, Nat.zero_add]
  constructor
  · rintro ⟨hcounts, hvalues⟩
    exact ⟨hcounts, hvalues⟩
  · intro h
    exact ⟨h.batches, h.signal⟩

/-- **Reset and construction.** For all rates, channels and output frames, and every sequence of calls
in front of the reset: the calls behind it give, call by call, what they give to a new object exactly
if no call ends one sample in front of the end of a batch and the filter gives the same for the
stream and the stream one sample later. -/
theorem reset_iff (design : ℕ → ℕ → TvFlt R) {iSrIn iSrOut iFrmOut : ℕ}
    (hin : 0 < iSrIn) (hout : 0 < iSrOut) (hfrm : 0 < iFrmOut)
    (earlier calls : List (List (Sample cn R))) :
    let c := Config.create design cn iSrIn iSrOut iFrmOut
    let used := earlier.foldl (ZRsMem.process c) (ZRsMem.create c : ZRsMem cn R)
    ((used.reset c).states c calls).map ZRsMem.output =
        ((ZRsMem.create c : ZRsMem cn R).states c calls).map ZRsMem.output ↔
      Unnoticed c calls := by
  intro c used
  have hc : c.Proper := create_proper design cn hin hout hfrm
  exact outputs_eq_iff hc (reset_cleared c used) (create_inv hc) calls

/-- Two taps, from 8 kHz to 32 kHz, two samples: no batch is complete. -/
theorem reset_iff_small :
    let c : Config ℕ := Config.create (fun _ _ ↦ ⟨2, Nat.two_pos, fun r k ↦ r + k⟩) 1 8000 32000 4
    let used := [[fun _ ↦ 5]].foldl (ZRsMem.process c) (ZRsMem.create c : ZRsMem 1 ℕ)
    ((used.reset c).states c [[fun _ ↦ 1, fun _ ↦ 2]]).map ZRsMem.output =
      ((ZRsMem.create c : ZRsMem 1 ℕ).states c [[fun _ ↦ 1, fun _ ↦ 2]]).map ZRsMem.output := by
  have hhop : (Config.create (fun _ _ ↦ ⟨2, Nat.two_pos, fun r k ↦ r + k⟩ : ℕ → ℕ → TvFlt ℕ)
      1 8000 32000 4).iM * (Config.create (fun _ _ ↦ ⟨2, Nat.two_pos, fun r k ↦ r + k⟩ :
        ℕ → ℕ → TvFlt ℕ) 1 8000 32000 4).iBatchSize = 4 := by decide +kernel
  refine (reset_iff (fun _ _ ↦ ⟨2, Nat.two_pos, fun r k ↦ r + k⟩) (by decide) (by decide)
    (by decide) [[fun _ ↦ 5]] [[fun _ ↦ 1, fun _ ↦ 2]]).mpr ⟨?_, ?_⟩
  · rw [hhop]
    decide
  · rw [hhop]
    intro i p hp
    exact absurd ((Nat.zero_mul _).symm ▸ hp) (Nat.not_lt_zero p)

/-- With one sample more the reset object has a batch complete and the new one has not. -/
theorem not_reset :
    ¬∀ (design : ℕ → ℕ → TvFlt ℕ) (iSrIn iSrOut iFrmOut : ℕ), 0 < iSrIn → 0 < iSrOut → 0 < iFrmOut →
      ∀ earlier calls : List (List (Sample 1 ℕ)),
        let c := Config.create design 1 iSrIn iSrOut iFrmOut
        let used := earlier.foldl (ZRsMem.process c) (ZRsMem.create c : ZRsMem 1 ℕ)
        ((used.reset c).states c calls).map ZRsMem.output =
          ((ZRsMem.create c : ZRsMem 1 ℕ).states c calls).map ZRsMem.output := by
  intro h
  have hc := @create_proper ℕ (fun _ _ ↦ ⟨2, Nat.two_pos, fun r k ↦ r + k⟩) 1 8000 32000 4
    (by decide) (by decide) (by decide)
  have hunnoticed := (outputs_eq_iff hc (reset_cleared _ _) (create_inv hc)
    [[fun _ ↦ 1, fun _ ↦ 2, fun _ ↦ 3]]).mp
      (h (fun _ _ ↦ ⟨2, Nat.two_pos, fun r k ↦ r + k⟩) 8000 32000 4 (by decide) (by decide)
        (by decide) [] [[fun _ ↦ 1, fun _ ↦ 2, fun _ ↦ 3]])
  have hbatches := hunnoticed.batches
  revert hbatches
  decide +kernel

end Vsys.Rs
