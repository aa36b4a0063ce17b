import Vsys.Felib.Lpc
import Vsys.Num.Numerals
import Vsys.Trace.Run

/-!
# Stationarity

`get_similarity` compares the window before and the current one by the error that the predictors of
the current window have on the one before.  That error is the least for its own predictors, so the
distance is one or more.  The analyses of the last windows are kept, and the one of the window
before is taken from there.
-/

namespace Vsys.Felib

open Vsys.Num

attribute [local instance] atLeastTwo_two atLeastTwo_five atLeastTwo_eight atLeastTwo_ten
  atLeastTwo_thousand

variable {K : Type*} [Field K]

/-! ## The distance -/

/-- `xa_to_aca`: twice the lags of the predictors, and their energy. -/
def xaToAca (a : ℕ → K) (p : ℕ) : (ℕ → K) × K :=
  (fun i ↦ 2 * (List.range (p - (i + 1))).foldl (fun s j ↦ s + a j * a (i + 1 + j)) (a i),
    (List.range p).foldl (fun s j ↦ s + a j * a j) 1)

/-- `xitakura`. -/
def xitakura (p : ℕ) (b : ℕ → K) (c : K) (r : ℕ → K) (gain : K) : K :=
  (List.range p).foldl (fun s j ↦ s + r j * b j) c / gain

theorem foldl_range_add_from (f : ℕ → K) (first : K) (n : ℕ) :
    (List.range n).foldl (fun sum i ↦ sum + f i) first = first + ∑ i ∈ Finset.range n, f i := by
  induction n with
  | zero => exact (add_zero first).symm
  | succ n ih =>
      rw [List.range_succ, List.foldl_append, ih, Finset.sum_range_succ, ← add_assoc]
      rfl

section Distance

variable {a r : ℕ → K} {p : ℕ}

/-- The lags of a vector that starts with one. -/
theorem xaToAca_lag (ha : a 0 = 1) {i : ℕ} (hi : i < p) :
    (xaToAca (fun j ↦ a (j + 1)) p).1 i =
      2 * ∑ j ∈ Finset.range (p - i), a j * a (j + (i + 1)) := by
  have hsub : p - i = p - (i + 1) + 1 := by omega
  rw [xaToAca]
  dsimp only
  rw [foldl_range_add_from, hsub, Finset.sum_range_succ', ha, one_mul, Nat.zero_add, add_comm]
  apply congrArg (2 * ·)
  apply congrArg (· + a (i + 1))
  apply Finset.sum_congr rfl
  intro j _
  have hindex : i + 1 + j + 1 = j + 1 + (i + 1) := by omega
  rw [hindex]

theorem xaToAca_energy (ha : a 0 = 1) :
    (xaToAca (fun j ↦ a (j + 1)) p).2 = ∑ j ∈ Finset.range (p + 1), a j ^ 2 := by
  rw [xaToAca, foldl_range_add_from, Finset.sum_range_succ', ha, one_pow, add_comm]
  apply congrArg (· + (1 : K))
  apply Finset.sum_congr rfl
  intro j _
  exact (sq _).symm

/-- **`xitakura`** is the form of one window on the predictors of the other, over the gain. -/
theorem xitakura_eq (ha : a 0 = 1) (hr : r 0 = 1) (gain : K) :
    xitakura p (xaToAca (fun j ↦ a (j + 1)) p).1 (xaToAca (fun j ↦ a (j + 1)) p).2
      (fun j ↦ r (j + 1)) gain = toeplitzForm r a a p / gain := by
  rw [xitakura, foldl_range_add_from, xaToAca_energy ha, toeplitzForm_eq_lags, hr, one_mul,
    Finset.mul_sum]
  apply congrArg (· / gain)
  apply congrArg (∑ j ∈ Finset.range (p + 1), a j ^ 2 + ·)
  apply Finset.sum_congr rfl
  intro i hi
  rw [xaToAca_lag ha (Finset.mem_range.mp hi)]
  ring

end Distance

section Order

variable [LinearOrder K]

/-- The distance of two analyses, as `get_similarity` calls `xitakura`. -/
def itakura (order : ℕ) (l : Lpc K) (rho : ℕ → K) (err : K) : K :=
  let aca := xaToAca (fun j ↦ l.a (j + 1)) order
  xitakura order aca.1 aca.2 (fun j ↦ rho (j + 1)) err

theorem one_le_itakura [IsStrictOrderedRing K] {order : ℕ} {l prev : Lpc K}
    (hl : l.Predicts order) (hprev : prev.Predicts order) :
    1 ≤ itakura order l prev.rho prev.normerr ∧
      (itakura order l prev.rho prev.normerr = 1 ↔ ∀ j ≤ order, l.a j = prev.a j) := by
  have hgain := hprev.normal.pos hprev.positive
  obtain ⟨hleast, hsame⟩ := hprev.normal.least hprev.positive hl.normal.lead
  have hform : itakura order l prev.rho prev.normerr =
      toeplitzForm prev.rho l.a l.a order / prev.normerr :=
    xitakura_eq hl.normal.lead hprev.rho_zero prev.normerr
  rw [hform, one_le_div hgain, div_eq_one_iff_eq hgain.ne']
  exact ⟨hleast, hsame⟩

/-- **Values returned by `xitakura` are one or more**, and one only for the same predictors. -/
theorem xitakura_ge_one [IsStrictOrderedRing K] (m : Libm K) {order wsize : ℕ}
    (h : 0 < order ∧ order ≤ bigsord ∧ order ≤ wsize) (lpcStabl preemp : K)
    (pdata cdata : ℕ → K) (type : WindowType) :
    ∃ prev l, xlpc m order lpcStabl wsize pdata preemp type = some prev ∧
      xlpc m order lpcStabl wsize cdata preemp type = some l ∧
      1 ≤ xitakura order (xaToAca (fun j ↦ l.a (j + 1)) order).1
        (xaToAca (fun j ↦ l.a (j + 1)) order).2 (fun j ↦ prev.rho (j + 1)) prev.normerr ∧
      (xitakura order (xaToAca (fun j ↦ l.a (j + 1)) order).1
        (xaToAca (fun j ↦ l.a (j + 1)) order).2 (fun j ↦ prev.rho (j + 1)) prev.normerr = 1 ↔
          ∀ j ≤ order, l.a j = prev.a j) := by
  obtain ⟨prev, hprev, hpredicts⟩ := xlpc_isSome m lpcStabl preemp pdata type h
  obtain ⟨l, hl, hpredicts'⟩ := xlpc_isSome m lpcStabl preemp cdata type h
  exact ⟨prev, l, hprev, hl, one_le_itakura hpredicts' hpredicts⟩

theorem xitakura_ge_one_three :
    ∃ prev l, xlpc realLibm 2 30 3 (fun i ↦ (i : ℝ)) (2 / 5) .hanning = some prev ∧
      xlpc realLibm 2 30 3 (fun i ↦ (i : ℝ) ^ 2) (2 / 5) .hanning = some l ∧
      1 ≤ xitakura 2 (xaToAca (fun j ↦ l.a (j + 1)) 2).1 (xaToAca (fun j ↦ l.a (j + 1)) 2).2
        (fun j ↦ prev.rho (j + 1)) prev.normerr := by
  obtain ⟨prev, l, hprev, hl, hone, -⟩ := xitakura_ge_one realLibm
    (by decide : 0 < 2 ∧ 2 ≤ bigsord ∧ 2 ≤ 3) 30 (2 / 5) (fun i ↦ (i : ℝ)) (fun i ↦ (i : ℝ) ^ 2)
    .hanning
  exact ⟨prev, l, hprev, hl, hone⟩

/-! ## Similarity -/

/-- `Windstat`: what is kept of the analysis of a window. -/
structure Windstat (K : Type*) where
  rho : ℕ → K
  err : K
  rms : K

/-- `save_windstat`: the oldest one is pushed out. -/
def saveWindstat (windstat : List (Windstat K)) (stat : Windstat K) : List (Windstat K) :=
  if windstat = [] then [] else windstat.tail ++ [stat]

/-- `retrieve_windstat`. -/
def retrieveWindstat (windstat : List (Windstat K)) : Option (Windstat K) := windstat.head?

/-- The fixed arguments of `get_similarity`. -/
structure Windows (K : Type*) where
  order : ℕ
  size : ℕ
  pre : K
  stab : K
  wType : WindowType

/-- `wind_energy`. -/
def windEnergy (m : Libm K) (data : ℕ → K) (size : ℕ) (wType : WindowType) : K :=
  let dwind := window m (fun _ ↦ 1) size 0 wType
  m.sqrt ((List.range size).foldl
    (fun sum i ↦ sum + (dwind i * data i) * (dwind i * data i)) 0 / size)

/-- A call: the window before and the current one. -/
structure WindowPair (K : Type*) where
  pdata : ℕ → K
  cdata : ℕ → K
  init : Bool

/-- What `get_similarity` returns. -/
structure Similarity (K : Type*) where
  rmsa : K
  rmsRatio : K
  sim : K

variable (m : Libm K) (w : Windows K)

/-- The analysis of a window; the preemphasis needs one more sample. -/
def analyse (data : ℕ → K) : Option (Lpc K) :=
  xlpc m w.order w.stab (w.size - 1) data w.pre w.wType

/-- What is kept of an analysis. -/
def windstatOf (data : ℕ → K) (l : Lpc K) : Windstat K where
  rho := l.rho
  err := l.normerr
  rms := windEnergy m data w.size w.wType

/-- The comparison with the window before. -/
def compareWindows (prev : Windstat K) (cur : Lpc K) (rms3 : K) : Similarity K where
  rmsa := rms3
  rmsRatio := if 0 < prev.rms then (1 / 1000 + rms3) / prev.rms else if 0 < rms3 then 2 else 1
  sim := 2 / 10 / (itakura w.order cur prev.rho prev.err - 8 / 10)

/-- `get_similarity`, and what it leaves in `windstat`. -/
def getSimilarity (windstat : List (Windstat K)) (call : WindowPair K) :
    Option (Similarity K × List (Windstat K)) :=
  match analyse m w call.cdata with
  | none => none
  | some cur =>
      let stat := windstatOf m w call.cdata cur
      if call.init then
        some ({ rmsa := stat.rms, rmsRatio := 1, sim := 2 / 10 / 10 }, saveWindstat windstat stat)
      else
        match (retrieveWindstat windstat).or
            ((analyse m w call.pdata).map (windstatOf m w call.pdata)) with
        | none => none
        | some prev => some (compareWindows w prev cur stat.rms, saveWindstat windstat stat)

/-- The results of calls. -/
def getSimilarities : List (Windstat K) → List (WindowPair K) → Option (List (Similarity K))
  | _, [] => some []
  | windstat, call :: calls =>
      match getSimilarity m w windstat call with
      | none => none
      | some (result, windstat) => (getSimilarities windstat calls).map (result :: ·)

/-! ## What is kept -/

/-- What is kept of a window. -/
def statOf (data : ℕ → K) : Windstat K :=
  match analyse m w data with
  | some l => windstatOf m w data l
  | none => { rho := fun _ ↦ 0, err := 0, rms := 0 }

/-- What is kept after calls: the last analyses, as many as there were at the beginning. -/
def kept (windstat : List (Windstat K)) (first : List (WindowPair K)) : List (Windstat K) :=
  (windstat ++ first.map fun call ↦ statOf m w call.cdata).drop first.length

/-- The window that a call compares with. -/
def windowBefore (reuse : ℕ) (first : List (WindowPair K)) (call : WindowPair K) : ℕ → K :=
  if reuse = 0 then call.pdata
  else
    match first[first.length - reuse]? with
    | some before => before.cdata
    | none => call.pdata

theorem saveWindstat_kept (windstat : List (Windstat K)) (first : List (WindowPair K))
    (call : WindowPair K) :
    saveWindstat (kept m w windstat first) (statOf m w call.cdata) =
      kept m w windstat (first ++ [call]) := by
  have hlength : (kept m w windstat first).length = windstat.length := by
    rw [kept, List.length_drop, List.length_append, List.length_map, Nat.add_sub_cancel]
  rw [saveWindstat]
  by_cases hnone : windstat = []
  · have hempty : kept m w windstat first = [] := by
      rw [← List.length_eq_zero_iff, hlength, hnone]
      rfl
    rw [if_pos hempty, hnone, kept, List.nil_append]
    exact (List.drop_of_length_le (by rw [List.length_map])).symm
  · have hpos := List.length_pos_of_ne_nil hnone
    have hne : kept m w windstat first ≠ [] := by
      rw [← List.length_pos_iff, hlength]
      exact hpos
    have hle : first.length + 1 ≤
        (windstat ++ first.map fun call ↦ statOf m w call.cdata).length := by
      rw [List.length_append, List.length_map]
      omega
    have hcount : (first ++ [call]).length = first.length + 1 := List.length_append
    rw [if_neg hne, kept, kept, List.tail_drop, List.map_append, ← List.append_assoc, hcount]
    exact (List.drop_append_of_le_length hle).symm

/-- What a call finds when enough windows have been kept. -/
theorem head?_kept {windstat : List (Windstat K)} {first : List (WindowPair K)}
    (hfirst : windstat.length ≤ first.length) (call : WindowPair K) :
    (kept m w windstat first).head? =
      if windstat.length = 0 then none
      else some (statOf m w (windowBefore windstat.length first call)) := by
  rw [kept, List.head?_drop, List.getElem?_append_right hfirst, List.getElem?_map, windowBefore]
  split_ifs with hzero
  · rw [hzero, Nat.sub_zero, List.getElem?_eq_none (Nat.le_refl _)]
    rfl
  · have hlt : first.length - windstat.length < first.length := by omega
    rw [List.getElem?_eq_getElem hlt]
    rfl

/-! ## Runs -/

section Runs

variable [IsStrictOrderedRing K] {m : Libm K} {w : Windows K}

/-- The windows are long enough to be analysed. -/
structure Windows.Legal (w : Windows K) : Prop where
  order_pos : 0 < w.order
  order_le : w.order ≤ bigsord
  order_le_size : w.order ≤ w.size - 1

theorem Windows.Legal.analyse (h : w.Legal) (data : ℕ → K) :
    ∃ l, analyse m w data = some l ∧ l.Predicts w.order ∧
      statOf m w data = windstatOf m w data l := by
  obtain ⟨l, hl, hpredicts⟩ := xlpc_isSome m w.stab w.pre data w.wType
    ⟨h.order_pos, h.order_le, h.order_le_size⟩
  refine ⟨l, hl, hpredicts, ?_⟩
  rw [statOf, Felib.analyse, hl]

/-- The similarity is positive and at most one. -/
theorem Windows.Legal.compareWindows (h : w.Legal) (before : ℕ → K) {cur : Lpc K}
    (hcur : cur.Predicts w.order) (rms3 : K) :
    0 < (compareWindows w (statOf m w before) cur rms3).sim ∧
      (compareWindows w (statOf m w before) cur rms3).sim ≤ 1 := by
  obtain ⟨prev, -, hprev, hstat⟩ := h.analyse (m := m) before
  have hone := (one_le_itakura hcur hprev).1
  have hsim : (Felib.compareWindows w (statOf m w before) cur rms3).sim =
      2 / 10 / (itakura w.order cur prev.rho prev.normerr - 8 / 10) := by
    rw [hstat]
    rfl
  have hpos : 0 < itakura w.order cur prev.rho prev.normerr - 8 / 10 := by linarith
  rw [hsim, div_le_one hpos]
  exact ⟨div_pos (by norm_num) hpos, by linarith⟩

/-- A call after others, of which the first ones have filled what is kept. -/
theorem getSimilarity_kept (h : w.Legal) (windstat : List (Windstat K))
    (first : List (WindowPair K)) (call : WindowPair K)
    (hfirst : call.init = false → windstat.length ≤ first.length) :
    ∃ result, getSimilarity m w (kept m w windstat first) call =
        some (result, kept m w windstat (first ++ [call])) ∧
      0 < result.sim ∧ result.sim ≤ 1 ∧
      (call.init = false →
        getSimilarity m w [] { call with pdata := windowBefore windstat.length first call } =
          some (result, [])) := by
  obtain ⟨cur, hcur, hpredicts, hstat⟩ := h.analyse (m := m) call.cdata
  have hsave := saveWindstat_kept m w windstat first call
  rw [hstat] at hsave
  cases hinit : call.init with
  | true =>
      refine ⟨{ rmsa := (windstatOf m w call.cdata cur).rms, rmsRatio := 1, sim := 2 / 10 / 10 },
        ?_, ?_, ?_, fun hfalse ↦ Bool.noConfusion hfalse⟩
      · rw [getSimilarity, hcur]
        simp only [hinit, if_true, hsave]
      · norm_num
      · norm_num
  | false =>
      obtain ⟨prev, hprev, -, hstat'⟩ :=
        h.analyse (m := m) (windowBefore windstat.length first call)
      obtain ⟨hpos, hle⟩ := h.compareWindows (m := m) (windowBefore windstat.length first call)
        hpredicts (windstatOf m w call.cdata cur).rms
      refine ⟨compareWindows w (statOf m w (windowBefore windstat.length first call)) cur
        (windstatOf m w call.cdata cur).rms, ?_, hpos, hle, fun _ ↦ ?_⟩
      · have hfound : (retrieveWindstat (kept m w windstat first)).or
            ((analyse m w call.pdata).map (windstatOf m w call.pdata)) =
              some (statOf m w (windowBefore windstat.length first call)) := by
          rw [retrieveWindstat, head?_kept m w (hfirst hinit) call]
          split_ifs with hzero
          · have hpdata : windowBefore windstat.length first call = call.pdata := if_pos hzero
            rw [hpdata] at hprev hstat' ⊢
            rw [hprev, hstat']
            rfl
          · rfl
        rw [getSimilarity, hcur]
        simp only [hinit, hfound, hsave, Bool.false_eq_true, if_false]
      · rw [getSimilarity, hcur]
        simp only [retrieveWindstat, List.head?_nil, Option.none_or, hprev, Option.map_some,
          hstat', saveWindstat, Bool.false_eq_true, if_false, if_true]

theorem getSimilarities_kept (h : w.Legal) (windstat : List (Windstat K))
    (later first : List (WindowPair K))
    (hinit : ∀ i call, (first ++ later)[i]? = some call → call.init = false →
      windstat.length ≤ i) :
    ∃ results, getSimilarities m w (kept m w windstat first) later = some results ∧
      results.length = later.length ∧
      ∀ between call rest, later = between ++ call :: rest →
        ∃ result, results[between.length]? = some result ∧ 0 < result.sim ∧ result.sim ≤ 1 ∧
          (call.init = false →
            getSimilarity m w []
              { call with pdata := windowBefore windstat.length (first ++ between) call } =
                some (result, [])) := by
  induction later generalizing first with
  | nil =>
      refine ⟨[], rfl, rfl, fun between call rest hsplit ↦ ?_⟩
      exact absurd hsplit (List.append_ne_nil_of_right_ne_nil between (List.cons_ne_nil _ _)).symm
  | cons next later ih =>
      have hnext : next.init = false → windstat.length ≤ first.length := fun hfalse ↦
        hinit first.length next (by simp) hfalse
      obtain ⟨result, hstep, hpos, hle, hplain⟩ :=
        getSimilarity_kept (m := m) h windstat first next hnext
      have hassoc : first ++ [next] ++ later = first ++ next :: later := List.append_assoc ..
      obtain ⟨results, hrun, hlength, hresults⟩ := ih (first ++ [next]) (by rwa [hassoc])
      refine ⟨result :: results, ?_, congrArg (· + 1) hlength, fun between call rest hsplit ↦ ?_⟩
      · rw [getSimilarities, hstep]
        simp only [hrun, Option.map_some]
      · cases between with
        | nil =>
            obtain ⟨rfl, rfl⟩ := List.cons.inj hsplit
            refine ⟨result, rfl, hpos, hle, fun hfalse ↦ ?_⟩
            rw [List.append_nil]
            exact hplain hfalse
        | cons head between =>
            obtain ⟨rfl, hrest⟩ := List.cons.inj hsplit
            obtain ⟨result', hmem, hpos', hle', hplain'⟩ := hresults between call rest hrest
            refine ⟨result', hmem, hpos', hle', fun hfalse ↦ ?_⟩
            rw [List.append_cons]
            exact hplain' hfalse

/-- **`get_similarity`.** In every run whose calls compare only when enough windows have been kept,
each similarity is positive and at most one, and it is the one that a fresh analysis of the window
before gives, which is the window of the call as many calls earlier as windows are kept. -/
theorem getSimilarities_run (h : w.Legal) (windstat : List (Windstat K))
    (calls : List (WindowPair K))
    (hinit : ∀ i call, calls[i]? = some call → call.init = false → windstat.length ≤ i) :
    ∃ results, getSimilarities m w windstat calls = some results ∧
      results.length = calls.length ∧
      ∀ first call later, calls = first ++ call :: later →
        ∃ result, results[first.length]? = some result ∧ 0 < result.sim ∧ result.sim ≤ 1 ∧
          (call.init = false →
            getSimilarity m w []
              { call with pdata := windowBefore windstat.length first call } =
                some (result, [])) := by
  have hrun := getSimilarities_kept (m := m) h windstat calls [] hinit
  simp only [kept, List.map_nil, List.append_nil, List.length_nil, List.drop_zero,
    List.nil_append] at hrun
  exact hrun

end Runs

end Order

/-- Windows of four samples. -/
noncomputable def fourWindows : Windows ℝ :=
  { order := 2, size := 4, pre := 2 / 5, stab := 30, wType := .hanning }

theorem fourWindows_legal : fourWindows.Legal := ⟨by decide, by decide, by decide⟩

theorem getSimilarities_run_two :
    ∃ results, getSimilarities realLibm fourWindows [⟨fun _ ↦ 0, 0, 0⟩]
        [⟨fun _ ↦ 0, fun i ↦ i, true⟩, ⟨fun _ ↦ 1, fun i ↦ i ^ 2, false⟩] = some results ∧
      ∃ result, results[1]? = some result ∧ 0 < result.sim ∧ result.sim ≤ 1 ∧
        getSimilarity realLibm fourWindows [] ⟨fun i ↦ i, fun i ↦ i ^ 2, false⟩ =
          some (result, []) := by
  obtain ⟨results, hrun, -, hresults⟩ := getSimilarities_run (m := realLibm) fourWindows_legal
    [⟨fun _ ↦ 0, 0, 0⟩] [⟨fun _ ↦ 0, fun i ↦ i, true⟩, ⟨fun _ ↦ 1, fun i ↦ i ^ 2, false⟩] (by
      intro i call hcall hfalse
      cases i with
      | zero =>
          obtain rfl := Option.some.inj hcall
          exact Bool.noConfusion hfalse
      | succ i => exact Nat.succ_le_succ (Nat.zero_le i))
  obtain ⟨result, hmem, hpos, hle, hplain⟩ := hresults [⟨fun _ ↦ 0, fun i ↦ i, true⟩] _ [] rfl
  exact ⟨results, hrun, result, hmem, hpos, hle, hplain rfl⟩

end Vsys.Felib
