import Mathlib.Algebra.BigOperators.Group.List.Basic
import Mathlib.Algebra.GroupWithZero.Nat
import Mathlib.Data.List.Induction
import Mathlib.Data.List.Range
import Vsys.Trace.Run

/-!
# The scores of a network `Nnet_Memory_Batch`

The network is evaluated on every `m_iSkipNum`-th row, and its output stands for the rows up to the
next one.  `GetOutPut` has code to go on within such a group in the next call, with the number of
rows it has (`m_iLastNum`) and their score, but it clears the number at the end of every call: each
call begins a new group.

A batch and a single evaluation are the same function of a row.
-/

namespace Vsys.Dnn

open Vsys.Trace

/-- The memory between the calls; `m_pMat_Out` has `outRows` rows. -/
structure NnetMemoryBatch (Out : Type) where
  lastNum : ℕ
  lastScore : Out
  outRows : ℕ

/-- `m_iBatchNum` and `m_iSkipNum`; `GetOutPut` asserts that the second is positive, and with an
empty batch it would not end. -/
structure Sizes where
  batchNum : ℕ
  skipNum : ℕ
  batchNum_pos : 0 < batchNum := by decide
  skipNum_pos : 0 < skipNum := by decide

/-- `m_iTotalNum`. -/
def Sizes.totalNum (sizes : Sizes) : ℕ := sizes.batchNum * sizes.skipNum

namespace NnetMemoryBatch

variable {In Out : Type}

/-- The constructor; the score comes with what is in the memory. -/
def create (sizes : Sizes) (memory : Out) : NnetMemoryBatch Out := ⟨0, memory, sizes.totalNum * 10⟩

/-- `Reset`. -/
def reset (m : NnetMemoryBatch Out) : NnetMemoryBatch Out := { m with lastNum := 0 }

variable (sizes : Sizes) (net : In → Out)

/-- The rows of `m_pMat_Out` before `iCur` while a call runs. -/
structure Progress (Out : Type) where
  iCur : ℕ
  out : List Out

/-- The loop for the rows that go on with the last group; it also counts `m_iLastNum`. -/
def lastLoop (lastScore : Out) (iLenIn : ℕ) : ℕ → ℕ × Progress Out → ℕ × Progress Out
  | 0, p => p
  | rounds + 1, (lastNum, p) =>
      if lastNum < sizes.skipNum ∧ p.iCur < iLenIn then
        lastLoop lastScore iLenIn rounds (lastNum + 1, ⟨p.iCur + 1, p.out ++ [lastScore]⟩)
      else (lastNum, p)

/-- The loop for whole batches. -/
def batchLoop (matIn : ℕ → In) (iLenIn : ℕ) : ℕ → Progress Out → Progress Out
  | 0, p => p
  | rounds + 1, p =>
      if p.iCur + sizes.totalNum ≤ iLenIn then
        batchLoop matIn iLenIn rounds
          { iCur := p.iCur + sizes.totalNum
            out := p.out ++ (List.range sizes.batchNum).flatMap fun n ↦
              List.replicate sizes.skipNum (net (matIn (p.iCur + n * sizes.skipNum))) }
      else p

/-- The loop for whole groups. -/
def singleLoop (matIn : ℕ → In) (iLenIn : ℕ) : ℕ → Progress Out → Progress Out
  | 0, p => p
  | rounds + 1, p =>
      if p.iCur + sizes.skipNum ≤ iLenIn then
        singleLoop matIn iLenIn rounds
          { iCur := p.iCur + sizes.skipNum
            out := p.out ++ List.replicate sizes.skipNum (net (matIn p.iCur)) }
      else p

/-- `GetOutPut`: the state behind it and the rows it returns. -/
def getOutPut (m : NnetMemoryBatch Out) (matIn : ℕ → In) (iLenIn : ℕ) :
    NnetMemoryBatch Out × List Out :=
  let outRows := if m.outRows < iLenIn then iLenIn * 2 else m.outRows
  let start : ℕ × Progress Out :=
    if m.lastNum ≠ 0 then lastLoop sizes m.lastScore iLenIn iLenIn (m.lastNum, ⟨0, []⟩)
    else (m.lastNum, ⟨0, []⟩)
  let lastNum := if start.1 = sizes.skipNum then 0 else start.1
  let p := batchLoop sizes net matIn iLenIn iLenIn start.2
  let q := singleLoop sizes net matIn iLenIn iLenIn p
  let result : NnetMemoryBatch Out × List Out :=
    if q.iCur < iLenIn then
      let score := net (matIn q.iCur)
      (⟨iLenIn - q.iCur, score, outRows⟩, q.out ++ List.replicate (iLenIn - q.iCur) score)
    else (⟨lastNum, m.lastScore, outRows⟩, q.out)
  -- whatever was counted for the next call is cleared here
  ({ result.1 with lastNum := 0 }, result.2)

end NnetMemoryBatch

/-- A call. -/
inductive NnetOp (In : Type)
  | getOutPut (matIn : ℕ → In) (iLenIn : ℕ)
  | reset

/-- The memory with the rows returned since the last `Reset`. -/
structure Scoring (Out : Type) where
  memory : NnetMemoryBatch Out
  out : List Out

section
variable {In Out : Type}

/-- The effect of a call. -/
def NnetOp.apply (sizes : Sizes) (net : In → Out) (s : Scoring Out) : NnetOp In → Scoring Out
  | .getOutPut matIn iLenIn =>
      let result := s.memory.getOutPut sizes net matIn iLenIn
      ⟨result.1, s.out ++ result.2⟩
  | .reset => ⟨s.memory.reset, []⟩

/-- A new memory after some calls. -/
def Scoring.after (sizes : Sizes) (net : In → Out) (memory : Out) (ops : List (NnetOp In)) :
    Scoring Out :=
  run (NnetOp.apply sizes net) ⟨.create sizes memory, []⟩ ops

/-- The number of rows of a call, nothing for a `Reset`. -/
def NnetOp.length : NnetOp In → Option ℕ
  | .getOutPut _ iLenIn => some iLenIn
  | .reset => none

/-- The rows since the last `Reset`. -/
def inputStream (ops : List (NnetOp In)) : List In :=
  ops.foldl (fun x op ↦
    match op with
    | .getOutPut matIn iLenIn => x ++ (List.range iLenIn).map matIn
    | .reset => []) []

/-- The lengths of the calls since the last `Reset`. -/
def lengthsSince (lengths : List (Option ℕ)) : List ℕ :=
  lengths.foldl (fun since length ↦
    match length with
    | some n => since ++ [n]
    | none => []) []

/-- Row `t` is the network's output on the first row of its group. -/
def Grouped (skipNum : ℕ) (net : In → Out) (x : List In) (out : List Out) : Prop :=
  out.map some = (List.range x.length).map fun t ↦ (x[skipNum * (t / skipNum)]?).map net

/-- Every call that has rows begins a group. -/
def Aligned (skipNum : ℕ) (lengths : List ℕ) : Prop :=
  ∀ i < lengths.length, lengths.getD i 0 = 0 ∨ skipNum ∣ (lengths.take i).sum

instance [DecidableEq Out] (skipNum : ℕ) (net : In → Out) (x : List In) (out : List Out) :
    Decidable (Grouped skipNum net x out) := by
  unfold Grouped
  infer_instance

end

/-! ## One call -/

namespace NnetMemoryBatch

variable {In Out : Type} {sizes : Sizes} {net : In → Out}

/-- The score of a row of a call that begins a group. -/
def callScore (skipNum : ℕ) (net : In → Out) (matIn : ℕ → In) (j : ℕ) : Out :=
  net (matIn (skipNum * (j / skipNum)))

/-- At the beginning of a group, with all rows before it done. -/
structure Progress.Done (skipNum : ℕ) (net : In → Out) (matIn : ℕ → In) (iLenIn : ℕ)
    (p : Progress Out) : Prop where
  dvd : skipNum ∣ p.iCur
  le : p.iCur ≤ iLenIn
  out_eq : p.out = (List.range p.iCur).map (callScore skipNum net matIn)

/-- The rows of a group, or of its first rows. -/
theorem replicate_eq {skipNum iCur n : ℕ} (matIn : ℕ → In) (hdvd : skipNum ∣ iCur)
    (hn : n ≤ skipNum) :
    List.replicate n (net (matIn iCur)) =
      (List.range n).map fun j ↦ callScore skipNum net matIn (iCur + j) := by
  symm
  rw [List.eq_replicate_iff]
  refine ⟨by rw [List.length_map, List.length_range], fun score hscore ↦ ?_⟩
  obtain ⟨j, hj, rfl⟩ := List.mem_map.mp hscore
  have hlt := List.mem_range.mp hj
  obtain ⟨group, rfl⟩ := hdvd
  rw [callScore, Nat.mul_add_div (by omega), Nat.div_eq_of_lt (by omega), Nat.add_zero]

/-- The rows of some groups. -/
theorem flatMap_replicate_eq {skipNum iCur : ℕ} (matIn : ℕ → In) (hdvd : skipNum ∣ iCur)
    (batchNum : ℕ) :
    ((List.range batchNum).flatMap fun n ↦
        List.replicate skipNum (net (matIn (iCur + n * skipNum)))) =
      (List.range (batchNum * skipNum)).map fun j ↦ callScore skipNum net matIn (iCur + j) := by
  induction batchNum with
  | zero => simp
  | succ batchNum ih =>
      rw [List.range_succ, List.flatMap_append, ih, List.flatMap_singleton, Nat.add_mul, Nat.one_mul,
        List.range_add, List.map_append, List.map_map,
        replicate_eq matIn (Nat.dvd_add hdvd (Nat.dvd_mul_left skipNum batchNum)) (Nat.le_refl _)]
      congr 1
      apply List.map_congr_left
      intro j _
      rw [Function.comp_apply, Nat.add_assoc]

theorem Progress.Done.advance {skipNum iLenIn n : ℕ} {matIn : ℕ → In} {p : Progress Out}
    (h : p.Done skipNum net matIn iLenIn) (hdvd : skipNum ∣ n) (hle : p.iCur + n ≤ iLenIn) :
    Progress.Done skipNum net matIn iLenIn
      ⟨p.iCur + n,
        p.out ++ (List.range n).map fun j ↦ callScore skipNum net matIn (p.iCur + j)⟩ := by
  refine ⟨Nat.dvd_add h.dvd hdvd, hle, ?_⟩
  dsimp only
  rw [h.out_eq, List.range_add, List.map_append, List.map_map]
  rfl

/-- The loop for whole batches ends, since every round gets on. -/
theorem Progress.Done.batchLoop {iLenIn : ℕ} {matIn : ℕ → In} {p : Progress Out}
    (h : p.Done sizes.skipNum net matIn iLenIn) {rounds : ℕ}
    (hrounds : iLenIn < p.iCur + rounds + sizes.totalNum) :
    (batchLoop sizes net matIn iLenIn rounds p).Done sizes.skipNum net matIn iLenIn ∧
      iLenIn < (batchLoop sizes net matIn iLenIn rounds p).iCur + sizes.totalNum := by
  have htotal : 0 < sizes.totalNum := Nat.mul_pos sizes.batchNum_pos sizes.skipNum_pos
  induction rounds generalizing p with
  | zero => exact ⟨h, hrounds⟩
  | succ rounds ih =>
      rw [NnetMemoryBatch.batchLoop]
      split_ifs with hmore
      · apply ih
        · rw [flatMap_replicate_eq matIn h.dvd]
          exact h.advance (Nat.dvd_mul_left _ _) hmore
        · dsimp only
          omega
      · exact ⟨h, by omega⟩

/-- Less than a group is left behind the loop for whole groups. -/
theorem Progress.Done.singleLoop {iLenIn : ℕ} {matIn : ℕ → In} {p : Progress Out}
    (h : p.Done sizes.skipNum net matIn iLenIn) {rounds : ℕ}
    (hrounds : iLenIn < p.iCur + rounds + sizes.skipNum) :
    (singleLoop sizes net matIn iLenIn rounds p).Done sizes.skipNum net matIn iLenIn ∧
      iLenIn < (singleLoop sizes net matIn iLenIn rounds p).iCur + sizes.skipNum := by
  have hskip := sizes.skipNum_pos
  induction rounds generalizing p with
  | zero => exact ⟨h, hrounds⟩
  | succ rounds ih =>
      rw [NnetMemoryBatch.singleLoop]
      split_ifs with hmore
      · apply ih
        · rw [replicate_eq matIn h.dvd (Nat.le_refl _)]
          exact h.advance (Nat.dvd_refl _) hmore
        · dsimp only
          omega
      · exact ⟨h, by omega⟩

/-- A call with nothing left from the last one begins a group, and leaves nothing either. -/
theorem getOutPut_spec {m : NnetMemoryBatch Out} (hlast : m.lastNum = 0) (matIn : ℕ → In)
    (iLenIn : ℕ) :
    (m.getOutPut sizes net matIn iLenIn).1.lastNum = 0 ∧
      (m.getOutPut sizes net matIn iLenIn).2 =
        (List.range iLenIn).map (callScore sizes.skipNum net matIn) := by
  have hstart : Progress.Done sizes.skipNum net matIn iLenIn (⟨0, []⟩ : Progress Out) :=
    ⟨Nat.dvd_zero _, Nat.zero_le _, rfl⟩
  have hskip := sizes.skipNum_pos
  have htotal : 0 < sizes.totalNum := Nat.mul_pos sizes.batchNum_pos hskip
  obtain ⟨hbatches, -⟩ := hstart.batchLoop (show iLenIn < 0 + iLenIn + sizes.totalNum by omega)
  obtain ⟨hdone, hrest⟩ := hbatches.singleLoop (show iLenIn < _ + iLenIn + sizes.skipNum by omega)
  refine ⟨rfl, ?_⟩
  rw [getOutPut, if_neg (not_not.mpr hlast)]
  dsimp only
  generalize singleLoop sizes net matIn iLenIn iLenIn _ = q at hdone hrest ⊢
  have hle := hdone.le
  by_cases hmore : q.iCur < iLenIn
  · have hlength : iLenIn = q.iCur + (iLenIn - q.iCur) := by omega
    rw [if_pos hmore]
    dsimp only
    rw [replicate_eq matIn hdone.dvd (by omega), hdone.out_eq]
    conv_rhs => rw [hlength, List.range_add, List.map_append, List.map_map]
    rfl
  · have hlength : q.iCur = iLenIn := by omega
    rw [if_neg hmore, hdone.out_eq, hlength]

end NnetMemoryBatch

/-! ## The groups of a stream -/

section
variable {In Out : Type} {skipNum : ℕ} {net : In → Out} {x : List In} {out : List Out}

/-- The groups before a call do not depend on its rows. -/
theorem groups_append (x more : List In) :
    ((List.range (x ++ more).length).map fun t ↦
        ((x ++ more)[skipNum * (t / skipNum)]?).map net) =
      ((List.range x.length).map fun t ↦ (x[skipNum * (t / skipNum)]?).map net) ++
        (List.range more.length).map fun j ↦
          ((x ++ more)[skipNum * ((x.length + j) / skipNum)]?).map net := by
  rw [List.length_append, List.range_add, List.map_append, List.map_map]
  congr 1
  apply List.map_congr_left
  intro t ht
  have hlt := List.mem_range.mp ht
  have hle := Nat.mul_div_le t skipNum
  rw [List.getElem?_append_left (by omega)]

/-- Rows that begin a group are grouped among themselves. -/
theorem groups_of_dvd (hdvd : skipNum ∣ x.length) (matIn : ℕ → In) (iLenIn : ℕ) :
    ((List.range iLenIn).map (NnetMemoryBatch.callScore skipNum net matIn)).map some =
      (List.range iLenIn).map fun j ↦
        ((x ++ (List.range iLenIn).map matIn)[skipNum * ((x.length + j) / skipNum)]?).map net := by
  rw [List.map_map]
  apply List.map_congr_left
  intro j hj
  have hlt := List.mem_range.mp hj
  have hle := Nat.mul_div_le j skipNum
  obtain ⟨groups, hgroups⟩ := hdvd
  obtain rfl | hskip := Nat.eq_zero_or_pos skipNum
  · rw [Nat.zero_mul] at hgroups
    obtain rfl := List.eq_nil_of_length_eq_zero hgroups
    rw [List.nil_append, Nat.zero_mul, List.getElem?_map, List.getElem?_range (by omega),
      Function.comp_apply, NnetMemoryBatch.callScore, Nat.zero_mul]
    rfl
  · have hindex : skipNum * ((x.length + j) / skipNum) = x.length + skipNum * (j / skipNum) := by
      rw [hgroups, Nat.mul_add_div hskip, Nat.mul_add]
    rw [hindex, List.getElem?_append_right (Nat.le_add_right _ _), Nat.add_sub_cancel_left,
      List.getElem?_map, List.getElem?_range (by omega)]
    rfl

theorem Grouped.append (h : Grouped skipNum net x out) {matIn : ℕ → In} {iLenIn : ℕ}
    (hbegins : iLenIn = 0 ∨ skipNum ∣ x.length) :
    Grouped skipNum net (x ++ (List.range iLenIn).map matIn)
      (out ++ (List.range iLenIn).map (NnetMemoryBatch.callScore skipNum net matIn)) := by
  rw [Grouped, groups_append, List.map_append, h, List.length_map, List.length_range]
  congr 1
  obtain rfl | hdvd := hbegins
  · rfl
  · exact groups_of_dvd hdvd matIn iLenIn

/-- The first row of a call is scored by itself, so if it is not the first of a group it has to have
the same score as that one. -/
theorem Grouped.of_append {matIn : ℕ → In} {iLenIn : ℕ} (hlength : out.length = x.length)
    (h : Grouped skipNum net (x ++ (List.range iLenIn).map matIn)
      (out ++ (List.range iLenIn).map (NnetMemoryBatch.callScore skipNum net matIn))) :
    Grouped skipNum net x out ∧ (0 < iLenIn → some (net (matIn 0)) =
      ((x ++ (List.range iLenIn).map matIn)[skipNum * (x.length / skipNum)]?).map net) := by
  rw [Grouped, groups_append, List.map_append] at h
  obtain ⟨hbefore, hcall⟩ := List.append_inj h (by
    rw [List.length_map, List.length_map, List.length_range, hlength])
  refine ⟨hbefore, fun hpos ↦ ?_⟩
  have hfirst := congrArg (·[0]?) hcall
  simp only [List.getElem?_map, List.length_map, List.length_range, List.getElem?_range hpos,
    Option.map_some, Nat.add_zero, NnetMemoryBatch.callScore, Nat.zero_div, Nat.mul_zero] at hfirst
  exact Option.some_inj.mp hfirst

/-- One call more. -/
theorem aligned_concat {lengths : List ℕ} {n : ℕ} :
    Aligned skipNum (lengths ++ [n]) ↔
      Aligned skipNum lengths ∧ (n = 0 ∨ skipNum ∣ lengths.sum) := by
  have hbefore : ∀ i < lengths.length, (lengths ++ [n]).getD i 0 = lengths.getD i 0 ∧
      (lengths ++ [n]).take i = lengths.take i := fun i hi ↦
    ⟨by rw [List.getD_eq_getElem?_getD, List.getD_eq_getElem?_getD, List.getElem?_append_left hi],
      List.take_append_of_le_length hi.le⟩
  have hlast : (lengths ++ [n]).getD lengths.length 0 = n ∧
      (lengths ++ [n]).take lengths.length = lengths := ⟨by simp, List.take_left⟩
  constructor
  · intro h
    constructor
    · intro i hi
      have hcall := h i (by rw [List.length_append]; omega)
      rwa [(hbefore i hi).1, (hbefore i hi).2] at hcall
    · have hcall := h lengths.length (by rw [List.length_append, List.length_singleton]; omega)
      rwa [hlast.1, hlast.2] at hcall
  · rintro ⟨h, hcall⟩ i hi
    rw [List.length_append, List.length_singleton] at hi
    obtain hi | rfl := Nat.lt_succ_iff_lt_or_eq.mp hi
    · rw [(hbefore i hi).1, (hbefore i hi).2]
      exact h i hi
    · rw [hlast.1, hlast.2]
      exact hcall

end

/-! ## Whole runs -/

namespace Scoring

variable {In Out : Type} {sizes : Sizes}

/-- The rows returned by a call begin a group of their own. -/
theorem after_getOutPut (net : In → Out) (memory : Out) (ops : List (NnetOp In)) (matIn : ℕ → In)
    (iLenIn : ℕ) (hlast : (after sizes net memory ops).memory.lastNum = 0) :
    (after sizes net memory (ops ++ [.getOutPut matIn iLenIn])).out =
      (after sizes net memory ops).out ++
        (List.range iLenIn).map (NnetMemoryBatch.callScore sizes.skipNum net matIn) := by
  rw [after, run_append, ← after]
  exact congrArg (_ ++ ·) (NnetMemoryBatch.getOutPut_spec hlast matIn iLenIn).2

/-- Nothing is ever left for the next call, and there are as many scores as rows. -/
theorem after_spec (net : In → Out) (memory : Out) (ops : List (NnetOp In)) :
    (after sizes net memory ops).memory.lastNum = 0 ∧
      (after sizes net memory ops).out.length = (inputStream ops).length ∧
      (inputStream ops).length = (lengthsSince (ops.map NnetOp.length)).sum := by
  induction ops using List.reverseRecOn with
  | nil => exact ⟨rfl, rfl, rfl⟩
  | append_singleton ops op ih =>
      obtain ⟨hlast, hout, hlengths⟩ := ih
      rw [inputStream, lengthsSince, List.map_append, List.foldl_append, List.foldl_append,
        ← inputStream, ← lengthsSince]
      cases op with
      | getOutPut matIn iLenIn =>
          refine ⟨?_, ?_, ?_⟩
          · rw [after, run_append]
            exact (NnetMemoryBatch.getOutPut_spec hlast matIn iLenIn).1
          · rw [after_getOutPut net memory ops matIn iLenIn hlast]
            simp [hout]
          · simp [NnetOp.length, hlengths]
      | reset =>
          rw [after, run_append]
          exact ⟨rfl, rfl, rfl⟩

/-- If every call begins a group, the groups are those of the stream. -/
theorem grouped_of_aligned (net : In → Out) (memory : Out)
    {ops : List (NnetOp In)}
    (h : Aligned sizes.skipNum (lengthsSince (ops.map NnetOp.length))) :
    Grouped sizes.skipNum net (inputStream ops) (after sizes net memory ops).out := by
  induction ops using List.reverseRecOn with
  | nil => rfl
  | append_singleton ops op ih =>
      obtain ⟨hlast, -, hlengths⟩ := after_spec net memory ops
      rw [lengthsSince, List.map_append, List.foldl_append, ← lengthsSince] at h
      rw [inputStream, List.foldl_append, ← inputStream]
      cases op with
      | getOutPut matIn iLenIn =>
          obtain ⟨hbefore, hbegins⟩ := aligned_concat.mp h
          rw [after_getOutPut net memory ops matIn iLenIn hlast]
          exact (ih hbefore).append (hlengths ▸ hbegins)
      | reset =>
          rw [after, run_append]
          rfl

/-! ## Rows that count -/

/-- Calls of the given lengths whose rows count from the last `Reset` on. -/
def counting (lengths : List (Option ℕ)) : List (NnetOp ℕ) :=
  lengths.foldl (fun ops length ↦ ops ++
    [match length with
      | some n => .getOutPut (fun row ↦ (inputStream ops).length + row) n
      | none => .reset]) []

theorem counting_concat (lengths : List (Option ℕ)) (length : Option ℕ) :
    counting (lengths ++ [length]) = counting lengths ++
      [match length with
        | some n => .getOutPut (fun row ↦ (inputStream (counting lengths)).length + row) n
        | none => .reset] := by
  rw [counting, List.foldl_append, ← counting]
  rfl

theorem map_length_counting (lengths : List (Option ℕ)) :
    (counting lengths).map NnetOp.length = lengths := by
  induction lengths using List.reverseRecOn with
  | nil => rfl
  | append_singleton lengths length ih =>
      rw [counting_concat, List.map_append, ih]
      cases length <;> rfl

theorem inputStream_counting (lengths : List (Option ℕ)) :
    inputStream (counting lengths) = List.range (inputStream (counting lengths)).length := by
  induction lengths using List.reverseRecOn with
  | nil => rfl
  | append_singleton lengths length ih =>
      rw [counting_concat, inputStream, List.foldl_append, ← inputStream]
      cases length with
      | some n =>
          dsimp only [List.foldl_cons, List.foldl_nil]
          rw [List.length_append, List.length_map, List.length_range, List.range_add, ← ih]
      | none => rfl

/-- If the rows count, calls that do not begin a group are seen. -/
theorem aligned_of_grouped {lengths : List (Option ℕ)}
    (h : Grouped sizes.skipNum id (inputStream (counting lengths))
      (after sizes id 0 (counting lengths)).out) :
    Aligned sizes.skipNum (lengthsSince lengths) := by
  induction lengths using List.reverseRecOn with
  | nil => exact fun i hi ↦ absurd hi (Nat.not_lt_zero i)
  | append_singleton lengths length ih =>
      obtain ⟨hlast, hout, hlengths⟩ := after_spec id 0 (counting lengths)
      rw [map_length_counting] at hlengths
      have hrange := inputStream_counting (lengths ++ [length])
      rw [counting_concat] at h hrange
      rw [lengthsSince, List.foldl_append, ← lengthsSince]
      cases length with
      | some n =>
          rw [inputStream, List.foldl_append, ← inputStream] at h hrange
          dsimp only [List.foldl_cons, List.foldl_nil] at h hrange
          rw [after_getOutPut id 0 _ _ n hlast] at h
          obtain ⟨hbefore, hfirst⟩ := Grouped.of_append hout h
          refine aligned_concat.mpr ⟨ih hbefore, ?_⟩
          obtain hzero | hpos := Nat.eq_zero_or_pos n
          · exact .inl hzero
          · right
            have hscore := hfirst hpos
            have hle := Nat.mul_div_le (inputStream (counting lengths)).length sizes.skipNum
            rw [hrange, List.getElem?_range (by
              rw [List.length_append, List.length_map, List.length_range]
              omega)] at hscore
            simp only [id, Nat.add_zero, Option.map_some, Option.some_inj] at hscore
            rw [← hlengths]
            exact ⟨_, hscore⟩
      | none => exact fun i hi ↦ absurd hi (Nat.not_lt_zero i)

/-- **Exactly the calls that begin a group are scored as the stream is.** For given lengths of the
calls since the last `Reset`: whatever the network and the rows are, every row has the score of the
first row of its group, if and only if every call that has rows begins at a multiple of
`m_iSkipNum`. -/
theorem grouped_iff_aligned (sizes : Sizes) (lengths : List (Option ℕ)) :
    (∀ (In Out : Type) (net : In → Out) (memory : Out) (ops : List (NnetOp In)),
      ops.map NnetOp.length = lengths →
        Grouped sizes.skipNum net (inputStream ops) (after sizes net memory ops).out) ↔
    Aligned sizes.skipNum (lengthsSince lengths) := by
  constructor
  · intro h
    exact aligned_of_grouped (h ℕ ℕ id 0 (counting lengths) (map_length_counting lengths))
  · intro h In Out net memory ops hlengths
    exact grouped_of_aligned net memory (hlengths ▸ h)

/-- Two calls of four rows with the sizes of `ZVtMem`: row 4 is scored by itself, and it belongs to
the group of row 3. -/
theorem not_grouped_four :
    ¬ Grouped 3 id (inputStream (counting [some 4, some 4]))
      (after { batchNum := 4, skipNum := 3 } id 0 (counting [some 4, some 4])).out := by
  decide

end Scoring

end Vsys.Dnn
