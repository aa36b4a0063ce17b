import Mathlib.Data.List.Induction
import Mathlib.Data.Rat.Defs
import Vsys.Stream.Windows
import Vsys.Trace.Run

/-!
# Feature filters `ZFilter`

A filter turns every window of `m_iInBuffLen` rows into a row.  `FilterFea` takes a window from the
rows it has saved and the new ones, as an array of pointers, and saves the last rows of a call by
copying them through these pointers into the rows they may point to.

`DoSingleFilter` is given the array of pointers; an entry outside of it is no row, and a filter that
reads one has no result.  `filterFea_spec` is one call for any filter, and `after_spec` all calls.
-/

namespace Vsys.Fea

open Vsys.Stream Vsys.Trace

/-- The positions `InitFilter` computes. -/
structure Layout where
  inBuffLen : ℕ
  leftPos : ℕ
  rightPos : ℕ
  curPos : ℕ

/-- `InitFilter`, for `iLeftPos ≤ iRightPos`. -/
def initFilter (iLeftPos iRightPos : ℤ) : Layout :=
  let iSS := min iLeftPos 0
  let iEE := max iRightPos 0
  { inBuffLen := (iEE - iSS + 1).toNat
    leftPos := (iLeftPos - iSS).toNat
    rightPos := (iRightPos - iSS).toNat
    curPos := (0 - iSS).toNat }

/-- The rows that are saved: `m_iInFeaPos` and `m_pInFea`. -/
structure History (In : Type) where
  inFeaPos : ℕ
  inFea : ℕ → In

/-- The state of a filter; `outFea` are the rows of the last call, and `m_pOutFea` has room for
`outBuffLen`. -/
structure ZFilter (In Out : Type) where
  firstInFrame : Bool
  firstOutFrame : Bool
  history : History In
  outBuffLen : ℕ
  outFea : List Out

/-- The virtual functions.  `doSingleFilter` gives the rows it writes; it has no result if it reads
outside of the array. -/
structure Methods (In Out : Type) where
  onFirstInFrame : In → History In → History In
  doSingleFilter : (ℤ → Option In) → Bool → Option (List Out)

/-- A filter that writes one row, also for the first window. -/
def oneRow {In Out : Type} (onFirstInFrame : In → History In → History In)
    (single : (ℤ → Option In) → Option Out) : Methods In Out where
  onFirstInFrame := onFirstInFrame
  doSingleFilter := fun pFeaIn _ ↦ (single pFeaIn).map fun row ↦ [row]

/-- The entries of an array, none outside of it. -/
def entry {In : Type} (rows : List In) (i : ℤ) : Option In := if 0 ≤ i then rows[i.toNat]? else none

/-- A pointer of `m_pSingleData`. -/
inductive Ref
  | history (row : ℕ)
  | input (row : ℕ)

/-- `m_pSingleData[i]` for the new row `m`. -/
def singleData (inBuffLen inFeaPos m i : ℕ) : Ref :=
  let n := inBuffLen - 1 - i
  if m < n then .history (inFeaPos + m - n) else .input (m - n)

/-- The row a pointer points to. -/
def Ref.row {In : Type} (inFea pInFea : ℕ → In) : Ref → In
  | .history row => inFea row
  | .input row => pInFea row

/-- The loop that saves the last rows. -/
def saveRows {In : Type} (pInFea : ℕ → In) (refs : ℕ → Ref) (inFea : ℕ → In) : ℕ → ℕ → In
  | 0 => inFea
  | n + 1 =>
      let saved := saveRows pInFea refs inFea n
      Function.update saved n ((refs (n + 1)).row saved pInFea)

namespace ZFilter

variable {In Out : Type}

/-- A new filter; the rows come with what is in the memory. -/
def create (memory : ℕ → In) : ZFilter In Out where
  firstInFrame := true
  firstOutFrame := true
  history := ⟨0, memory⟩
  outBuffLen := 16
  outFea := []

/-- `ResetFilter`. -/
def resetFilter (s : ZFilter In Out) : ZFilter In Out :=
  { s with
    firstInFrame := true
    firstOutFrame := true
    history := { s.history with inFeaPos := 0 }
    outFea := [] }

variable (layout : Layout) (methods : Methods In Out)

/-- The window of the new row `m`. -/
def singleRows (inBuffLen : ℕ) (h : History In) (pInFea : ℕ → In) (m : ℕ) : List In :=
  (List.range inBuffLen).map fun i ↦
    (singleData inBuffLen h.inFeaPos m i).row h.inFea pInFea

/-- The loop over the new rows from `m` on. -/
def filterLoop (pInFea : ℕ → In) (iInFeaNum : ℕ) : ℕ → ℕ → ZFilter In Out → Option (ZFilter In Out)
  | 0, _, s => some s
  | more + 1, m, s =>
      (methods.doSingleFilter (entry (singleRows layout.inBuffLen s.history pInFea m))
        s.firstOutFrame).bind fun rows ↦
          filterLoop pInFea iInFeaNum more (m + 1)
            { s with
              firstOutFrame := false
              history :=
                if m = iInFeaNum - 1 then
                  { s.history with
                    inFea := saveRows pInFea (singleData layout.inBuffLen s.history.inFeaPos m)
                      s.history.inFea (layout.inBuffLen - 1) }
                else s.history
              outFea := s.outFea ++ rows }

/-- The beginning of `FilterFea`: the capacity and the first row. -/
def begin (pInFea : ℕ → In) (iInFeaNum : ℕ) (s : ZFilter In Out) : ZFilter In Out :=
  let need := iInFeaNum + s.history.inFeaPos
  { s with
    outBuffLen := if s.outBuffLen < need then need + 16 else s.outBuffLen
    firstInFrame := if 0 < iInFeaNum then false else s.firstInFrame
    history :=
      if 0 < iInFeaNum ∧ s.firstInFrame = true then methods.onFirstInFrame (pInFea 0) s.history
      else s.history
    outFea := [] }

/-- `FilterFea`. -/
def filterFea (s : ZFilter In Out) (pInFea : ℕ → In) (iInFeaNum : ℕ) : Option (ZFilter In Out) :=
  let t := s.begin methods pInFea iInFeaNum
  let first := layout.inBuffLen - 1 - t.history.inFeaPos
  if layout.inBuffLen - 1 < iInFeaNum + t.history.inFeaPos then
    (filterLoop layout methods pInFea iInFeaNum (iInFeaNum - first) first t).map fun u ↦
      { u with history := { u.history with inFeaPos := layout.inBuffLen - 1 } }
  else
    some { t with
      history :=
        { inFeaPos := t.history.inFeaPos + iInFeaNum
          inFea := writeAt t.history.inFea t.history.inFeaPos ((List.range iInFeaNum).map pInFea) } }

end ZFilter

/-! ## The filters -/

section
variable {inDim : ℕ}

/-- A row of features. -/
abbrev Row (dim : ℕ) := Fin dim → ℚ

/-- `ZFilter_Delt::DoSingleFilter`: the row, and behind it the slopes of its last `ll` columns. -/
def deltSingle (layout : Layout) {ll : ℕ} (hll : ll ≤ inDim) (pFeaIn : ℤ → Option (Row inDim)) :
    Option (Row (inDim + ll)) := do
  let cur ← pFeaIn layout.curPos
  if ll = 0 then
    return fun column ↦ if h : column.val < inDim then cur ⟨column.val, h⟩ else 0
  else
    let right ← pFeaIn layout.rightPos
    let left ← pFeaIn layout.leftPos
    let right' ← pFeaIn (layout.rightPos - 1)
    let left' ← pFeaIn (layout.leftPos + 1)
    return fun column ↦
      if h : column.val < inDim then cur ⟨column.val, h⟩
      else
        let i : Fin inDim := ⟨inDim - ll + (column.val - inDim), by omega⟩
        (2 * (right i - left i) + (right' i - left' i)) / 10

/-- `ZFilter_Delt`. -/
def delt (layout : Layout) {ll : ℕ} (hll : ll ≤ inDim) : Methods (Row inDim) (Row (inDim + ll)) :=
  oneRow (fun _ h ↦ h) (deltSingle layout hll)

/-- `ZFilter_Cmb::DoSingleFilter`: the rows of the window one behind the other. -/
def cmbSingle (layout : Layout) (pFeaIn : ℤ → Option (Row inDim)) : Option (List ℚ) :=
  ((List.range layout.inBuffLen).mapM fun i : ℕ ↦ pFeaIn i).map fun rows ↦ rows.flatMap List.ofFn

/-- `ZFilter_Cmb::OnFirstInFrame`. -/
def cmbOnFirstInFrame (layout : Layout) (pFeaIn : Row inDim) (h : History (Row inDim)) :
    History (Row inDim) :=
  if layout.leftPos < layout.curPos then
    { inFeaPos := layout.curPos
      inFea := fun i ↦ if layout.leftPos ≤ i ∧ i < layout.curPos then pFeaIn else h.inFea i }
  else h

/-- `ZFilter_Cmb`. -/
def cmb (layout : Layout) : Methods (Row inDim) (List ℚ) :=
  oneRow (cmbOnFirstInFrame layout) (cmbSingle layout)

/-- `ZFilter_Norm`: with the first row it writes those before it. -/
def norm (layout : Layout) (mean var : Row inDim) : Methods (Row inDim) (Row inDim) where
  onFirstInFrame := fun _ h ↦ h
  doSingleFilter := fun pFeaIn bFirstOutFrm ↦
    let before := if bFirstOutFrm then layout.curPos - layout.leftPos else 0
    ((List.range (before + 1)).mapM fun j : ℕ ↦ pFeaIn (layout.curPos - before + j)).map fun rows ↦
      rows.map fun row column ↦ (row column - mean column) / var column

end

/-! ## One call -/

/-- Saving goes upwards and every pointer points to a row above the one that is written, so the
rows read are those before the loop. -/
theorem saveRows_eq {In : Type} (pInFea : ℕ → In) (refs : ℕ → Ref) (inFea : ℕ → In) {n : ℕ}
    (hrefs : ∀ i < n, ∀ row, refs (i + 1) = .history row → i < row) (j : ℕ) :
    saveRows pInFea refs inFea n j = if j < n then (refs (j + 1)).row inFea pInFea else inFea j := by
  induction n generalizing j with
  | zero => rw [saveRows, if_neg (Nat.not_lt_zero j)]
  | succ n ih =>
      have ih' := ih fun i hi ↦ hrefs i (by omega)
      rw [saveRows]
      by_cases hlast : j = n
      · subst hlast
        rw [Function.update_self, if_pos (Nat.lt_succ_self j)]
        cases href : refs (j + 1) with
        | history row =>
            have habove := hrefs j (Nat.lt_succ_self j) row href
            rw [Ref.row, Ref.row, ih', if_neg (by omega)]
        | input row => rfl
      · rw [Function.update_of_ne hlast, ih']
        by_cases hj : j < n
        · rw [if_pos hj, if_pos (by omega)]
        · rw [if_neg hj, if_neg (by omega)]

namespace ZFilter

variable {In Out : Type} {layout : Layout} {methods : Methods In Out}

/-- The row behind a pointer is one of the saved and the new rows together. -/
theorem row_singleData {inBuffLen m i num : ℕ} (h : History In) (pInFea : ℕ → In)
    (hm : inBuffLen - 1 ≤ h.inFeaPos + m) (hi : i < inBuffLen) (hnum : m < num) :
    (singleData inBuffLen h.inFeaPos m i).row h.inFea pInFea =
      writeAt h.inFea h.inFeaPos ((List.range num).map pInFea)
        (h.inFeaPos + m - (inBuffLen - 1) + i) := by
  rw [singleData, writeAt]
  by_cases hold : m < inBuffLen - 1 - i
  · rw [if_pos hold, if_neg (by omega), Ref.row]
    congr 1
    omega
  · have hindex : h.inFeaPos + m - (inBuffLen - 1) + i - h.inFeaPos = m - (inBuffLen - 1 - i) := by
      omega
    rw [if_neg hold, if_pos (by omega), Ref.row, hindex, List.getD_eq_getElem?_getD,
      List.getElem?_map, List.getElem?_range (by omega)]
    rfl

/-- The saved rows, for a stream of which all rows have arrived. -/
structure Saved (inBuffLen : ℕ) (y : List In) (h : History In) : Prop where
  carried : Carried 1 y (y.length - (inBuffLen - 1)) h.inFeaPos h.inFea

theorem Saved.inFeaPos_eq {inBuffLen : ℕ} {y : List In} {h : History In}
    (hsaved : Saved inBuffLen y h) : h.inFeaPos = min y.length (inBuffLen - 1) := by
  have hlength := hsaved.carried.length_eq
  omega

/-- The window of a new row is the next one of the stream. -/
theorem Saved.singleRows_eq {inBuffLen : ℕ} {y : List In} {h : History In}
    (hsaved : Saved inBuffLen y h) (pInFea : ℕ → In) {m num : ℕ}
    (hm : inBuffLen - 1 ≤ h.inFeaPos + m) (hnum : m < num) :
    singleRows inBuffLen h pInFea m =
      window inBuffLen 1 (y.length + m - (inBuffLen - 1)) (y ++ (List.range num).map pInFea) := by
  have hlength := hsaved.carried.length_eq
  have hfilled := hsaved.carried.fill ((List.range num).map pInFea)
  have hslice := hfilled.slice (h.inFeaPos + m - (inBuffLen - 1)) inBuffLen
    (by rw [List.length_map, List.length_range]; omega)
  have hstart : (y.length - (inBuffLen - 1)) * 1 + (h.inFeaPos + m - (inBuffLen - 1)) =
      (y.length + m - (inBuffLen - 1)) * 1 := by omega
  rw [window, ← hstart, ← hslice, singleRows]
  apply List.map_congr_left
  intro i hi
  exact row_singleData h pInFea hm (List.mem_range.mp hi) hnum

/-- After the last new row the last rows of the stream are saved. -/
theorem Saved.saveRows {inBuffLen : ℕ} {y : List In} {h : History In} (hsaved : Saved inBuffLen y h)
    (pInFea : ℕ → In) {num : ℕ} (hnum : inBuffLen - 1 < num + h.inFeaPos) :
    Saved inBuffLen (y ++ (List.range num).map pInFea)
      ⟨inBuffLen - 1, saveRows pInFea (singleData inBuffLen h.inFeaPos (num - 1)) h.inFea
        (inBuffLen - 1)⟩ := by
  have hlength := hsaved.carried.length_eq
  have hfilled := hsaved.carried.fill ((List.range num).map pInFea)
  have hpos := hsaved.inFeaPos_eq
  have htotal : (y ++ (List.range num).map pInFea).length = y.length + num := by
    rw [List.length_append, List.length_map, List.length_range]
  refine ⟨⟨by dsimp only; omega, fun j hj ↦ ?_⟩⟩
  dsimp only at hj ⊢
  have hrefs : ∀ i < inBuffLen - 1, ∀ row,
      singleData inBuffLen h.inFeaPos (num - 1) (i + 1) = .history row → i < row := by
    intro i hi row href
    rw [singleData] at href
    split_ifs at href with hold
    cases href
    omega
  have hcell := hfilled.cells (h.inFeaPos + (num - 1) - (inBuffLen - 1) + (j + 1)) (by
    rw [List.length_map, List.length_range]
    omega)
  have hindex : (y.length - (inBuffLen - 1)) * 1 +
      (h.inFeaPos + (num - 1) - (inBuffLen - 1) + (j + 1)) =
        ((y ++ (List.range num).map pInFea).length - (inBuffLen - 1)) * 1 + j := by omega
  rw [saveRows_eq _ _ _ hrefs, if_pos hj,
    row_singleData h pInFea (by omega) (by omega) (show num - 1 < num by omega), ← hindex]
  exact hcell

/-- The rows a filter gives for a window, where it has a result. -/
def value (methods : Methods In Out) (rows : List In) (bFirstOutFrm : Bool) : List Out :=
  (methods.doSingleFilter (entry rows) bFirstOutFrm).getD []

/-- The filter has a result for every window. -/
def Total (layout : Layout) (methods : Methods In Out) : Prop :=
  ∀ (rows : List In) (bFirstOutFrm : Bool), rows.length = layout.inBuffLen →
    (methods.doSingleFilter (entry rows) bFirstOutFrm).isSome

theorem Total.doSingleFilter_eq (htotal : Total layout methods) {rows : List In}
    (hrows : rows.length = layout.inBuffLen) (bFirstOutFrm : Bool) :
    methods.doSingleFilter (entry rows) bFirstOutFrm = some (value methods rows bFirstOutFrm) := by
  obtain ⟨out, hout⟩ := Option.isSome_iff_exists.mp (htotal rows bFirstOutFrm hrows)
  rw [value, hout, Option.getD_some]

theorem length_singleRows (inBuffLen : ℕ) (h : History In) (pInFea : ℕ → In) (m : ℕ) :
    (singleRows inBuffLen h pInFea m).length = inBuffLen := by
  rw [singleRows, List.length_map, List.length_range]

/-- The rows of the loop: the first window is marked as the filter's state says, the others are not
the first. -/
def loopRows (layout : Layout) (methods : Methods In Out) (s : ZFilter In Out) (pInFea : ℕ → In)
    (m more : ℕ) : List Out :=
  value methods (singleRows layout.inBuffLen s.history pInFea m) s.firstOutFrame ++
    (List.range more).flatMap fun i ↦
      value methods (singleRows layout.inBuffLen s.history pInFea (m + (i + 1))) false

theorem filterLoop_eq (htotal : Total layout methods) (pInFea : ℕ → In) {iInFeaNum more m : ℕ}
    (hend : m + more + 1 = iInFeaNum) (s : ZFilter In Out) :
    filterLoop layout methods pInFea iInFeaNum (more + 1) m s =
      some { s with
        firstOutFrame := false
        history := { s.history with
          inFea := Fea.saveRows pInFea (singleData layout.inBuffLen s.history.inFeaPos (iInFeaNum - 1))
            s.history.inFea (layout.inBuffLen - 1) }
        outFea := s.outFea ++ loopRows layout methods s pInFea m more } := by
  induction more generalizing m s with
  | zero =>
      have hlast : m = iInFeaNum - 1 := by omega
      rw [filterLoop, htotal.doSingleFilter_eq (length_singleRows _ _ _ _), Option.bind_some,
        if_pos hlast, filterLoop, loopRows, List.range_zero, List.flatMap_nil, List.append_nil, hlast]
  | succ more ih =>
      rw [filterLoop, htotal.doSingleFilter_eq (length_singleRows _ _ _ _), Option.bind_some,
        if_neg (by omega), ih (by omega)]
      simp only [loopRows, List.range_succ_eq_map, List.flatMap_cons, List.flatMap_map,
        List.append_assoc, Nat.zero_add, Nat.succ_eq_add_one, Nat.add_assoc, Nat.add_comm 1]

/-- The rows for all windows of a stream. -/
def windowRows (layout : Layout) (methods : Methods In Out) (y : List In) : List Out :=
  (List.range (y.length - (layout.inBuffLen - 1))).flatMap fun k ↦
    value methods (window layout.inBuffLen 1 k y) (k == 0)

/-- The filter has seen the stream `y`. -/
structure Seen (layout : Layout) (y : List In) (s : ZFilter In Out) : Prop where
  saved : Saved layout.inBuffLen y s.history
  firstOutFrame_eq : s.firstOutFrame = (y.length - (layout.inBuffLen - 1) == 0)

theorem windowRows_of_short {y : List In} (hshort : y.length ≤ layout.inBuffLen - 1) :
    windowRows layout methods y = [] := by
  rw [windowRows, Nat.sub_eq_zero_of_le hshort, List.range_zero, List.flatMap_nil]

/-- The rows of the loop are those of the windows that the new rows complete. -/
theorem windowRows_append {y : List In} {s : ZFilter In Out} (hseen : Seen layout y s)
    (hwidth : 0 < layout.inBuffLen) (pInFea : ℕ → In) {m more num : ℕ}
    (hm : m = layout.inBuffLen - 1 - s.history.inFeaPos) (hend : m + more + 1 = num) :
    windowRows layout methods y ++ loopRows layout methods s pInFea m more =
      windowRows layout methods (y ++ (List.range num).map pInFea) := by
  have hpos := hseen.saved.inFeaPos_eq
  have hlength : (y ++ (List.range num).map pInFea).length = y.length + num := by
    rw [List.length_append, List.length_map, List.length_range]
  have hcount : (y ++ (List.range num).map pInFea).length - (layout.inBuffLen - 1) =
      y.length - (layout.inBuffLen - 1) + (more + 1) := by omega
  have hrows : ∀ i ≤ more, singleRows layout.inBuffLen s.history pInFea (m + i) =
      window layout.inBuffLen 1 (y.length - (layout.inBuffLen - 1) + i)
        (y ++ (List.range num).map pInFea) := fun i hi ↦ by
    have hk : y.length + (m + i) - (layout.inBuffLen - 1) =
        y.length - (layout.inBuffLen - 1) + i := by omega
    rw [hseen.saved.singleRows_eq pInFea (by omega) (show m + i < num by omega), hk]
  rw [windowRows, windowRows, hcount, List.range_add, List.flatMap_append]
  congr 1
  · apply List.flatMap_congr
    intro k hk
    have hlt := List.mem_range.mp hk
    rw [window_append (by omega)]
  · rw [List.range_succ_eq_map, List.map_cons, List.flatMap_cons, List.map_map, List.flatMap_map,
      loopRows, ← hrows 0 (Nat.zero_le _), hseen.firstOutFrame_eq]
    congr 1
    apply List.flatMap_congr
    intro i hi
    have hlt := List.mem_range.mp hi
    have hfirst : (y.length - (layout.inBuffLen - 1) + (i + 1) == 0) = false := by
      rw [beq_eq_false_iff_ne]
      omega
    rw [hrows (i + 1) (by omega), Function.comp_apply, Nat.succ_eq_add_one, hfirst]

/-- A call after its beginning. -/
theorem filterFea_spec (htotal : Total layout methods) (hwidth : 0 < layout.inBuffLen)
    {s : ZFilter In Out} {pInFea : ℕ → In} {num : ℕ} {y : List In}
    (hseen : Seen layout y (s.begin methods pInFea num)) :
    ∃ t, s.filterFea layout methods pInFea num = some t ∧
      Seen layout (y ++ (List.range num).map pInFea) t ∧
      t.firstInFrame = (s.begin methods pInFea num).firstInFrame ∧
      windowRows layout methods y ++ t.outFea =
        windowRows layout methods (y ++ (List.range num).map pInFea) := by
  have hpos := hseen.saved.inFeaPos_eq
  have hlength : (y ++ (List.range num).map pInFea).length = y.length + num := by
    rw [List.length_append, List.length_map, List.length_range]
  rw [filterFea]
  split_ifs with hmany
  · obtain ⟨more, hmore⟩ := Nat.exists_eq_add_of_lt
      (show layout.inBuffLen - 1 - (s.begin methods pInFea num).history.inFeaPos < num by omega)
    have hloop : num - (layout.inBuffLen - 1 - (s.begin methods pInFea num).history.inFeaPos) =
        more + 1 := by omega
    rw [hloop, filterLoop_eq htotal pInFea hmore.symm, Option.map_some]
    refine ⟨_, rfl, ⟨hseen.saved.saveRows pInFea hmany, ?_⟩, rfl,
      windowRows_append hseen hwidth pInFea rfl hmore.symm⟩
    symm
    rw [beq_eq_false_iff_ne, hlength]
    omega
  · have hshort : (y ++ (List.range num).map pInFea).length - (layout.inBuffLen - 1) =
        y.length - (layout.inBuffLen - 1) := by omega
    have hfilled := hseen.saved.carried.fill ((List.range num).map pInFea)
    rw [List.length_map, List.length_range, ← hshort] at hfilled
    refine ⟨_, rfl, ⟨⟨hfilled⟩, ?_⟩, rfl, ?_⟩
    · rw [hshort]
      exact hseen.firstOutFrame_eq
    · show _ ++ [] = _
      rw [List.append_nil, windowRows, windowRows, hshort]
      apply List.flatMap_congr
      intro k hk
      have hlt := List.mem_range.mp hk
      rw [window_append (by omega)]

/-! ## The first row -/

/-- `OnFirstInFrame` puts the rows `lead` before the stream. -/
structure Leads (layout : Layout) (methods : Methods In Out) (lead : In → List In) : Prop where
  length_le : ∀ a, (lead a).length ≤ layout.inBuffLen - 1
  saved : ∀ a h, h.inFeaPos = 0 → Saved layout.inBuffLen (lead a) (methods.onFirstInFrame a h)

/-- The stream with the rows put before it. -/
def padded (lead : In → List In) : List In → List In
  | [] => []
  | a :: x => lead a ++ a :: x

/-- The filter has seen the rows `x`. -/
structure Inv (layout : Layout) (lead : In → List In) (x : List In) (s : ZFilter In Out) : Prop where
  firstInFrame_iff : s.firstInFrame = true ↔ x = []
  seen : Seen layout (padded lead x) s

theorem inv_of_new (lead : In → List In) {s : ZFilter In Out} (hin : s.firstInFrame = true)
    (hout : s.firstOutFrame = true) (hpos : s.history.inFeaPos = 0) : Inv layout lead [] s where
  firstInFrame_iff := ⟨fun _ ↦ rfl, fun _ ↦ hin⟩
  seen :=
    { saved := ⟨by
        rw [hpos]
        exact ⟨by simp [padded], fun j hj ↦ nomatch hj⟩⟩
      firstOutFrame_eq := by simp [padded, hout] }

/-- The first call with a row puts the rows `lead` before the stream. -/
theorem Inv.begin_first {lead : In → List In} (hleads : Leads layout methods lead)
    {s : ZFilter In Out} (h : Inv layout lead [] s) (pInFea : ℕ → In) {num : ℕ} (hnum : 0 < num) :
    Seen layout (lead (pInFea 0)) (s.begin methods pInFea num) ∧
      padded lead ((List.range num).map pInFea) =
        lead (pInFea 0) ++ (List.range num).map pInFea := by
  have hnew : s.firstInFrame = true := h.firstInFrame_iff.mpr rfl
  have hhistory : (s.begin methods pInFea num).history =
      methods.onFirstInFrame (pInFea 0) s.history := if_pos ⟨hnum, hnew⟩
  have hzero : s.history.inFeaPos = 0 := by
    rw [h.seen.saved.inFeaPos_eq, padded, List.length_nil, Nat.zero_min]
  refine ⟨⟨hhistory ▸ hleads.saved _ _ hzero, ?_⟩, ?_⟩
  · have hout := h.seen.firstOutFrame_eq
    rw [padded, List.length_nil, Nat.zero_sub] at hout
    rw [Nat.sub_eq_zero_of_le (hleads.length_le (pInFea 0))]
    exact hout
  · obtain ⟨more, rfl⟩ := Nat.exists_eq_add_of_lt hnum
    rw [Nat.zero_add, List.range_succ_eq_map]
    rfl

/-- The beginning of a call: from then on the stream is one with the rows put before it. -/
theorem Inv.begin {lead : In → List In} (hleads : Leads layout methods lead) {x : List In}
    {s : ZFilter In Out} (h : Inv layout lead x s) (pInFea : ℕ → In) (num : ℕ) :
    ∃ y, Seen layout y (s.begin methods pInFea num) ∧
      padded lead (x ++ (List.range num).map pInFea) = y ++ (List.range num).map pInFea ∧
      windowRows layout methods y = windowRows layout methods (padded lead x) ∧
      ((s.begin methods pInFea num).firstInFrame = true ↔ x ++ (List.range num).map pInFea = []) := by
  obtain rfl | hnum := Nat.eq_zero_or_pos num
  · refine ⟨padded lead x, ?_, by simp, rfl, by simpa [ZFilter.begin] using h.firstInFrame_iff⟩
    have hhistory : (s.begin methods pInFea 0).history = s.history := by
      simp [ZFilter.begin]
    exact ⟨hhistory ▸ h.seen.saved, h.seen.firstOutFrame_eq⟩
  · have hfirst : (s.begin methods pInFea num).firstInFrame = false := if_pos hnum
    have hnonempty : (List.range num).map pInFea ≠ [] := by
      rw [← List.length_pos_iff, List.length_map, List.length_range]
      exact hnum
    have hflag : (s.begin methods pInFea num).firstInFrame = true ↔
        x ++ (List.range num).map pInFea = [] := by
      rw [hfirst, List.append_eq_nil_iff]
      simp [hnonempty]
    cases x with
    | nil =>
        obtain ⟨hseen, hpadded⟩ := h.begin_first hleads pInFea hnum
        refine ⟨lead (pInFea 0), hseen, hpadded, ?_, hflag⟩
        rw [windowRows_of_short (hleads.length_le (pInFea 0)), padded,
          windowRows_of_short (Nat.zero_le _)]
    | cons a x =>
        have hold : ¬ s.firstInFrame = true := fun htrue ↦
          List.cons_ne_nil _ _ (h.firstInFrame_iff.mp htrue)
        have hhistory : (s.begin methods pInFea num).history = s.history :=
          if_neg fun hboth ↦ hold hboth.2
        refine ⟨padded lead (a :: x), ⟨hhistory ▸ h.seen.saved, h.seen.firstOutFrame_eq⟩, ?_, rfl,
          hflag⟩
        rw [padded, List.append_assoc]
        rfl

/-- A call for a filter in any state. -/
theorem Inv.filterFea {lead : In → List In} (hleads : Leads layout methods lead)
    (htotal : Total layout methods) (hwidth : 0 < layout.inBuffLen) {x : List In}
    {s : ZFilter In Out} (h : Inv layout lead x s) (pInFea : ℕ → In) (num : ℕ) :
    ∃ t, s.filterFea layout methods pInFea num = some t ∧
      Inv layout lead (x ++ (List.range num).map pInFea) t ∧
      windowRows layout methods (padded lead x) ++ t.outFea =
        windowRows layout methods (padded lead (x ++ (List.range num).map pInFea)) := by
  obtain ⟨y, hseen, hpadded, hbefore, hflag⟩ := h.begin hleads pInFea num
  obtain ⟨t, ht, hseen', hfirst, hrows⟩ := filterFea_spec htotal hwidth hseen
  rw [hpadded, ← hbefore]
  refine ⟨t, ht, ⟨?_, ?_⟩, hrows⟩
  · rw [hfirst]
    exact hflag
  · rw [hpadded]
    exact hseen'

end ZFilter

/-! ## Whole runs -/

/-- A call. -/
inductive FilterOp (In : Type)
  | filterFea (pInFea : ℕ → In) (iInFeaNum : ℕ)
  | resetFilter

/-- The rows since the last `ResetFilter`. -/
def rowStream {In : Type} (ops : List (FilterOp In)) : List In :=
  ops.foldl (fun x op ↦
    match op with
    | .filterFea pInFea iInFeaNum => x ++ (List.range iInFeaNum).map pInFea
    | .resetFilter => []) []

/-- A filter with the rows it has given since the last `ResetFilter`. -/
structure Filtering (In Out : Type) where
  filter : ZFilter In Out
  out : List Out

namespace Filtering

variable {In Out : Type} (layout : Layout) (methods : Methods In Out)

/-- The effect of a call, if it has one. -/
def apply (f : Filtering In Out) : FilterOp In → Option (Filtering In Out)
  | .filterFea pInFea iInFeaNum =>
      (f.filter.filterFea layout methods pInFea iInFeaNum).map fun t ↦ ⟨t, f.out ++ t.outFea⟩
  | .resetFilter => some ⟨f.filter.resetFilter, []⟩

/-- A new filter after some calls. -/
def after (memory : ℕ → In) (ops : List (FilterOp In)) : Option (Filtering In Out) :=
  ops.foldlM (apply layout methods) ⟨.create memory, []⟩

variable {layout methods}

theorem after_append (memory : ℕ → In) (ops : List (FilterOp In)) (op : FilterOp In) :
    after layout methods memory (ops ++ [op]) =
      (after layout methods memory ops).bind fun f ↦ f.apply layout methods op := by
  rw [after, List.foldlM_append, ← after]
  show ((after layout methods memory ops).bind fun f ↦ [op].foldlM (apply layout methods) f) = _
  congr 1
  funext f
  simp [List.foldlM_cons, List.foldlM_nil]

/-- For every sequence of calls, what was given since the last `ResetFilter` is what the windows of
the rows since then give. -/
theorem after_spec {lead : In → List In} (hleads : ZFilter.Leads layout methods lead)
    (htotal : ZFilter.Total layout methods) (hwidth : 0 < layout.inBuffLen) (memory : ℕ → In)
    (ops : List (FilterOp In)) :
    ∃ f, after layout methods memory ops = some f ∧
      ZFilter.Inv layout lead (rowStream ops) f.filter ∧
      f.out = ZFilter.windowRows layout methods (ZFilter.padded lead (rowStream ops)) := by
  have hnone : ZFilter.windowRows layout methods (ZFilter.padded lead []) = [] :=
    ZFilter.windowRows_of_short (Nat.zero_le _)
  induction ops using List.reverseRecOn with
  | nil => exact ⟨_, rfl, ZFilter.inv_of_new lead rfl rfl rfl, hnone.symm⟩
  | append_singleton ops op ih =>
      obtain ⟨f, hf, hinv, hout⟩ := ih
      rw [after_append, hf, Option.bind_some, rowStream, List.foldl_concat, ← rowStream]
      cases op with
      | filterFea pInFea num =>
          obtain ⟨t, ht, hinv', hrows⟩ := hinv.filterFea hleads htotal hwidth pInFea num
          refine ⟨⟨t, f.out ++ t.outFea⟩, ?_, hinv', ?_⟩
          · rw [apply, ht, Option.map_some]
          · rw [hout]
            exact hrows
      | resetFilter => exact ⟨_, rfl, ZFilter.inv_of_new lead rfl rfl rfl, hnone.symm⟩

/-- The rows given are what `single` gives for the rows `k` to `k + span` of `y`, for every `k` for
which all of them are there, once each and in order. -/
def Right (span : ℕ) (single : (ℤ → Option In) → Option Out) (y : List In)
    (f : Option (Filtering In Out)) : Prop :=
  ∃ t, f = some t ∧ t.out.map some =
    (List.range (y.length - span)).map fun k ↦ single (entry (window (span + 1) 1 k y))

/-- A filter that gives one row for a window. -/
theorem right_of_single {lead : In → List In} {single : (ℤ → Option In) → Option Out}
    {onFirstInFrame : In → History In → History In}
    (hleads : ZFilter.Leads layout (oneRow onFirstInFrame single) lead)
    {span : ℕ} (hspan : layout.inBuffLen = span + 1)
    (hsingle : ∀ rows : List In, rows.length = span + 1 → (single (entry rows)).isSome)
    (memory : ℕ → In) (ops : List (FilterOp In)) :
    Right span single (ZFilter.padded lead (rowStream ops))
      (after layout (oneRow onFirstInFrame single) memory ops) := by
  have htotal : ZFilter.Total layout (oneRow onFirstInFrame single) := fun rows _ hrows ↦ by
    rw [oneRow, Option.isSome_map]
    exact hsingle rows (hrows.trans hspan)
  obtain ⟨f, hf, -, hout⟩ := after_spec hleads htotal (by omega) memory ops
  refine ⟨f, hf, ?_⟩
  rw [hout, ZFilter.windowRows, hspan, Nat.add_sub_cancel, List.map_flatMap, List.map_eq_flatMap]
  apply List.flatMap_congr
  intro k hk
  have hlt := List.mem_range.mp hk
  obtain ⟨row, hrow⟩ := Option.isSome_iff_exists.mp
    (hsingle (window (span + 1) 1 k (ZFilter.padded lead (rowStream ops))) (by
      rw [window, List.length_take, List.length_drop]
      omega))
  simp [ZFilter.value, oneRow, hrow]

end Filtering

/-! ## `ZFilter_Delt` and `ZFilter_Cmb` -/

/-- The positions for a context on both sides. -/
theorem initFilter_eq {iLeftPos iRightPos : ℤ} (hleft : iLeftPos ≤ 0) (hright : 0 ≤ iRightPos) :
    initFilter iLeftPos iRightPos =
      { inBuffLen := (iRightPos - iLeftPos).toNat + 1
        leftPos := 0
        rightPos := (iRightPos - iLeftPos).toNat
        curPos := (-iLeftPos).toNat } := by
  rw [initFilter, Int.min_eq_left hleft, Int.max_eq_left hright]
  congr 1
  · omega
  · omega
  · omega

theorem isSome_entry {In : Type} {rows : List In} {i : ℤ} (hi : 0 ≤ i) (hlt : i < rows.length) :
    (entry rows i).isSome := by
  rw [entry, if_pos hi, List.getElem?_eq_getElem (by omega), Option.isSome_some]

section
variable {inDim : ℕ}

/-- The slopes need two rows. -/
theorem deltSingle_isSome {layout : Layout} {ll : ℕ} (hll : ll ≤ inDim) {rows : List (Row inDim)}
    (hcur : layout.curPos < rows.length)
    (hends : ll = 0 ∨ layout.leftPos < layout.rightPos ∧ layout.rightPos < rows.length) :
    (deltSingle layout hll (entry rows)).isSome := by
  obtain ⟨cur, hcur'⟩ := Option.isSome_iff_exists.mp
    (isSome_entry (Int.natCast_nonneg layout.curPos) (Int.ofNat_lt.mpr hcur))
  rw [deltSingle, hcur']
  by_cases hzero : ll = 0
  · simp [hzero]
  · obtain ⟨hless, hright⟩ := hends.resolve_left hzero
    obtain ⟨a, ha⟩ := Option.isSome_iff_exists.mp
      (@isSome_entry _ rows layout.rightPos (by omega) (by omega))
    obtain ⟨b, hb⟩ := Option.isSome_iff_exists.mp
      (@isSome_entry _ rows layout.leftPos (by omega) (by omega))
    obtain ⟨c, hc⟩ := Option.isSome_iff_exists.mp
      (@isSome_entry _ rows (layout.rightPos - 1) (by omega) (by omega))
    obtain ⟨d, hd⟩ := Option.isSome_iff_exists.mp
      (@isSome_entry _ rows (layout.leftPos + 1) (by omega) (by omega))
    simp [hzero, ha, hb, hc, hd]

theorem leads_none {In Out : Type} (layout : Layout) (methods : Methods In Out)
    (hfirst : ∀ a h, methods.onFirstInFrame a h = h) :
    ZFilter.Leads layout methods fun _ ↦ [] where
  length_le := fun _ ↦ Nat.zero_le _
  saved := fun a h hpos ↦ ⟨by
    rw [hfirst, hpos]
    exact ⟨by simp, fun j hj ↦ nomatch hj⟩⟩

theorem padded_none {In : Type} (x : List In) : ZFilter.padded (fun _ ↦ []) x = x := by
  cases x <;> rfl

/-- The rows before the first one are copies of it. -/
theorem cmb_leads {layout : Layout} (hleft : layout.leftPos = 0)
    (hcur : layout.curPos ≤ layout.inBuffLen - 1) :
    ZFilter.Leads layout (@cmb inDim layout) fun a ↦ List.replicate layout.curPos a where
  length_le := fun a ↦ by rwa [List.length_replicate]
  saved := fun a h hpos ↦ ⟨by
    rw [List.length_replicate, Nat.sub_eq_zero_of_le hcur]
    show Carried 1 _ 0 (cmbOnFirstInFrame layout a h).inFeaPos (cmbOnFirstInFrame layout a h).inFea
    rw [cmbOnFirstInFrame, hleft]
    split_ifs with hsome
    · refine ⟨by simp, fun j hj ↦ ?_⟩
      dsimp only at hj ⊢
      rw [if_pos ⟨Nat.zero_le j, hj⟩, Nat.zero_mul, Nat.zero_add, List.getElem?_replicate, if_pos hj]
    · refine ⟨by rw [hpos, List.length_replicate]; omega, fun j hj ↦ ?_⟩
      rw [hpos] at hj
      exact absurd hj (Nat.not_lt_zero j)⟩

/-- Reading some entries of an array one by one. -/
theorem mapM_entry {In : Type} (rows : List In) {start n : ℕ} (hn : start + n ≤ rows.length) :
    ((List.range n).mapM fun j : ℕ ↦ entry rows ((start : ℤ) + (j : ℤ))) =
      some ((rows.drop start).take n) := by
  induction n with
  | zero => rfl
  | succ n ih =>
      have hlast : entry rows ((start : ℤ) + (n : ℤ)) = some (rows.get ⟨start + n, by omega⟩) := by
        have hindex : ((start : ℤ) + (n : ℤ)).toNat = start + n := by omega
        rw [entry, if_pos (by omega), hindex, List.getElem?_eq_getElem (by omega)]
        rfl
      have htake : (rows.drop start).take (n + 1) =
          (rows.drop start).take n ++ [rows.get ⟨start + n, by omega⟩] := by
        rw [List.take_add_one, List.getElem?_drop, List.getElem?_eq_getElem (by omega)]
        rfl
      rw [List.range_succ, List.mapM_append, ih (by omega), htake]
      simp [hlast]

theorem cmbSingle_eq {layout : Layout} {rows : List (Row inDim)}
    (hrows : rows.length = layout.inBuffLen) :
    cmbSingle layout (entry rows) = some (rows.flatMap List.ofFn) := by
  have hall := mapM_entry rows (show 0 + layout.inBuffLen ≤ rows.length by omega)
  simp only [Int.natCast_zero, Int.zero_add, List.drop_zero] at hall
  rw [cmbSingle, hall, ← hrows, List.take_length, Option.map_some]

namespace Filtering

/-- **The rows given are those of the windows.** For every context on both sides and all calls, since
the filter is new or since `ResetFilter`: `ZFilter_Delt`, if its window has two rows or it adds no
column, gives its function of the windows of the rows, and `ZFilter_Cmb` that of the windows of the
rows with copies of the first one before them. -/
theorem right_delt_and_cmb {iLeftPos iRightPos : ℤ} (hleft : iLeftPos ≤ 0) (hright : 0 ≤ iRightPos)
    {ll : ℕ} (hll : ll ≤ inDim) (memory : ℕ → Row inDim) (ops : List (FilterOp (Row inDim))) :
    (iLeftPos < iRightPos ∨ ll = 0 →
      Right (iRightPos - iLeftPos).toNat (deltSingle (initFilter iLeftPos iRightPos) hll)
        (rowStream ops)
        (after (initFilter iLeftPos iRightPos) (delt (initFilter iLeftPos iRightPos) hll) memory
          ops)) ∧
    Right (iRightPos - iLeftPos).toNat (cmbSingle (initFilter iLeftPos iRightPos))
      (ZFilter.padded (List.replicate (-iLeftPos).toNat) (rowStream ops))
      (after (initFilter iLeftPos iRightPos) (cmb (initFilter iLeftPos iRightPos)) memory ops) := by
  rw [initFilter_eq hleft hright]
  constructor
  · intro hrows
    have hpadded := padded_none (rowStream ops)
    rw [← hpadded]
    refine right_of_single (leads_none _ _ fun _ _ ↦ rfl) rfl (fun rows hlength ↦ ?_) memory ops
    apply deltSingle_isSome hll
    · dsimp only
      omega
    · dsimp only
      omega
  · refine right_of_single (cmb_leads rfl ?_) rfl (fun rows hlength ↦ ?_) memory ops
    · dsimp only
      omega
    · rw [cmbSingle_eq hlength, Option.isSome_some]

/-- Three calls with a reset, rows with one column that count. -/
def counting : List (FilterOp (Row 1)) :=
  [.filterFea (fun row _ ↦ row) 3, .resetFilter, .filterFea (fun row _ ↦ row) 4,
    .filterFea (fun row _ ↦ row + 4) 2]

/-- The context of the first filter of `ZVtMem`. -/
theorem right_counting :
    Right 4 (deltSingle (initFilter (-2) 2) (Nat.le_refl 1)) (rowStream counting)
      (after (initFilter (-2) 2) (delt (initFilter (-2) 2) (Nat.le_refl 1)) (fun _ _ ↦ 0)
        counting) ∧
    Right 4 (cmbSingle (initFilter (-2) 2))
      (ZFilter.padded (List.replicate 2) (rowStream counting))
      (after (initFilter (-2) 2) (cmb (initFilter (-2) 2)) (fun _ _ ↦ 0) counting) :=
  have h := right_delt_and_cmb (by decide) (by decide) (Nat.le_refl 1) (fun _ _ ↦ 0) counting
  ⟨h.1 (.inl (by decide)), h.2⟩

/-- A window of one row: the slopes read `pFeaIn[-1]` and `pFeaIn[1]` of an array of one entry. -/
theorem not_right_delt :
    ¬ Right ((0 : ℤ) - 0).toNat (deltSingle (initFilter 0 0) (Nat.le_refl 1))
      (rowStream [.filterFea (fun _ _ ↦ 0) 1])
      (after (initFilter 0 0) (delt (initFilter 0 0) (Nat.le_refl 1)) (fun _ _ ↦ 0)
        [.filterFea (fun _ _ ↦ 0) 1]) := by
  rintro ⟨t, ht, -⟩
  have hnone : after (initFilter 0 0) (delt (initFilter 0 0) (Nat.le_refl 1)) (fun _ _ ↦ 0)
      [.filterFea (fun _ _ ↦ 0) 1] = none := rfl
  rw [hnone] at ht
  exact nomatch ht

end Filtering

/-! ## `ZFilter_Norm` -/

/-- A row with mean zero and variance one. -/
def normalise (mean var row : Row inDim) : Row inDim := fun column ↦
  (row column - mean column) / var column

theorem norm_eq {layout : Layout} (mean var : Row inDim) {rows : List (Row inDim)}
    (hrows : rows.length = layout.inBuffLen) (hcur : layout.curPos < layout.inBuffLen)
    (bFirstOutFrm : Bool) :
    (norm layout mean var).doSingleFilter (entry rows) bFirstOutFrm =
      some (((rows.drop (layout.curPos -
          if bFirstOutFrm then layout.curPos - layout.leftPos else 0)).take
        ((if bFirstOutFrm then layout.curPos - layout.leftPos else 0) + 1)).map
          (normalise mean var)) := by
  have hbefore : (if bFirstOutFrm = true then layout.curPos - layout.leftPos else 0) ≤
      layout.curPos := by split_ifs <;> omega
  show Option.map _ (List.mapM _ _) = _
  generalize (if bFirstOutFrm = true then layout.curPos - layout.leftPos else 0) = before at hbefore ⊢
  have hread := mapM_entry rows
    (show layout.curPos - before + (before + 1) ≤ rows.length by omega)
  rw [Int.natCast_sub hbefore] at hread
  rw [hread]
  rfl

/-- The rows of the first `n` windows: the first one also gives those before its current row. -/
theorem flatMap_norm {layout : Layout} (mean var : Row inDim) (x : List (Row inDim))
    (hleft : layout.leftPos = 0) (hcur : layout.curPos < layout.inBuffLen) {n : ℕ}
    (hn : n ≤ x.length - (layout.inBuffLen - 1)) :
    ((List.range n).flatMap fun k ↦
        ZFilter.value (norm layout mean var) (window layout.inBuffLen 1 k x) (k == 0)) =
      (x.take (if n = 0 then 0 else layout.curPos + n)).map (normalise mean var) := by
  induction n with
  | zero => simp
  | succ n ih =>
      have hlength : (window layout.inBuffLen 1 n x).length = layout.inBuffLen := by
        rw [window, List.length_take, List.length_drop]
        omega
      rw [List.range_succ, List.flatMap_append, ih (by omega), List.flatMap_singleton, ZFilter.value,
        norm_eq mean var hlength hcur, Option.getD_some, ← List.map_append, if_neg (Nat.succ_ne_zero n)]
      congr 1
      obtain rfl | hpos := Nat.eq_zero_or_pos n
      · rw [if_pos rfl, List.take_zero, List.nil_append, hleft, window]
        simp only [beq_self_eq_true, if_true, Nat.sub_zero, Nat.sub_self, Nat.zero_mul,
          List.drop_zero, List.take_take]
        congr 1
        omega
      · have hfirst : (n == 0) = false := by
          rw [beq_eq_false_iff_ne]
          omega
        have hone : (((x.drop n).take layout.inBuffLen).drop layout.curPos).take 1 =
            (x.drop (layout.curPos + n)).take 1 := by
          rw [List.drop_take, List.take_take, List.drop_drop]
          congr 1
          · omega
          · rw [Nat.add_comm]
        rw [if_neg (by omega), hfirst, window, Nat.mul_one]
        simp only [Bool.false_eq_true, if_false, Nat.sub_zero, Nat.zero_add]
        rw [hone, ← List.take_add, Nat.add_assoc]

/-- **The rows are normalised one by one.** `ZFilter_Norm` gives every row but the last `iRightPos`
ones in its normalised form, from the first complete window on. -/
theorem Filtering.norm_right {iLeftPos iRightPos : ℤ} (hleft : iLeftPos ≤ 0) (hright : 0 ≤ iRightPos)
    (mean var : Row inDim) (memory : ℕ → Row inDim) (ops : List (FilterOp (Row inDim))) :
    ∃ f, Filtering.after (initFilter iLeftPos iRightPos) (norm (initFilter iLeftPos iRightPos) mean var)
        memory ops = some f ∧
      f.out = if ((rowStream ops).length : ℤ) ≤ iRightPos - iLeftPos then []
        else ((rowStream ops).take ((rowStream ops).length - iRightPos.toNat)).map
          (normalise mean var) := by
  rw [initFilter_eq hleft hright]
  set layout : Layout := ⟨(iRightPos - iLeftPos).toNat + 1, 0, (iRightPos - iLeftPos).toNat,
    (-iLeftPos).toNat⟩ with hlayout
  have hcur : layout.curPos < layout.inBuffLen := by
    rw [hlayout]
    dsimp only
    omega
  obtain ⟨f, hf, -, hout⟩ := Filtering.after_spec
    (leads_none layout (norm layout mean var) fun _ _ ↦ rfl)
    (fun rows first hrows ↦ by rw [norm_eq mean var hrows hcur]; rfl) (by omega) memory ops
  refine ⟨f, hf, ?_⟩
  rw [hout, padded_none, ZFilter.windowRows, flatMap_norm mean var _ rfl hcur (Nat.le_refl _)]
  have hspan : layout.inBuffLen - 1 = (iRightPos - iLeftPos).toNat := rfl
  have hback : layout.curPos = (-iLeftPos).toNat := rfl
  rw [hspan, hback]
  split_ifs with hcount hshort hshort
  · rw [List.take_zero, List.map_nil]
  · omega
  · omega
  · congr 2
    omega

end

end Vsys.Fea
