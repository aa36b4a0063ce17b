import Vsys.Dnn.Evaluate
import Vsys.Trace.Run
import Mathlib.Algebra.Order.Ring.Rat
import Mathlib.Algebra.Field.Rat

/-!
# Batch and single evaluation

A batch computes the network for each of its rows, and so does a single evaluation, whatever the
memories hold: every layer overwrites the entries of its result, and the lanes of a block that stand
for no entry meet only the zero padding of the weights.

Each layer has one lemma for each path, `Component.propagateMat_spec` and
`Component.propagateVec_spec`, and the network the two inductions over its layers.
-/

namespace Vsys.Dnn

open Vsys.Mat Vsys.Trace

open scoped BigOperators

variable {R : Type*} [Field R]

/-! ## Shapes -/

/-- A matrix in blocks that was made for `row` rows, and has as many now. -/
structure Shaped (row col : ℕ) (m : ZMatNeon R) : Prop where
  trans : m.trans = false
  row_eq : m.row = row
  col_eq : m.col = col
  zeroPosLst : m.zeroPosLst = (ZMatNeon.create row col false : ZMatNeon R).zeroPosLst

namespace Shaped

variable {row col : ℕ} {m : ZMatNeon R}

theorem create (row col : ℕ) : Shaped row col (ZMatNeon.create row col false : ZMatNeon R) :=
  ⟨rfl, rfl, rfl, rfl⟩

theorem rowNeon (h : Shaped row col m) : m.rowNeon = blocks row := by
  simp only [ZMatNeon.rowNeon, h.trans, h.row_eq, Bool.false_eq_true, if_false]

theorem colNeon (h : Shaped row col m) : m.colNeon = blocks col := by
  simp only [ZMatNeon.colNeon, h.trans, h.col_eq, Bool.false_eq_true, if_false]

theorem row_div_lt (h : Shaped row col m) {r : ℕ} (hr : r < row) : r / 4 < m.rowNeon :=
  h.rowNeon ▸ div_lt_blocks hr

theorem col_div_lt (h : Shaped row col m) {c : ℕ} (hc : c < col) : c / 4 < m.colNeon :=
  h.colNeon ▸ div_lt_blocks hc

/-- The entries after `CopyFrom`. -/
theorem entry_copyFrom (h : Shaped row col m) (a : ZMat R) {r c : ℕ} (hr : r < row) (hc : c < col) :
    (m.copyFrom a).entry r c = a.data r c := by
  rw [ZMatNeon.entry_copyFrom h.trans a (h.row_div_lt hr) (h.col_div_lt hc), h.row_eq, if_pos hr]

/-- The entries as `CopyTo` gives them. -/
theorem data_copyTo (h : Shaped row col m) (a : ZMat R) {r c : ℕ} (hr : r < row) (hc : c < col) :
    (m.copyTo a).data r c = m.entry r c :=
  ZMatNeon.data_copyTo h.trans a (h.row_eq.symm ▸ hr) (h.col_eq.symm ▸ hc)

/-- Only the entries are written. -/
theorem withData (h : Shaped row col m) (data : ℕ → ℕ → R) : Shaped row col { m with data := data } :=
  ⟨h.trans, h.row_eq, h.col_eq, h.zeroPosLst⟩

end Shaped

/-- An activation that goes over all lanes of a batch. -/
theorem entry_copy_rowActive {batch m : ℕ} {out matIn : ZMatNeon R} (hout : Shaped batch m out)
    (hin : Shaped batch m matIn) (f : R → R) {r c : ℕ} (hr : r < batch) (hc : c < m) :
    ((out.copy matIn).rowActive f).entry r c = f (matIn.entry r c) := by
  have hzero : (out.copy matIn).zeroPosLst =
      (ZMatNeon.create batch (out.copy matIn).col false : ZMatNeon R).zeroPosLst :=
    hout.zeroPosLst.trans (by rw [← hout.col_eq]; rfl)
  have hactive := ZMatNeon.entry_rowActive (m := out.copy matIn) hout.trans hzero f hr
    (hout.row_eq.symm ▸ hr) (hout.col_eq.symm ▸ hc)
  rw [hactive, ZMatNeon.entry_copy (hin.colNeon.trans hout.colNeon.symm) (hout.row_div_lt hr)
    (hout.col_div_lt hc)]

/-! ## Memories -/

/-- The memory of a layer has the dimensions of the layer and of the batch. -/
structure ComponentMemory.Fits (svdDim outputDim batch : ℕ) (mem : ComponentMemory R) : Prop where
  frmNumTotal : mem.frmNumTotal = batch
  matOutNeon : Shaped batch outputDim mem.matOutNeon
  matOut_row : mem.matOut.row = batch
  matOut_col : mem.matOut.col = outputDim
  vecOut : mem.vecOut.size = outputDim
  matOutSvdNeon : Shaped batch svdDim mem.matOutSvdNeon
  vecOutSvd : mem.vecOutSvd.size = svdDim

namespace ComponentMemory

variable {svdDim outputDim batch : ℕ} {mem : ComponentMemory R}

theorem fits_create (svdDim outputDim batch : ℕ) :
    Fits svdDim outputDim batch (create svdDim outputDim batch : ComponentMemory R) where
  frmNumTotal := rfl
  matOutNeon := Shaped.create batch outputDim
  matOut_row := rfl
  matOut_col := rfl
  vecOut := rfl
  matOutSvdNeon := Shaped.create batch svdDim
  vecOutSvd := rfl

theorem Fits.configMem (h : Fits svdDim outputDim batch mem) :
    Fits svdDim outputDim batch (mem.configMem svdDim outputDim batch) := by
  have hreserve : mem.reserve svdDim outputDim batch = mem := by
    rw [reserve, h.frmNumTotal, if_neg (Nat.lt_irrefl _)]
  rw [ComponentMemory.configMem, hreserve]
  exact {
    frmNumTotal := h.frmNumTotal
    matOutNeon := ⟨h.matOutNeon.trans, rfl, h.matOutNeon.col_eq, h.matOutNeon.zeroPosLst⟩
    matOut_row := rfl
    matOut_col := h.matOut_col
    vecOut := h.vecOut
    matOutSvdNeon := ⟨h.matOutSvdNeon.trans, rfl, h.matOutSvdNeon.col_eq, h.matOutSvdNeon.zeroPosLst⟩
    vecOutSvd := h.vecOutSvd }

/-- A new result for a batch, of the same shape. -/
theorem Fits.setMat (h : Fits svdDim outputDim batch mem) {matOutNeon : ZMatNeon R}
    (hnew : Shaped batch outputDim matOutNeon) :
    Fits svdDim outputDim batch { mem with matOutNeon := matOutNeon } :=
  { h with matOutNeon := hnew }

/-- A new result for a row, of the same size. -/
theorem Fits.setVec (h : Fits svdDim outputDim batch mem) {vecOut : ZVec R}
    (hnew : vecOut.size = outputDim) : Fits svdDim outputDim batch { mem with vecOut := vecOut } :=
  { h with vecOut := hnew }

end ComponentMemory

namespace Layers

/-- The memories of all layers have the right dimensions. -/
def Fits (batch : ℕ) {n m : ℕ} : (layers : Layers R n m) → layers.Memory → Prop
  | .nil _, _ => True
  | .cons (k := k) c rest, mems => mems.1.Fits c.svdDim k batch ∧ rest.Fits batch mems.2

theorem fits_createMemory (batch : ℕ) {n m : ℕ} (layers : Layers R n m) :
    layers.Fits batch (layers.createMemory batch) := by
  induction layers with
  | nil n => trivial
  | cons c rest ih => exact ⟨ComponentMemory.fits_create _ _ _, ih⟩

end Layers

namespace Nnet.Memory

variable {n m : ℕ} {net : Nnet R n m} {batch : ℕ} {s : net.Memory}

/-- The dimensions of all matrices and vectors are those of the network and the batch. -/
structure Fits (batch : ℕ) (s : net.Memory) : Prop where
  memorys : net.layers.Fits batch s.memorys
  matInBatch : s.matInBatch.row = batch
  matInBatchNeon : Shaped batch n s.matInBatchNeon
  matOutBatch_row : s.matOutBatch.row = batch
  matOutBatch_col : s.matOutBatch.col = m
  vecOutSingle : s.vecOutSingle.size = m

theorem fits_create (net : Nnet R n m) (batch : ℕ) : Fits batch (create net batch) where
  memorys := net.layers.fits_createMemory batch
  matInBatch := rfl
  matInBatchNeon := Shaped.create batch n
  matOutBatch_row := rfl
  matOutBatch_col := rfl
  vecOutSingle := rfl

theorem Fits.setBatch (h : Fits batch s) (rows : ℕ → ℕ → R) : Fits batch (s.setBatch rows) :=
  { h with matInBatch := h.matInBatch }

theorem Fits.setSingle (h : Fits batch s) (row : ℕ → R) : Fits batch (s.setSingle row) := { h with }

end Nnet.Memory

/-! ## Products with biases -/

namespace Dense

variable {n m : ℕ} (d : Dense R n m)

theorem weightsNeonT_rowNeon : d.weightsNeonT.rowNeon = blocks m := by
  rw [weightsNeonT]
  split <;> rfl

theorem weightsNeonT_colNeon : d.weightsNeonT.colNeon = blocks n := by
  rw [weightsNeonT]
  split <;> rfl

/-- The weights as the second factor, padded with zero rows. -/
theorem weightsNeon_entry {p c : ℕ} (hp : p / 4 < blocks n) (hc : c < m) :
    d.weightsNeon.entry p c = if p < n then d.weight p c else 0 := by
  have hc4 := div_lt_blocks hc
  rw [weightsNeon, weight, mat]
  split
  · rw [ZMatNeon.entry_copyFrom_trans rfl _ hp hc4]
    simp only [ZMatNeon.create, ZMat.read, hc, true_and, if_true]
  · rw [ZMatNeon.entry_copyFrom rfl _ hp hc4]
    simp only [ZMatNeon.create, ZMat.read, hc, and_true]
    split <;> rfl

/-- The transposed weights as the first factor, padded with zero columns. -/
theorem weightsNeonT_entry {p c : ℕ} (hp : p / 4 < blocks n) (hc : c < m) :
    d.weightsNeonT.entry c p = if p < n then d.weight p c else 0 := by
  have hc4 := div_lt_blocks hc
  rw [weightsNeonT, weight, mat]
  split
  · rw [ZMatNeon.entry_copyFrom rfl _ hc4 hp]
    simp only [ZMatNeon.create, ZMat.read, hc, true_and, if_true]
  · rw [ZMatNeon.entry_copyFrom_trans rfl _ hc4 hp]
    simp only [ZMatNeon.create, ZMat.read, hc, and_true]
    split <;> rfl

/-- The biases are in every row. -/
theorem biasesNeon_data {c : ℕ} (hc : c < m) (r : ℕ) :
    d.biasesNeon.data (c / 4) (c % 4 * 4 + r % 4) = d.biases c := by
  have hshape : Shaped 4 m (ZMatNeon.create 4 m false : ZMatNeon R) := Shaped.create 4 m
  have hr : r % 4 < 4 := Nat.mod_lt _ (by decide)
  have hentry := hshape.entry_copyFrom ((ZMat.create 4 m).rowCopy d.biasesVec) hr hc
  have hbias : ((ZMat.create 4 m : ZMat R).rowCopy d.biasesVec).data (r % 4) c = d.biases c := by
    simp only [ZMat.rowCopy, ZMat.rowMap, ZMat.create, hr, hc, and_self, if_true, biasesVec, ZVec.read]
  have hzero : r % 4 / 4 = 0 := Nat.div_eq_of_lt hr
  rw [hbias, ZMatNeon.entry, hzero, Nat.zero_mul, Nat.zero_add, Nat.mod_mod] at hentry
  exact hentry

/-- The product for a batch, row by row. -/
theorem propagateMat_entry {batch : ℕ} {out matIn : ZMatNeon R} (hout : Shaped batch m out)
    (hin : Shaped batch n matIn) {r c : ℕ} (hr : r < batch) (hc : c < m) :
    (d.propagateMat out matIn).entry r c = d.eval (matIn.entry r) c := by
  have hweight : ∀ p, p < 4 * matIn.colNeon → d.weightsNeon.entry p c = if p < n then d.weight p c else 0 := by
    intro p hp
    rw [hin.colNeon] at hp
    exact d.weightsNeon_entry (by omega) hc
  have hcol : (out.rowCopyN d.biasesNeon).colNeon = d.weightsNeon.colNeon := by
    rw [weightsNeon_colNeon, ← hout.colNeon]
    rfl
  have hn : n ≤ 4 * matIn.colNeon := hin.colNeon ▸ le_blocks n
  have hprod := ZMatNeon.entry_addAB (m := out.rowCopyN d.biasesNeon) (b := d.weightsNeon) hcol hn
    (hin.row_div_lt hr) (d.weightsNeon_colNeon ▸ div_lt_blocks hc)
    (fun p hp hlt ↦ by rw [hweight p hlt, if_neg (by omega)])
  rw [propagateMat, hprod, ZMatNeon.entry_rowCopyN (hout.row_div_lt hr) (hout.col_div_lt hc),
    biasesNeon_data d hc, eval]
  congr 1
  apply Finset.sum_congr rfl
  intro p hp
  have hp := Finset.mem_range.mp hp
  rw [hweight p (by omega), if_pos hp]

/-- The product for a row. -/
theorem propagateVec_data {out : ZVec R} (vecIn : ZVec R) (hout : out.size = m) {c : ℕ}
    (hc : c < m) :
    (d.propagateVec out vecIn).data c = d.eval vecIn.data c := by
  have hweight : ∀ p, p < 4 * d.weightsNeonT.colNeon →
      d.weightsNeonT.entry c p = if p < n then d.weight p c else 0 := by
    intro p hp
    rw [weightsNeonT_colNeon] at hp
    exact d.weightsNeonT_entry (by omega) hc
  have hn : n ≤ 4 * d.weightsNeonT.colNeon := d.weightsNeonT_colNeon ▸ le_blocks n
  have hrow : c < 4 * d.weightsNeonT.rowNeon := by
    rw [weightsNeonT_rowNeon]
    have hm := le_blocks m
    omega
  have hbias : (out.copy d.biasesVec).data c = d.biases c := by
    have hlt : c < blocks out.size * 4 := by
      have hm := le_blocks m
      rw [hout]
      omega
    simp only [ZVec.copy, hlt, if_true, biasesVec, ZVec.read, hc]
  rw [propagateVec, ZMatNeon.data_addAX hn hrow (fun p hp hlt ↦ by rw [hweight p hlt, if_neg (by omega)]),
    hbias, eval]
  congr 1
  apply Finset.sum_congr rfl
  intro p hp
  have hp := Finset.mem_range.mp hp
  rw [hweight p (by omega), if_pos hp, mul_comm]

end Dense

section
variable {n m batch : ℕ} {mem : ComponentMemory R} {matIn : ZMatNeon R}

/-- The products of a linear layer for a batch. -/
theorem LinearTransform.product_propagateMat (l : LinearTransform R n m)
    (h : mem.Fits (Component.linear l).svdDim m batch) (hin : Shaped batch n matIn) :
    (l.product.propagateMat mem matIn).Fits (Component.linear l).svdDim m batch ∧
      ∀ r < batch, ∀ j < m,
        (l.product.propagateMat mem matIn).matOutNeon.entry r j = l.product.eval (matIn.entry r) j := by
  obtain ⟨product, ln, acn⟩ := l
  cases product with
  | plain d =>
      have hshape := h.matOutNeon
      refine ⟨h.setMat (hshape.withData _), ?_⟩
      exact fun r hr j hj ↦ d.propagateMat_entry hshape hin hr hj
  | svd svdDim first second =>
      have hshape := h.matOutNeon
      have hsvd : Shaped batch svdDim mem.matOutSvdNeon := h.matOutSvdNeon
      have hfirst : Shaped batch svdDim (first.propagateMat mem.matOutSvdNeon matIn) :=
        hsvd.withData _
      refine ⟨?_, ?_⟩
      · exact { h with
          matOutNeon := hshape.withData _
          matOutSvdNeon := hfirst }
      · intro r hr j hj
        have hentry := second.propagateMat_entry hshape hfirst hr hj
        rw [second.eval_congr fun p hp ↦ first.propagateMat_entry hsvd hin hr hp] at hentry
        exact hentry

/-- The products of a linear layer for a row. -/
theorem LinearTransform.product_propagateVec (l : LinearTransform R n m) (vecIn : ZVec R)
    (h : mem.Fits (Component.linear l).svdDim m batch) :
    (l.product.propagateVec mem vecIn).Fits (Component.linear l).svdDim m batch ∧
      ∀ j < m, (l.product.propagateVec mem vecIn).vecOut.data j = l.product.eval vecIn.data j := by
  obtain ⟨product, ln, acn⟩ := l
  cases product with
  | plain d =>
      refine ⟨h.setVec h.vecOut, ?_⟩
      exact fun j hj ↦ d.propagateVec_data _ h.vecOut hj
  | svd svdDim first second =>
      have hsvd : mem.vecOutSvd.size = svdDim := h.vecOutSvd
      refine ⟨{ h with vecOut := h.vecOut, vecOutSvd := hsvd }, ?_⟩
      intro j hj
      have hdata := second.propagateVec_data (first.propagateVec mem.vecOutSvd vecIn) h.vecOut hj
      rw [second.eval_congr fun p hp ↦ first.propagateVec_data vecIn hsvd hp] at hdata
      exact hdata

end

/-! ## Functions of a row -/

variable (F : Functions R)

theorem LayerNorm.propagateMat_data (ln : LayerNorm R) {a : ZMat R} {i j : ℕ} (hi : i < a.row)
    (hj : j < a.col) : (ln.propagateMat F a).data i j = ln.eval F a.col (a.data i) j := by
  simp only [LayerNorm.propagateMat, ZMat.rowMap, hi, hj, and_self, if_true, LayerNorm.eval]

theorem LayerNorm.propagateVec_data (ln : LayerNorm R) {y : ZVec R} {j : ℕ} (hj : j < y.size) :
    (ln.propagateVec F y).data j = ln.eval F y.size y.data j := by
  simp only [LayerNorm.propagateVec, ZVec.rowMap, hj, if_true, LayerNorm.eval]

theorem Nnet.processPriorMat_data {n m : ℕ} (net : Nnet R n m) {a : ZMat R} (hcol : a.col = m)
    {i j : ℕ} (hi : i < a.row) (hj : j < m) :
    (net.processPriorMat F a).data i j = net.priorRow F (a.data i) j := by
  subst hcol
  simp only [Nnet.processPriorMat, Nnet.priorRow, Nnet.snRow]
  cases net.sn <;> cases net.prior <;> simp only [ZMat.rowMap, hi, hj, and_self, if_true]

theorem Nnet.processPriorVec_data {n m : ℕ} (net : Nnet R n m) {y : ZVec R} (hsize : y.size = m)
    {j : ℕ} (hj : j < m) : (net.processPriorVec F y).data j = net.priorRow F y.data j := by
  subst hsize
  simp only [Nnet.processPriorVec, Nnet.priorRow, Nnet.snRow]
  cases net.sn <;> cases net.prior <;> simp only [ZVec.rowMap, hj, if_true]

theorem Nnet.processPriorMat_frame {n m : ℕ} (net : Nnet R n m) (a : ZMat R) :
    (net.processPriorMat F a).row = a.row ∧ (net.processPriorMat F a).col = a.col := by
  simp only [Nnet.processPriorMat]
  cases net.sn <;> cases net.prior <;> exact ⟨rfl, rfl⟩

theorem Nnet.processPriorVec_size {n m : ℕ} (net : Nnet R n m) (y : ZVec R) : (net.processPriorVec F y).size = y.size := by
  simp only [Nnet.processPriorVec]
  cases net.sn <;> cases net.prior <;> rfl

variable [LinearOrder R]

namespace LinearTransform

variable {n m : ℕ} (l : LinearTransform R n m)

theorem finishMat_data {a : ZMat R} (hcol : a.col = m) {i j : ℕ} (hi : i < a.row) (hj : j < m) :
    (l.finishMat F a).data i j = l.acn.row F m (l.norm F (a.data i)) j := by
  subst hcol
  simp only [finishMat, norm]
  cases l.ln with
  | none => exact ZMat.rowMap_data _ hi hj
  | some ln =>
      have hrow : Agree a.col ((ln.propagateMat F a).data i) (ln.eval F a.col (a.data i)) :=
        fun k hk ↦ ln.propagateMat_data F hi hk
      have hi' : i < (ln.propagateMat F a).row := hi
      exact (ZMat.rowMap_data _ hi' hj).trans (l.acn.row_congr F hrow j hj)

theorem finishVec_data {y : ZVec R} (hsize : y.size = m) {j : ℕ} (hj : j < m) :
    (l.finishVec F y).data j = l.acn.row F m (l.norm F y.data) j := by
  subst hsize
  simp only [finishVec, norm]
  cases l.ln with
  | none => exact ZVec.rowMap_data _ hj
  | some ln =>
      have hrow : Agree y.size (ln.propagateVec F y).data (ln.eval F y.size y.data) :=
        fun k hk ↦ ln.propagateVec_data F hk
      have hj' : j < (ln.propagateVec F y).size := hj
      exact (ZVec.rowMap_data _ hj').trans (l.acn.row_congr F hrow j hj)

theorem finishMat_frame (a : ZMat R) : (l.finishMat F a).row = a.row ∧ (l.finishMat F a).col = a.col := by
  simp only [finishMat]
  cases l.ln <;> exact ⟨rfl, rfl⟩

theorem finishVec_size (y : ZVec R) : (l.finishVec F y).size = y.size := by
  simp only [finishVec]
  cases l.ln <;> rfl

end LinearTransform

/-! ## Layers -/

section Layers
variable {n m batch : ℕ} {mem : ComponentMemory R} {matIn : ZMatNeon R}

theorem LinearTransform.propagateMat_spec (l : LinearTransform R n m)
    (h : mem.Fits (Component.linear l).svdDim m batch) (hin : Shaped batch n matIn) :
    (l.propagateMat F mem matIn).Fits (Component.linear l).svdDim m batch ∧
      ∀ r < batch, Agree m ((l.propagateMat F mem matIn).matOutNeon.entry r) (l.eval F (matIn.entry r)) := by
  obtain ⟨hfits, hentry⟩ := l.product_propagateMat h hin
  have hshape := hfits.matOutNeon
  let copied := (l.product.propagateMat mem matIn).matOutNeon.copyTo
    (l.product.propagateMat mem matIn).matOut
  have hcopied_row : copied.row = batch := hfits.matOut_row
  have hcopied_col : copied.col = m := hfits.matOut_col
  obtain ⟨hrow, hcol⟩ := l.finishMat_frame F copied
  refine ⟨?_, ?_⟩
  · exact { hfits with
      matOutNeon := hshape.withData _
      matOut_row := hrow.trans hcopied_row
      matOut_col := hcol.trans hcopied_col }
  · intro r hr j hj
    have hcopied : Agree m (copied.data r) (l.product.eval (matIn.entry r)) := by
      intro k hk
      rw [hshape.data_copyTo _ hr hk, hentry r hr k hk]
    calc (l.propagateMat F mem matIn).matOutNeon.entry r j
        = (l.finishMat F copied).data r j := hshape.entry_copyFrom _ hr hj
      _ = l.acn.row F m (l.norm F (copied.data r)) j :=
          l.finishMat_data F hcopied_col (hcopied_row.symm ▸ hr) hj
      _ = l.eval F (matIn.entry r) j := l.acn.row_congr F (l.norm_congr F hcopied) j hj

theorem LinearTransform.propagateVec_spec (l : LinearTransform R n m) (vecIn : ZVec R)
    (h : mem.Fits (Component.linear l).svdDim m batch) :
    (l.propagateVec F mem vecIn).Fits (Component.linear l).svdDim m batch ∧
      Agree m (l.propagateVec F mem vecIn).vecOut.data (l.eval F vecIn.data) := by
  obtain ⟨hfits, hdata⟩ := l.product_propagateVec vecIn h
  refine ⟨hfits.setVec ((l.finishVec_size F _).trans hfits.vecOut), ?_⟩
  intro j hj
  calc (l.propagateVec F mem vecIn).vecOut.data j
      = l.acn.row F m (l.norm F (l.product.propagateVec mem vecIn).vecOut.data) j :=
        l.finishVec_data F hfits.vecOut hj
    _ = l.eval F vecIn.data j := l.acn.row_congr F (l.norm_congr F hdata) j hj

/-- **A layer on a batch.** Each row of the result is the layer's function of the same row of the
input. -/
theorem Component.bodyMat_spec (c : Component R n m) (h : mem.Fits c.svdDim m batch)
    (hin : Shaped batch n matIn) :
    (c.bodyMat F mem matIn).Fits c.svdDim m batch ∧
      ∀ r < batch, Agree m ((c.bodyMat F mem matIn).matOutNeon.entry r) (c.eval F (matIn.entry r)) := by
  have hshape := h.matOutNeon
  cases c with
  | sigmoid =>
      refine ⟨h.setMat (hshape.withData _), ?_⟩
      exact fun r hr j hj ↦ entry_copy_rowActive hshape hin F.sigmoid hr hj
  | tanh =>
      refine ⟨h.setMat (hshape.withData _), ?_⟩
      exact fun r hr j hj ↦ entry_copy_rowActive hshape hin F.tanh hr hj
  | relu =>
      refine ⟨h.setMat (hshape.withData _), ?_⟩
      intro r hr j hj
      have hlane := ZMatNeon.entry_laneMap (mem.matOutNeon.copy matIn) Dnn.relu
        (hshape.row_div_lt hr) (hshape.col_div_lt hj)
      rw [ZMatNeon.entry_copy (hin.colNeon.trans hshape.colNeon.symm) (hshape.row_div_lt hr)
        (hshape.col_div_lt hj)] at hlane
      exact hlane
  | softMax =>
      refine ⟨?_, ?_⟩
      · exact { h with
          matOutNeon := hshape.withData _
          matOut_row := h.matOut_row
          matOut_col := h.matOut_col }
      · intro r hr j hj
        let copied := matIn.copyTo mem.matOut
        have hcopied : Agree n (copied.data r) (matIn.entry r) := fun k hk ↦ hin.data_copyTo _ hr hk
        have hrow : r < copied.row := h.matOut_row.symm ▸ hr
        have hcol : j < copied.col := h.matOut_col.symm ▸ hj
        calc ((Component.softMax n).bodyMat F mem matIn).matOutNeon.entry r j
            = (copied.rowMap (Dnn.softMax F mem.matOut.col)).data r j := hshape.entry_copyFrom _ hr hj
          _ = Dnn.softMax F mem.matOut.col (copied.data r) j := ZMat.rowMap_data _ hrow hcol
          _ = Dnn.softMax F n (copied.data r) j := by rw [h.matOut_col]
          _ = (Component.softMax n).eval F (matIn.entry r) j := Acn.row_congr F .softmax hcopied j hj
  | affine d =>
      refine ⟨h.setMat (hshape.withData _), ?_⟩
      exact fun r hr j hj ↦ d.propagateMat_entry hshape hin hr hj
  | linear l => exact l.propagateMat_spec F h hin

theorem Component.propagateMat_spec (c : Component R n m) (h : mem.Fits c.svdDim m batch)
    (hin : Shaped batch n matIn) :
    (c.propagateMat F mem matIn).Fits c.svdDim m batch ∧
      ∀ r < batch, Agree m ((c.propagateMat F mem matIn).matOutNeon.entry r) (c.eval F (matIn.entry r)) := by
  rw [Component.propagateMat, hin.row_eq]
  exact c.bodyMat_spec F h.configMem hin

/-- A layer whose single form copies the row and applies a function to it. -/
theorem copy_rowMap_data {vecOut vecIn : ZVec R} (hsize : vecOut.size = n) (acn : Acn)
    {f : (ℕ → R) → ℕ → R} (hf : f = acn.row F n) :
    Agree n ((vecOut.copy vecIn).rowMap f).data (acn.row F n vecIn.data) := by
  intro j hj
  have hcopied : Agree n (vecOut.copy vecIn).data vecIn.data :=
    fun k hk ↦ ZVec.copy_data (hsize.symm ▸ hk)
  have hj' : j < (vecOut.copy vecIn).size := hsize.symm ▸ hj
  rw [ZVec.rowMap_data f hj', hf]
  exact acn.row_congr F hcopied j hj

/-- **A layer on a row.** -/
theorem Component.propagateVec_spec (c : Component R n m) (vecIn : ZVec R)
    (h : mem.Fits c.svdDim m batch) :
    (c.propagateVec F mem vecIn).Fits c.svdDim m batch ∧
      Agree m (c.propagateVec F mem vecIn).vecOut.data (c.eval F vecIn.data) := by
  cases c with
  | sigmoid => exact ⟨h.setVec h.vecOut, copy_rowMap_data F h.vecOut .sigmoid rfl⟩
  | tanh => exact ⟨h.setVec h.vecOut, copy_rowMap_data F h.vecOut .tanh rfl⟩
  | relu => exact ⟨h.setVec h.vecOut, copy_rowMap_data F h.vecOut .relu rfl⟩
  | softMax =>
      refine ⟨h.setVec h.vecOut, copy_rowMap_data F h.vecOut .softmax ?_⟩
      rw [h.vecOut]
      rfl
  | affine d => exact ⟨h.setVec h.vecOut, fun j hj ↦ d.propagateVec_data _ h.vecOut hj⟩
  | linear l => exact l.propagateVec_spec F vecIn h

end Layers

/-! ## Networks -/

namespace Layers

theorem propagateMat_spec {batch n m : ℕ} (layers : Layers R n m) {mems : layers.Memory}
    (h : layers.Fits batch mems) {matIn : ZMatNeon R} (hin : Shaped batch n matIn) :
    layers.Fits batch (layers.propagateMat F mems matIn).1 ∧
      Shaped batch m (layers.propagateMat F mems matIn).2 ∧
      ∀ r < batch, Agree m ((layers.propagateMat F mems matIn).2.entry r) (layers.eval F (matIn.entry r)) := by
  induction layers generalizing matIn with
  | nil n => exact ⟨trivial, hin, fun r _ j _ ↦ rfl⟩
  | cons c rest ih =>
      obtain ⟨hmem, hrows⟩ := c.propagateMat_spec F h.1 hin
      obtain ⟨hlater, hshape, hout⟩ := ih h.2 hmem.matOutNeon
      refine ⟨⟨hmem, hlater⟩, hshape, ?_⟩
      exact fun r hr ↦ (hout r hr).trans (rest.eval_congr F (hrows r hr))

theorem propagateVec_spec {batch n m : ℕ} (layers : Layers R n m) {mems : layers.Memory}
    (h : layers.Fits batch mems) (vecIn : ZVec R) :
    layers.Fits batch (layers.propagateVec F mems vecIn).1 ∧
      Agree m (layers.propagateVec F mems vecIn).2.data (layers.eval F vecIn.data) := by
  induction layers generalizing vecIn with
  | nil n => exact ⟨trivial, fun j _ ↦ rfl⟩
  | cons c rest ih =>
      obtain ⟨hmem, hrow⟩ := c.propagateVec_spec F vecIn h.1
      obtain ⟨hlater, hout⟩ := ih h.2 (c.propagateVec F mems.1 vecIn).vecOut
      exact ⟨⟨hmem, hlater⟩, hout.trans (rest.eval_congr F hrow)⟩

end Layers

namespace Nnet.Memory

variable {n m : ℕ} {net : Nnet R n m} {batch : ℕ} {s : net.Memory}

/-- **`ProcessBatch`.** Each row of the result is the network's function of the same row of the
input. -/
theorem processBatch_spec (h : Fits batch s) :
    Fits batch (s.processBatch F) ∧
      ∀ r < batch, Agree m ((s.processBatch F).matOutBatch.data r) (net.eval F (s.matInBatch.data r)) := by
  let matIn := s.matInBatchNeon.copyFrom s.matInBatch
  have hin : Shaped batch n matIn := h.matInBatchNeon.withData _
  obtain ⟨hmems, hshape, hrows⟩ := net.layers.propagateMat_spec F h.memorys hin
  let copied := (net.layers.propagateMat F s.memorys matIn).2.copyTo s.matOutBatch
  have hcopied_row : copied.row = batch := h.matOutBatch_row
  have hcopied_col : copied.col = m := h.matOutBatch_col
  obtain ⟨hrow, hcol⟩ := net.processPriorMat_frame F copied
  refine ⟨?_, ?_⟩
  · exact { h with
      memorys := hmems
      matInBatchNeon := hin
      matOutBatch_row := hrow.trans hcopied_row
      matOutBatch_col := hcol.trans hcopied_col }
  · intro r hr j hj
    have hcopied : Agree m (copied.data r) (net.layers.eval F (s.matInBatch.data r)) := by
      intro k hk
      rw [hshape.data_copyTo _ hr hk, hrows r hr k hk]
      exact net.layers.eval_congr F (fun p hp ↦ h.matInBatchNeon.entry_copyFrom _ hr hp) k hk
    calc (s.processBatch F).matOutBatch.data r j
        = net.priorRow F (copied.data r) j :=
          net.processPriorMat_data F hcopied_col (hcopied_row.symm ▸ hr) hj
      _ = net.eval F (s.matInBatch.data r) j := net.priorRow_congr F hcopied j hj

/-- **`ProcessSingle`.** -/
theorem processSingle_spec (h : Fits batch s) :
    Fits batch (s.processSingle F) ∧
      Agree m (s.processSingle F).vecOutSingle.data (net.eval F s.vecInSingle.data) := by
  obtain ⟨hmems, hrow⟩ := net.layers.propagateVec_spec F h.memorys s.vecInSingle
  let copied := s.vecOutSingle.copy (net.layers.propagateVec F s.memorys s.vecInSingle).2
  have hsize : copied.size = m := h.vecOutSingle
  refine ⟨?_, ?_⟩
  · exact { h with
      memorys := hmems
      vecOutSingle := (net.processPriorVec_size F copied).trans hsize }
  · intro j hj
    have hcopied : Agree m copied.data (net.layers.eval F s.vecInSingle.data) := by
      intro k hk
      rw [← hrow k hk]
      exact ZVec.copy_data (h.vecOutSingle.symm ▸ hk)
    calc (s.processSingle F).vecOutSingle.data j
        = net.priorRow F copied.data j := net.processPriorVec_data F hsize hj
      _ = net.eval F s.vecInSingle.data j := net.priorRow_congr F hcopied j hj

theorem Fits.step (h : Fits batch s) (call : Call R) : Fits batch (s.step F call) := by
  cases call with
  | batch rows => exact (processBatch_spec F (h.setBatch rows)).1
  | single row => exact (processSingle_spec F (h.setSingle row)).1

/-- After any calls a batch gives the network's function of its rows. -/
theorem batch_of_fits (h : Fits batch s) (rows : ℕ → ℕ → R) {r : ℕ} (hr : r < batch) :
    Agree m ((s.step F (.batch rows)).matOutBatch.data r) (net.eval F (rows r)) := by
  have hout := (processBatch_spec F (h.setBatch rows)).2 r hr
  have hin : Agree n ((s.setBatch rows).matInBatch.data r) (rows r) :=
    fun j hj ↦ if_pos ⟨h.matInBatch.symm ▸ hr, hj⟩
  exact hout.trans (net.priorRow_congr F (net.layers.eval_congr F hin))

/-- After any calls a single evaluation gives the network's function of its row. -/
theorem single_of_fits (h : Fits batch s) (row : ℕ → R) :
    Agree m (s.step F (.single row)).vecOutSingle.data (net.eval F row) := by
  have hout := (processSingle_spec F (h.setSingle row)).2
  have hin : Agree n (s.setSingle row).vecInSingle.data row := fun j hj ↦ if_pos hj
  exact hout.trans (net.priorRow_congr F (net.layers.eval_congr F hin))

/-- **Batch and single evaluation agree.** For every network, batch size and input, and whatever
was evaluated on the memories before, row `i` of a batch is the single evaluation of row `i`. -/
theorem batch_eq_single (net : Nnet R n m) (batchNum : ℕ) (calls calls' : List (Call R))
    (rows : ℕ → ℕ → R) {i j : ℕ} (hi : i < batchNum) (hj : j < m) :
    (run (step F) (create net batchNum) (calls ++ [.batch rows])).matOutBatch.data i j =
      (run (step F) (create net batchNum) (calls' ++ [.single (rows i)])).vecOutSingle.data j := by
  have hfits : ∀ calls, Fits batchNum (run (step F) (create net batchNum) calls) :=
    fun calls ↦ run_keeps (fun _ call h ↦ h.step F call) (fits_create net batchNum) calls
  rw [run_append, run_append]
  exact (batch_of_fits F (hfits calls) rows hi j hj).trans
    (single_of_fits F (hfits calls') (rows i) j hj).symm

/-- Two layers from three entries to two. -/
def smallNet : Nnet ℚ 3 2 where
  layers := .cons (.affine ⟨true, fun c p ↦ c + p, fun c ↦ c⟩) (.cons (.relu 2) (.nil 2))
  sn := none
  prior := none

theorem batch_eq_single_small :
    1 < 2 ∧ (run (step ⟨id, id, fun x _ ↦ x, id, 0⟩) (create smallNet 2)
        [.batch fun i j ↦ i + j]).matOutBatch.data 1 0 =
      (run (step ⟨id, id, fun x _ ↦ x, id, 0⟩) (create smallNet 2)
        [.batch fun _ _ ↦ 5, .single fun j ↦ ((1 : ℕ) : ℚ) + j]).vecOutSingle.data 0 :=
  ⟨by decide, batch_eq_single ⟨id, id, fun x _ ↦ x, id, 0⟩ smallNet 2 [] [.batch fun _ _ ↦ 5]
    (fun i j ↦ i + j) (by decide) (by decide)⟩

end Nnet.Memory

end Vsys.Dnn
