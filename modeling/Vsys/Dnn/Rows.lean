import Vsys.Dnn.Evaluate
import Vsys.Dnn.Total

/-!
# The rows a layer gives

Two memories of one layer may have been used before, by inputs with more rows or fewer.  Given
inputs with the same rows, they give the same rows, in every lane of the blocks, those behind the
last column included: `componentMat_same`.  Only the lanes behind the last row may differ, since the
lists of the lanes to clear were made for different numbers of rows.

What a memory has to keep for this is `ComponentMemory.Kept`: its dimensions, and the list.
-/

namespace Vsys.Dnn

open Vsys.Mat

variable {R : Type*}

/-! ## The same rows -/

/-- A matrix in blocks with so many rows and columns now. -/
structure Shape (row col : ℕ) (m : ZMatNeon R) : Prop where
  trans : m.trans = false
  row_eq : m.row = row
  col_eq : m.col = col

/-- Two matrices in blocks with the same rows, in all lanes. -/
structure SameRows (row col : ℕ) (m m' : ZMatNeon R) : Prop where
  left : Shape row col m
  right : Shape row col m'
  entry : ∀ r c, r < row → c / 4 < blocks col → m.entry r c = m'.entry r c

/-- Two matrices with the same rows, in all places. -/
structure SameMat (row col : ℕ) (a a' : ZMat R) : Prop where
  row_left : a.row = row
  col_left : a.col = col
  row_right : a'.row = row
  col_right : a'.col = col
  data : ∀ r c, r < row → c / 4 < blocks col → a.data r c = a'.data r c

namespace Shape

variable {row col : ℕ} {m : ZMatNeon R}

theorem rowNeon (h : Shape row col m) : m.rowNeon = blocks row := by
  simp only [ZMatNeon.rowNeon, h.trans, h.row_eq, Bool.false_eq_true, if_false]

theorem colNeon (h : Shape row col m) : m.colNeon = blocks col := by
  simp only [ZMatNeon.colNeon, h.trans, h.col_eq, Bool.false_eq_true, if_false]

theorem row_div_lt (h : Shape row col m) {r : ℕ} (hr : r < row) : r / 4 < m.rowNeon :=
  h.rowNeon ▸ div_lt_blocks hr

theorem withData (h : Shape row col m) (data : ℕ → ℕ → R) : Shape row col { m with data := data } :=
  ⟨h.trans, h.row_eq, h.col_eq⟩

end Shape

theorem SameRows.symm {row col : ℕ} {m m' : ZMatNeon R} (h : SameRows row col m m') :
    SameRows row col m' m :=
  ⟨h.right, h.left, fun r c hr hc ↦ (h.entry r c hr hc).symm⟩

/-- Filling from matrices with the same rows. -/
theorem sameRows_copyFrom [Zero R] {row col : ℕ} {m m' : ZMatNeon R} (hm : Shape row col m)
    (hm' : Shape row col m') {a a' : ZMat R}
    (ha : ∀ r c, r < row → c / 4 < blocks col → a.data r c = a'.data r c) :
    SameRows row col (m.copyFrom a) (m'.copyFrom a') := by
  refine ⟨hm.withData _, hm'.withData _, fun r c hr hc ↦ ?_⟩
  have hleft := ZMatNeon.entry_copyFrom hm.trans a (hm.row_div_lt hr) (hm.colNeon ▸ hc)
  have hright := ZMatNeon.entry_copyFrom hm'.trans a' (hm'.row_div_lt hr) (hm'.colNeon ▸ hc)
  rw [hleft, hright, hm.row_eq, hm'.row_eq, if_pos hr, if_pos hr, ha r c hr hc]

/-- Reading the same rows back. -/
theorem sameMat_copyTo {row col : ℕ} {m m' : ZMatNeon R} (h : SameRows row col m m') {t t' : ZMat R}
    (hrow : t.row = row) (hcol : t.col = col) (hrow' : t'.row = row) (hcol' : t'.col = col) :
    SameMat row col (m.copyTo t) (m'.copyTo t') := by
  refine ⟨hrow, hcol, hrow', hcol', fun r c hr hc ↦ ?_⟩
  have hleft := ZMatNeon.data_copyTo_factor m t (h.left.row_eq.symm ▸ hr)
    (h.left.col_eq.symm ▸ hc)
  have hright := ZMatNeon.data_copyTo_factor m' t' (h.right.row_eq.symm ▸ hr)
    (h.right.col_eq.symm ▸ hc)
  rw [hleft, hright, h.left.trans, h.right.trans, if_neg Bool.false_ne_true,
    if_neg Bool.false_ne_true, h.entry r c hr hc]

/-- A loop over the entries of the same rows. -/
theorem SameMat.rowMap {row col : ℕ} {a a' : ZMat R} (h : SameMat row col a a')
    {f : (ℕ → R) → ℕ → R} (hf : ∀ {x y : ℕ → R}, Agree col x y → Agree col (f x) (f y)) :
    SameMat row col (a.rowMap f) (a'.rowMap f) := by
  refine ⟨h.row_left, h.col_left, h.row_right, h.col_right, fun r c hr hc ↦ ?_⟩
  have hrow : Agree col (a.data r) (a'.data r) := by
    intro j hj
    exact h.data r j hr (div_lt_blocks hj)
  simp only [ZMat.rowMap, h.row_left, h.col_left, h.row_right, h.col_right, hr, true_and]
  split
  · next hlt => exact hf hrow c hlt
  · exact h.data r c hr hc

/-! ## The functions look at the entries only -/

namespace Rounded

theorem sum_congr [Zero R] [Add R] {n : ℕ} {x y : ℕ → R} (h : Agree n x y) : sum n x = sum n y := by
  apply List.foldl_ext
  intro s j hj
  rw [h j (List.mem_range.mp hj)]

variable [Zero R] [Add R] [Sub R] [Mul R] [Div R] [NatCast R] (F : Functions R)

theorem normalize_congr {n : ℕ} {x y : ℕ → R} (h : Agree n x y) :
    Agree n (normalize F n x) (normalize F n y) := by
  intro j hj
  have hsquares : Agree n (fun j ↦ x j * x j) fun j ↦ y j * y j := by
    intro j hj
    simp only [h j hj]
  simp only [normalize, deviation, mean]
  rw [h j hj, sum_congr h, sum_congr hsquares]

/-- Layer norm on the same rows. -/
theorem sameMat_layerNormMat {row col : ℕ} {a a' : ZMat R} (h : SameMat row col a a')
    (ln : LayerNorm R) : SameMat row col (layerNormMat F ln a) (layerNormMat F ln a') := by
  unfold layerNormMat
  rw [h.col_left, h.col_right]
  have hnorm := h.rowMap fun h ↦ normalize_congr F h
  have hscale : SameMat row col _ _ := hnorm.rowMap (f := fun x j ↦ x j * ln.scale.data j) (by
    intro x y hxy j hj
    simp only [hxy j hj])
  apply hscale.rowMap
  intro x y hxy j hj
  simp only [hxy j hj]

/-- Layer norm and activation of the same rows. -/
theorem sameMat_finishMat [LT R] [DecidableLT R] {row n m : ℕ} (l : LinearTransform R n m)
    {a a' : ZMat R} (h : SameMat row m a a') :
    SameMat row m (finishMat F l a) (finishMat F l a') := by
  have hactive : ∀ {a a' : ZMat R}, SameMat row m a a' →
      SameMat row m (a.rowMap (l.acn.row F a.col)) (a'.rowMap (l.acn.row F a'.col)) := by
    intro a a' h
    rw [h.col_left, h.col_right]
    exact h.rowMap fun h ↦ l.acn.row_congr F h
  unfold finishMat
  cases l.ln with
  | none => exact hactive h
  | some ln => exact hactive (sameMat_layerNormMat F h ln)

end Rounded

/-! ## Memories -/

/-- A matrix in blocks that was made for `total` rows. -/
structure Made [Zero R] [One R] (total col : ℕ) (m : ZMatNeon R) : Prop where
  trans : m.trans = false
  col_eq : m.col = col
  zeroPosLst : m.zeroPosLst = (ZMatNeon.create total col false : ZMatNeon R).zeroPosLst

section

variable [Zero R] [One R]

theorem Made.create (total col : ℕ) : Made total col (ZMatNeon.create total col false : ZMatNeon R) :=
  ⟨rfl, rfl, rfl⟩

theorem Made.withData {total col : ℕ} {m : ZMatNeon R} (h : Made total col m) (data : ℕ → ℕ → R) :
    Made total col { m with data := data } := ⟨h.trans, h.col_eq, h.zeroPosLst⟩

/-- Told how many rows there are now. -/
theorem Made.resetRow {total col : ℕ} {m : ZMatNeon R} (h : Made total col m) (row : ℕ) :
    Made total col (m.resetRow row) ∧ Shape row col (m.resetRow row) :=
  ⟨⟨h.trans, h.col_eq, h.zeroPosLst⟩, h.trans, rfl, h.col_eq⟩

/-- An activation that goes over all lanes clears those behind the last column. -/
theorem entry_rowActive_of_made {total row col : ℕ} {m : ZMatNeon R} (hmade : Made total col m)
    (hshape : Shape row col m) (hrow : row ≤ total) (f : R → R) {r c : ℕ} (hr : r < row)
    (hc : c / 4 < blocks col) :
    (m.rowActive f).entry r c = if col ≤ c then 0 else f (m.entry r c) := by
  rw [← ZMatNeon.entry_laneMap m f (hshape.row_div_lt hr) (hshape.colNeon ▸ hc)]
  have hiff := ZMatNeon.mem_zeroPosLst_iff (R := R) (hr.trans_le hrow) hc
  rw [← hmade.zeroPosLst, ← hshape.colNeon] at hiff
  by_cases hcol : col ≤ c
  · exact (if_pos (hiff.mpr hcol)).trans (if_pos hcol).symm
  · exact (if_neg (mt hiff.mp hcol)).trans (if_neg hcol).symm

/-- The dimensions of a memory are those of its layer. -/
structure ComponentMemory.Kept (svdDim outputDim : ℕ) (mem : ComponentMemory R) : Prop where
  matOutNeon : Made mem.frmNumTotal outputDim mem.matOutNeon
  matOut : mem.matOut.col = outputDim
  matOutSvdNeon : Made mem.frmNumTotal svdDim mem.matOutSvdNeon

/-- The matrices have as many rows as the input. -/
structure ComponentMemory.Ready (svdDim outputDim row : ℕ) (mem : ComponentMemory R) : Prop extends
    ComponentMemory.Kept svdDim outputDim mem where
  row_le : row ≤ mem.frmNumTotal
  shape : Shape row outputDim mem.matOutNeon
  matOut_row : mem.matOut.row = row
  shapeSvd : Shape row svdDim mem.matOutSvdNeon

namespace ComponentMemory

variable {svdDim outputDim row : ℕ} {mem : ComponentMemory R}

theorem kept_create (svdDim outputDim batchSize : ℕ) :
    Kept svdDim outputDim (create svdDim outputDim batchSize : ComponentMemory R) :=
  ⟨Made.create _ _, rfl, Made.create _ _⟩

theorem Kept.reserve (h : Kept svdDim outputDim mem) (row : ℕ) :
    Kept svdDim outputDim (mem.reserve svdDim outputDim row) ∧
      row ≤ (mem.reserve svdDim outputDim row).frmNumTotal := by
  unfold ComponentMemory.reserve
  split
  · next hlt =>
      refine ⟨⟨Made.create _ _, rfl, Made.create _ _⟩, ?_⟩
      change row ≤ row * 2
      omega
  · next hle => exact ⟨h, Nat.not_lt.mp hle⟩

/-- `ConfigMem` makes a memory ready. -/
theorem Kept.configMem (h : Kept svdDim outputDim mem) (row : ℕ) :
    Ready svdDim outputDim row (mem.configMem svdDim outputDim row) := by
  obtain ⟨hkept, hle⟩ := h.reserve row
  have hout := hkept.matOutNeon.resetRow row
  have hsvd := hkept.matOutSvdNeon.resetRow row
  exact ⟨⟨hout.1, hkept.matOut, hsvd.1⟩, hle, hout.2, rfl, hsvd.2⟩

/-- A new result of the same shape. -/
theorem Kept.setMat (h : Kept svdDim outputDim mem) (data : ℕ → ℕ → R) :
    Kept svdDim outputDim { mem with matOutNeon := { mem.matOutNeon with data := data } } :=
  { h with matOutNeon := h.matOutNeon.withData data }

end ComponentMemory

end

/-! ## Layers without recurrence -/

namespace Rounded

/-- Copying the same rows. -/
theorem entry_copy_of_shape {row col : ℕ} {out matIn : ZMatNeon R} (hout : Shape row col out)
    (hin : Shape row col matIn) {r c : ℕ} (hr : r < row) (hc : c / 4 < blocks col) :
    (out.copy matIn).entry r c = matIn.entry r c :=
  ZMatNeon.entry_copy (hin.colNeon.trans hout.colNeon.symm) (hout.row_div_lt hr) (hout.colNeon ▸ hc)

/-- The body of a loop over all lanes, on the same rows. -/
theorem sameRows_laneMap {row col : ℕ} {out out' matIn matIn' : ZMatNeon R}
    (hout : Shape row col out) (hout' : Shape row col out') (hin : SameRows row col matIn matIn')
    (f : R → R) : SameRows row col ((out.copy matIn).laneMap f) ((out'.copy matIn').laneMap f) := by
  refine ⟨hout.withData _, hout'.withData _, fun r c hr hc ↦ ?_⟩
  have hleft := ZMatNeon.entry_laneMap (out.copy matIn) f (hout.row_div_lt hr) (hout.colNeon ▸ hc)
  have hright := ZMatNeon.entry_laneMap (out'.copy matIn') f (hout'.row_div_lt hr)
    (hout'.colNeon ▸ hc)
  rw [hleft, hright, entry_copy_of_shape hout hin.left hr hc,
    entry_copy_of_shape hout' hin.right hr hc, hin.entry r c hr hc]

section

variable [Zero R] [One R]

omit [Zero R] [One R] in
/-- Products of the same rows, from the same lanes. -/
theorem sameRows_addABBy (B : Blas R) {row n m : ℕ} {a a' matIn matIn' b : ZMatNeon R}
    (ha : SameRows row m a a') (hb : b.colNeon = blocks m) (hin : SameRows row n matIn matIn') :
    SameRows row m (a.addABBy B matIn b) (a'.addABBy B matIn' b) := by
  refine ⟨ha.left.withData _, ha.right.withData _, fun r c hr hc ↦ ?_⟩
  have hleft := ZMatNeon.entry_addABBy B (ha.left.colNeon.trans hb.symm) (hin.left.row_div_lt hr)
    (hb ▸ hc)
  have hright := ZMatNeon.entry_addABBy B (ha.right.colNeon.trans hb.symm) (hin.right.row_div_lt hr)
    (hb ▸ hc)
  rw [hleft, hright, hin.left.colNeon, hin.right.colNeon, ha.entry r c hr hc]
  apply List.foldl_ext
  intro s k hk
  have hk' : k < blocks n := List.mem_range.mp hk
  have hrow : (fun t : Fin 4 ↦ matIn.entry r (k * 4 + t)) =
      fun t : Fin 4 ↦ matIn'.entry r (k * 4 + t) := by
    funext t
    exact hin.entry r _ hr (by omega)
  rw [hrow]

/-- Biases and products of the same rows. -/
theorem sameRows_denseMat (B : Blas R) {row n m : ℕ} (d : Dense R n m)
    {out out' matIn matIn' : ZMatNeon R} (hout : Shape row m out) (hout' : Shape row m out')
    (hin : SameRows row n matIn matIn') :
    SameRows row m (denseMat B d out matIn) (denseMat B d out' matIn') := by
  have hbias : SameRows row m (out.rowCopyN d.biasesNeon) (out'.rowCopyN d.biasesNeon) := by
    refine ⟨hout.withData _, hout'.withData _, fun r c hr hc ↦ ?_⟩
    rw [ZMatNeon.entry_rowCopyN (hout.row_div_lt hr) (hout.colNeon ▸ hc),
      ZMatNeon.entry_rowCopyN (hout'.row_div_lt hr) (hout'.colNeon ▸ hc)]
  exact sameRows_addABBy B hbias d.weightsNeon_colNeon hin

/-- An activation of the same rows. -/
theorem sameRows_rowActive {total total' row col : ℕ} {out out' matIn matIn' : ZMatNeon R}
    (hmade : Made total col out) (hout : Shape row col out) (hle : row ≤ total)
    (hmade' : Made total' col out') (hout' : Shape row col out') (hle' : row ≤ total')
    (hin : SameRows row col matIn matIn') (f : R → R) :
    SameRows row col ((out.copy matIn).rowActive f) ((out'.copy matIn').rowActive f) := by
  refine ⟨hout.withData _, hout'.withData _, fun r c hr hc ↦ ?_⟩
  have hcopy : Made total col (out.copy matIn) := hmade.withData _
  have hcopy' : Made total' col (out'.copy matIn') := hmade'.withData _
  rw [entry_rowActive_of_made hcopy (hout.withData _) hle f hr hc,
    entry_rowActive_of_made hcopy' (hout'.withData _) hle' f hr hc]
  have hleft := entry_copy_of_shape hout hin.left hr hc
  have hright := entry_copy_of_shape hout' hin.right hr hc
  have hentry := hin.entry r c hr hc
  rw [hleft, hright, hentry]

end

section

variable [Zero R] [One R] (B : Blas R) {n m row svdDim : ℕ} {mem mem' : ComponentMemory R}
variable {matIn matIn' : ZMatNeon R}

/-- The products of a linear layer. -/
theorem productMat_same (product : Product R n m) (h : mem.Ready svdDim m row)
    (h' : mem'.Ready svdDim m row)
    (hdim : ∀ k first second, product = .svd k first second → k = svdDim)
    (hin : SameRows row n matIn matIn') :
    (productMat B mem matIn product).Ready svdDim m row ∧
      SameRows row m (productMat B mem matIn product).matOutNeon
        (productMat B mem' matIn' product).matOutNeon := by
  cases product with
  | plain d =>
      refine ⟨{ h with matOutNeon := h.matOutNeon.withData _, shape := h.shape.withData _ }, ?_⟩
      exact sameRows_denseMat B d h.shape h'.shape hin
  | svd k first second =>
      obtain rfl := hdim k first second rfl
      refine ⟨{ h with
        matOutNeon := h.matOutNeon.withData _
        shape := h.shape.withData _
        matOutSvdNeon := h.matOutSvdNeon.withData _
        shapeSvd := h.shapeSvd.withData _ }, ?_⟩
      have hfirst := sameRows_denseMat B first h.shapeSvd h'.shapeSvd hin
      exact sameRows_denseMat B second h.shape h'.shape hfirst

variable [Add R] [Sub R] [Mul R] [Div R] [NatCast R] [LT R] [DecidableLT R] (F : Functions R)

/-- **A layer gives the same rows, whatever its memory was used for.** -/
theorem componentMat_same (c : Component R n m) (h : mem.Kept c.svdDim m)
    (h' : mem'.Kept c.svdDim m) (hin : SameRows row n matIn matIn') :
    (componentMat F B c mem matIn).Kept c.svdDim m ∧
      SameRows row m (componentMat F B c mem matIn).matOutNeon
        (componentMat F B c mem' matIn').matOutNeon := by
  have hready := h.configMem row
  have hready' := h'.configMem row
  unfold componentMat
  rw [hin.left.row_eq, hin.right.row_eq]
  cases c with
  | sigmoid =>
      refine ⟨hready.toKept.setMat _, ?_⟩
      exact sameRows_rowActive hready.matOutNeon hready.shape hready.row_le hready'.matOutNeon
        hready'.shape hready'.row_le hin F.sigmoid
  | tanh =>
      refine ⟨hready.toKept.setMat _, ?_⟩
      exact sameRows_rowActive hready.matOutNeon hready.shape hready.row_le hready'.matOutNeon
        hready'.shape hready'.row_le hin F.tanh
  | relu =>
      refine ⟨hready.toKept.setMat _, ?_⟩
      exact sameRows_laneMap hready.shape hready'.shape hin relu
  | softMax =>
      have hmat := sameMat_copyTo hin hready.matOut_row hready.matOut hready'.matOut_row
        hready'.matOut
      have hsoft := hmat.rowMap fun h ↦ Acn.softmax.row_congr F h
      refine ⟨{ hready.toKept.setMat _ with matOut := hready.matOut }, ?_⟩
      simp only [componentBody, hready.matOut, hready'.matOut]
      exact sameRows_copyFrom hready.shape hready'.shape hsoft.data
  | affine d =>
      refine ⟨hready.toKept.setMat _, ?_⟩
      exact sameRows_denseMat B d hready.shape hready'.shape hin
  | linear l =>
      have hdim : ∀ k first second, l.product = .svd k first second →
          k = (Component.linear l).svdDim := by
        rintro k first second hproduct
        obtain ⟨product, ln, acn⟩ := l
        subst hproduct
        rfl
      obtain ⟨hproduct, hrows⟩ := productMat_same B l.product hready hready' hdim hin
      obtain ⟨hproduct', -⟩ := productMat_same B l.product hready' hready hdim hin.symm
      have hmat := sameMat_copyTo hrows hproduct.matOut_row hproduct.matOut hproduct'.matOut_row
        hproduct'.matOut
      have hfinish := sameMat_finishMat F l hmat
      refine ⟨{ hproduct.toKept.setMat _ with matOut := hfinish.col_left }, ?_⟩
      exact sameRows_copyFrom hproduct.shape hproduct'.shape hfinish.data

end

end Rounded

end Vsys.Dnn
