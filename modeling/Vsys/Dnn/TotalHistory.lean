import Vsys.Dnn.Cell
import Vsys.Trace.Run

/-!
# No call leaves a trace in the next

`Nnet_Memory_Total` is used for inputs of any lengths, one after the other.  Every layer gives the
same rows for the same rows, so the result of a call is the one a new memory gives,
`getOutPut_eq_new`.
-/

namespace Vsys.Dnn

open Vsys.Mat Vsys.Trace

variable {R : Type*}

namespace Layer

section Kept

variable [Zero R] [One R]

/-- The dimensions of the memory of a layer, and that nothing was ever written between the result of
`Nnet_BLstm` and the end of a row. -/
def Kept {n m : ℕ} : (layer : Layer R n m) → layer.Memory → Prop
  | .component c, mem => ComponentMemory.Kept c.svdDim m mem
  | .lstm fw, mem => ComponentMemory.Kept 0 m mem.1 ∧ CellMemory.Kept fw.numUnits m mem.2
  | .blstm (k := k) (l := l) fw bw _, mem =>
      ComponentMemory.Kept 0 m mem.1 ∧ (∀ r c, k + l ≤ c → mem.1.matOut.data r c = 0) ∧
        CellMemory.Kept fw.numUnits k mem.2.1 ∧ CellMemory.Kept bw.numUnits l mem.2.2

theorem kept_createMemory (batchSize : ℕ) {n m : ℕ} (layer : Layer R n m) :
    layer.Kept (layer.createMemory batchSize) := by
  cases layer with
  | component c => exact ComponentMemory.kept_create _ _ _
  | lstm fw => exact ⟨ComponentMemory.kept_create _ _ _, CellMemory.kept_create _ _ _⟩
  | blstm fw bw fit =>
      exact ⟨ComponentMemory.kept_create _ _ _, fun _ _ _ ↦ rfl, CellMemory.kept_create _ _ _,
        CellMemory.kept_create _ _ _⟩

/-- `ConfigMem` writes nothing but zeros to the matrix. -/
theorem configMem_pad {svdDim m row w : ℕ} {mem : ComponentMemory R}
    (h : ∀ r c, w ≤ c → mem.matOut.data r c = 0) :
    ∀ r c, w ≤ c → (mem.configMem svdDim m row).matOut.data r c = 0 := by
  intro r c hc
  unfold ComponentMemory.configMem ComponentMemory.reserve
  dsimp only
  split
  · rfl
  · exact h r c hc

end Kept

variable [Zero R] [One R] [Add R] [Sub R] [Mul R] [Div R] [NatCast R] [LT R] [DecidableLT R]
variable (F : Functions R) (B : Blas R)

/-- A layer that goes forward. -/
theorem lstmMat_same {row n m : ℕ} (fw : LstmCell R n m) {mem mem' : ComponentMemory R × CellMemory R}
    {matIn matIn' : ZMatNeon R} (h : mem.1.Kept 0 m ∧ mem.2.Kept fw.numUnits m)
    (h' : mem'.1.Kept 0 m ∧ mem'.2.Kept fw.numUnits m) (hin : SameRows row n matIn matIn') :
    ((lstmMat F B fw mem matIn).1.Kept 0 m ∧ (lstmMat F B fw mem matIn).2.Kept fw.numUnits m) ∧
      SameRows row m (lstmMat F B fw mem matIn).1.matOutNeon
        (lstmMat F B fw mem' matIn').1.matOutNeon := by
  have hbase := h.1.configMem row
  have hbase' := h'.1.configMem row
  obtain ⟨hkept, -, hout⟩ := Rounded.cellMat_same F B fw true (h.2.configMem row).toKept
    (h'.2.configMem row).toKept hin
  unfold lstmMat
  rw [hin.left.row_eq, hin.right.row_eq]
  refine ⟨⟨hbase.toKept.setMat _, hkept⟩, ?_⟩
  exact sameRows_copyFrom hbase.shape hbase'.shape fun r c hr _ ↦ hout r c hr

/-- Layers that go forward and back. -/
theorem blstmMat_same {row n k l m : ℕ} (fw : LstmCell R n k) (bw : LstmCell R n l)
    {mem mem' : ComponentMemory R × CellMemory R × CellMemory R} {matIn matIn' : ZMatNeon R}
    (h : mem.1.Kept 0 m ∧ (∀ r c, k + l ≤ c → mem.1.matOut.data r c = 0) ∧
      mem.2.1.Kept fw.numUnits k ∧ mem.2.2.Kept bw.numUnits l)
    (h' : mem'.1.Kept 0 m ∧ (∀ r c, k + l ≤ c → mem'.1.matOut.data r c = 0) ∧
      mem'.2.1.Kept fw.numUnits k ∧ mem'.2.2.Kept bw.numUnits l)
    (hin : SameRows row n matIn matIn') :
    ((blstmMat F B m fw bw mem matIn).1.Kept 0 m ∧
      (∀ r c, k + l ≤ c → (blstmMat F B m fw bw mem matIn).1.matOut.data r c = 0) ∧
      (blstmMat F B m fw bw mem matIn).2.1.Kept fw.numUnits k ∧
      (blstmMat F B m fw bw mem matIn).2.2.Kept bw.numUnits l) ∧
      SameRows row m (blstmMat F B m fw bw mem matIn).1.matOutNeon
        (blstmMat F B m fw bw mem' matIn').1.matOutNeon := by
  have hbase := h.1.configMem row
  have hbase' := h'.1.configMem row
  have hpad : ∀ r c, k + l ≤ c → (mem.1.configMem 0 m row).matOut.data r c = 0 :=
    configMem_pad h.2.1
  have hpad' : ∀ r c, k + l ≤ c → (mem'.1.configMem 0 m row).matOut.data r c = 0 :=
    configMem_pad h'.2.1
  obtain ⟨hfw, hrow, hfwOut⟩ := Rounded.cellMat_same F B fw true (h.2.2.1.configMem row).toKept
    (h'.2.2.1.configMem row).toKept hin
  obtain ⟨-, hrow', -⟩ := Rounded.cellMat_same F B fw true (h'.2.2.1.configMem row).toKept
    (h.2.2.1.configMem row).toKept hin.symm
  obtain ⟨hbw, -, hbwOut⟩ := Rounded.cellMat_same F B bw false (h.2.2.2.configMem row).toKept
    (h'.2.2.2.configMem row).toKept hin
  unfold blstmMat
  rw [hin.left.row_eq, hin.right.row_eq]
  refine ⟨⟨{ hbase.toKept.setMat _ with matOut := hbase.matOut }, fun r c hc ↦ ?_, hfw, hbw⟩, ?_⟩
  · simp only [joinRows]
    rw [if_neg (by omega : ¬ (k ≤ c ∧ c < k + l)), if_neg (by omega : ¬ c < k), ite_self]
    exact hpad r c hc
  · apply sameRows_copyFrom hbase.shape hbase'.shape
    intro r c hr _
    simp only [joinRows]
    rw [hrow, hrow', if_pos hr, if_pos hr, hbwOut r (c - k) hr, hfwOut r c hr]
    by_cases hbwPlace : k ≤ c ∧ c < k + l
    · rw [if_pos hbwPlace, if_pos hbwPlace]
    · by_cases hfwPlace : c < k
      · rw [if_neg hbwPlace, if_neg hbwPlace, if_pos hfwPlace, if_pos hfwPlace]
      · rw [if_neg hbwPlace, if_neg hbwPlace, if_neg hfwPlace, if_neg hfwPlace,
          hpad r c (by omega), hpad' r c (by omega)]

/-- **Every layer gives the same rows, whatever its memory was used for.** -/
theorem propagateMat_same {row n m : ℕ} (layer : Layer R n m) {mem mem' : layer.Memory}
    {matIn matIn' : ZMatNeon R} (h : layer.Kept mem) (h' : layer.Kept mem')
    (hin : SameRows row n matIn matIn') :
    layer.Kept (layer.propagateMat F B mem matIn) ∧
      SameRows row m (layer.matOutNeon (layer.propagateMat F B mem matIn))
        (layer.matOutNeon (layer.propagateMat F B mem' matIn')) := by
  cases layer with
  | component c => exact Rounded.componentMat_same B F c h h' hin
  | lstm fw => exact lstmMat_same F B fw h h' hin
  | blstm fw bw fit => exact blstmMat_same F B fw bw h h' hin

end Layer

namespace Chain

section Kept

variable [Zero R] [One R]

/-- The dimensions of all memories. -/
def Kept {n m : ℕ} : (layers : Chain R n m) → layers.Memory → Prop
  | .nil _, _ => True
  | .cons layer rest, mems => layer.Kept mems.1 ∧ rest.Kept mems.2

theorem kept_createMemory (batchSize : ℕ) {n m : ℕ} (layers : Chain R n m) :
    layers.Kept (layers.createMemory batchSize) := by
  induction layers with
  | nil n => trivial
  | cons layer rest ih => exact ⟨layer.kept_createMemory batchSize, ih⟩

end Kept

variable [Zero R] [One R] [Add R] [Sub R] [Mul R] [Div R] [NatCast R] [LT R] [DecidableLT R]
variable (F : Functions R) (B : Blas R)

/-- The layers one after the other. -/
theorem propagateMat_same {row n m : ℕ} (layers : Chain R n m) {mems mems' : layers.Memory}
    {matIn matIn' : ZMatNeon R} (h : layers.Kept mems) (h' : layers.Kept mems')
    (hin : SameRows row n matIn matIn') :
    layers.Kept (layers.propagateMat F B mems matIn).1 ∧
      SameRows row m (layers.propagateMat F B mems matIn).2
        (layers.propagateMat F B mems' matIn').2 := by
  induction layers generalizing matIn matIn' with
  | nil n => exact ⟨trivial, hin⟩
  | cons layer rest ih =>
      obtain ⟨hkept, hrows⟩ := layer.propagateMat_same F B h.1 h'.1 hin
      obtain ⟨hlater, hresult⟩ := ih h.2 h'.2 hrows
      exact ⟨⟨hkept, hlater⟩, hresult⟩

end Chain

namespace TotalMemory

/-- The priors on the same rows. -/
theorem sameMat_processPriorMat [Zero R] [Add R] [Sub R] [Mul R] [Div R] [NatCast R]
    (F : Functions R) {n m row : ℕ} (net : WakeNnet R n m) {a a' : ZMat R} (h : SameMat row m a a') :
    SameMat row m (processPriorMat F net a) (processPriorMat F net a') := by
  have hmap : ∀ {f : R → ℕ → R} {a a' : ZMat R}, SameMat row m a a' →
      SameMat row m (a.rowMap fun x j ↦ f (x j) j) (a'.rowMap fun x j ↦ f (x j) j) := by
    intro f a a' h
    apply h.rowMap
    intro x y hxy j hj
    simp only [hxy j hj]
  unfold processPriorMat
  cases net.sn with
  | none =>
      cases net.prior with
      | none => exact h
      | some prior => exact hmap (f := fun x j ↦ x + prior.data j) h
  | some sn =>
      have hnorm := h.rowMap fun h ↦ Rounded.normalize_congr F h
      have hmean := hmap (f := fun x j ↦ x + sn.1.data j) hnorm
      have hvar := hmap (f := fun x j ↦ x * sn.2.data j) hmean
      simp only [h.col_left, h.col_right]
      cases net.prior with
      | none => exact hvar
      | some prior => exact hmap (f := fun x j ↦ x + prior.data j) hvar

variable {n m : ℕ} {net : WakeNnet R n m} [Zero R] [One R]

/-- The dimensions of all matrices, and that nothing stands behind the inputs. -/
structure Kept (s : TotalMemory net) : Prop where
  memorys : net.layers.Kept s.memorys
  matIn : s.matIn.col = n
  matIn_pad : ∀ r c, n ≤ c → s.matIn.data r c = 0
  matInNeon_trans : s.matInNeon.trans = false
  matInNeon_col : s.matInNeon.col = n
  matOut : s.matOut.col = m

theorem kept_create (net : WakeNnet R n m) : (create net).Kept where
  memorys := net.layers.kept_createMemory 100
  matIn := rfl
  matIn_pad := fun _ _ _ ↦ rfl
  matInNeon_trans := rfl
  matInNeon_col := rfl
  matOut := rfl

theorem Kept.prepare {s : TotalMemory net} (h : s.Kept) (len : ℕ) : (s.prepare len).Kept := by
  unfold TotalMemory.prepare
  split
  · exact { h with
      matIn := rfl
      matIn_pad := fun _ _ _ ↦ rfl
      matInNeon_trans := rfl
      matInNeon_col := rfl
      matOut := rfl }
  · exact h

variable [Add R] [Sub R] [Mul R] [Div R] [NatCast R] [LT R] [DecidableLT R]
variable (F : Functions R) (B : Blas R)

/-- A call keeps the dimensions, and its result is determined by its rows. -/
theorem getOutPut_same {s s' : TotalMemory net} (h : s.Kept) (h' : s'.Kept) {len : ℕ}
    {rows rows' : ℕ → ℕ → R} (hrows : ∀ i < len, Agree n (rows i) (rows' i)) :
    (s.getOutPut F B rows len).Kept ∧
      SameMat len m (s.getOutPut F B rows len).matOut (s'.getOutPut F B rows' len).matOut := by
  have hkept := h.prepare len
  have hkept' := h'.prepare len
  unfold getOutPut
  dsimp only
  generalize s.prepare len = p at hkept ⊢
  generalize s'.prepare len = p' at hkept' ⊢
  have hin : SameRows len n
      ((p.matInNeon.resetRow len).copyFrom (setRows n (p.matIn.resetRow len) rows))
      ((p'.matInNeon.resetRow len).copyFrom (setRows n (p'.matIn.resetRow len) rows')) := by
    have hshape : Shape len n (p.matInNeon.resetRow len) :=
      ⟨hkept.matInNeon_trans, rfl, hkept.matInNeon_col⟩
    have hshape' : Shape len n (p'.matInNeon.resetRow len) :=
      ⟨hkept'.matInNeon_trans, rfl, hkept'.matInNeon_col⟩
    apply sameRows_copyFrom hshape hshape'
    intro r c hr _
    by_cases hc : c < n
    · exact (if_pos ⟨hr, hc⟩).trans ((hrows r hr c hc).trans (if_pos ⟨hr, hc⟩).symm)
    · have hout : ∀ {t : ZMat R}, ¬ (r < t.row ∧ c < n) := fun hin ↦ hc hin.2
      have hpad := hkept.matIn_pad r c (Nat.not_lt.mp hc)
      have hpad' := hkept'.matIn_pad r c (Nat.not_lt.mp hc)
      exact ((if_neg hout).trans hpad).trans ((if_neg hout).trans hpad').symm
  obtain ⟨hmems, hresult⟩ := net.layers.propagateMat_same F B hkept.memorys hkept'.memorys hin
  have hcopy : SameMat len m _ _ := sameMat_copyTo hresult (rfl : (p.matOut.resetRow len).row = len)
    hkept.matOut (rfl : (p'.matOut.resetRow len).row = len) hkept'.matOut
  have hsoft := hcopy.rowMap fun h ↦ Acn.softmax.row_congr F h
  have hfinal := sameMat_processPriorMat F net hsoft
  refine ⟨⟨hmems, hkept.matIn, fun r c hc ↦ ?_, hkept.matInNeon_trans, hkept.matInNeon_col,
    hfinal.col_left⟩, hfinal⟩
  exact (if_neg fun hin ↦ Nat.not_lt.mpr hc hin.2).trans (hkept.matIn_pad r c hc)

/-- A call: the rows, and how many there are. -/
structure Call (R : Type*) where
  rows : ℕ → ℕ → R
  len : ℕ

/-- The memory behind a call. -/
def step (s : TotalMemory net) (call : Call R) : TotalMemory net :=
  s.getOutPut F B call.rows call.len

/-- After any calls the dimensions are right. -/
theorem kept_run (net : WakeNnet R n m) (calls : List (Call R)) :
    (run (step F B) (create net) calls).Kept := by
  have hkeep : ∀ (s : TotalMemory net) (call : Call R), s.Kept → (step F B s call).Kept :=
    fun s call h ↦ (getOutPut_same F B h h fun _ _ _ _ ↦ rfl).1
  exact run_keeps hkeep (kept_create net) calls

/-- **The result of a call depends on its rows only.**  After any calls it has the rows that a new
memory gives for the same rows. -/
theorem getOutPut_eq_new (net : WakeNnet R n m) (calls : List (Call R)) (call call' : Call R)
    (hlen : call.len = call'.len)
    (hrows : ∀ i < call.len, ∀ j < n, call.rows i j = call'.rows i j) :
    (step F B (run (step F B) (create net) calls) call).matOut.row = call.len ∧
    (step F B (create net) call').matOut.row = call.len ∧
    ∀ i < call.len, ∀ j < m,
      (step F B (run (step F B) (create net) calls) call).matOut.data i j =
        (step F B (create net) call').matOut.data i j := by
  have hsame := (getOutPut_same F B (kept_run F B net calls) (kept_create net) hrows).2
  rw [hlen] at hsame ⊢
  rw [step, hlen]
  exact ⟨hsame.row_left, hsame.row_right, fun i hi j hj ↦ hsame.data i j hi (div_lt_blocks hj)⟩

/-- A cell with one unit for one input and one output. -/
def smallCell : LstmCell ℤ 1 1 :=
  ⟨1, .inr fun _ ↦ 1, none, 1, .relu, fun _ _ ↦ 1, fun _ _ ↦ 1, fun _ _ ↦ 1⟩

/-- A layer that goes forward and one that goes forward and back. -/
def smallNnet : WakeNnet ℤ 1 2 :=
  ⟨.cons (.lstm smallCell) (.cons (.blstm smallCell smallCell (Nat.le_refl 2)) (.nil 2)), none, none⟩

/-- The functions of a layer, rounded to integers. -/
def integerFunctions : Functions ℤ where
  sigmoid x := if 0 < x then 1 else 0
  tanh := Int.sign
  logAdd := max
  sqrt x := x.toNat.sqrt
  eps := 0

/-- Two rows behind a call with five, and without; the arrays differ behind the rows. -/
theorem getOutPut_eq_new_small :
    let call : Call ℤ := ⟨fun i _ ↦ i, 2⟩
    let call' : Call ℤ := ⟨fun i j ↦ if j = 0 then i else 7, 2⟩
    ∀ i < 2, ∀ j < 2,
      (step integerFunctions Blas.exact
        (run (step integerFunctions Blas.exact) (create smallNnet) [⟨fun _ _ ↦ 3, 5⟩])
        call).matOut.data i j =
      (step integerFunctions Blas.exact (create smallNnet) call').matOut.data i j := by
  have hrows : ∀ i : ℕ, i < 2 → ∀ j : ℕ, j < 1 → (i : ℤ) = if j = 0 then (i : ℤ) else 7 := by
    intro i _ j hj
    rw [Nat.lt_one_iff.mp hj, if_pos rfl]
  exact (getOutPut_eq_new integerFunctions Blas.exact smallNnet [⟨fun _ _ ↦ 3, 5⟩] ⟨fun i _ ↦ i, 2⟩
    ⟨fun i j ↦ if j = 0 then i else 7, 2⟩ rfl hrows).2.2

end TotalMemory

end Vsys.Dnn
