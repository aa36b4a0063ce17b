import Vsys.Mat.Neon
import Mathlib.Algebra.Field.Basic
import Mathlib.Order.Defs.LinearOrder

/-!
# The layers of a network

`Nnet_Component` and its descendants in `r2slv4/r2vt4/src/dnn`, apart from the recurrent ones.
Every layer is written twice: `PropagateFnc_Mat` for a batch of rows kept in blocks, with the weights
as the second factor and the biases in four equal rows, and `PropagateFnc_Vec` for a single row, with
the transposed weights as the first factor.  `Nnet_Memory_Batch` holds the results of the layers for
both.

The arithmetic is exact: `R` is any ordered field.  The functions behind the activations are
parameters, the same for a matrix and a vector; so is the square root.  A vector of layers is a
chain, that is, the dimensions fit, as the assertions of `Copy` and of the products demand.
-/

namespace Vsys.Dnn

open Vsys.Mat

open scoped BigOperators

variable {R : Type*}

/-! ## Functions of a row -/

/-- The functions of the mathematical library, or the tables that stand for them. -/
structure Functions (R : Type*) where
  sigmoid : R → R
  tanh : R → R
  logAdd : R → R → R
  sqrt : R → R
  /-- `1e-5f`. -/
  eps : R

variable (F : Functions R)

/-- The body of `RowRelu`. -/
def relu [Zero R] [LT R] [DecidableLT R] (x : R) : R := if x < 0 then 0 else x

/-- The sum in `RowSoftMax`. -/
def logSum (n : ℕ) (x : ℕ → R) : R :=
  (List.range (n - 1)).foldl (fun sum j ↦ F.logAdd sum (x (j + 1))) (x 0)

/-- `RowSoftMax` on a row. -/
def softMax [Sub R] (n : ℕ) (x : ℕ → R) (j : ℕ) : R := x j - logSum F n x

/-- The mean of a row. -/
def mean [Field R] (n : ℕ) (x : ℕ → R) : R := (∑ j ∈ Finset.range n, x j) / n

/-- The deviation of a row. -/
def deviation [Field R] (n : ℕ) (x : ℕ → R) : R :=
  F.sqrt ((∑ j ∈ Finset.range n, x j * x j) / n - mean n x * mean n x + F.eps)

/-- A row with its mean and its deviation removed. -/
def normalize [Field R] (n : ℕ) (x : ℕ → R) (j : ℕ) : R := (x j - mean n x) / deviation F n x

/-- `_acn`. -/
inductive Acn
  | sigmoid
  | relu
  | tanh
  | softmax
  | other
  deriving DecidableEq, Repr

/-- An activation on a row. -/
def Acn.row [Zero R] [Sub R] [LT R] [DecidableLT R] (n : ℕ) : Acn → (ℕ → R) → ℕ → R
  | sigmoid, x, j => F.sigmoid (x j)
  | relu, x, j => Dnn.relu (x j)
  | tanh, x, j => F.tanh (x j)
  | softmax, x, j => softMax F n x j
  | other, x, j => x j

/-! ## Parameters as read -/

/-- `Nnet_LayerNorm`. -/
structure LayerNorm (R : Type*) where
  scale : ZVec R
  shift : ZVec R

namespace LayerNorm

variable [Field R]

/-- `PropagateFnc_Mat`. -/
def propagateMat (ln : LayerNorm R) (m : ZMat R) : ZMat R :=
  ((m.rowMap (normalize F m.col)).rowMap fun x j ↦ x j * ln.scale.data j).rowMap
    fun x j ↦ x j + ln.shift.data j

/-- `PropagateFnc_Vec`. -/
def propagateVec (ln : LayerNorm R) (y : ZVec R) : ZVec R :=
  ((y.rowMap (normalize F y.size)).rowMap fun x j ↦ x j * ln.scale.data j).rowMap
    fun x j ↦ x j + ln.shift.data j

end LayerNorm

/-- Weights and biases as they stand in the file.  The matrix has a row for each input, except in
the format of `Nnet_AffineTransform` and of the old version, where it has one for each output. -/
structure Dense (R : Type*) (n m : ℕ) where
  outputFirst : Bool
  weights : ℕ → ℕ → R
  biases : ℕ → R

namespace Dense

section Weights

variable [Zero R] [One R] {n m : ℕ} (d : Dense R n m)

/-- The matrix `ReadMatrixToNeon` reads. -/
def mat : ZMat R :=
  if d.outputFirst then ZMat.read m n d.weights else ZMat.read n m d.weights

/-- `_weights_neon`. -/
def weightsNeon : ZMatNeon R :=
  if d.outputFirst then (ZMatNeon.create m n true).copyFrom d.mat
  else (ZMatNeon.create n m false).copyFrom d.mat

theorem weightsNeon_colNeon : d.weightsNeon.colNeon = blocks m := by
  rw [weightsNeon]
  split <;> rfl

/-- `_weights_neon_t`. -/
def weightsNeonT : ZMatNeon R :=
  if d.outputFirst then (ZMatNeon.create m n false).copyFrom d.mat
  else (ZMatNeon.create n m true).copyFrom d.mat

/-- `_biases`. -/
def biasesVec : ZVec R := ZVec.read m d.biases

/-- `_biases_neon`. -/
def biasesNeon : ZMatNeon R := (ZMatNeon.create 4 m false).rowCopy4 d.biasesVec

end Weights

variable [Semiring R] {n m : ℕ} (d : Dense R n m)

/-- `RowCopy_N` and `Add_aAB_NEON`. -/
def propagateMat (out matIn : ZMatNeon R) : ZMatNeon R :=
  (out.rowCopyN d.biasesNeon).addAB matIn d.weightsNeon

/-- `Copy` and `Add_aAX_NENO`. -/
def propagateVec (out vecIn : ZVec R) : ZVec R :=
  (out.copy d.biasesVec).addAX d.weightsNeonT vecIn

end Dense

/-- The products of `Nnet_LinearTransform`, with `_svd` off and on. -/
inductive Product (R : Type*) (n m : ℕ)
  | plain (d : Dense R n m)
  | svd (svdDim : ℕ) (first : Dense R n svdDim) (second : Dense R svdDim m)

/-- `Nnet_LinearTransform`. -/
structure LinearTransform (R : Type*) (n m : ℕ) where
  product : Product R n m
  ln : Option (LayerNorm R)
  acn : Acn

/-- `Nnet_Component`, with the dimensions of its input and its output. -/
inductive Component (R : Type*) : ℕ → ℕ → Type _
  | sigmoid (n : ℕ) : Component R n n
  | tanh (n : ℕ) : Component R n n
  | relu (n : ℕ) : Component R n n
  | softMax (n : ℕ) : Component R n n
  | affine {n m : ℕ} (d : Dense R n m) : Component R n m
  | linear {n m : ℕ} (l : LinearTransform R n m) : Component R n m

/-- `_svd_dim`, zero without one. -/
def Component.svdDim {n m : ℕ} : Component R n m → ℕ
  | .linear ⟨.svd svdDim _ _, _, _⟩ => svdDim
  | _ => 0

/-! ## Propagation -/

/-- `Nnet_Component_Memory_LinearTransfrom`, of which `Nnet_Component_Memory` is a part. -/
structure ComponentMemory (R : Type*) where
  frmNumTotal : ℕ
  matOutNeon : ZMatNeon R
  matOut : ZMat R
  vecOut : ZVec R
  matOutSvdNeon : ZMatNeon R
  vecOutSvd : ZVec R

namespace ComponentMemory

variable [Zero R] [One R] (svdDim outputDim : ℕ)

/-- The constructor. -/
def create (batchSize : ℕ) : ComponentMemory R where
  frmNumTotal := batchSize
  matOutNeon := ZMatNeon.create batchSize outputDim false
  matOut := ZMat.create batchSize outputDim
  vecOut := ZVec.create outputDim
  matOutSvdNeon := ZMatNeon.create batchSize svdDim false
  vecOutSvd := ZVec.create svdDim

/-- The matrices are replaced by larger ones if the batch has more rows than any before. -/
def reserve (mem : ComponentMemory R) (row : ℕ) : ComponentMemory R :=
  if mem.frmNumTotal < row then
    { mem with
      frmNumTotal := row * 2
      matOutNeon := ZMatNeon.create (row * 2) outputDim false
      matOut := ZMat.create (row * 2) outputDim
      matOutSvdNeon := ZMatNeon.create (row * 2) svdDim false }
  else mem

/-- `ConfigMem`. -/
def configMem (mem : ComponentMemory R) (row : ℕ) : ComponentMemory R :=
  let mem := mem.reserve svdDim outputDim row
  { mem with
    matOutNeon := mem.matOutNeon.resetRow row
    matOut := mem.matOut.resetRow row
    matOutSvdNeon := mem.matOutSvdNeon.resetRow row }

end ComponentMemory

namespace Product

variable [Semiring R] {n m : ℕ}

/-- The products for a batch; the result is in `matOutNeon`. -/
def propagateMat (mem : ComponentMemory R) (matIn : ZMatNeon R) :
    Product R n m → ComponentMemory R
  | plain d => { mem with matOutNeon := d.propagateMat mem.matOutNeon matIn }
  | svd _ first second =>
      let mem := { mem with matOutSvdNeon := first.propagateMat mem.matOutSvdNeon matIn }
      { mem with matOutNeon := second.propagateMat mem.matOutNeon mem.matOutSvdNeon }

/-- The products for a row; the result is in `vecOut`. -/
def propagateVec (mem : ComponentMemory R) (vecIn : ZVec R) : Product R n m → ComponentMemory R
  | plain d => { mem with vecOut := d.propagateVec mem.vecOut vecIn }
  | svd _ first second =>
      let mem := { mem with vecOutSvd := first.propagateVec mem.vecOutSvd vecIn }
      { mem with vecOut := second.propagateVec mem.vecOut mem.vecOutSvd }

end Product

variable [Field R] [LinearOrder R]

namespace LinearTransform

variable {n m : ℕ} (l : LinearTransform R n m)

/-- Layer norm and activation of a matrix. -/
def finishMat (mat : ZMat R) : ZMat R :=
  let mat := match l.ln with
    | some ln => ln.propagateMat F mat
    | none => mat
  mat.rowMap (l.acn.row F mat.col)

/-- Layer norm and activation of a vector. -/
def finishVec (vec : ZVec R) : ZVec R :=
  let vec := match l.ln with
    | some ln => ln.propagateVec F vec
    | none => vec
  vec.rowMap (l.acn.row F vec.size)

/-- `PropagateFnc_Mat`, behind `ConfigMem`. -/
def propagateMat (mem : ComponentMemory R) (matIn : ZMatNeon R) : ComponentMemory R :=
  let mem := l.product.propagateMat mem matIn
  let mem := { mem with matOut := l.finishMat F (mem.matOutNeon.copyTo mem.matOut) }
  { mem with matOutNeon := mem.matOutNeon.copyFrom mem.matOut }

/-- `PropagateFnc_Vec`. -/
def propagateVec (mem : ComponentMemory R) (vecIn : ZVec R) : ComponentMemory R :=
  let mem := l.product.propagateVec mem vecIn
  { mem with vecOut := l.finishVec F mem.vecOut }

end LinearTransform

namespace Component

/-- `PropagateFnc_Mat`, behind `ConfigMem`. -/
def bodyMat {n m : ℕ} (c : Component R n m) (mem : ComponentMemory R) (matIn : ZMatNeon R) :
    ComponentMemory R :=
  match c with
  | .sigmoid _ => { mem with matOutNeon := (mem.matOutNeon.copy matIn).rowActive F.sigmoid }
  | .tanh _ => { mem with matOutNeon := (mem.matOutNeon.copy matIn).rowActive F.tanh }
  | .relu _ => { mem with matOutNeon := (mem.matOutNeon.copy matIn).laneMap Dnn.relu }
  | .softMax _ =>
      let mem := { mem with
        matOut := (matIn.copyTo mem.matOut).rowMap (Dnn.softMax F mem.matOut.col) }
      { mem with matOutNeon := mem.matOutNeon.copyFrom mem.matOut }
  | .affine d => { mem with matOutNeon := d.propagateMat mem.matOutNeon matIn }
  | .linear l => l.propagateMat F mem matIn

/-- `PropagateFnc_Mat`; the result is in `matOutNeon`. -/
def propagateMat {n m : ℕ} (c : Component R n m) (mem : ComponentMemory R) (matIn : ZMatNeon R) :
    ComponentMemory R :=
  c.bodyMat F (mem.configMem c.svdDim m matIn.row) matIn

/-- `PropagateFnc_Vec`; the result is in `vecOut`. -/
def propagateVec {n m : ℕ} (c : Component R n m) (mem : ComponentMemory R) (vecIn : ZVec R) :
    ComponentMemory R :=
  match c with
  | .sigmoid _ => { mem with vecOut := (mem.vecOut.copy vecIn).rowMap fun x j ↦ F.sigmoid (x j) }
  | .tanh _ => { mem with vecOut := (mem.vecOut.copy vecIn).rowMap fun x j ↦ F.tanh (x j) }
  | .relu _ => { mem with vecOut := (mem.vecOut.copy vecIn).rowMap fun x j ↦ Dnn.relu (x j) }
  | .softMax _ => { mem with vecOut := (mem.vecOut.copy vecIn).rowMap (Dnn.softMax F mem.vecOut.size) }
  | .affine d => { mem with vecOut := d.propagateVec mem.vecOut vecIn }
  | .linear l => l.propagateVec F mem vecIn

end Component

/-! ## The network -/

/-- `components_`. -/
inductive Layers (R : Type*) : ℕ → ℕ → Type _
  | nil (n : ℕ) : Layers R n n
  | cons {n k m : ℕ} (c : Component R n k) (rest : Layers R k m) : Layers R n m

namespace Layers

/-- `memorys_`: one memory for each layer. -/
def Memory {n m : ℕ} : Layers R n m → Type _
  | .nil _ => PUnit
  | .cons _ rest => ComponentMemory R × rest.Memory

/-- `GeneratePropagateMemory` for each layer. -/
def createMemory (batchNum : ℕ) {n m : ℕ} : (layers : Layers R n m) → layers.Memory
  | .nil _ => ⟨⟩
  | .cons (k := k) c rest => (ComponentMemory.create c.svdDim k batchNum, rest.createMemory batchNum)

/-- The loop of `ProcessBatch`. -/
def propagateMat {n m : ℕ} :
    (layers : Layers R n m) → layers.Memory → ZMatNeon R → layers.Memory × ZMatNeon R
  | .nil _, mems, matIn => (mems, matIn)
  | .cons c rest, mems, matIn =>
      let mem := c.propagateMat F mems.1 matIn
      let later := rest.propagateMat mems.2 mem.matOutNeon
      ((mem, later.1), later.2)

/-- The loop of `ProcessSingle`. -/
def propagateVec {n m : ℕ} :
    (layers : Layers R n m) → layers.Memory → ZVec R → layers.Memory × ZVec R
  | .nil _, mems, vecIn => (mems, vecIn)
  | .cons c rest, mems, vecIn =>
      let mem := c.propagateVec F mems.1 vecIn
      let later := rest.propagateVec mems.2 mem.vecOut
      ((mem, later.1), later.2)

end Layers

/-- `Nnet`: `sn` holds `m_pVec_Sn_Mean` and `m_pVec_Sn_Var` if `m_bSn`, and `prior` holds
`m_pVec_Prior` if `m_bPrior`. -/
structure Nnet (R : Type*) (n m : ℕ) where
  layers : Layers R n m
  sn : Option (ZVec R × ZVec R)
  prior : Option (ZVec R)

namespace Nnet

variable {n m : ℕ} (net : Nnet R n m)

/-- `ProcessPrior_Mat`. -/
def processPriorMat (mat : ZMat R) : ZMat R :=
  let mat := match net.sn with
    | some (snMean, snVar) =>
        ((mat.rowMap (normalize F mat.col)).rowMap fun x j ↦ x j + snMean.data j).rowMap
          fun x j ↦ x j * snVar.data j
    | none => mat
  match net.prior with
  | some prior => mat.rowMap fun x j ↦ x j + prior.data j
  | none => mat

/-- `ProcessPrior_Vec`. -/
def processPriorVec (vec : ZVec R) : ZVec R :=
  let vec := match net.sn with
    | some (snMean, snVar) =>
        ((vec.rowMap (normalize F vec.size)).rowMap fun x j ↦ x j + snMean.data j).rowMap
          fun x j ↦ x j * snVar.data j
    | none => vec
  match net.prior with
  | some prior => vec.rowMap fun x j ↦ x j + prior.data j
  | none => vec

/-- `Nnet_Memory_Batch`, as far as the evaluation of the network is concerned. -/
structure Memory (net : Nnet R n m) where
  memorys : net.layers.Memory
  matInBatch : ZMat R
  matInBatchNeon : ZMatNeon R
  matOutBatch : ZMat R
  vecInSingle : ZVec R
  vecOutSingle : ZVec R

namespace Memory

variable {net}

/-- The constructor. -/
def create (net : Nnet R n m) (batchNum : ℕ) : net.Memory where
  memorys := net.layers.createMemory batchNum
  matInBatch := ZMat.create batchNum n
  matInBatchNeon := ZMatNeon.create batchNum n false
  matOutBatch := ZMat.create batchNum m
  vecInSingle := ZVec.create n
  vecOutSingle := ZVec.create m

/-- Rows are copied to `m_pMat_In_Batch`. -/
def setBatch (s : net.Memory) (rows : ℕ → ℕ → R) : net.Memory :=
  { s with
    matInBatch := { s.matInBatch with
      data := fun i j ↦ if i < s.matInBatch.row ∧ j < n then rows i j else s.matInBatch.data i j } }

/-- A row is copied to `m_pVec_In_Single`. -/
def setSingle (s : net.Memory) (row : ℕ → R) : net.Memory :=
  { s with
    vecInSingle := { s.vecInSingle with
      data := fun j ↦ if j < n then row j else s.vecInSingle.data j } }

/-- `ProcessBatch`. -/
def processBatch (s : net.Memory) : net.Memory :=
  let matIn := s.matInBatchNeon.copyFrom s.matInBatch
  let result := net.layers.propagateMat F s.memorys matIn
  { s with
    matInBatchNeon := matIn
    memorys := result.1
    matOutBatch := net.processPriorMat F (result.2.copyTo s.matOutBatch) }

/-- `ProcessSingle`. -/
def processSingle (s : net.Memory) : net.Memory :=
  let result := net.layers.propagateVec F s.memorys s.vecInSingle
  { s with
    memorys := result.1
    vecOutSingle := net.processPriorVec F (s.vecOutSingle.copy result.2) }

/-- An evaluation: of a batch of rows or of a row. -/
inductive Call (R : Type*)
  | batch (rows : ℕ → ℕ → R)
  | single (row : ℕ → R)

/-- The memory after an evaluation. -/
def step (s : net.Memory) : Call R → net.Memory
  | .batch rows => (s.setBatch rows).processBatch F
  | .single row => (s.setSingle row).processSingle F

end Memory

end Nnet

end Vsys.Dnn
