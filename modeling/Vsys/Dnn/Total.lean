import Vsys.Dnn.Component
import Vsys.Mat.Blas

/-!
# The network of the wake word

`Nnet_Memory_Total` in `znnet.cpp`, with the recurrent layers of `zcomp_lstm.cpp` and
`zcomp_lstm_cell.cpp`.  A call gives the network any number of rows; the memories are made larger
when they have to be, and otherwise only told how many rows there are now.

The numbers have operations and no laws, so that nothing is lost if a lane meets a zero: the layers
of `Vsys.Dnn.Component` are written down once more for them, `Rounded`.  The sums of
`ProcessPrior_Mat`, which are in double precision, are sums of these numbers.
-/

namespace Vsys.Dnn

open Vsys.Mat

variable {R : Type*}

/-- `Nnet_LayerNorm` for the cell, the candidate and the gates. -/
structure CellNorm (R : Type*) where
  i : LayerNorm R
  j : LayerNorm R
  f : LayerNorm R
  c : LayerNorm R
  o : LayerNorm R

/-- `_peephole_f`, `_peephole_i` and `_peephole_o`. -/
structure Peephole (R : Type*) where
  f : ZVec R
  i : ZVec R
  o : ZVec R

/-- `Nnet_Lstm_Cell` as read, with the dimensions of its input and its output; there is a bias
unless there are layer norms. -/
structure LstmCell (R : Type*) (n out : ℕ) where
  numUnits : ℕ
  norm : CellNorm R ⊕ (ℕ → R)
  peephole : Option (Peephole R)
  forgetBias : R
  acn : Acn
  gifoX : ℕ → ℕ → R
  gifoM : ℕ → ℕ → R
  proj : ℕ → ℕ → R

namespace LstmCell

variable [Zero R] [One R] {n out : ℕ} (cell : LstmCell R n out)

/-- `_gifo_x_neon`. -/
def gifoXNeon : ZMatNeon R :=
  (ZMatNeon.create n (cell.numUnits * 4) false).copyFrom (ZMat.read n (cell.numUnits * 4) cell.gifoX)

/-- `_gifo_m_neon`. -/
def gifoMNeon : ZMatNeon R :=
  (ZMatNeon.create out (cell.numUnits * 4) true).copyFrom
    (ZMat.read out (cell.numUnits * 4) cell.gifoM)

/-- `_proj_neon`. -/
def projNeon : ZMatNeon R :=
  (ZMatNeon.create cell.numUnits out true).copyFrom (ZMat.read cell.numUnits out cell.proj)

end LstmCell

/-- The vectors of `Nnet_Memory_Lstm_Cell`. -/
structure CellVecs (R : Type*) where
  gifo : ZVec R
  j : ZVec R
  i : ZVec R
  f : ZVec R
  o : ZVec R
  c : ZVec R
  mBk : ZVec R
  m : ZVec R

/-- `Nnet_Memory_Lstm_Cell`. -/
structure CellMemory (R : Type*) where
  batchSize : ℕ
  gifoNeon : ZMatNeon R
  gifoMat : ZMat R
  vecs : CellVecs R
  out : ZMat R

namespace CellMemory

variable [Zero R] [One R] (numUnits outputDim : ℕ)

/-- The constructor. -/
def create (batchSize : ℕ) : CellMemory R where
  batchSize := batchSize
  gifoNeon := ZMatNeon.create batchSize (numUnits * 4) false
  gifoMat := ZMat.create batchSize (numUnits * 4)
  vecs :=
    { gifo := ZVec.create (numUnits * 4)
      j := ZVec.create numUnits
      i := ZVec.create numUnits
      f := ZVec.create numUnits
      o := ZVec.create numUnits
      c := ZVec.create numUnits
      mBk := ZVec.create numUnits
      m := ZVec.create outputDim }
  out := ZMat.create batchSize outputDim

/-- The matrices are replaced by larger ones if there are more rows than ever before. -/
def reserve (mem : CellMemory R) (row : ℕ) : CellMemory R :=
  if mem.batchSize < row then
    { mem with
      batchSize := row * 2
      gifoNeon := ZMatNeon.create (row * 2) (numUnits * 4) false
      gifoMat := ZMat.create (row * 2) (numUnits * 4)
      out := ZMat.create (row * 2) outputDim }
  else mem

/-- `ConfigMem`. -/
def configMem (mem : CellMemory R) (row : ℕ) : CellMemory R :=
  let mem := mem.reserve numUnits outputDim row
  { mem with
    gifoNeon := (mem.gifoNeon.resetRow row).clean
    gifoMat := mem.gifoMat.resetRow row
    out := mem.out.resetRow row
    vecs := { mem.vecs with c := mem.vecs.c.clean, m := mem.vecs.m.clean } }

end CellMemory

namespace Rounded

variable [Zero R] [Add R] [Sub R] [Mul R] [Div R] [NatCast R] [LT R] [DecidableLT R]
variable (F : Functions R) (B : Blas R)

/-! ## Functions of a row -/

/-- A sum from left to right. -/
def sum (n : ℕ) (x : ℕ → R) : R := (List.range n).foldl (fun s j ↦ s + x j) 0

/-- The mean of a row. -/
def mean (n : ℕ) (x : ℕ → R) : R := sum n x / n

/-- The deviation of a row. -/
def deviation (n : ℕ) (x : ℕ → R) : R :=
  F.sqrt (sum n (fun j ↦ x j * x j) / n - mean n x * mean n x + F.eps)

/-- A row with its mean and its deviation removed. -/
def normalize (n : ℕ) (x : ℕ → R) (j : ℕ) : R := (x j - mean n x) / deviation F n x

/-- `Nnet_LayerNorm::PropagateFnc_Mat`. -/
def layerNormMat (ln : LayerNorm R) (m : ZMat R) : ZMat R :=
  ((m.rowMap (normalize F m.col)).rowMap fun x j ↦ x j * ln.scale.data j).rowMap
    fun x j ↦ x j + ln.shift.data j

/-- `Nnet_LayerNorm::PropagateFnc_Vec`. -/
def layerNormVec (ln : LayerNorm R) (y : ZVec R) : ZVec R :=
  ((y.rowMap (normalize F y.size)).rowMul ln.scale).rowAdd ln.shift

/-- `ZVec::RowSigMoid`. -/
def rowSigMoid (y : ZVec R) : ZVec R := y.rowMap fun x j ↦ F.sigmoid (x j)

/-- `ZVec::RowActive`; other names fail an assertion. -/
def rowActive (acn : Acn) (y : ZVec R) : ZVec R :=
  match acn with
  | .relu => y.rowMap fun x j ↦ relu (x j)
  | .tanh => y.rowMap fun x j ↦ F.tanh (x j)
  | .sigmoid => rowSigMoid F y
  | _ => y

/-! ## The layers without memory of rows -/

section Layers

variable [One R]

/-- `RowCopy_N` and `Add_aAB_NEON`. -/
def denseMat {n m : ℕ} (d : Dense R n m) (out matIn : ZMatNeon R) : ZMatNeon R :=
  (out.rowCopyN d.biasesNeon).addABBy B matIn d.weightsNeon

/-- The products of `Nnet_LinearTransform`. -/
def productMat {n m : ℕ} (mem : ComponentMemory R) (matIn : ZMatNeon R) :
    Product R n m → ComponentMemory R
  | .plain d => { mem with matOutNeon := denseMat B d mem.matOutNeon matIn }
  | .svd _ first second =>
      let mem := { mem with matOutSvdNeon := denseMat B first mem.matOutSvdNeon matIn }
      { mem with matOutNeon := denseMat B second mem.matOutNeon mem.matOutSvdNeon }

/-- Layer norm and activation of a matrix. -/
def finishMat {n m : ℕ} (l : LinearTransform R n m) (mat : ZMat R) : ZMat R :=
  let mat := match l.ln with
    | some ln => layerNormMat F ln mat
    | none => mat
  mat.rowMap (l.acn.row F mat.col)

/-- `Nnet_LinearTransform::PropagateFnc_Mat`, behind `ConfigMem`. -/
def linearMat {n m : ℕ} (l : LinearTransform R n m) (mem : ComponentMemory R)
    (matIn : ZMatNeon R) : ComponentMemory R :=
  let mem := productMat B mem matIn l.product
  let mem := { mem with matOut := finishMat F l (mem.matOutNeon.copyTo mem.matOut) }
  { mem with matOutNeon := mem.matOutNeon.copyFrom mem.matOut }

/-- `PropagateFnc_Mat` of a layer without recurrence, behind `ConfigMem`. -/
def componentBody {n m : ℕ} (c : Component R n m) (mem : ComponentMemory R) (matIn : ZMatNeon R) :
    ComponentMemory R :=
  match c with
  | .sigmoid _ => { mem with matOutNeon := (mem.matOutNeon.copy matIn).rowActive F.sigmoid }
  | .tanh _ => { mem with matOutNeon := (mem.matOutNeon.copy matIn).rowActive F.tanh }
  | .relu _ => { mem with matOutNeon := (mem.matOutNeon.copy matIn).laneMap relu }
  | .softMax _ =>
      let mem := { mem with
        matOut := (matIn.copyTo mem.matOut).rowMap (softMax F mem.matOut.col) }
      { mem with matOutNeon := mem.matOutNeon.copyFrom mem.matOut }
  | .affine d => { mem with matOutNeon := denseMat B d mem.matOutNeon matIn }
  | .linear l => linearMat F B l mem matIn

/-- `PropagateFnc_Mat` of a layer without recurrence. -/
def componentMat {n m : ℕ} (c : Component R n m) (mem : ComponentMemory R) (matIn : ZMatNeon R) :
    ComponentMemory R :=
  componentBody F B c (mem.configMem c.svdDim m matIn.row) matIn

end Layers

/-! ## The recurrent cell -/

section Cell

variable [One R] {n out : ℕ} (cell : LstmCell R n out)

/-- A row of `_buf_gifo_mat` with the bias and the last result, cut into the gates. -/
def gates (v : CellVecs R) (x : ℕ → R) : CellVecs R :=
  let u := cell.numUnits
  let gifo := v.gifo.load x
  let gifo := match cell.norm with
    | .inl _ => gifo
    | .inr bias => gifo.rowAdd (ZVec.read (u * 4) bias)
  let gifo := gifo.addAXBy B cell.gifoMNeon v.m
  { v with
    gifo := gifo
    j := v.j.load fun p ↦ gifo.data p
    i := v.i.load fun p ↦ gifo.data (u + p)
    f := v.f.load fun p ↦ gifo.data (u + u + p)
    o := v.o.load fun p ↦ gifo.data (u + u + u + p) }

/-- With layer norms and a peephole. -/
def normPeephole (ln : CellNorm R) (p : Peephole R) (v : CellVecs R) : CellVecs R :=
  let f := v.f.addXY p.f v.c
  let i := v.i.addXY p.i v.c
  let i := layerNormVec F ln.i i
  let j := layerNormVec F ln.j v.j
  let f := layerNormVec F ln.f f
  let f := rowSigMoid F f
  let c := v.c.rowMul f
  let i := rowSigMoid F i
  let j := rowActive F cell.acn j
  let c := c.addXY i j
  let o := v.o.addXY p.o c
  let mBk := rowActive F cell.acn (layerNormVec F ln.c (v.mBk.copy c))
  let o := rowSigMoid F (layerNormVec F ln.o o)
  { v with j := j, i := i, f := f, o := o, c := c, mBk := mBk.rowMul o }

/-- With layer norms. -/
def normPlain (ln : CellNorm R) (v : CellVecs R) : CellVecs R :=
  let i := layerNormVec F ln.i v.i
  let j := layerNormVec F ln.j v.j
  let f := layerNormVec F ln.f v.f
  let f := rowSigMoid F f
  let c := v.c.rowMul f
  let i := rowSigMoid F i
  let j := rowActive F cell.acn j
  let c := c.addXY i j
  let mBk := rowActive F cell.acn (layerNormVec F ln.c (v.mBk.copy c))
  let o := rowSigMoid F (layerNormVec F ln.o v.o)
  { v with j := j, i := i, f := f, o := o, c := c, mBk := mBk.rowMul o }

/-- With a bias and a peephole. -/
def biasPeephole (p : Peephole R) (v : CellVecs R) : CellVecs R :=
  let f := rowSigMoid F ((v.f.add cell.forgetBias).addXY p.f v.c)
  let i := rowSigMoid F (v.i.addXY p.i v.c)
  let j := rowActive F cell.acn v.j
  let c := (v.c.rowMul f).addXY i j
  let o := rowSigMoid F (v.o.addXY p.o c)
  let mBk := (rowActive F cell.acn (v.mBk.copy c)).rowMul o
  { v with j := j, i := i, f := f, o := o, c := c, mBk := mBk }

/-- With a bias. -/
def biasPlain (v : CellVecs R) : CellVecs R :=
  let f := rowSigMoid F (v.f.add cell.forgetBias)
  let i := rowSigMoid F v.i
  let j := rowActive F cell.acn v.j
  let c := (v.c.rowMul f).addXY i j
  let o := rowSigMoid F v.o
  let mBk := (rowActive F cell.acn (v.mBk.copy c)).rowMul o
  { v with j := j, i := i, f := f, o := o, c := c, mBk := mBk }

/-- The four cases. -/
def activate (v : CellVecs R) : CellVecs R :=
  match cell.norm, cell.peephole with
  | .inl ln, some p => normPeephole F cell ln p v
  | .inl ln, none => normPlain F cell ln v
  | .inr _, some p => biasPeephole F cell p v
  | .inr _, none => biasPlain F cell v

/-- The end of every case: the result as it is, or projected. -/
def project (v : CellVecs R) : CellVecs R :=
  if cell.numUnits = out then { v with m := v.m.copy v.mBk }
  else { v with m := v.m.clean.addAXBy B cell.projNeon v.mBk }

/-- The vectors behind one turn of the loop. -/
def turn (v : CellVecs R) (x : ℕ → R) : CellVecs R :=
  project B cell (activate F cell (gates B cell v x))

/-- The row that is handled in a turn: from the first to the last, or back. -/
def turnRow (fw : Bool) (row i : ℕ) : ℕ := if fw then i else row - 1 - i

/-- One turn of the loop. -/
def cellStep (fw : Bool) (row : ℕ) (mem : CellMemory R) (i : ℕ) : CellMemory R :=
  let place := turnRow fw row i
  let vecs := turn F B cell mem.vecs (mem.gifoMat.data place)
  { mem with
    vecs := vecs
    out := { mem.out with
      data := fun r c ↦ if r = place ∧ c < out then vecs.m.data c else mem.out.data r c } }

/-- `Nnet_Lstm_Cell::PropagateFnc_Mat`; the result is in `out`. -/
def cellMat (fw : Bool) (mem : CellMemory R) (matIn : ZMatNeon R) : CellMemory R :=
  let mem := mem.configMem cell.numUnits out matIn.row
  let mem := { mem with
    gifoNeon := mem.gifoNeon.clean
    vecs := { mem.vecs with c := mem.vecs.c.clean, m := mem.vecs.m.clean } }
  let mem := { mem with gifoNeon := mem.gifoNeon.addABBy B matIn cell.gifoXNeon }
  let mem := { mem with gifoMat := mem.gifoNeon.copyTo mem.gifoMat }
  (List.range matIn.row).foldl (cellStep F B cell fw matIn.row) mem

end Cell

end Rounded

/-! ## The network -/

/-- `Nnet_Component`, the recurrent ones included; the results of `Nnet_BLstm` fit side by side. -/
inductive Layer (R : Type*) : ℕ → ℕ → Type _
  | component {n m : ℕ} (c : Component R n m) : Layer R n m
  | lstm {n m : ℕ} (fw : LstmCell R n m) : Layer R n m
  | blstm {n k l m : ℕ} (fw : LstmCell R n k) (bw : LstmCell R n l) (fit : k + l ≤ m) : Layer R n m

/-- `components_`. -/
inductive Chain (R : Type*) : ℕ → ℕ → Type _
  | nil (n : ℕ) : Chain R n n
  | cons {n k m : ℕ} (layer : Layer R n k) (rest : Chain R k m) : Chain R n m

namespace Layer

/-- `Nnet_Component_Memory`, `Nnet_Memory_Lstm` or `Nnet_Memory_BLstm`. -/
def Memory {n m : ℕ} : Layer R n m → Type _
  | .component _ => ComponentMemory R
  | .lstm _ => ComponentMemory R × CellMemory R
  | .blstm .. => ComponentMemory R × CellMemory R × CellMemory R

/-- `m_pMat_Out_Neon`. -/
def matOutNeon {n m : ℕ} : (layer : Layer R n m) → layer.Memory → ZMatNeon R
  | .component _, mem => mem.matOutNeon
  | .lstm _, mem => mem.1.matOutNeon
  | .blstm .., mem => mem.1.matOutNeon

variable [Zero R] [One R]

/-- `GeneratePropagateMemory`. -/
def createMemory (batchSize : ℕ) {n m : ℕ} : (layer : Layer R n m) → layer.Memory
  | .component c => ComponentMemory.create c.svdDim m batchSize
  | .lstm fw => (ComponentMemory.create 0 m batchSize, CellMemory.create fw.numUnits m batchSize)
  | .blstm (k := k) (l := l) fw bw _ =>
      (ComponentMemory.create 0 m batchSize, CellMemory.create fw.numUnits k batchSize,
        CellMemory.create bw.numUnits l batchSize)

variable [Add R] [Sub R] [Mul R] [Div R] [NatCast R] [LT R] [DecidableLT R]
variable (F : Functions R) (B : Blas R)

/-- `Nnet_Lstm::PropagateFnc_Mat`. -/
def lstmMat {n m : ℕ} (fw : LstmCell R n m) (mem : ComponentMemory R × CellMemory R)
    (matIn : ZMatNeon R) : ComponentMemory R × CellMemory R :=
  let base := mem.1.configMem 0 m matIn.row
  let memFw := mem.2.configMem fw.numUnits m matIn.row
  let memFw := Rounded.cellMat F B fw true memFw matIn
  ({ base with matOutNeon := base.matOutNeon.copyFrom memFw.out }, memFw)

/-- Two results side by side. -/
def joinRows (k l : ℕ) (matOut fw bw : ZMat R) : ZMat R :=
  { matOut with
    data := fun r c ↦
      if r < fw.row then
        if k ≤ c ∧ c < k + l then bw.data r (c - k)
        else if c < k then fw.data r c else matOut.data r c
      else matOut.data r c }

/-- `Nnet_BLstm::PropagateFnc_Mat`. -/
def blstmMat {n k l : ℕ} (m : ℕ) (fw : LstmCell R n k) (bw : LstmCell R n l)
    (mem : ComponentMemory R × CellMemory R × CellMemory R) (matIn : ZMatNeon R) :
    ComponentMemory R × CellMemory R × CellMemory R :=
  let base := mem.1.configMem 0 m matIn.row
  let memBw := mem.2.2.configMem bw.numUnits l matIn.row
  let memFw := mem.2.1.configMem fw.numUnits k matIn.row
  let memFw := Rounded.cellMat F B fw true memFw matIn
  let memBw := Rounded.cellMat F B bw false memBw matIn
  let base := { base with matOut := joinRows k l base.matOut memFw.out memBw.out }
  ({ base with matOutNeon := base.matOutNeon.copyFrom base.matOut }, memFw, memBw)

/-- `PropagateFnc_Mat`. -/
def propagateMat {n m : ℕ} : (layer : Layer R n m) → layer.Memory → ZMatNeon R → layer.Memory
  | .component c, mem, matIn => Rounded.componentMat F B c mem matIn
  | .lstm fw, mem, matIn => lstmMat F B fw mem matIn
  | .blstm fw bw _, mem, matIn => blstmMat F B m fw bw mem matIn

end Layer

namespace Chain

/-- `memorys_`: one memory for each layer. -/
def Memory {n m : ℕ} : Chain R n m → Type _
  | .nil _ => PUnit
  | .cons layer rest => layer.Memory × rest.Memory

variable [Zero R] [One R]

/-- `GeneratePropagateMemory` for each layer. -/
def createMemory (batchSize : ℕ) {n m : ℕ} : (layers : Chain R n m) → layers.Memory
  | .nil _ => ⟨⟩
  | .cons layer rest => (layer.createMemory batchSize, rest.createMemory batchSize)

variable [Add R] [Sub R] [Mul R] [Div R] [NatCast R] [LT R] [DecidableLT R]
variable (F : Functions R) (B : Blas R)

/-- The loop over the layers. -/
def propagateMat {n m : ℕ} :
    (layers : Chain R n m) → layers.Memory → ZMatNeon R → layers.Memory × ZMatNeon R
  | .nil _, mems, matIn => (mems, matIn)
  | .cons layer rest, mems, matIn =>
      let mem := layer.propagateMat F B mems.1 matIn
      let later := rest.propagateMat mems.2 (layer.matOutNeon mem)
      ((mem, later.1), later.2)

end Chain

/-- `Nnet`: `sn` holds `m_pVec_Sn_Mean` and `m_pVec_Sn_Var` if `m_bSn`, and `prior` holds
`m_pVec_Prior` if `m_bPrior`. -/
structure WakeNnet (R : Type*) (n m : ℕ) where
  layers : Chain R n m
  sn : Option (ZVec R × ZVec R)
  prior : Option (ZVec R)

/-- `Nnet_Memory_Total`. -/
structure TotalMemory {n m : ℕ} (net : WakeNnet R n m) where
  lenTotal : ℕ
  memorys : net.layers.Memory
  matIn : ZMat R
  matInNeon : ZMatNeon R
  matOut : ZMat R

/-- Rows are copied to `m_pMat_In`. -/
def setRows (n : ℕ) (mat : ZMat R) (rows : ℕ → ℕ → R) : ZMat R :=
  { mat with data := fun i j ↦ if i < mat.row ∧ j < n then rows i j else mat.data i j }

namespace TotalMemory

variable {n m : ℕ} {net : WakeNnet R n m} [Zero R] [One R]

/-- The constructor. -/
def create (net : WakeNnet R n m) : TotalMemory net where
  lenTotal := 100
  memorys := net.layers.createMemory 100
  matIn := ZMat.create 100 n
  matInNeon := ZMatNeon.create 100 n false
  matOut := ZMat.create 100 m

/-- "Prepare buff". -/
def prepare (s : TotalMemory net) (len : ℕ) : TotalMemory net :=
  if s.lenTotal < len then
    { s with
      lenTotal := len
      matIn := ZMat.create len n
      matInNeon := ZMatNeon.create len n false
      matOut := ZMat.create len m }
  else s

variable [Add R] [Sub R] [Mul R] [Div R] [NatCast R] [LT R] [DecidableLT R]
variable (F : Functions R) (B : Blas R)

/-- `ProcessPrior_Mat`. -/
def processPriorMat (net : WakeNnet R n m) (mat : ZMat R) : ZMat R :=
  let mat := match net.sn with
    | some (snMean, snVar) =>
        ((mat.rowMap (Rounded.normalize F mat.col)).rowMap fun x j ↦ x j + snMean.data j).rowMap
          fun x j ↦ x j * snVar.data j
    | none => mat
  match net.prior with
  | some prior => mat.rowMap fun x j ↦ x j + prior.data j
  | none => mat

/-- `GetOutPut` for `len` rows; the result is in `matOut`. -/
def getOutPut (s : TotalMemory net) (rows : ℕ → ℕ → R) (len : ℕ) : TotalMemory net :=
  let s := s.prepare len
  let matIn := setRows n (s.matIn.resetRow len) rows
  let matInNeon := (s.matInNeon.resetRow len).copyFrom matIn
  let result := net.layers.propagateMat F B s.memorys matInNeon
  let matOut := result.2.copyTo (s.matOut.resetRow len)
  { s with
    matIn := matIn
    matInNeon := matInNeon
    memorys := result.1
    matOut := processPriorMat F net (matOut.rowMap (softMax F m)) }

end TotalMemory

end Vsys.Dnn
