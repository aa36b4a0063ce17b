import Vsys.Dnn.Component
import Vsys.Trace.Run

/-!
# A network as a function of a row

`Nnet.eval` is what a network computes for one row, with no matrices in blocks and no memories.  It
depends on the entries of the row only as far as the layer reads them (`Layers.eval_congr`).
-/

namespace Vsys.Dnn

open Vsys.Mat Vsys.Trace

open scoped BigOperators

variable {R : Type*}

/-- Two rows have the same first `n` entries. -/
def Agree (n : ℕ) (x y : ℕ → R) : Prop := ∀ j < n, x j = y j

theorem Agree.trans {n : ℕ} {x y z : ℕ → R} (h : Agree n x y) (h' : Agree n y z) : Agree n x z :=
  fun j hj ↦ (h j hj).trans (h' j hj)

/-! ## The functions look at the entries only -/

theorem logSum_congr (F : Functions R) {n : ℕ} (hn : 0 < n) {x y : ℕ → R} (h : Agree n x y) :
    logSum F n x = logSum F n y := by
  rw [logSum, logSum, h 0 hn]
  apply List.foldl_ext
  intro sum j hj
  have hj := List.mem_range.mp hj
  rw [h (j + 1) (by omega)]

theorem Acn.row_congr [Zero R] [Sub R] [LT R] [DecidableLT R] (F : Functions R) (acn : Acn)
    {n : ℕ} {x y : ℕ → R} (h : Agree n x y) :
    Agree n (acn.row F n x) (acn.row F n y) := by
  intro j hj
  cases acn with
  | softmax =>
      simp only [Acn.row, softMax]
      rw [h j hj, logSum_congr F (Nat.zero_lt_of_lt hj) h]
  | _ => simp only [Acn.row, h j hj]

variable [Field R]

theorem mean_congr {n : ℕ} {x y : ℕ → R} (h : Agree n x y) : mean n x = mean n y := by
  rw [mean, mean, Finset.sum_congr rfl fun j hj ↦ h j (Finset.mem_range.mp hj)]

theorem deviation_congr (F : Functions R) {n : ℕ} {x y : ℕ → R} (h : Agree n x y) :
    deviation F n x = deviation F n y := by
  have hsquares : ∑ j ∈ Finset.range n, x j * x j = ∑ j ∈ Finset.range n, y j * y j := by
    apply Finset.sum_congr rfl
    intro j hj
    rw [h j (Finset.mem_range.mp hj)]
  rw [deviation, deviation, hsquares, mean_congr h]

theorem normalize_congr (F : Functions R) {n : ℕ} {x y : ℕ → R} (h : Agree n x y) :
    Agree n (normalize F n x) (normalize F n y) := by
  intro j hj
  rw [normalize, normalize, h j hj, mean_congr h, deviation_congr F h]

/-! ## The network as a function -/

/-- The weight from an input to an output. -/
def Dense.weight {n m : ℕ} (d : Dense R n m) (p c : ℕ) : R :=
  if d.outputFirst then d.weights c p else d.weights p c

/-- Biases and weighted inputs. -/
def Dense.eval {n m : ℕ} (d : Dense R n m) (x : ℕ → R) (c : ℕ) : R :=
  d.biases c + ∑ p ∈ Finset.range n, x p * d.weight p c

/-- One product or two. -/
def Product.eval {n m : ℕ} : Product R n m → (ℕ → R) → ℕ → R
  | plain d, x => d.eval x
  | svd _ first second, x => second.eval (first.eval x)

theorem Dense.eval_congr {n m : ℕ} (d : Dense R n m) {x y : ℕ → R} (h : Agree n x y) :
    d.eval x = d.eval y := by
  funext c
  rw [Dense.eval, Dense.eval]
  congr 1
  apply Finset.sum_congr rfl
  intro p hp
  rw [h p (Finset.mem_range.mp hp)]

theorem Product.eval_congr {n m : ℕ} (product : Product R n m) {x y : ℕ → R} (h : Agree n x y) :
    product.eval x = product.eval y := by
  cases product with
  | plain d => exact d.eval_congr h
  | svd svdDim first second =>
      simp only [Product.eval]
      rw [first.eval_congr h]

variable (F : Functions R)

/-- A row scaled to mean zero and deviation one, and then as trained. -/
def LayerNorm.eval (n : ℕ) (ln : LayerNorm R) (x : ℕ → R) (j : ℕ) : R :=
  normalize F n x j * ln.scale.data j + ln.shift.data j

/-- Layer norm, if there is one. -/
def LinearTransform.norm {n m : ℕ} (l : LinearTransform R n m) (x : ℕ → R) : ℕ → R :=
  match l.ln with
  | some ln => ln.eval F m x
  | none => x

theorem LinearTransform.norm_congr {n m : ℕ} (l : LinearTransform R n m) {x y : ℕ → R}
    (h : Agree m x y) : Agree m (l.norm F x) (l.norm F y) := by
  intro j hj
  simp only [LinearTransform.norm]
  cases l.ln with
  | none => exact h j hj
  | some ln =>
      simp only [LayerNorm.eval]
      rw [normalize_congr F h j hj]

/-- `m_bSn` on a row. -/
def Nnet.snRow {n m : ℕ} (net : Nnet R n m) (x : ℕ → R) (j : ℕ) : R :=
  match net.sn with
  | some (snMean, snVar) => (normalize F m x j + snMean.data j) * snVar.data j
  | none => x j

/-- `ProcessPrior` on a row. -/
def Nnet.priorRow {n m : ℕ} (net : Nnet R n m) (x : ℕ → R) (j : ℕ) : R :=
  match net.prior with
  | some prior => net.snRow F x j + prior.data j
  | none => net.snRow F x j

theorem Nnet.priorRow_congr {n m : ℕ} (net : Nnet R n m) {x y : ℕ → R} (h : Agree m x y) :
    Agree m (net.priorRow F x) (net.priorRow F y) := by
  have hsn : Agree m (net.snRow F x) (net.snRow F y) := by
    intro j hj
    simp only [Nnet.snRow]
    cases net.sn with
    | none => exact h j hj
    | some sn => simp only [normalize_congr F h j hj]
  intro j hj
  simp only [Nnet.priorRow]
  cases net.prior with
  | none => exact hsn j hj
  | some prior => simp only [hsn j hj]

variable [LinearOrder R]

/-- `Nnet_LinearTransform` as a function. -/
def LinearTransform.eval {n m : ℕ} (l : LinearTransform R n m) (x : ℕ → R) : ℕ → R :=
  l.acn.row F m (l.norm F (l.product.eval x))

/-- A layer as a function. -/
def Component.eval {n m : ℕ} : Component R n m → (ℕ → R) → ℕ → R
  | .sigmoid _, x => Acn.sigmoid.row F m x
  | .tanh _, x => Acn.tanh.row F m x
  | .relu _, x => Acn.relu.row F m x
  | .softMax _, x => Acn.softmax.row F m x
  | .affine d, x => d.eval x
  | .linear l, x => l.eval F x

/-- The layers one after the other. -/
def Layers.eval {n m : ℕ} : Layers R n m → (ℕ → R) → ℕ → R
  | .nil _, x => x
  | .cons c rest, x => rest.eval (c.eval F x)

/-- The network as a function. -/
def Nnet.eval {n m : ℕ} (net : Nnet R n m) (x : ℕ → R) : ℕ → R :=
  net.priorRow F (net.layers.eval F x)

theorem Component.eval_congr {n m : ℕ} (c : Component R n m) {x y : ℕ → R} (h : Agree n x y) :
    Agree m (c.eval F x) (c.eval F y) := by
  cases c with
  | sigmoid => exact Acn.row_congr F .sigmoid h
  | tanh => exact Acn.row_congr F .tanh h
  | relu => exact Acn.row_congr F .relu h
  | softMax => exact Acn.row_congr F .softmax h
  | affine d =>
      intro j _
      simp only [Component.eval]
      rw [d.eval_congr h]
  | linear l =>
      intro j _
      simp only [Component.eval, LinearTransform.eval]
      rw [l.product.eval_congr h]

theorem Layers.eval_congr {n m : ℕ} (layers : Layers R n m) {x y : ℕ → R} (h : Agree n x y) :
    Agree m (layers.eval F x) (layers.eval F y) := by
  induction layers generalizing x y with
  | nil n => exact h
  | cons c rest ih => exact ih (c.eval_congr F h)

end Vsys.Dnn
