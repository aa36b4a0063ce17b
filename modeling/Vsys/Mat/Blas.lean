import Mathlib.Algebra.BigOperators.Fin
import Vsys.Mat.Layout

/-!
# Vectors and products with any arithmetic

The operations of `ZVec` and the products of `ZMat_Neon` that a recurrent layer uses, for numbers
with operations and no laws: rounded, infinite or undefined values are among them, so a lane that is
multiplied by a zero of the padding may still count.

`Blas` stands for `cblas_sgemm` and `cblas_sgemv` on a block.  An entry of a product is computed
from the entry before, a row of the first factor and a column of the second.  With exact sums the
products are those of the other modules, `addABBy_exact` and `addAXBy_exact`.
-/

namespace Vsys.Mat

open scoped BigOperators

variable {R : Type*}

/-- What `cblas_sgemm` and `cblas_sgemv` compute on a block for an entry. -/
structure Blas (R : Type*) where
  gemm : R → (Fin 4 → R) → (Fin 4 → R) → R
  gemv : R → (Fin 4 → R) → (Fin 4 → R) → R

/-- Exact sums of products. -/
def Blas.exact [Semiring R] : Blas R :=
  ⟨fun c a b ↦ c + ∑ t, a t * b t, fun c a x ↦ c + ∑ t, a t * x t⟩

/-! ## Vectors -/

namespace ZVec

/-- `Clean`; all the memory of the vector is cleared. -/
def clean [Zero R] (y : ZVec R) : ZVec R :=
  { y with data := fun p ↦ if p < (y.size + 15) / 16 * 16 then 0 else y.data p }

/-- `memcpy` of as many numbers as the vector has entries. -/
def load (y : ZVec R) (x : ℕ → R) : ZVec R := y.rowMap fun _ j ↦ x j

/-- `Add`. -/
def add [Add R] (y : ZVec R) (a : R) : ZVec R := y.rowMap fun y j ↦ y j + a

/-- `RowAdd`. -/
def rowAdd [Add R] (y x : ZVec R) : ZVec R := y.rowMap fun y j ↦ y j + x.data j

/-- `RowMul`. -/
def rowMul [Mul R] (y x : ZVec R) : ZVec R := y.rowMap fun y j ↦ y j * x.data j

/-- `Add_aXY`. -/
def addXY [Add R] [Mul R] (z x y : ZVec R) : ZVec R := z.rowMap fun z j ↦ z j + x.data j * y.data j

/-- `Add_aAX_NENO`. -/
def addAXBy (B : Blas R) (y : ZVec R) (a : ZMatNeon R) (x : ZVec R) : ZVec R :=
  { y with
    data := fun p ↦
      if p < 4 * a.rowNeon then
        (List.range a.colNeon).foldl (fun c k ↦
          B.gemv c (fun t ↦ a.data (p / 4 * a.colNeon + k) (t * 4 + p % 4))
            fun t ↦ x.data (k * 4 + t)) (y.data p)
      else y.data p }

end ZVec

/-! ## Blocks -/

namespace ZMatNeon

/-- `Clean`. -/
def clean [Zero R] (m : ZMatNeon R) : ZMatNeon R :=
  { m with data := fun b lane ↦ if b < m.rowNeon * m.colNeon then 0 else m.data b lane }

/-- `Add_aAB_NEON`. -/
def addABBy (B : Blas R) (m a b : ZMatNeon R) : ZMatNeon R :=
  { m with
    data := fun block lane ↦
      if block < a.rowNeon * b.colNeon then
        (List.range a.colNeon).foldl (fun c k ↦
          B.gemm c (fun t ↦ a.data (block / b.colNeon * a.colNeon + k) (t * 4 + lane % 4))
            fun t ↦ b.data (k * b.colNeon + block % b.colNeon) (lane / 4 * 4 + t))
          (m.data block lane)
      else m.data block lane }

theorem entry_clean [Zero R] (m : ZMatNeon R) {r c : ℕ} (hr : r / 4 < m.rowNeon)
    (hc : c / 4 < m.colNeon) : m.clean.entry r c = 0 :=
  if_pos (block_spec hr hc).1

/-- An entry of a product is computed from a row and a column. -/
theorem entry_addABBy (B : Blas R) {m a b : ZMatNeon R} (hm : m.colNeon = b.colNeon) {r c : ℕ}
    (hr : r / 4 < a.rowNeon) (hc : c / 4 < b.colNeon) :
    (m.addABBy B a b).entry r c =
      (List.range a.colNeon).foldl (fun s k ↦
        B.gemm s (fun t ↦ a.entry r (k * 4 + t)) fun t ↦ b.entry (k * 4 + t) c) (m.entry r c) := by
  obtain ⟨hlt, hdiv, hmod⟩ := block_spec hr hc
  obtain ⟨-, hlane, hlane'⟩ := lane_spec r c
  have hcol : (m.addABBy B a b).colNeon = m.colNeon := rfl
  simp only [entry, hcol, hm]
  simp only [addABBy, if_pos hlt, hdiv, hmod, hlane, hlane']
  apply List.foldl_ext
  intro s k _
  have hterm : ∀ t : Fin 4, (k * 4 + (t : ℕ)) / 4 = k ∧ (k * 4 + (t : ℕ)) % 4 = t := by
    intro t
    omega
  simp only [(hterm _).1, (hterm _).2]

/-! ## Exact sums -/

/-- A sum that is added up step by step. -/
theorem foldl_add_eq_sum [AddCommMonoid R] (f : ℕ → R) (s : R) (n : ℕ) :
    (List.range n).foldl (fun s k ↦ s + f k) s = s + ∑ k ∈ Finset.range n, f k := by
  induction n with
  | zero => simp
  | succ n ih => rw [List.range_succ, List.foldl_append, ih, Finset.sum_range_succ, ← add_assoc]; rfl

theorem addABBy_exact [Semiring R] (m a b : ZMatNeon R) : m.addABBy Blas.exact a b = m.addAB a b := by
  unfold addABBy addAB
  congr 1
  funext block lane
  split
  · rw [Blas.exact, foldl_add_eq_sum]
    simp only [gemm4, Finset.sum_range]
  · rfl

theorem addAXBy_exact [Semiring R] (y : ZVec R) (a : ZMatNeon R) (x : ZVec R) :
    y.addAXBy Blas.exact a x = y.addAX a x := by
  unfold ZVec.addAXBy ZVec.addAX
  congr 1
  funext p
  split
  · rw [Blas.exact, foldl_add_eq_sum]
    simp only [gemv4, Finset.sum_range]
  · rfl

end ZMatNeon

end Vsys.Mat
