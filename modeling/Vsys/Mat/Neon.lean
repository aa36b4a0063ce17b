import Mathlib.Algebra.BigOperators.Intervals
import Mathlib.Algebra.BigOperators.Ring.Finset
import Mathlib.Algebra.Ring.Nat

/-!
# Matrices in blocks

`ZVec`, `ZMat` and `ZMat_Neon` in `r2slv4/r2vt4/src/mat`.  A `ZMat_Neon` keeps its entries in blocks
of four times four, column by column within a block; with `m_bTrans` it holds the transpose of the
matrix it is filled from.  Where the numbers of rows and columns are not multiples of four, some
lanes of the last blocks stand for no entry.

`entry` is the matrix a `ZMat_Neon` stands for as a factor.  The lemmas `entry_*` say what every
operation does to it: filling pads with zero rows, and a product is the product of the entries.  The
lanes that stand for no entry are never mentioned in them, because the padding of the *second*
factor is zero.

The arithmetic is exact, and `cblas` computes sums of products.  Memory is a function on indices.
-/

namespace Vsys.Mat

open scoped BigOperators

variable {R : Type*}

/-- `(n + 3) / 4`: the number of blocks that cover `n` rows or columns. -/
def blocks (n : ℕ) : ℕ := (n + 3) / 4

theorem div_lt_blocks {n j : ℕ} (hj : j < n) : j / 4 < blocks n := by
  rw [blocks]
  omega

theorem le_blocks (n : ℕ) : n ≤ 4 * blocks n := by
  rw [blocks]
  omega

/-- A sum over blocks, and within each of them over its lanes, in which only the first `n` places
count. -/
theorem sum_blocks [AddCommMonoid R] {f : ℕ → R} {n count : ℕ} (hn : n ≤ 4 * count)
    (hzero : ∀ p, n ≤ p → p < 4 * count → f p = 0) :
    ∑ k ∈ Finset.range count, ∑ t ∈ Finset.range 4, f (k * 4 + t) = ∑ p ∈ Finset.range n, f p := by
  have hall : ∀ count, ∑ k ∈ Finset.range count, ∑ t ∈ Finset.range 4, f (k * 4 + t) =
      ∑ p ∈ Finset.range (4 * count), f p := by
    intro count
    induction count with
    | zero => rfl
    | succ count ih =>
        rw [Finset.sum_range_succ, ih, Nat.mul_add, Nat.mul_one, Finset.sum_range_add, Nat.mul_comm]
  rw [hall]
  symm
  apply Finset.sum_subset (Finset.range_subset_range.mpr hn)
  intro p hp hout
  exact hzero p (by simpa using hout) (Finset.mem_range.mp hp)

/-! ## `ZVec` and `ZMat` -/

/-- `ZVec`. -/
structure ZVec (R : Type*) where
  size : ℕ
  data : ℕ → R

/-- `ZMat`; a row has room for whole blocks. -/
structure ZMat (R : Type*) where
  row : ℕ
  col : ℕ
  data : ℕ → ℕ → R

namespace ZVec

/-- The constructor. -/
def create [Zero R] (size : ℕ) : ZVec R := ⟨size, fun _ ↦ 0⟩

/-- `Read` into a new vector. -/
def read [Zero R] (size : ℕ) (values : ℕ → R) : ZVec R := ⟨size, fun j ↦ if j < size then values j else 0⟩

/-- `Copy`, in whole blocks. -/
def copy (y x : ZVec R) : ZVec R :=
  { y with data := fun j ↦ if j < blocks y.size * 4 then x.data j else y.data j }

/-- A loop over the entries; `f` gets the vector as it was before. -/
def rowMap (y : ZVec R) (f : (ℕ → R) → ℕ → R) : ZVec R :=
  { y with data := fun j ↦ if j < y.size then f y.data j else y.data j }

theorem rowMap_data {y : ZVec R} (f : (ℕ → R) → ℕ → R) {j : ℕ} (hj : j < y.size) :
    (y.rowMap f).data j = f y.data j := if_pos hj

theorem copy_data {y x : ZVec R} {j : ℕ} (hj : j < y.size) : (y.copy x).data j = x.data j := by
  have hroom := le_blocks y.size
  exact if_pos (by omega)

end ZVec

namespace ZMat

/-- The constructor. -/
def create [Zero R] (row col : ℕ) : ZMat R := ⟨row, col, fun _ _ ↦ 0⟩

/-- `Read` into a new matrix. -/
def read [Zero R] (row col : ℕ) (values : ℕ → ℕ → R) : ZMat R :=
  ⟨row, col, fun i j ↦ if i < row ∧ j < col then values i j else 0⟩

/-- A loop over the entries; `f` gets the row as it was before. -/
def rowMap (m : ZMat R) (f : (ℕ → R) → ℕ → R) : ZMat R :=
  { m with data := fun i j ↦ if i < m.row ∧ j < m.col then f (m.data i) j else m.data i j }

theorem rowMap_data {m : ZMat R} (f : (ℕ → R) → ℕ → R) {i j : ℕ} (hi : i < m.row)
    (hj : j < m.col) : (m.rowMap f).data i j = f (m.data i) j := if_pos ⟨hi, hj⟩

/-- `RowCopy`. -/
def rowCopy (m : ZMat R) (x : ZVec R) : ZMat R := m.rowMap fun _ j ↦ x.data j

/-- `ResetRow`. -/
def resetRow (m : ZMat R) (row : ℕ) : ZMat R := { m with row := row }

end ZMat

/-! ## `ZMat_Neon` -/

/-- `ZMat_Neon` with `m_bF16` off; `data` goes by block and lane. -/
structure ZMatNeon (R : Type*) where
  trans : Bool
  row : ℕ
  col : ℕ
  data : ℕ → ℕ → R
  zeroPosLst : List ℕ

/-- `NEON_Matrix4Tran2`. -/
def tran4 (block : ℕ → R) : ℕ → R := fun lane ↦ block (lane % 4 * 4 + lane / 4)

namespace ZMatNeon

/-- `m_iRow_Neon`. -/
def rowNeon (m : ZMatNeon R) : ℕ := if m.trans then blocks m.col else blocks m.row

/-- `m_iCol_Neon`. -/
def colNeon (m : ZMatNeon R) : ℕ := if m.trans then blocks m.row else blocks m.col

/-- Four times four entries of a matrix, row by row; rows behind the last one are zero. -/
def fourRows [Zero R] (row : ℕ) (a : ZMat R) (rowOld colOld : ℕ) : ℕ → R := fun lane ↦
  if rowOld + lane / 4 < row then a.data (rowOld + lane / 4) (colOld + lane % 4) else 0

/-- `CopyFrom`. -/
def copyFrom [Zero R] (m : ZMatNeon R) (a : ZMat R) : ZMatNeon R :=
  { m with
    data := fun b lane ↦
      if b < m.rowNeon * m.colNeon then
        let i := b / m.colNeon
        let j := b % m.colNeon
        if m.trans then fourRows m.row a (4 * j) (4 * i) lane
        else tran4 (fourRows m.row a (4 * i) (4 * j)) lane
      else m.data b lane }

/-- The constructor.  The lanes for no entry are found by filling the blocks from a matrix of ones,
which stay there. -/
def create [Zero R] [One R] (row col : ℕ) (trans : Bool) : ZMatNeon R :=
  let empty : ZMatNeon ℕ := ⟨trans, row, col, fun _ _ ↦ 0, []⟩
  let ones := empty.copyFrom (ZMat.read row col fun _ _ ↦ 1)
  { trans := trans
    row := row
    col := col
    data := fun b lane ↦
      if row % 4 = 0 ∧ col % 4 = 0 ∨ ones.data b lane < 1 then 0 else 1
    zeroPosLst :=
      if row % 4 = 0 ∧ col % 4 = 0 then []
      else (List.range (16 * (empty.rowNeon * empty.colNeon))).filter fun p ↦
        ones.data (p / 16) (p % 16) < 1 }

/-- `CopyTo`. -/
def copyTo (m : ZMatNeon R) (a : ZMat R) : ZMat R :=
  { a with
    data := fun r c ↦
      if m.trans then
        if r < m.row ∧ r / 4 < m.colNeon ∧ c / 4 < m.rowNeon then
          m.data (c / 4 * m.colNeon + r / 4) (r % 4 * 4 + c % 4)
        else a.data r c
      else if r < m.row ∧ r / 4 < m.rowNeon ∧ c / 4 < m.colNeon then
        tran4 (m.data (r / 4 * m.colNeon + c / 4)) (r % 4 * 4 + c % 4)
      else a.data r c }

/-- `Copy`. -/
def copy (m a : ZMatNeon R) : ZMatNeon R :=
  { m with data := fun b lane ↦ if b < m.rowNeon * m.colNeon then a.data b lane else m.data b lane }

/-- A loop over all lanes. -/
def laneMap (m : ZMatNeon R) (f : R → R) : ZMatNeon R :=
  { m with
    data := fun b lane ↦ if b < m.rowNeon * m.colNeon then f (m.data b lane) else m.data b lane }

/-- The lanes of `m_pZeroPosLst` are set to zero. -/
def clearLanes [Zero R] (m : ZMatNeon R) : ZMatNeon R :=
  { m with data := fun b lane ↦ if b * 16 + lane ∈ m.zeroPosLst then 0 else m.data b lane }

/-- `RowSigMoid` and `RowTanh`. -/
def rowActive [Zero R] (m : ZMatNeon R) (f : R → R) : ZMatNeon R := (m.laneMap f).clearLanes

/-- `RowCopy_4`. -/
def rowCopy4 [Zero R] (m : ZMatNeon R) (x : ZVec R) : ZMatNeon R :=
  m.copyFrom ((ZMat.create m.row m.col).rowCopy x)

/-- `RowCopy_N`. -/
def rowCopyN (m x : ZMatNeon R) : ZMatNeon R :=
  { m with
    data := fun b lane ↦
      if b < m.rowNeon * m.colNeon then x.data (b % m.colNeon) lane else m.data b lane }

/-- `ResetRow`; a last block that is not full is cleared. -/
def resetRow [Zero R] (m : ZMatNeon R) (row : ℕ) : ZMatNeon R :=
  { m with
    row := row
    data := fun b lane ↦
      if row ≠ blocks row * 4 ∧ (blocks row - 1) * m.colNeon ≤ b ∧
          b < (blocks row - 1) * m.colNeon + m.colNeon then 0
      else m.data b lane }

variable [Semiring R]

/-- `cblas_sgemm` on two blocks. -/
def gemm4 (a b : ℕ → R) : ℕ → R := fun lane ↦
  ∑ t ∈ Finset.range 4, a (t * 4 + lane % 4) * b (lane / 4 * 4 + t)

/-- `Add_aAB_NEON`. -/
def addAB (m a b : ZMatNeon R) : ZMatNeon R :=
  { m with
    data := fun block lane ↦
      if block < a.rowNeon * b.colNeon then
        m.data block lane + ∑ k ∈ Finset.range a.colNeon,
          gemm4 (a.data (block / b.colNeon * a.colNeon + k))
            (b.data (k * b.colNeon + block % b.colNeon)) lane
      else m.data block lane }

end ZMatNeon

/-- `cblas_sgemv` on a block. -/
def gemv4 [Semiring R] (a x : ℕ → R) (r : ℕ) : R := ∑ t ∈ Finset.range 4, a (t * 4 + r) * x t

/-- `Add_aAX_NENO`. -/
def ZVec.addAX [Semiring R] (y : ZVec R) (a : ZMatNeon R) (x : ZVec R) : ZVec R :=
  { y with
    data := fun p ↦
      if p < 4 * a.rowNeon then
        y.data p + ∑ k ∈ Finset.range a.colNeon,
          gemv4 (a.data (p / 4 * a.colNeon + k)) (fun t ↦ x.data (k * 4 + t)) (p % 4)
      else y.data p }

/-! ## Entries -/

namespace ZMatNeon

/-- The entry of the matrix as a factor. -/
def entry (m : ZMatNeon R) (r c : ℕ) : R := m.data (r / 4 * m.colNeon + c / 4) (c % 4 * 4 + r % 4)

/-- The block of an entry. -/
theorem block_spec {rows cols r c : ℕ} (hr : r / 4 < rows) (hc : c / 4 < cols) :
    r / 4 * cols + c / 4 < rows * cols ∧ (r / 4 * cols + c / 4) / cols = r / 4 ∧
      (r / 4 * cols + c / 4) % cols = c / 4 := by
  have hcols : 0 < cols := by omega
  refine ⟨?_, ?_, ?_⟩
  · calc r / 4 * cols + c / 4 < r / 4 * cols + cols := by omega
      _ = (r / 4 + 1) * cols := by rw [Nat.add_mul, Nat.one_mul]
      _ ≤ rows * cols := Nat.mul_le_mul_right _ hr
  · rw [Nat.mul_comm, Nat.mul_add_div hcols, Nat.div_eq_of_lt hc, Nat.add_zero]
  · rw [Nat.mul_comm, Nat.mul_add_mod, Nat.mod_eq_of_lt hc]

/-- The lane of an entry. -/
theorem lane_spec (r c : ℕ) :
    c % 4 * 4 + r % 4 < 16 ∧ (c % 4 * 4 + r % 4) / 4 = c % 4 ∧ (c % 4 * 4 + r % 4) % 4 = r % 4 := by
  omega

theorem entry_copyFrom [Zero R] {m : ZMatNeon R} (htrans : m.trans = false) (a : ZMat R) {r c : ℕ}
    (hr : r / 4 < m.rowNeon) (hc : c / 4 < m.colNeon) :
    (m.copyFrom a).entry r c = if r < m.row then a.data r c else 0 := by
  obtain ⟨hlt, hdiv, hmod⟩ := block_spec hr hc
  obtain ⟨-, hlane, hlane'⟩ := lane_spec r c
  obtain ⟨-, hlane2, hlane2'⟩ := lane_spec c r
  have hr4 : 4 * (r / 4) + r % 4 = r := Nat.div_add_mod r 4
  have hc4 : 4 * (c / 4) + c % 4 = c := Nat.div_add_mod c 4
  have hcol : (m.copyFrom a).colNeon = m.colNeon := rfl
  simp only [entry, hcol]
  simp only [copyFrom, if_pos hlt, htrans, hdiv, hmod, tran4, fourRows, hlane, hlane', hlane2,
    hlane2', hr4, hc4, Bool.false_eq_true, if_false]

theorem entry_copyFrom_trans [Zero R] {m : ZMatNeon R} (htrans : m.trans = true) (a : ZMat R)
    {r c : ℕ} (hr : r / 4 < m.rowNeon) (hc : c / 4 < m.colNeon) :
    (m.copyFrom a).entry r c = if c < m.row then a.data c r else 0 := by
  obtain ⟨hlt, hdiv, hmod⟩ := block_spec hr hc
  obtain ⟨-, hlane, hlane'⟩ := lane_spec r c
  have hr4 : 4 * (r / 4) + r % 4 = r := Nat.div_add_mod r 4
  have hc4 : 4 * (c / 4) + c % 4 = c := Nat.div_add_mod c 4
  have hcol : (m.copyFrom a).colNeon = m.colNeon := rfl
  simp only [entry, hcol]
  simp only [copyFrom, if_pos hlt, htrans, hdiv, hmod, fourRows, hlane, hlane', hr4, hc4, if_true]

theorem data_copyTo {m : ZMatNeon R} (htrans : m.trans = false) (a : ZMat R) {r c : ℕ}
    (hr : r < m.row) (hc : c < m.col) : (m.copyTo a).data r c = m.entry r c := by
  have hrows : r / 4 < m.rowNeon := by
    simp only [rowNeon, htrans]
    exact div_lt_blocks hr
  have hcols : c / 4 < m.colNeon := by
    simp only [colNeon, htrans]
    exact div_lt_blocks hc
  obtain ⟨-, hlane, hlane'⟩ := lane_spec c r
  simp only [copyTo, htrans, Bool.false_eq_true, if_false, hr, hrows, hcols, and_self, if_true, tran4,
    hlane, hlane', entry]

theorem entry_copy {m a : ZMatNeon R} (hcol : a.colNeon = m.colNeon) {r c : ℕ}
    (hr : r / 4 < m.rowNeon) (hc : c / 4 < m.colNeon) : (m.copy a).entry r c = a.entry r c := by
  obtain ⟨hlt, -, -⟩ := block_spec hr hc
  have hcol' : (m.copy a).colNeon = m.colNeon := rfl
  simp only [entry, hcol', hcol]
  simp only [copy, if_pos hlt]

theorem entry_laneMap (m : ZMatNeon R) (f : R → R) {r c : ℕ} (hr : r / 4 < m.rowNeon)
    (hc : c / 4 < m.colNeon) : (m.laneMap f).entry r c = f (m.entry r c) := by
  obtain ⟨hlt, -, -⟩ := block_spec hr hc
  have hcol : (m.laneMap f).colNeon = m.colNeon := rfl
  simp only [entry, hcol]
  simp only [laneMap, if_pos hlt]

theorem entry_rowCopyN {m x : ZMatNeon R} {r c : ℕ} (hr : r / 4 < m.rowNeon)
    (hc : c / 4 < m.colNeon) :
    (m.rowCopyN x).entry r c = x.data (c / 4) (c % 4 * 4 + r % 4) := by
  obtain ⟨hlt, -, hmod⟩ := block_spec hr hc
  have hcol : (m.rowCopyN x).colNeon = m.colNeon := rfl
  simp only [entry, hcol]
  simp only [rowCopyN, if_pos hlt, hmod]

/-- The lanes for no entry, among those of the rows. -/
theorem mem_zeroPosLst_iff [Zero R] [One R] {row col r c : ℕ} (hr : r < row)
    (hc : c / 4 < blocks col) :
    (r / 4 * blocks col + c / 4) * 16 + (c % 4 * 4 + r % 4) ∈
      (create row col false : ZMatNeon R).zeroPosLst ↔ col ≤ c := by
  let empty : ZMatNeon ℕ := ⟨false, row, col, fun _ _ ↦ 0, []⟩
  obtain ⟨hlane, -, -⟩ := lane_spec r c
  obtain ⟨hlt, -, -⟩ := block_spec (div_lt_blocks hr) hc
  have hdiv : ((r / 4 * blocks col + c / 4) * 16 + (c % 4 * 4 + r % 4)) / 16 =
      r / 4 * blocks col + c / 4 := by omega
  have hmod : ((r / 4 * blocks col + c / 4) * 16 + (c % 4 * 4 + r % 4)) % 16 =
      c % 4 * 4 + r % 4 := by omega
  have hone : (empty.copyFrom (ZMat.read row col fun _ _ ↦ 1)).data (r / 4 * blocks col + c / 4)
      (c % 4 * 4 + r % 4) = if c < col then 1 else 0 := by
    have hentry := entry_copyFrom (m := empty) rfl (ZMat.read row col fun _ _ ↦ 1)
      (div_lt_blocks hr) hc
    rw [if_pos (show r < empty.row from hr)] at hentry
    refine hentry.trans ?_
    simp only [ZMat.read, hr, true_and]
  rw [create]
  dsimp only
  split
  · next haligned =>
      have hfull : 4 * blocks col = col := by
        rw [blocks]
        omega
      have hcol : c < col := by omega
      exact iff_of_false List.not_mem_nil (Nat.not_le.mpr hcol)
  · have hrange : (r / 4 * blocks col + c / 4) * 16 + (c % 4 * 4 + r % 4) <
        16 * (blocks row * blocks col) := by omega
    rw [List.mem_filter, hdiv, hmod, hone, List.mem_range]
    by_cases hcol : c < col
    · simp only [hcol, if_true]
      simp [hcol]
    · simp only [hcol, if_false]
      exact iff_of_true ⟨hrange, rfl⟩ (Nat.not_lt.mp hcol)

/-- A lane that stands for an entry is not cleared. -/
theorem not_mem_zeroPosLst [Zero R] [One R] {row col r c : ℕ} (hr : r < row) (hc : c < col) :
    (r / 4 * blocks col + c / 4) * 16 + (c % 4 * 4 + r % 4) ∉
      (create row col false : ZMatNeon R).zeroPosLst := by
  rw [mem_zeroPosLst_iff hr (div_lt_blocks hc)]
  exact Nat.not_le.mpr hc

theorem entry_rowActive [Zero R] [One R] {m : ZMatNeon R} (htrans : m.trans = false) {row : ℕ}
    (hzero : m.zeroPosLst = (create row m.col false : ZMatNeon R).zeroPosLst) (f : R → R) {r c : ℕ}
    (hr : r < row) (hr' : r < m.row) (hc : c < m.col) :
    (m.rowActive f).entry r c = f (m.entry r c) := by
  have hrows : r / 4 < m.rowNeon := by
    simp only [rowNeon, htrans]
    exact div_lt_blocks hr'
  have hcolNeon : m.colNeon = blocks m.col := by simp only [colNeon, htrans, Bool.false_eq_true, if_false]
  have hcols : c / 4 < m.colNeon := hcolNeon ▸ div_lt_blocks hc
  rw [← entry_laneMap m f hrows hcols]
  have hkeep := not_mem_zeroPosLst (R := R) hr hc
  rw [← hzero, ← hcolNeon] at hkeep
  exact if_neg hkeep

/-! ## Products -/

section Products
variable [Semiring R]

/-- A product is a sum over the places that are not padding in the second factor. -/
theorem entry_addAB {m a b : ZMatNeon R} (hm : m.colNeon = b.colNeon) {n r c : ℕ}
    (hn : n ≤ 4 * a.colNeon) (hr : r / 4 < a.rowNeon) (hc : c / 4 < b.colNeon)
    (hzero : ∀ p, n ≤ p → p < 4 * a.colNeon → b.entry p c = 0) :
    (m.addAB a b).entry r c = m.entry r c + ∑ p ∈ Finset.range n, a.entry r p * b.entry p c := by
  obtain ⟨hlt, hdiv, hmod⟩ := block_spec hr hc
  obtain ⟨-, hlane, hlane'⟩ := lane_spec r c
  have hcol : (m.addAB a b).colNeon = m.colNeon := rfl
  simp only [entry, hcol, hm]
  simp only [addAB, if_pos hlt, hdiv, hmod, gemm4, hlane, hlane']
  congr 1
  have hterm : ∀ k ∈ Finset.range a.colNeon, ∀ t ∈ Finset.range 4,
      a.data (r / 4 * a.colNeon + k) (t * 4 + r % 4) * b.data (k * b.colNeon + c / 4) (c % 4 * 4 + t) =
        a.entry r (k * 4 + t) * b.entry (k * 4 + t) c := by
    intro k _ t ht
    have ht4 : t < 4 := Finset.mem_range.mp ht
    have hk : (k * 4 + t) / 4 = k := by omega
    have ht' : (k * 4 + t) % 4 = t := by omega
    simp only [entry, hk, ht']
  rw [Finset.sum_congr rfl fun k hk ↦ Finset.sum_congr rfl (hterm k hk)]
  apply sum_blocks (f := fun p ↦ a.entry r p * b.entry p c) hn
  intro p hp hpad
  simp only [hzero p hp hpad, mul_zero]

theorem data_addAX {y : ZVec R} {a : ZMatNeon R} {x : ZVec R} {n p : ℕ} (hn : n ≤ 4 * a.colNeon)
    (hp : p < 4 * a.rowNeon) (hzero : ∀ q, n ≤ q → q < 4 * a.colNeon → a.entry p q = 0) :
    (y.addAX a x).data p = y.data p + ∑ q ∈ Finset.range n, a.entry p q * x.data q := by
  simp only [ZVec.addAX, if_pos hp, gemv4]
  congr 1
  have hterm : ∀ k ∈ Finset.range a.colNeon, ∀ t ∈ Finset.range 4,
      a.data (p / 4 * a.colNeon + k) (t * 4 + p % 4) * x.data (k * 4 + t) =
        a.entry p (k * 4 + t) * x.data (k * 4 + t) := by
    intro k _ t ht
    have ht4 : t < 4 := Finset.mem_range.mp ht
    have hk : (k * 4 + t) / 4 = k := by omega
    have ht' : (k * 4 + t) % 4 = t := by omega
    simp only [entry, hk, ht']
  rw [Finset.sum_congr rfl fun k hk ↦ Finset.sum_congr rfl (hterm k hk)]
  apply sum_blocks (f := fun q ↦ a.entry p q * x.data q) hn
  intro q hq hpad
  simp only [hzero q hq hpad, zero_mul]

end Products

end ZMatNeon

end Vsys.Mat
