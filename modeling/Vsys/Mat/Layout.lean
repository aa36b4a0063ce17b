import Vsys.Mat.Neon
import Vsys.Trace.Run

/-!
# The blocked layout against the plain one

`ZMat_Neon` without `__USE_MAT_NEON__` keeps its entries in a `ZMat`, `m_pMat`, transposed where
`m_bTrans` is set.  The blocked class has to do the same arithmetic.

`Agree` relates a blocked matrix to a plain one by the entries they have as factors, and `Padded`
says that the lanes for no entry are zero.  Filling from a padded matrix establishes both, the
products keep them, and what is read back is what was filled in.

A `Store` holds the objects of a program, for either build.  Two runs of the same calls keep the
stores in agreement, `run_agree`.
-/

namespace Vsys.Mat

open scoped BigOperators

variable {R : Type*}

namespace ZMat

/-- `Copy`. -/
def copy (m a : ZMat R) : ZMat R :=
  { m with data := fun i j ↦ if i < m.row ∧ j < m.col then a.data i j else m.data i j }

/-- `Add_aAB`; `alpha` is the factor the source calls `a`. -/
def addAB [Semiring R] (m a b : ZMat R) (alpha : R) : ZMat R :=
  { m with
    data := fun i j ↦
      if i < a.row ∧ j < b.col then
        m.data i j + alpha * ∑ k ∈ Finset.range a.col, a.data i k * b.data k j
      else m.data i j }

/-- The places behind the last column of a row are zero. -/
def Padded [Zero R] (a : ZMat R) : Prop :=
  ∀ i j, i < a.row → a.col ≤ j → j < 4 * blocks a.col → a.data i j = 0

/-- Two matrices of one shape with the same entries. -/
structure Same (a b : ZMat R) : Prop where
  row : b.row = a.row
  col : b.col = a.col
  data : ∀ i j, i < a.row → j < a.col → b.data i j = a.data i j

end ZMat

/-- `ZVec::Add_aAX`. -/
def ZVec.addPlain [Semiring R] (y : ZVec R) (a : ZMat R) (x : ZVec R) (alpha : R) : ZVec R :=
  { y with
    data := fun i ↦
      if i < a.row then y.data i + alpha * ∑ k ∈ Finset.range a.col, a.data i k * x.data k
      else y.data i }

/-- Two vectors of one size with the same entries. -/
structure ZVec.Same (x y : ZVec R) : Prop where
  size : y.size = x.size
  data : ∀ i, i < x.size → y.data i = x.data i

/-! ## The plain build -/

/-- `ZMat_Neon` without `__USE_MAT_NEON__`. -/
structure ZMatPlain (R : Type*) where
  trans : Bool
  row : ℕ
  col : ℕ
  /-- `m_pMat`. -/
  mat : ZMat R
  row_mat : mat.row = if trans then col else row
  col_mat : mat.col = if trans then row else col

namespace ZMatPlain

/-- The constructor. -/
def create [Zero R] (row col : ℕ) (trans : Bool) : ZMatPlain R where
  trans := trans
  row := row
  col := col
  mat := ZMat.create (if trans then col else row) (if trans then row else col)
  row_mat := rfl
  col_mat := rfl

/-- `m_iRow_Neon`. -/
def rowNeon (m : ZMatPlain R) : ℕ := m.mat.row

/-- `m_iCol_Neon`. -/
def colNeon (m : ZMatPlain R) : ℕ := m.mat.col

/-- `m_pMat` with other entries. -/
def setData (m : ZMatPlain R) (data : ℕ → ℕ → R) : ZMatPlain R :=
  { m with mat := { m.mat with data := data } }

/-- `CopyFrom`. -/
def copyFrom (m : ZMatPlain R) (a : ZMat R) : ZMatPlain R :=
  if m.trans then
    m.setData fun i j ↦ if i < m.rowNeon ∧ j < m.colNeon then a.data j i else m.mat.data i j
  else m.setData (m.mat.copy a).data

/-- `CopyTo`. -/
def copyTo (m : ZMatPlain R) (a : ZMat R) : ZMat R :=
  if m.trans then
    { a with
      data := fun j i ↦ if i < m.rowNeon ∧ j < m.colNeon then m.mat.data i j else a.data j i }
  else a.copy m.mat

/-- `Add_aAB_NEON`. -/
def addAB [Semiring R] (m a b : ZMatPlain R) : ZMatPlain R :=
  m.setData (m.mat.addAB a.mat b.mat 1).data

/-- The assertions of `CopyFrom`; the target of `CopyTo` has this shape as well. -/
def Shape (m : ZMatPlain R) (a : ZMat R) : Prop := a.row = m.row ∧ a.col = m.col

/-- The assertions of `Add_aAB_NEON`. -/
def Fits (m a b : ZMatPlain R) : Prop :=
  a.rowNeon = m.rowNeon ∧ a.colNeon = b.rowNeon ∧ b.colNeon = m.colNeon

/-- The assertions of `Add_aAX_NENO`. -/
def FitsVec (a : ZMatPlain R) (y x : ZVec R) : Prop := a.rowNeon = y.size ∧ a.colNeon = x.size

end ZMatPlain

/-- `ZVec::Add_aAX_NENO` without `__USE_MAT_NEON__`. -/
def ZVec.addAXPlain [Semiring R] (y : ZVec R) (a : ZMatPlain R) (x : ZVec R) : ZVec R :=
  y.addPlain a.mat x 1

/-! ## The blocked matrix as a factor -/

namespace ZMatNeon

/-- The number of rows of the matrix as a factor. -/
def rows (m : ZMatNeon R) : ℕ := if m.trans then m.col else m.row

/-- The number of columns of the matrix as a factor. -/
def cols (m : ZMatNeon R) : ℕ := if m.trans then m.row else m.col

theorem rowNeon_eq (m : ZMatNeon R) : m.rowNeon = blocks m.rows := by
  unfold rowNeon rows
  split <;> rfl

theorem colNeon_eq (m : ZMatNeon R) : m.colNeon = blocks m.cols := by
  unfold colNeon cols
  split <;> rfl

/-- The block row of an entry. -/
theorem div_lt_rowNeon {m : ZMatNeon R} {r : ℕ} (hr : r < m.rows) : r / 4 < m.rowNeon :=
  m.rowNeon_eq ▸ div_lt_blocks hr

/-- The block column of an entry. -/
theorem div_lt_colNeon {m : ZMatNeon R} {c : ℕ} (hc : c < m.cols) : c / 4 < m.colNeon :=
  m.colNeon_eq ▸ div_lt_blocks hc

/-- The assertions of `CopyFrom`; the target of `CopyTo` has this shape as well. -/
def Shape (m : ZMatNeon R) (a : ZMat R) : Prop := a.row = m.row ∧ a.col = m.col

/-- The lanes for no entry are zero. -/
def Padded [Zero R] (m : ZMatNeon R) : Prop :=
  ∀ r c, r / 4 < m.rowNeon → c / 4 < m.colNeon → m.rows ≤ r ∨ m.cols ≤ c → m.entry r c = 0

/-- A blocked matrix and a plain one of one shape and orientation. -/
structure Alike (m : ZMatNeon R) (p : ZMatPlain R) : Prop where
  trans : p.trans = m.trans
  row : p.row = m.row
  col : p.col = m.col

theorem Alike.rowNeon {m : ZMatNeon R} {p : ZMatPlain R} (h : Alike m p) : p.rowNeon = m.rows := by
  rw [ZMatPlain.rowNeon, p.row_mat, h.trans, h.row, h.col, rows]

theorem Alike.colNeon {m : ZMatNeon R} {p : ZMatPlain R} (h : Alike m p) : p.colNeon = m.cols := by
  rw [ZMatPlain.colNeon, p.col_mat, h.trans, h.row, h.col, cols]

/-- A blocked matrix and a plain one with the same entries. -/
structure Agree (m : ZMatNeon R) (p : ZMatPlain R) : Prop extends Alike m p where
  entry : ∀ r c, r < m.rows → c < m.cols → p.mat.data r c = m.entry r c

/-! ### Filling -/

/-- The matrix that is filled in, as a factor. -/
def factor (trans : Bool) (a : ZMat R) (r c : ℕ) : R := if trans then a.data c r else a.data r c

/-- Filling brings the entries, and the zeros of the source. -/
theorem entry_copyFrom_factor [Zero R] (m : ZMatNeon R) (a : ZMat R) {r c : ℕ}
    (hr : r / 4 < m.rowNeon) (hc : c / 4 < m.colNeon) :
    (m.copyFrom a).entry r c =
      if (if m.trans then c else r) < m.row then factor m.trans a r c else 0 := by
  cases htrans : m.trans with
  | false => exact entry_copyFrom htrans a hr hc
  | true => exact entry_copyFrom_trans htrans a hr hc

theorem entry_copyFrom_of_lt [Zero R] (m : ZMatNeon R) (a : ZMat R) {r c : ℕ} (hr : r < m.rows)
    (hc : c < m.cols) : (m.copyFrom a).entry r c = factor m.trans a r c := by
  rw [entry_copyFrom_factor m a (div_lt_rowNeon hr) (div_lt_colNeon hc)]
  apply if_pos
  cases htrans : m.trans with
  | false => simpa only [rows, htrans, Bool.false_eq_true, if_false] using hr
  | true => simpa only [cols, htrans, if_true] using hc

/-- What is filled from a padded matrix is padded. -/
theorem padded_copyFrom [Zero R] {m : ZMatNeon R} {a : ZMat R} (hshape : m.Shape a)
    (ha : a.Padded) : (m.copyFrom a).Padded := by
  intro r c hr hc hout
  rw [entry_copyFrom_factor m a hr hc]
  have hr' : r / 4 < m.rowNeon := hr
  have hc' : c / 4 < m.colNeon := hc
  have hout' : m.rows ≤ r ∨ m.cols ≤ c := hout
  rw [rowNeon_eq] at hr'
  rw [colNeon_eq] at hc'
  unfold rows at hr' hout'
  unfold cols at hc' hout'
  cases htrans : m.trans with
  | false =>
      rw [htrans] at hr' hc' hout'
      simp only [Bool.false_eq_true, if_false] at hr' hc' hout' ⊢
      split
      · next hrow => exact ha r c (hshape.1 ▸ hrow) (by rw [hshape.2]; omega) (by rw [hshape.2]; omega)
      · rfl
  | true =>
      rw [htrans] at hr' hc' hout'
      simp only [if_true] at hr' hc' hout' ⊢
      split
      · next hrow => exact ha c r (hshape.1 ▸ hrow) (by rw [hshape.2]; omega) (by rw [hshape.2]; omega)
      · rfl

/-- Filling both builds from matrices with the same entries makes them agree. -/
theorem agree_copyFrom [Zero R] {m : ZMatNeon R} {p : ZMatPlain R} (h : Alike m p) {a a' : ZMat R}
    (hshape : m.Shape a) (hsame : a.Same a') : Agree (m.copyFrom a) (p.copyFrom a') := by
  have hkeep : (p.copyFrom a').trans = p.trans ∧ (p.copyFrom a').row = p.row ∧
      (p.copyFrom a').col = p.col := by
    unfold ZMatPlain.copyFrom
    split <;> exact ⟨rfl, rfl, rfl⟩
  refine ⟨⟨hkeep.1.trans h.trans, hkeep.2.1.trans h.row, hkeep.2.2.trans h.col⟩, fun r c hr hc ↦ ?_⟩
  have hr' : r < m.rows := hr
  have hc' : c < m.cols := hc
  have hrp : r < p.rowNeon := h.rowNeon ▸ hr'
  have hcp : c < p.colNeon := h.colNeon ▸ hc'
  rw [entry_copyFrom_of_lt m a hr' hc']
  unfold ZMatPlain.copyFrom factor
  unfold rows at hr'
  unfold cols at hc'
  rw [h.trans]
  cases htrans : m.trans with
  | false =>
      rw [htrans] at hr' hc'
      have hdata := hsame.data r c (hr'.trans_eq hshape.1.symm) (hc'.trans_eq hshape.2.symm)
      exact (if_pos ⟨hrp, hcp⟩).trans hdata
  | true =>
      rw [htrans] at hr' hc'
      have hdata := hsame.data c r (hc'.trans_eq hshape.1.symm) (hr'.trans_eq hshape.2.symm)
      exact (if_pos ⟨hrp, hcp⟩).trans hdata

end ZMatNeon

/-! ### Reading back -/

namespace ZMatNeon

/-- The place of an entry of a matrix in the blocks, where the orientation is `m_bTrans`. -/
theorem data_copyTo_factor (m : ZMatNeon R) (a : ZMat R) {r c : ℕ} (hr : r < m.row)
    (hc : c / 4 < blocks m.col) :
    (m.copyTo a).data r c = if m.trans then m.entry c r else m.entry r c := by
  have hr4 := div_lt_blocks hr
  obtain ⟨-, hlane, -⟩ := lane_spec c r
  cases htrans : m.trans with
  | false => simp [copyTo, entry, rowNeon, colNeon, htrans, hr, hr4, hc, tran4, hlane]
  | true => simp [copyTo, entry, rowNeon, colNeon, htrans, hr, hr4, hc]

/-- **`CopyTo` undoes `CopyFrom`.** -/
theorem same_copyTo_copyFrom [Zero R] {m : ZMatNeon R} {a t : ZMat R} (ha : m.Shape a)
    (ht : m.Shape t) : ((m.copyFrom a).copyTo t).Same a := by
  refine ⟨ha.1.trans ht.1.symm, ha.2.trans ht.2.symm, fun r c hr hc ↦ ?_⟩
  have hr' : r < m.row := hr.trans_eq ht.1
  have hc' : c < m.col := hc.trans_eq ht.2
  rw [data_copyTo_factor (m.copyFrom a) t hr' (div_lt_blocks hc')]
  change a.data r c = if m.trans then (m.copyFrom a).entry c r else (m.copyFrom a).entry r c
  cases htrans : m.trans with
  | false =>
      have hentry := entry_copyFrom_of_lt m a (r := r) (c := c) (by simpa [rows, htrans])
        (by simpa [cols, htrans])
      rw [if_neg Bool.false_ne_true, hentry, htrans]
      rfl
  | true =>
      have hentry := entry_copyFrom_of_lt m a (r := c) (c := r) (by simpa [rows, htrans])
        (by simpa [cols, htrans])
      rw [if_pos rfl, hentry, htrans]
      rfl

/-- Nothing is written outside the rows of the target. -/
theorem data_copyTo_of_not {m : ZMatNeon R} {t : ZMat R} (ht : m.Shape t) {r c : ℕ}
    (hout : ¬ (r < t.row ∧ c < 4 * blocks t.col)) : (m.copyTo t).data r c = t.data r c := by
  rw [ht.1, ht.2] at hout
  unfold copyTo rowNeon colNeon
  cases m.trans with
  | false =>
      apply if_neg
      rintro ⟨hr, -, hc⟩
      exact hout ⟨hr, by simp only [Bool.false_eq_true, if_false] at hc; omega⟩
  | true =>
      apply if_neg
      rintro ⟨hr, -, hc⟩
      exact hout ⟨hr, by simp only [if_true] at hc; omega⟩

/-- What is read back from a padded matrix is padded. -/
theorem padded_copyTo [Zero R] {m : ZMatNeon R} {t : ZMat R} (hm : m.Padded) (ht : m.Shape t) :
    (m.copyTo t).Padded := by
  intro r c hr hc hroom
  have hr' : r < m.row := hr.trans_eq ht.1
  have hc' : m.col ≤ c := ht.2 ▸ hc
  have hroom' : c / 4 < blocks m.col := by
    have : c < 4 * blocks m.col := ht.2 ▸ hroom
    omega
  have hr4 := div_lt_blocks hr'
  rw [data_copyTo_factor m t hr' hroom']
  cases htrans : m.trans with
  | false =>
      refine hm r c ?_ ?_ (.inr ?_)
      · simpa [rowNeon, htrans] using hr4
      · simpa [colNeon, htrans] using hroom'
      · simpa [cols, htrans] using hc'
  | true =>
      refine hm c r ?_ ?_ (.inl ?_)
      · simpa [rowNeon, htrans] using hroom'
      · simpa [colNeon, htrans] using hr4
      · simpa [rows, htrans] using hc'

/-- Both builds read the same entries back. -/
theorem same_copyTo {m : ZMatNeon R} {p : ZMatPlain R} (h : Agree m p) {t t' : ZMat R}
    (ht : m.Shape t) (hsame : t.Same t') : (m.copyTo t).Same (p.copyTo t') := by
  have hkeep : (p.copyTo t').row = t'.row ∧ (p.copyTo t').col = t'.col := by
    unfold ZMatPlain.copyTo
    split <;> exact ⟨rfl, rfl⟩
  refine ⟨hkeep.1.trans hsame.row, hkeep.2.trans hsame.col, fun r c hr hc ↦ ?_⟩
  have hr' : r < m.row := hr.trans_eq ht.1
  have hc' : c < m.col := hc.trans_eq ht.2
  have hrt' : r < t'.row := hr.trans_eq hsame.row.symm
  have hct' : c < t'.col := hc.trans_eq hsame.col.symm
  rw [data_copyTo_factor m t hr' (div_lt_blocks hc')]
  unfold ZMatPlain.copyTo
  rw [h.trans]
  cases htrans : m.trans with
  | false =>
      have hentry := h.entry r c (by simpa [rows, htrans]) (by simpa [cols, htrans])
      exact (if_pos ⟨hrt', hct'⟩).trans hentry
  | true =>
      have hentry := h.entry c r (by simpa [rows, htrans]) (by simpa [cols, htrans])
      refine (if_pos ⟨?_, ?_⟩).trans hentry
      · rw [h.rowNeon]
        simpa [rows, htrans]
      · rw [h.colNeon]
        simpa [cols, htrans]

/-! ### Products -/

/-- The blocks of one product fit: the assertions of `Add_aAB_NEON` in the blocked build. -/
def FitsBlocks (m a b : ZMatNeon R) : Prop :=
  a.rowNeon = m.rowNeon ∧ a.colNeon = b.rowNeon ∧ b.colNeon = m.colNeon

/-- The numbers of rows and columns of one product fit. -/
def Fits (m a b : ZMatNeon R) : Prop := a.rows = m.rows ∧ a.cols = b.rows ∧ b.cols = m.cols

theorem Fits.blocks {m a b : ZMatNeon R} (h : m.Fits a b) : m.FitsBlocks a b := by
  refine ⟨?_, ?_, ?_⟩
  · rw [rowNeon_eq, rowNeon_eq, h.1]
  · rw [colNeon_eq, rowNeon_eq, h.2.1]
  · rw [colNeon_eq, colNeon_eq, h.2.2]

/-- The assertions of `Add_aAX_NENO`. -/
def FitsVec (a : ZMatNeon R) (y x : ZVec R) : Prop := a.rows = y.size ∧ a.cols = x.size

section Products
variable [Semiring R]

/-- Adding a product adds the product of the matrices, in every lane. -/
theorem entry_addAB_rows {m a b : ZMatNeon R} (hfits : m.Fits a b) (hb : b.Padded) {r c : ℕ}
    (hr : r / 4 < m.rowNeon) (hc : c / 4 < m.colNeon) :
    (m.addAB a b).entry r c =
      m.entry r c + ∑ k ∈ Finset.range a.cols, a.entry r k * b.entry k c := by
  obtain ⟨hrow, hinner, hcol⟩ := hfits.blocks
  have hn : a.cols ≤ 4 * a.colNeon := by
    rw [colNeon_eq]
    exact le_blocks _
  apply entry_addAB hcol.symm hn (hrow ▸ hr) (hcol ▸ hc)
  intro k hk hroom
  refine hb k c ?_ (hcol ▸ hc) (.inl (hfits.2.1 ▸ hk))
  rw [← hinner]
  omega

/-- The product of padded matrices adds nothing to a lane for no entry. -/
theorem entry_addAB_of_out {m a b : ZMatNeon R} (hfits : m.Fits a b) (ha : a.Padded)
    (hb : b.Padded) {r c : ℕ} (hr : r / 4 < m.rowNeon) (hc : c / 4 < m.colNeon)
    (hout : m.rows ≤ r ∨ m.cols ≤ c) : (m.addAB a b).entry r c = m.entry r c := by
  obtain ⟨hrow, hinner, hcol⟩ := hfits.blocks
  have hzero : ∀ k ∈ Finset.range a.cols, a.entry r k * b.entry k c = 0 := by
    intro k hk
    have hk' : k < a.cols := Finset.mem_range.mp hk
    rcases hout with hrows | hcols
    · have hentry : a.entry r k = 0 :=
        ha r k (hrow ▸ hr) (div_lt_colNeon hk') (.inl (hfits.1 ▸ hrows))
      rw [hentry, zero_mul]
    · have hentry : b.entry k c = 0 :=
        hb k c (div_lt_rowNeon (hfits.2.1 ▸ hk')) (hcol ▸ hc) (.inr (hfits.2.2 ▸ hcols))
      rw [hentry, mul_zero]
  rw [entry_addAB_rows hfits hb hr hc, Finset.sum_eq_zero hzero, add_zero]

/-- Nothing is written outside the blocks of the target. -/
theorem data_addAB_of_le {m a b : ZMatNeon R} (hfits : m.FitsBlocks a b) {block : ℕ}
    (hout : m.rowNeon * m.colNeon ≤ block) (lane : ℕ) :
    (m.addAB a b).data block lane = m.data block lane := by
  apply if_neg
  rw [hfits.1, hfits.2.2]
  exact Nat.not_lt.mpr hout

/-- Both builds add the same product. -/
theorem agree_addAB {m a b : ZMatNeon R} {p q s : ZMatPlain R} (hm : Agree m p) (ha : Agree a q)
    (hb : Agree b s) (hpad : b.Padded) (hfits : m.Fits a b) :
    Agree (m.addAB a b) (p.addAB q s) := by
  refine ⟨⟨hm.trans, hm.row, hm.col⟩, fun r c hr hc ↦ ?_⟩
  have hr' : r < q.mat.row := by
    rw [show q.mat.row = a.rows from ha.rowNeon, hfits.1]
    exact hr
  have hc' : c < s.mat.col := by
    rw [show s.mat.col = b.cols from hb.colNeon, hfits.2.2]
    exact hc
  have hinner : q.mat.col = a.cols := ha.colNeon
  have hsum : ∑ k ∈ Finset.range q.mat.col, q.mat.data r k * s.mat.data k c =
      ∑ k ∈ Finset.range a.cols, a.entry r k * b.entry k c := by
    rw [hinner]
    apply Finset.sum_congr rfl
    intro k hk
    have hk' : k < a.cols := Finset.mem_range.mp hk
    have hrow : r < a.rows := by rw [hfits.1]; exact hr
    have hcol : c < b.cols := by rw [hfits.2.2]; exact hc
    rw [ha.entry r k hrow hk', hb.entry k c (hfits.2.1 ▸ hk') hcol]
  calc (p.addAB q s).mat.data r c
      = p.mat.data r c + 1 * ∑ k ∈ Finset.range q.mat.col, q.mat.data r k * s.mat.data k c :=
        if_pos ⟨hr', hc'⟩
    _ = m.entry r c + ∑ k ∈ Finset.range a.cols, a.entry r k * b.entry k c := by
        rw [one_mul, hsum, hm.entry r c hr hc]
    _ = (m.addAB a b).entry r c :=
        (entry_addAB_rows hfits hpad (div_lt_rowNeon hr) (div_lt_colNeon hc)).symm

/-- The product with a vector is the sum over the columns of the matrix. -/
theorem data_addAX_rows {y x : ZVec R} {a : ZMatNeon R} (ha : a.Padded) {p : ℕ}
    (hp : p < 4 * a.rowNeon) :
    (y.addAX a x).data p =
      y.data p + ∑ k ∈ Finset.range a.cols, a.entry p k * x.data k := by
  have hn : a.cols ≤ 4 * a.colNeon := by
    rw [colNeon_eq]
    exact le_blocks _
  apply data_addAX hn hp
  intro k hk hroom
  exact ha p k (by omega) (by omega) (.inr hk)

/-- The product of a padded matrix writes nothing behind the entries of the vector. -/
theorem data_addAX_of_le {y x : ZVec R} {a : ZMatNeon R} (hfits : a.FitsVec y x) (ha : a.Padded)
    {p : ℕ} (hp : y.size ≤ p) : (y.addAX a x).data p = y.data p := by
  by_cases hroom : p < 4 * a.rowNeon
  · have hzero : ∀ k ∈ Finset.range a.cols, a.entry p k * x.data k = 0 := by
      intro k hk
      have hk' : k < a.cols := Finset.mem_range.mp hk
      have hentry : a.entry p k = 0 :=
        ha p k (by omega) (div_lt_colNeon hk') (.inl (hfits.1 ▸ hp))
      rw [hentry, zero_mul]
    rw [data_addAX_rows ha hroom, Finset.sum_eq_zero hzero, add_zero]
  · exact if_neg hroom

/-- Both builds add the same product with a vector. -/
theorem same_addAX {y x y' x' : ZVec R} {a : ZMatNeon R} {q : ZMatPlain R} (ha : Agree a q)
    (hpad : a.Padded) (hfits : a.FitsVec y x) (hy : y.Same y') (hx : x.Same x') :
    (y.addAX a x).Same (y'.addAXPlain q x') := by
  refine ⟨hy.size, fun p hp ↦ ?_⟩
  have hp' : p < y.size := hp
  have hrow : q.mat.row = a.rows := ha.rowNeon
  have hcol : q.mat.col = a.cols := ha.colNeon
  have hrows : p < a.rows := hfits.1 ▸ hp'
  have hsum : ∑ k ∈ Finset.range q.mat.col, q.mat.data p k * x'.data k =
      ∑ k ∈ Finset.range a.cols, a.entry p k * x.data k := by
    rw [hcol]
    apply Finset.sum_congr rfl
    intro k hk
    have hk' : k < a.cols := Finset.mem_range.mp hk
    rw [ha.entry p k hrows hk', hx.data k (hfits.2 ▸ hk')]
  have hroom : p < 4 * a.rowNeon := by
    have := div_lt_rowNeon hrows
    omega
  calc (y'.addAXPlain q x').data p
      = y'.data p + 1 * ∑ k ∈ Finset.range q.mat.col, q.mat.data p k * x'.data k :=
        if_pos (hrow ▸ hrows)
    _ = y.data p + ∑ k ∈ Finset.range a.cols, a.entry p k * x.data k := by
        rw [one_mul, hsum, hy.data p hp']
    _ = (y.addAX a x).data p := (data_addAX_rows hpad hroom).symm

end Products

end ZMatNeon

/-! ## The layout -/

/-- **The blocked layout computes what the plain one does.**  What is filled in is read back; the
entries of what is filled in are those of the source, or of its transpose; a product with a matrix
or a vector adds the sums of products of the entries, as the plain build does; and nothing else
changes. -/
theorem layout [Semiring R] :
    (∀ (m : ZMatNeon R) (a t : ZMat R), m.Shape a → m.Shape t →
      ((m.copyFrom a).copyTo t).Same a ∧
      ∀ r c, ¬ (r < t.row ∧ c < 4 * blocks t.col) →
        ((m.copyFrom a).copyTo t).data r c = t.data r c) ∧
    (∀ (m : ZMatNeon R) (p : ZMatPlain R) (a : ZMat R), m.Alike p → m.Shape a → a.Padded →
      (m.copyFrom a).Padded ∧ (m.copyFrom a).Agree (p.copyFrom a) ∧
      ∀ r c, r < m.rows → c < m.cols →
        (m.copyFrom a).entry r c = if m.trans then a.data c r else a.data r c) ∧
    (∀ (m a b : ZMatNeon R) (p q s : ZMatPlain R), m.Agree p → a.Agree q → b.Agree s →
      a.Padded → b.Padded → m.Fits a b →
      (m.addAB a b).Agree (p.addAB q s) ∧
      (∀ r c, r < m.rows → c < m.cols → (m.addAB a b).entry r c =
        m.entry r c + ∑ k ∈ Finset.range a.cols, a.entry r k * b.entry k c) ∧
      (∀ r c, r / 4 < m.rowNeon → c / 4 < m.colNeon → m.rows ≤ r ∨ m.cols ≤ c →
        (m.addAB a b).entry r c = m.entry r c) ∧
      ∀ block lane, m.rowNeon * m.colNeon ≤ block →
        (m.addAB a b).data block lane = m.data block lane) ∧
    ∀ (y x y' x' : ZVec R) (a : ZMatNeon R) (q : ZMatPlain R), y.Same y' → x.Same x' →
      a.Agree q → a.Padded → a.FitsVec y x →
      (y.addAX a x).Same (y'.addAXPlain q x') ∧
      (∀ i, i < y.size → (y.addAX a x).data i =
        y.data i + ∑ k ∈ Finset.range a.cols, a.entry i k * x.data k) ∧
      ∀ i, y.size ≤ i → (y.addAX a x).data i = y.data i := by
  refine ⟨?_, ?_, ?_, ?_⟩
  · intro m a t ha ht
    refine ⟨ZMatNeon.same_copyTo_copyFrom ha ht, fun r c hout ↦ ?_⟩
    exact ZMatNeon.data_copyTo_of_not (m := m.copyFrom a) ht hout
  · intro m p a halike ha hpad
    refine ⟨ZMatNeon.padded_copyFrom ha hpad, ?_, fun r c hr hc ↦ ?_⟩
    · exact ZMatNeon.agree_copyFrom halike ha ⟨rfl, rfl, fun _ _ _ _ ↦ rfl⟩
    · exact ZMatNeon.entry_copyFrom_of_lt m a hr hc
  · intro m a b p q s hm ha hb hpadA hpadB hfits
    refine ⟨ZMatNeon.agree_addAB hm ha hb hpadB hfits, fun r c hr hc ↦ ?_, fun r c hr hc hout ↦ ?_,
      fun block lane hout ↦ ?_⟩
    · have hr4 := ZMatNeon.div_lt_rowNeon hr
      have hc4 := ZMatNeon.div_lt_colNeon hc
      exact ZMatNeon.entry_addAB_rows hfits hpadB hr4 hc4
    · exact ZMatNeon.entry_addAB_of_out hfits hpadA hpadB hr hc hout
    · exact ZMatNeon.data_addAB_of_le hfits.blocks hout lane
  · intro y x y' x' a q hy hx ha hpad hfits
    refine ⟨ZMatNeon.same_addAX ha hpad hfits hy hx, fun i hi ↦ ?_, fun i hi ↦ ?_⟩
    · have hroom := ZMatNeon.div_lt_rowNeon (hfits.1.symm ▸ hi : i < a.rows)
      exact ZMatNeon.data_addAX_rows hpad (by omega)
    · exact ZMatNeon.data_addAX_of_le hfits hpad hi

/-- What is read into a new matrix is padded. -/
theorem ZMat.padded_read [Zero R] (row col : ℕ) (values : ℕ → ℕ → R) :
    (ZMat.read row col values).Padded := by
  intro i j _ hj _
  apply if_neg
  rintro ⟨-, hlt⟩
  exact Nat.not_lt.mpr hj hlt

/-- A matrix in both builds, filled from the sums of the indices. -/
def smallSums (row col : ℕ) (trans : Bool) : ZMatNeon ℕ × ZMatPlain ℕ :=
  let a := ZMat.read row col fun i j ↦ i + j
  ((ZMatNeon.create row col trans).copyFrom a, (ZMatPlain.create row col trans).copyFrom a)

/-- A product of five times three and three times six entries, the second of them transposed. -/
theorem layout_small :
    ((smallSums 5 6 false).1.addAB (smallSums 5 3 false).1 (smallSums 6 3 true).1).entry 4 5 =
      9 + (4 * 5 + 5 * 6 + 6 * 7) ∧
    ((smallSums 5 6 false).2.addAB (smallSums 5 3 false).2 (smallSums 6 3 true).2).mat.data 4 5 =
      9 + (4 * 5 + 5 * 6 + 6 * 7) ∧
    (ZVec.addAX ⟨5, fun _ ↦ 1⟩ (smallSums 5 3 false).1 ⟨3, fun _ ↦ 2⟩).data 4 = 31 ∧
    (((smallSums 5 6 true).1.copyTo (ZMat.create 5 6)).data 4 5 : ℕ) = 9 := by
  obtain ⟨hcopy, hfill, hprod, hvec⟩ := @layout ℕ _
  have hsums : ∀ row col trans, (smallSums row col trans).1.Padded ∧
      (smallSums row col trans).1.Agree (smallSums row col trans).2 := by
    intro row col trans
    obtain ⟨hpad, hagree, -⟩ := hfill (ZMatNeon.create row col trans) (ZMatPlain.create row col trans)
      (ZMat.read row col fun i j ↦ i + j) ⟨rfl, rfl, rfl⟩ ⟨rfl, rfl⟩ (ZMat.padded_read row col _)
    exact ⟨hpad, hagree⟩
  obtain ⟨hagree, hentry, -, -⟩ := hprod _ _ _ _ _ _ (hsums 5 6 false).2 (hsums 5 3 false).2
    (hsums 6 3 true).2 (hsums 5 3 false).1 (hsums 6 3 true).1 ⟨rfl, rfl, rfl⟩
  have hvalue := hentry 4 5 (by decide) (by decide)
  have hsum := (hvec ⟨5, fun _ ↦ 1⟩ ⟨3, fun _ ↦ 2⟩ ⟨5, fun _ ↦ 1⟩ ⟨3, fun _ ↦ 2⟩ _ _
    ⟨rfl, fun _ _ ↦ rfl⟩ ⟨rfl, fun _ _ ↦ rfl⟩ (hsums 5 3 false).2 (hsums 5 3 false).1
    ⟨rfl, rfl⟩).2.1 4 (by decide)
  have hback := (hcopy (ZMatNeon.create 5 6 true) (ZMat.read 5 6 fun i j ↦ i + j) (ZMat.create 5 6)
    ⟨rfl, rfl⟩ ⟨rfl, rfl⟩).1.data 4 5 (by decide) (by decide)
  refine ⟨hvalue.trans (by decide), ?_, hsum.trans (by decide), hback⟩
  exact (hagree.entry 4 5 (by decide) (by decide)).trans (hvalue.trans (by decide))

/-! ## Runs of both builds -/

/-- The objects of a program; `M` is the class `ZMat_Neon` of a build. -/
structure Store (I J K M R : Type*) where
  neons : I → M
  mats : J → ZMat R
  vecs : K → ZVec R

/-- A call on objects of the store. -/
inductive Call (I J K : Type*)
  | copyFrom (m : I) (a : J)
  | copyTo (m : I) (a : J)
  | addAB (m a b : I)
  | addAX (y : K) (a : I) (x : K)

/-- The functions of a build. -/
structure Build (M R : Type*) where
  copyFrom : M → ZMat R → M
  copyTo : M → ZMat R → ZMat R
  addAB : M → M → M → M
  addAX : ZVec R → M → ZVec R → ZVec R

/-- With `__USE_MAT_NEON__`. -/
def Build.neon [Semiring R] : Build (ZMatNeon R) R :=
  ⟨ZMatNeon.copyFrom, ZMatNeon.copyTo, ZMatNeon.addAB, ZVec.addAX⟩

/-- Without `__USE_MAT_NEON__`. -/
def Build.plain [Semiring R] : Build (ZMatPlain R) R :=
  ⟨ZMatPlain.copyFrom, ZMatPlain.copyTo, ZMatPlain.addAB, ZVec.addAXPlain⟩

section Runs

variable {I J K M : Type*} [DecidableEq I] [DecidableEq J] [DecidableEq K]

/-- A call changes its target. -/
def Build.step (B : Build M R) (s : Store I J K M R) : Call I J K → Store I J K M R
  | .copyFrom m a => { s with neons := Function.update s.neons m (B.copyFrom (s.neons m) (s.mats a)) }
  | .copyTo m a => { s with mats := Function.update s.mats a (B.copyTo (s.neons m) (s.mats a)) }
  | .addAB m a b =>
      { s with neons := Function.update s.neons m (B.addAB (s.neons m) (s.neons a) (s.neons b)) }
  | .addAX y a x =>
      { s with vecs := Function.update s.vecs y (B.addAX (s.vecs y) (s.neons a) (s.vecs x)) }

/-- The shapes fit, as the assertions of the plain build say, and the target of a product is none
of its factors. -/
def Store.Fits (s : Store I J K (ZMatNeon R) R) : Call I J K → Prop
  | .copyFrom m a => (s.neons m).Shape (s.mats a)
  | .copyTo m a => (s.neons m).Shape (s.mats a)
  | .addAB m a b => m ≠ a ∧ m ≠ b ∧ (s.neons m).Fits (s.neons a) (s.neons b)
  | .addAX y a x => y ≠ x ∧ (s.neons a).FitsVec (s.vecs y) (s.vecs x)

/-- The objects of both builds have the same entries, and the padding is zero. -/
structure Store.Agree [Zero R] (s : Store I J K (ZMatNeon R) R) (t : Store I J K (ZMatPlain R) R) :
    Prop where
  neons : ∀ i, (s.neons i).Agree (t.neons i)
  padded : ∀ i, (s.neons i).Padded
  mats : ∀ j, (s.mats j).Same (t.mats j)
  paddedMats : ∀ j, (s.mats j).Padded
  vecs : ∀ k, (s.vecs k).Same (t.vecs k)

/-- What holds of all objects and of the new target holds after the call. -/
theorem forall_update {ι α β : Type*} [DecidableEq ι] {P : α → β → Prop} {f : ι → α} {g : ι → β}
    (h : ∀ i, P (f i) (g i)) {i : ι} {a : α} {b : β} (hab : P a b) (j : ι) :
    P (Function.update f i a j) (Function.update g i b j) := by
  by_cases hj : j = i
  · subst hj
    rwa [Function.update_self, Function.update_self]
  · rw [Function.update_of_ne hj, Function.update_of_ne hj]
    exact h j

variable [Semiring R]

/-- A padded target stays padded. -/
theorem ZMatNeon.padded_addAB {m a b : ZMatNeon R} (hm : m.Padded) (ha : a.Padded) (hb : b.Padded)
    (hfits : m.Fits a b) : (m.addAB a b).Padded := by
  intro r c hr hc hout
  rw [entry_addAB_of_out hfits ha hb hr hc hout]
  exact hm r c hr hc hout

/-- One call. -/
theorem Store.Agree.step {s : Store I J K (ZMatNeon R) R} {t : Store I J K (ZMatPlain R) R}
    (h : s.Agree t) {call : Call I J K} (hfits : s.Fits call) :
    (Build.neon.step s call).Agree (Build.plain.step t call) := by
  cases call with
  | copyFrom m a =>
      have hagree := ZMatNeon.agree_copyFrom (h.neons m).toAlike hfits (h.mats a)
      have hpad := ZMatNeon.padded_copyFrom hfits (h.paddedMats a)
      exact { h with
        neons := forall_update h.neons hagree
        padded := (Function.forall_update_iff s.neons fun _ m ↦ ZMatNeon.Padded m).mpr
          ⟨hpad, fun i _ ↦ h.padded i⟩ }
  | copyTo m a =>
      have hsame := ZMatNeon.same_copyTo (h.neons m) hfits (h.mats a)
      have hpad := ZMatNeon.padded_copyTo (h.padded m) hfits
      exact { h with
        mats := forall_update h.mats hsame
        paddedMats := (Function.forall_update_iff s.mats fun _ a ↦ ZMat.Padded a).mpr
          ⟨hpad, fun j _ ↦ h.paddedMats j⟩ }
  | addAB m a b =>
      have hagree := ZMatNeon.agree_addAB (h.neons m) (h.neons a) (h.neons b) (h.padded b) hfits.2.2
      have hpad := ZMatNeon.padded_addAB (h.padded m) (h.padded a) (h.padded b) hfits.2.2
      exact { h with
        neons := forall_update h.neons hagree
        padded := (Function.forall_update_iff s.neons fun _ m ↦ ZMatNeon.Padded m).mpr
          ⟨hpad, fun i _ ↦ h.padded i⟩ }
  | addAX y a x =>
      have hsame := ZMatNeon.same_addAX (h.neons a) (h.padded a) hfits.2 (h.vecs y) (h.vecs x)
      exact { h with vecs := forall_update h.vecs hsame }

/-- **After any run of calls both builds have the same entries.** -/
theorem run_agree {s : Store I J K (ZMatNeon R) R} {t : Store I J K (ZMatPlain R) R}
    (h : s.Agree t) {calls : List (Call I J K)}
    (hfits : Trace.Along Build.neon.step Store.Fits s calls) :
    (Trace.run Build.neon.step s calls).Agree (Trace.run Build.plain.step t calls) := by
  induction calls generalizing s t with
  | nil => exact h
  | cons call calls ih => exact ih (h.step hfits.1) hfits.2

end Runs

end Vsys.Mat
