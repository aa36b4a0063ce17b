import Vsys.Dnn.Rows

/-!
# The recurrent cell starts anew

`Nnet_Lstm_Cell` keeps its vectors between calls.  The state of the cell and the last result are
cleared at the start of a call, and the other vectors are overwritten in every turn before they are
read; behind their entries nothing is ever written.  So a turn depends on the row, the state and the
last result, `turn_congr`, and a call on its rows, `cellMat_same`.
-/

namespace Vsys.Dnn

open Vsys.Mat

variable {R : Type*}

/-! ## Vectors that are zero behind their entries -/

/-- A vector of `size` entries with zeros from place `k` on. -/
structure Within [Zero R] (size k : ℕ) (y : ZVec R) : Prop where
  size_eq : y.size = size
  tail : ∀ p, k ≤ p → y.data p = 0

namespace Within

variable [Zero R] {size k : ℕ} {x y y' : ZVec R}

theorem create (size : ℕ) : Within size size (ZVec.create size : ZVec R) := ⟨rfl, fun _ _ ↦ rfl⟩

theorem mono {k' : ℕ} (h : Within size k y) (hk : k ≤ k') : Within size k' y :=
  ⟨h.size_eq, fun p hp ↦ h.tail p (hk.trans hp)⟩

/-- A loop over the entries writes nothing behind them. -/
theorem rowMap (h : Within size size y) (f : (ℕ → R) → ℕ → R) : Within size size (y.rowMap f) := by
  refine ⟨h.size_eq, fun p hp ↦ ?_⟩
  have hout : ¬ p < y.size := by rw [h.size_eq]; exact Nat.not_lt.mpr hp
  exact (if_neg hout).trans (h.tail p hp)

theorem load (h : Within size size y) (v : ℕ → R) : Within size size (y.load v) := h.rowMap _

theorem add [Add R] (h : Within size size y) (a : R) : Within size size (y.add a) := h.rowMap _

theorem rowAdd [Add R] (h : Within size size y) (x : ZVec R) : Within size size (y.rowAdd x) :=
  h.rowMap _

theorem rowMul [Mul R] (h : Within size size y) (x : ZVec R) : Within size size (y.rowMul x) :=
  h.rowMap _

theorem addXY [Add R] [Mul R] (h : Within size size y) (x x' : ZVec R) :
    Within size size (y.addXY x x') := h.rowMap _

/-- `Copy` goes up to the end of the last block. -/
theorem copy (h : Within size k y) (hx : ∀ p, k ≤ p → x.data p = 0) :
    Within size k (y.copy x) := by
  refine ⟨h.size_eq, fun p hp ↦ ?_⟩
  unfold ZVec.copy
  dsimp only
  split
  · exact hx p hp
  · exact h.tail p hp

theorem clean (h : Within size k y) : Within size k y.clean := by
  refine ⟨h.size_eq, fun p hp ↦ ?_⟩
  unfold ZVec.clean
  dsimp only
  split
  · rfl
  · exact h.tail p hp

theorem addAXBy (h : Within size k y) (B : Blas R) (a : ZMatNeon R) (x : ZVec R)
    (hroom : 4 * a.rowNeon ≤ k) : Within size k (y.addAXBy B a x) := by
  refine ⟨h.size_eq, fun p hp ↦ ?_⟩
  have hout : ¬ p < 4 * a.rowNeon := Nat.not_lt.mpr (hroom.trans hp)
  exact (if_neg hout).trans (h.tail p hp)

/-- Vectors of one size are equal if their places are. -/
theorem ext (h : Within size k y) (h' : Within size k y')
    (hdata : ∀ p, p < k → y.data p = y'.data p) : y = y' := by
  obtain ⟨n, data⟩ := y
  obtain ⟨n', data'⟩ := y'
  obtain rfl : n = size := h.size_eq
  obtain rfl : n' = n := h'.size_eq
  congr 1
  funext p
  by_cases hp : p < k
  · exact hdata p hp
  · exact (h.tail p (Nat.not_lt.mp hp)).trans (h'.tail p (Nat.not_lt.mp hp)).symm

/-- What is loaded does not depend on what was there. -/
theorem load_eq (h : Within size size y) (h' : Within size size y') {v v' : ℕ → R}
    (hv : Agree size v v') : y.load v = y'.load v' := by
  apply (h.rowMap _).ext (h'.rowMap _)
  intro p hp
  have hy : p < y.size := h.size_eq.symm ▸ hp
  have hy' : p < y'.size := h'.size_eq.symm ▸ hp
  rw [ZVec.rowMap_data _ hy, ZVec.rowMap_data _ hy', hv p hp]

/-- What is copied does not depend on what was there. -/
theorem copy_eq (h : Within size k y) (h' : Within size k y') (hk : k ≤ 4 * blocks size)
    (x : ZVec R) : y.copy x = y'.copy x := by
  have hdata : ∀ {z : ZVec R}, Within size k z → (z.copy x).data = fun p ↦
      if p < blocks size * 4 then x.data p else 0 := by
    intro z hz
    funext p
    simp only [ZVec.copy, hz.size_eq]
    split
    · rfl
    · next hp => exact hz.tail p (by omega)
  have hleft := hdata h
  have hright := hdata h'
  rw [← hright] at hleft
  have hsize : (y.copy x).size = (y'.copy x).size := h.size_eq.trans h'.size_eq.symm
  calc y.copy x = ⟨(y.copy x).size, (y.copy x).data⟩ := rfl
    _ = ⟨(y'.copy x).size, (y'.copy x).data⟩ := by rw [hleft, hsize]
    _ = y'.copy x := rfl

/-- A cleared vector is as new. -/
theorem clean_eq (h : Within size k y) (hk : k ≤ (size + 15) / 16 * 16) :
    y.clean = ZVec.create size := by
  have hclean : Within size 0 y.clean := by
    refine ⟨h.size_eq, fun p _ ↦ ?_⟩
    unfold ZVec.clean
    dsimp only
    split
    · rfl
    · next hp =>
        rw [h.size_eq] at hp
        exact h.tail p (by omega)
  exact hclean.ext ⟨rfl, fun _ _ ↦ rfl⟩ fun p hp ↦ absurd hp (Nat.not_lt_zero p)

end Within

/-! ## A turn -/

/-- The sizes of the vectors, and how far they are written. -/
structure CellVecs.Kept [Zero R] (u out : ℕ) (v : CellVecs R) : Prop where
  gifo : Within (u * 4) (u * 4) v.gifo
  j : Within u u v.j
  i : Within u u v.i
  f : Within u u v.f
  o : Within u u v.o
  c : Within u u v.c
  mBk : Within u u v.mBk
  m : Within out (4 * blocks out) v.m

namespace Rounded

theorem le_room (n : ℕ) : 4 * blocks n ≤ (n + 15) / 16 * 16 := by
  rw [blocks]
  omega

theorem gifoMNeon_rowNeon [Zero R] [One R] {n out : ℕ} (cell : LstmCell R n out) :
    cell.gifoMNeon.rowNeon = cell.numUnits := by
  change blocks (cell.numUnits * 4) = cell.numUnits
  rw [blocks]
  omega

section Gates

variable [Zero R] [One R] {n out : ℕ} (cell : LstmCell R n out) (B : Blas R) {v : CellVecs R}

/-- The end of a turn keeps the sizes. -/
theorem kept_project (h : v.Kept cell.numUnits out) : (project B cell v).Kept cell.numUnits out := by
  unfold project
  split
  · next hunits =>
      have hm : Within out (4 * blocks out) (v.m.copy v.mBk) := by
        apply h.m.copy
        intro p hp
        have hout := le_blocks out
        exact h.mBk.tail p (by omega)
      exact { h with m := hm }
  · have hroom : 4 * cell.projNeon.rowNeon ≤ 4 * blocks out := Nat.le_refl _
    exact { h with m := h.m.clean.addAXBy B _ _ hroom }

variable [Add R]

/-- The gates keep the sizes. -/
theorem kept_gates (h : v.Kept cell.numUnits out) (x : ℕ → R) :
    (gates B cell v x).Kept cell.numUnits out := by
  have hroom : 4 * cell.gifoMNeon.rowNeon ≤ cell.numUnits * 4 := by
    rw [gifoMNeon_rowNeon]
    omega
  have hgifo : Within (cell.numUnits * 4) (cell.numUnits * 4) (gates B cell v x).gifo := by
    unfold gates
    dsimp only
    cases cell.norm with
    | inl ln => exact (h.gifo.load x).addAXBy B _ _ hroom
    | inr bias => exact ((h.gifo.load x).rowAdd _).addAXBy B _ _ hroom
  exact { h with
    gifo := hgifo
    j := h.j.load _
    i := h.i.load _
    f := h.f.load _
    o := h.o.load _ }

/-- The gates depend on the row and the last result. -/
theorem gates_congr {v' : CellVecs R} (h : v.Kept cell.numUnits out)
    (h' : v'.Kept cell.numUnits out) (hc : v.c = v'.c) (hm : v.m = v'.m) {x x' : ℕ → R}
    (hx : Agree (cell.numUnits * 4) x x') :
    gates B cell v x = { gates B cell v' x' with mBk := v.mBk } := by
  unfold gates
  dsimp only
  rw [h.gifo.load_eq h'.gifo hx, hm, hc]
  have hload : ∀ {y y' : ZVec R}, Within cell.numUnits cell.numUnits y →
      Within cell.numUnits cell.numUnits y' → y.load = y'.load := by
    intro y y' hy hy'
    funext w
    exact hy.load_eq hy' fun _ _ ↦ rfl
  rw [hload h.j h'.j, hload h.i h'.i, hload h.f h'.f, hload h.o h'.o]

end Gates

variable [Zero R] (F : Functions R) {u : ℕ} {y : ZVec R}

theorem within_rowSigMoid (h : Within u u y) : Within u u (rowSigMoid F y) := h.rowMap _

theorem within_rowActive [LT R] [DecidableLT R] (h : Within u u y) (acn : Acn) :
    Within u u (rowActive F acn y) := by
  unfold rowActive
  split
  · exact h.rowMap _
  · exact h.rowMap _
  · exact within_rowSigMoid F h
  · exact h

section Bias

variable [Add R] [Mul R] [LT R] [DecidableLT R] {n out : ℕ} (cell : LstmCell R n out) {v : CellVecs R}

theorem kept_biasPeephole (h : v.Kept u out) (p : Peephole R) :
    (biasPeephole F cell p v).Kept u out := by
  have hf := within_rowSigMoid F ((h.f.add cell.forgetBias).addXY p.f v.c)
  have hi := within_rowSigMoid F (h.i.addXY p.i v.c)
  have hj := within_rowActive F h.j cell.acn
  have hc : Within u u (biasPeephole F cell p v).c := (h.c.rowMul _).addXY _ _
  have ho := within_rowSigMoid F (h.o.addXY p.o (biasPeephole F cell p v).c)
  have hbk := within_rowActive F (h.mBk.copy hc.tail) cell.acn
  exact { h with j := hj, i := hi, f := hf, o := ho, c := hc, mBk := hbk.rowMul _ }

theorem kept_biasPlain (h : v.Kept u out) : (biasPlain F cell v).Kept u out := by
  have hf := within_rowSigMoid F (h.f.add cell.forgetBias)
  have hi := within_rowSigMoid F h.i
  have hj := within_rowActive F h.j cell.acn
  have hc : Within u u (biasPlain F cell v).c := (h.c.rowMul _).addXY _ _
  have ho := within_rowSigMoid F h.o
  have hbk := within_rowActive F (h.mBk.copy hc.tail) cell.acn
  exact { h with j := hj, i := hi, f := hf, o := ho, c := hc, mBk := hbk.rowMul _ }

end Bias

variable [Add R] [Sub R] [Mul R] [Div R] [NatCast R]

theorem within_layerNormVec (h : Within u u y) (ln : LayerNorm R) :
    Within u u (layerNormVec F ln y) := ((h.rowMap _).rowMul _).rowAdd _

variable [LT R] [DecidableLT R] {n out : ℕ} (cell : LstmCell R n out) {v : CellVecs R}

theorem kept_normPeephole (h : v.Kept u out) (ln : CellNorm R) (p : Peephole R) :
    (normPeephole F cell ln p v).Kept u out := by
  have hf := within_rowSigMoid F (within_layerNormVec F (h.f.addXY p.f v.c) ln.f)
  have hi := within_rowSigMoid F (within_layerNormVec F (h.i.addXY p.i v.c) ln.i)
  have hj := within_rowActive F (within_layerNormVec F h.j ln.j) cell.acn
  have hc : Within u u (normPeephole F cell ln p v).c := (h.c.rowMul _).addXY _ _
  have ho := within_rowSigMoid F (within_layerNormVec F (h.o.addXY p.o (normPeephole F cell ln p v).c) ln.o)
  have hbk := within_rowActive F (within_layerNormVec F (h.mBk.copy hc.tail) ln.c) cell.acn
  exact { h with j := hj, i := hi, f := hf, o := ho, c := hc, mBk := hbk.rowMul _ }

theorem kept_normPlain (h : v.Kept u out) (ln : CellNorm R) :
    (normPlain F cell ln v).Kept u out := by
  have hf := within_rowSigMoid F (within_layerNormVec F h.f ln.f)
  have hi := within_rowSigMoid F (within_layerNormVec F h.i ln.i)
  have hj := within_rowActive F (within_layerNormVec F h.j ln.j) cell.acn
  have hc : Within u u (normPlain F cell ln v).c := (h.c.rowMul _).addXY _ _
  have ho := within_rowSigMoid F (within_layerNormVec F h.o ln.o)
  have hbk := within_rowActive F (within_layerNormVec F (h.mBk.copy hc.tail) ln.c) cell.acn
  exact { h with j := hj, i := hi, f := hf, o := ho, c := hc, mBk := hbk.rowMul _ }

/-- The four cases keep the sizes. -/
theorem kept_activate (h : v.Kept u out) : (activate F cell v).Kept u out := by
  unfold activate
  split
  · exact kept_normPeephole F cell h _ _
  · exact kept_normPlain F cell h _
  · exact kept_biasPeephole F cell h _
  · exact kept_biasPlain F cell h

/-- The four cases overwrite `_buf_m_bk`. -/
theorem activate_setBk {mBk : ZVec R} (h : ∀ c, mBk.copy c = v.mBk.copy c) :
    activate F cell { v with mBk := mBk } = activate F cell v := by
  unfold activate
  split
  · simp only [normPeephole, h]
  · simp only [normPlain, h]
  · simp only [biasPeephole, h]
  · simp only [biasPlain, h]

variable [One R] (B : Blas R)

/-- A turn keeps the sizes. -/
theorem kept_turn (h : v.Kept cell.numUnits out) (x : ℕ → R) :
    (turn F B cell v x).Kept cell.numUnits out :=
  kept_project cell B (kept_activate F cell (kept_gates cell B h x))

/-- **A turn depends on the row, the state of the cell and the last result.** -/
theorem turn_congr {v' : CellVecs R} (h : v.Kept cell.numUnits out)
    (h' : v'.Kept cell.numUnits out) (hc : v.c = v'.c) (hm : v.m = v'.m) {x x' : ℕ → R}
    (hx : Agree (cell.numUnits * 4) x x') : turn F B cell v x = turn F B cell v' x' := by
  have hbk : ∀ c, v.mBk.copy c = (gates B cell v' x').mBk.copy c :=
    fun c ↦ h.mBk.copy_eq h'.mBk (le_blocks _) c
  unfold turn
  rw [gates_congr cell B h h' hc hm hx, activate_setBk F cell hbk]

end Rounded

/-! ## A call -/

/-- The dimensions of a memory are those of its cell, and nothing stands behind the results. -/
structure CellMemory.Kept [Zero R] (u out : ℕ) (mem : CellMemory R) : Prop where
  gifoNeon_trans : mem.gifoNeon.trans = false
  gifoNeon_col : mem.gifoNeon.col = u * 4
  gifoMat : mem.gifoMat.col = u * 4
  vecs : mem.vecs.Kept u out
  out_col : mem.out.col = out
  out_pad : ∀ r c, out ≤ c → mem.out.data r c = 0

/-- A memory at the start of a call with `row` rows. -/
structure CellMemory.Ready [Zero R] (u out row : ℕ) (mem : CellMemory R) : Prop extends
    CellMemory.Kept u out mem where
  shape : Shape row (u * 4) mem.gifoNeon
  gifoMat_row : mem.gifoMat.row = row
  out_row : mem.out.row = row
  c_eq : mem.vecs.c = ZVec.create u
  m_eq : mem.vecs.m = ZVec.create out

namespace CellMemory

variable [Zero R] [One R] {u out : ℕ} {mem : CellMemory R}

theorem kept_create (u out batchSize : ℕ) : Kept u out (create u out batchSize : CellMemory R) where
  gifoNeon_trans := rfl
  gifoNeon_col := rfl
  gifoMat := rfl
  vecs := {
    gifo := Within.create _
    j := Within.create _
    i := Within.create _
    f := Within.create _
    o := Within.create _
    c := Within.create _
    mBk := Within.create _
    m := (Within.create _).mono (le_blocks out) }
  out_col := rfl
  out_pad := fun _ _ _ ↦ rfl

theorem Kept.reserve (h : Kept u out mem) (row : ℕ) : Kept u out (mem.reserve u out row) := by
  unfold CellMemory.reserve
  split
  · exact { h with
      gifoNeon_trans := rfl
      gifoNeon_col := rfl
      gifoMat := rfl
      out_col := rfl
      out_pad := fun _ _ _ ↦ rfl }
  · exact h

/-- `ConfigMem` makes a memory ready: the state and the last result are as new. -/
theorem Kept.configMem (h : Kept u out mem) (row : ℕ) : Ready u out row (mem.configMem u out row) := by
  have hkept := h.reserve row
  have hroom := Rounded.le_room u
  have hu := le_blocks u
  have hc : (mem.reserve u out row).vecs.c.clean = ZVec.create u :=
    hkept.vecs.c.clean_eq (by omega)
  have hm : (mem.reserve u out row).vecs.m.clean = ZVec.create out :=
    hkept.vecs.m.clean_eq (Rounded.le_room out)
  have hvecs : CellVecs.Kept u out { (mem.reserve u out row).vecs with
      c := (mem.reserve u out row).vecs.c.clean, m := (mem.reserve u out row).vecs.m.clean } :=
    { hkept.vecs with c := hkept.vecs.c.clean, m := hkept.vecs.m.clean }
  exact {
    gifoNeon_trans := hkept.gifoNeon_trans
    gifoNeon_col := hkept.gifoNeon_col
    gifoMat := hkept.gifoMat
    vecs := hvecs
    out_col := hkept.out_col
    out_pad := hkept.out_pad
    shape := ⟨hkept.gifoNeon_trans, rfl, hkept.gifoNeon_col⟩
    gifoMat_row := rfl
    out_row := rfl
    c_eq := hc
    m_eq := hm }

end CellMemory

namespace Rounded

section Start

variable [Zero R] [One R] (B : Blas R) {n out row : ℕ} (cell : LstmCell R n out)

/-- What two runs of the loop have in common after some turns. -/
structure Turned (u out row : ℕ) (fw : Bool) (turns : ℕ) (mem mem' : CellMemory R) : Prop where
  kept : mem.Kept u out
  kept' : mem'.Kept u out
  gifo : ∀ r, r < row → Agree (u * 4) (mem.gifoMat.data r) (mem'.gifoMat.data r)
  c_eq : mem.vecs.c = mem'.vecs.c
  m_eq : mem.vecs.m = mem'.vecs.m
  out_row : mem.out.row = row
  out_eq : ∀ i c, i < turns → mem.out.data (turnRow fw row i) c = mem'.out.data (turnRow fw row i) c

/-- The products of all rows start from cleared lanes. -/
theorem sameRows_gifo {a a' matIn matIn' : ZMatNeon R} (ha : Shape row (cell.numUnits * 4) a)
    (ha' : Shape row (cell.numUnits * 4) a') (hin : SameRows row n matIn matIn') :
    SameRows row (cell.numUnits * 4) (a.clean.addABBy B matIn cell.gifoXNeon)
      (a'.clean.addABBy B matIn' cell.gifoXNeon) := by
  have hclean : SameRows row (cell.numUnits * 4) a.clean a'.clean := by
    refine ⟨ha.withData _, ha'.withData _, fun r c hr hc ↦ ?_⟩
    rw [ZMatNeon.entry_clean a (ha.row_div_lt hr) (ha.colNeon ▸ hc),
      ZMatNeon.entry_clean a' (ha'.row_div_lt hr) (ha'.colNeon ▸ hc)]
  exact sameRows_addABBy B hclean rfl hin

/-- The memory in front of the first turn. -/
def starting (matIn : ZMatNeon R) (s : CellMemory R) : CellMemory R :=
  { s with
    gifoNeon := s.gifoNeon.clean.addABBy B matIn cell.gifoXNeon
    gifoMat := (s.gifoNeon.clean.addABBy B matIn cell.gifoXNeon).copyTo s.gifoMat
    vecs := { s.vecs with c := s.vecs.c.clean, m := s.vecs.m.clean } }

theorem kept_starting {matIn : ZMatNeon R} {s : CellMemory R}
    (h : s.Ready cell.numUnits out row) : (starting B cell matIn s).Kept cell.numUnits out :=
  { h.toKept with
    gifoNeon_trans := h.gifoNeon_trans
    gifoNeon_col := h.gifoNeon_col
    gifoMat := h.gifoMat
    vecs := { h.vecs with c := h.vecs.c.clean, m := h.vecs.m.clean } }

/-- Nothing is left of the calls before when the turns start. -/
theorem turned_starting (fw : Bool) {matIn matIn' : ZMatNeon R} {s s' : CellMemory R}
    (h : s.Ready cell.numUnits out row) (h' : s'.Ready cell.numUnits out row)
    (hin : SameRows row n matIn matIn') :
    Turned cell.numUnits out row fw 0 (starting B cell matIn s) (starting B cell matIn' s') := by
  have hmat := sameMat_copyTo (sameRows_gifo B cell h.shape h'.shape hin) h.gifoMat_row h.gifoMat
    h'.gifoMat_row h'.gifoMat
  refine ⟨kept_starting B cell h, kept_starting B cell h', ?_, ?_, ?_, h.out_row, ?_⟩
  · intro r hr p hp
    exact hmat.data r p hr (div_lt_blocks hp)
  · show s.vecs.c.clean = s'.vecs.c.clean
    rw [h.c_eq, h'.c_eq]
  · show s.vecs.m.clean = s'.vecs.m.clean
    rw [h.m_eq, h'.m_eq]
  · intro i c hi
    exact absurd hi (Nat.not_lt_zero i)

end Start

variable [Zero R] [One R] [Add R] [Sub R] [Mul R] [Div R] [NatCast R] [LT R] [DecidableLT R]
variable (F : Functions R) (B : Blas R) {n out row : ℕ} (cell : LstmCell R n out) (fw : Bool)

/-- One turn of the loop. -/
theorem Turned.step {turns : ℕ} {mem mem' : CellMemory R} (hrow : turns < row)
    (h : Turned cell.numUnits out row fw turns mem mem') :
    Turned cell.numUnits out row fw (turns + 1) (cellStep F B cell fw row mem turns)
      (cellStep F B cell fw row mem' turns) := by
  have hplace : turnRow fw row turns < row := by
    unfold turnRow
    split <;> omega
  have hturn := turn_congr F cell B h.kept.vecs h.kept'.vecs h.c_eq h.m_eq (h.gifo _ hplace)
  have hkept : ∀ {m : CellMemory R}, m.Kept cell.numUnits out →
      (cellStep F B cell fw row m turns).Kept cell.numUnits out := by
    intro m hm
    refine { hm with vecs := kept_turn F cell B hm.vecs _, out_pad := fun r c hc ↦ ?_ }
    exact (if_neg fun hin ↦ Nat.not_lt.mpr hc hin.2).trans (hm.out_pad r c hc)
  refine ⟨hkept h.kept, hkept h.kept', h.gifo, congrArg CellVecs.c hturn,
    congrArg CellVecs.m hturn, h.out_row, fun i c hi ↦ ?_⟩
  simp only [cellStep, hturn]
  by_cases hlast : turnRow fw row i = turnRow fw row turns
  · by_cases hc : c < out
    · rw [if_pos ⟨hlast, hc⟩, if_pos ⟨hlast, hc⟩]
    · rw [if_neg fun hin ↦ hc hin.2, if_neg fun hin ↦ hc hin.2,
        h.kept.out_pad _ c (Nat.not_lt.mp hc), h.kept'.out_pad _ c (Nat.not_lt.mp hc)]
  · have hbefore : i < turns := by
      rcases Nat.lt_succ_iff_lt_or_eq.mp hi with hlt | rfl
      · exact hlt
      · exact absurd rfl hlast
    rw [if_neg fun hin ↦ hlast hin.1, if_neg fun hin ↦ hlast hin.1]
    exact h.out_eq i c hbefore

/-- All turns of the loop. -/
theorem Turned.run {mem mem' : CellMemory R} (h : Turned cell.numUnits out row fw 0 mem mem') :
    ∀ turns ≤ row, Turned cell.numUnits out row fw turns
      ((List.range turns).foldl (cellStep F B cell fw row) mem)
      ((List.range turns).foldl (cellStep F B cell fw row) mem') := by
  intro turns
  induction turns with
  | zero => exact fun _ ↦ h
  | succ turns ih =>
      intro hle
      simp only [List.range_succ, List.foldl_append, List.foldl_cons, List.foldl_nil]
      exact (ih (by omega)).step F B cell fw hle

/-- The turns go through all rows. -/
theorem exists_turnRow {r : ℕ} (hr : r < row) : ∃ i, i < row ∧ turnRow fw row i = r := by
  cases fw with
  | true => exact ⟨r, hr, rfl⟩
  | false =>
      refine ⟨row - 1 - r, by omega, ?_⟩
      change row - 1 - (row - 1 - r) = r
      omega

/-- **A cell gives the same rows, whatever its memory was used for.** -/
theorem cellMat_same {mem mem' : CellMemory R} {matIn matIn' : ZMatNeon R}
    (h : mem.Kept cell.numUnits out) (h' : mem'.Kept cell.numUnits out)
    (hin : SameRows row n matIn matIn') :
    (cellMat F B cell fw mem matIn).Kept cell.numUnits out ∧
      (cellMat F B cell fw mem matIn).out.row = row ∧
      ∀ r c, r < row → (cellMat F B cell fw mem matIn).out.data r c =
        (cellMat F B cell fw mem' matIn').out.data r c := by
  have hstart := turned_starting B cell fw (h.configMem row) (h'.configMem row) hin
  have hend := hstart.run F B cell fw row (Nat.le_refl row)
  unfold cellMat
  rw [hin.left.row_eq, hin.right.row_eq]
  refine ⟨hend.kept, hend.out_row, fun r c hr ↦ ?_⟩
  obtain ⟨i, hi, rfl⟩ := exists_turnRow fw hr
  exact hend.out_eq i c hi

end Rounded

end Vsys.Dnn
