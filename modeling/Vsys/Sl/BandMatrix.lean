import Mathlib.Algebra.BigOperators.Field
import Vsys.Num.Elimination
import Vsys.Stream.Sweep

/-!
# Band matrices

The class `band_matrix` of `sl/spline.cpp` keeps the diagonals of a matrix, decomposes it in place
after dividing every row by its diagonal entry, and solves systems by two substitutions.  `toMatrix`
is the matrix it stands for: on it, the loops over the band do what `Vsys.Num.Elimination` does to
whole rows, because the entries outside of the band are zeros.

The arithmetic is that of a field; the assertions that the program divides by no zero are
hypotheses where they are needed.
-/

namespace Vsys.Sl

open Vsys.Num Vsys.Stream Finset

/-- `band_matrix`: diagonal `d` above or below is row `d` of `upper` or `lower`, with its entries at
the rows of the matrix.  `lower 0` is `saved_diag`. -/
structure BandMatrix (K : Type*) where
  dim : ℕ
  numUpper : ℕ
  numLower : ℕ
  upper : ℕ → ℕ → K
  lower : ℕ → ℕ → K

namespace BandMatrix

section Storage

variable {K : Type*}

/-- `operator ()` for reading. -/
def get (m : BandMatrix K) (i j : ℕ) : K := if i ≤ j then m.upper (j - i) i else m.lower (i - j) i

/-- A diagonal with one entry set. -/
def setDiagonal (rows : ℕ → ℕ → K) (d i : ℕ) (value : K) : ℕ → ℕ → K :=
  Function.update rows d (Function.update (rows d) i value)

/-- `operator ()` for writing. -/
def set (m : BandMatrix K) (i j : ℕ) (value : K) : BandMatrix K :=
  if i ≤ j then { m with upper := setDiagonal m.upper (j - i) i value }
  else { m with lower := setDiagonal m.lower (i - j) i value }

/-- `saved_diag`. -/
def savedDiag (m : BandMatrix K) (i : ℕ) : K := m.lower 0 i

def setSavedDiag (m : BandMatrix K) (i : ℕ) (value : K) : BandMatrix K :=
  { m with lower := setDiagonal m.lower 0 i value }

/-- The sizes stay. -/
structure SameShape (m m' : BandMatrix K) : Prop where
  dim : m'.dim = m.dim
  numUpper : m'.numUpper = m.numUpper
  numLower : m'.numLower = m.numLower

theorem SameShape.refl (m : BandMatrix K) : SameShape m m := ⟨rfl, rfl, rfl⟩

theorem SameShape.trans {m m' m'' : BandMatrix K} (h : SameShape m m') (h' : SameShape m' m'') :
    SameShape m m'' :=
  ⟨h'.dim.trans h.dim, h'.numUpper.trans h.numUpper, h'.numLower.trans h.numLower⟩

theorem SameShape.foldl {step : BandMatrix K → ℕ → BandMatrix K}
    (hstep : ∀ m i, SameShape m (step m i)) (is : List ℕ) (m : BandMatrix K) :
    SameShape m (is.foldl step m) := by
  induction is generalizing m with
  | nil => exact .refl m
  | cons i is ih => exact (hstep m i).trans (ih (step m i))

theorem setDiagonal_apply (rows : ℕ → ℕ → K) (d i : ℕ) (value : K) (d' r : ℕ) :
    setDiagonal rows d i value d' r = if d' = d ∧ r = i then value else rows d' r := by
  rw [setDiagonal]
  by_cases hd : d' = d
  · rw [hd, Function.update_self]
    simp only [Function.update_apply, true_and]
  · rw [Function.update_of_ne hd, if_neg fun h ↦ hd h.1]

variable (m : BandMatrix K) (i j : ℕ) (value : K)

theorem sameShape_set : SameShape m (m.set i j value) := by
  rw [set]
  split <;> exact ⟨rfl, rfl, rfl⟩

/-- No two entries share a place. -/
theorem get_set (r c : ℕ) :
    (m.set i j value).get r c = if r = i ∧ c = j then value else m.get r c := by
  rw [set, get, get]
  by_cases hij : i ≤ j <;> by_cases hrc : r ≤ c
  · have hplace : c - r = j - i ∧ r = i ↔ r = i ∧ c = j := by omega
    simp only [if_pos hij, if_pos hrc, setDiagonal_apply, hplace]
  · have hne : ¬ (r = i ∧ c = j) := by omega
    simp only [if_pos hij, if_neg hrc, if_neg hne]
  · have hne : ¬ (r = i ∧ c = j) := by omega
    simp only [if_neg hij, if_pos hrc, if_neg hne]
  · have hplace : r - c = i - j ∧ r = i ↔ r = i ∧ c = j := by omega
    simp only [if_neg hij, if_neg hrc, setDiagonal_apply, hplace]

theorem savedDiag_set (r : ℕ) : (m.set i j value).savedDiag r = m.savedDiag r := by
  rw [set]
  split_ifs with h
  · rfl
  · have hne : ¬ (0 = i - j ∧ r = i) := by omega
    simp only [savedDiag, setDiagonal_apply, if_neg hne]

theorem get_setSavedDiag (r c : ℕ) : (m.setSavedDiag i value).get r c = m.get r c := by
  rw [get, get]
  split_ifs with h
  · rfl
  · have hne : ¬ (r - c = 0 ∧ r = i) := by omega
    simp only [setSavedDiag, setDiagonal_apply, if_neg hne]

theorem savedDiag_setSavedDiag (r : ℕ) :
    (m.setSavedDiag i value).savedDiag r = if r = i then value else m.savedDiag r := by
  simp only [savedDiag, setSavedDiag, setDiagonal_apply, true_and]

theorem sameShape_setSavedDiag : SameShape m (m.setSavedDiag i value) := ⟨rfl, rfl, rfl⟩

variable {m i j value} {k : ℕ}

/-! ## Rows -/

theorem savedDiag_foldl_set (f : BandMatrix K → ℕ → K) (js : List ℕ) (m : BandMatrix K) (i r : ℕ) :
    (js.foldl (fun m j ↦ m.set i j (f m j)) m).savedDiag r = m.savedDiag r := by
  induction js generalizing m with
  | nil => rfl
  | cons j js ih => exact (ih _).trans (savedDiag_set m i j _ r)

/-- A loop over the columns of row `i`, in which every entry is set from what it was and from the
other rows. -/
theorem get_foldl_set (m : BandMatrix K) (i : ℕ) (f : BandMatrix K → ℕ → K) {js : List ℕ}
    (hjs : js.Nodup)
    (hf : ∀ m' j, (∀ r c, r ≠ i → m'.get r c = m.get r c) → m'.savedDiag i = m.savedDiag i →
      m'.get i j = m.get i j → f m' j = f m j) (r c : ℕ) :
    (js.foldl (fun m j ↦ m.set i j (f m j)) m).get r c =
      if r = i ∧ c ∈ js then f m c else m.get r c := by
  induction js using List.reverseRecOn generalizing r c with
  | nil => simp
  | append_singleton js j ih =>
      obtain ⟨hjs', -, hdisjoint⟩ := List.nodup_append.mp hjs
      have hj : j ∉ js := fun h ↦ hdisjoint j h j (List.mem_singleton_self j) rfl
      rw [List.foldl_append, List.foldl_cons, List.foldl_nil, get_set]
      have hvalue : f (js.foldl (fun m j ↦ m.set i j (f m j)) m) j = f m j := by
        apply hf
        · intro r c hr
          rw [ih hjs', if_neg fun h ↦ hr h.1]
        · exact savedDiag_foldl_set f js m i i
        · rw [ih hjs', if_neg fun h ↦ hj h.2]
      rw [hvalue, ih hjs']
      by_cases hr : r = i
      · by_cases hc : c = j
        · simp [hr, hc]
        · simp [hr, hc]
      · simp [hr]

theorem sameShape_foldl_set (f : BandMatrix K → ℕ → K) (js : List ℕ) (m : BandMatrix K) (i : ℕ) :
    SameShape m (js.foldl (fun m j ↦ m.set i j (f m j)) m) :=
  SameShape.foldl (fun m j ↦ sameShape_set m i j (f m j)) js m

/-- A loop over the rows, in which every row is made from what it was and from rows that the loop
does not come to. -/
theorem get_foldl_rows (m : BandMatrix K) (step : BandMatrix K → ℕ → BandMatrix K)
    (value : ℕ → ℕ → K) {is : List ℕ} (hshape : ∀ m i, SameShape m (step m i))
    (hstep : ∀ m' i, i ∈ is → SameShape m m' → (∀ r c, r = i ∨ r ∉ is → m'.get r c = m.get r c) →
      ∀ r c, (step m' i).get r c = if r = i then value i c else m'.get r c)
    {done : List ℕ} (hdone : done.Nodup) (hsub : done ⊆ is) (r c : ℕ) :
    (done.foldl step m).get r c = if r ∈ done then value r c else m.get r c := by
  induction done using List.reverseRecOn generalizing r c with
  | nil => rfl
  | append_singleton done i ih =>
      obtain ⟨hnodup, -, hdisjoint⟩ := List.nodup_append.mp hdone
      have hi : i ∉ done := fun h ↦ hdisjoint i h i (List.mem_singleton_self i) rfl
      have hdone' : done ⊆ is := fun j hj ↦ hsub (List.mem_append_left _ hj)
      have hiIn : i ∈ is := hsub (List.mem_append_right _ (List.mem_singleton_self i))
      rw [List.foldl_append, List.foldl_cons, List.foldl_nil, hstep _ i hiIn
        (SameShape.foldl hshape done m)]
      · rw [ih hnodup hdone']
        by_cases hr : r = i
        · simp [hr]
        · simp [hr]
      · intro r c hr
        rw [ih hnodup hdone', if_neg]
        rcases hr with rfl | hr
        · exact hi
        · exact fun h ↦ hr (hdone' h)

/-- The columns of row `i`, from `j_min` to `j_max`. -/
def columns (m : BandMatrix K) (i : ℕ) : List ℕ :=
  List.range' (i - m.numLower) (min (m.dim - 1) (i + m.numUpper) + 1 - (i - m.numLower))

theorem mem_columns (hi : i < m.dim) :
    j ∈ m.columns i ↔ (i ≤ j + m.numLower ∧ j ≤ i + m.numUpper) ∧ j < m.dim := by
  rw [columns, List.mem_range'_1]
  omega

theorem SameShape.columns {m' : BandMatrix K} (h : SameShape m m') (i : ℕ) :
    m'.columns i = m.columns i := by
  rw [BandMatrix.columns, BandMatrix.columns, h.dim, h.numLower, h.numUpper]

/-- The columns behind column `k`, up to `j_max`. -/
def rightOf (m : BandMatrix K) (k : ℕ) : List ℕ :=
  List.range' (k + 1) (min (m.dim - 1) (k + m.numUpper) - k)

/-- The rows below row `k`, up to `i_max`. -/
def below (m : BandMatrix K) (k : ℕ) : List ℕ :=
  List.range' (k + 1) (min (m.dim - 1) (k + m.numLower) - k)

theorem mem_rightOf (hj : j < m.dim) : j ∈ m.rightOf k ↔ k < j ∧ j ≤ k + m.numUpper := by
  rw [rightOf, List.mem_range'_1]
  omega

theorem mem_below (hi : i < m.dim) : i ∈ m.below k ↔ k < i ∧ i ≤ k + m.numLower := by
  rw [below, List.mem_range'_1]
  omega

theorem notMem_rightOf : k ∉ m.rightOf k := by simp [rightOf]

theorem notMem_below : k ∉ m.below k := by simp [below]

theorem lt_of_mem_below (h : i ∈ m.below k) : k < i := (List.mem_range'_1.mp h).1

theorem SameShape.rightOf {m' : BandMatrix K} (h : SameShape m m') (k : ℕ) :
    m'.rightOf k = m.rightOf k := by
  rw [BandMatrix.rightOf, BandMatrix.rightOf, h.dim, h.numUpper]

theorem nodup_rightOf (m : BandMatrix K) (k : ℕ) : (m.rightOf k).Nodup := List.nodup_range'

theorem nodup_below (m : BandMatrix K) (k : ℕ) : (m.below k).Nodup := List.nodup_range'

theorem nodup_columns (m : BandMatrix K) (i : ℕ) : (m.columns i).Nodup := List.nodup_range'

end Storage

/-! ## The decomposition -/

variable {K : Type*} [Field K]

/-- `band_matrix(dim, n_u, n_l)`. -/
def create (dim nu nl : ℕ) : BandMatrix K where
  dim := dim
  numUpper := nu
  numLower := nl
  upper _ _ := 0
  lower _ _ := 0

/-- The first loop of `lu_decompose`: a round. -/
def normalizeRow (m : BandMatrix K) (i : ℕ) : BandMatrix K :=
  let m := m.setSavedDiag i (1 / m.get i i)
  let m := (m.columns i).foldl (fun m j ↦ m.set i j (m.get i j * m.savedDiag i)) m
  m.set i i 1

/-- The loop over `j` in the second loop of `lu_decompose`. -/
def subtractRow (m : BandMatrix K) (k i : ℕ) (x : K) : BandMatrix K :=
  (m.rightOf k).foldl (fun m j ↦ m.set i j (m.get i j + x * m.get k j)) m

/-- The second loop of `lu_decompose`: a round for row `i`. -/
def eliminateRow (k : ℕ) (m : BandMatrix K) (i : ℕ) : BandMatrix K :=
  let x := -m.get i k / m.get k k
  (m.set i k (-x)).subtractRow k i x

/-- The second loop of `lu_decompose`: a round for column `k`. -/
def eliminateColumn (m : BandMatrix K) (k : ℕ) : BandMatrix K :=
  (m.below k).foldl (eliminateRow k) m

def normalize (m : BandMatrix K) : BandMatrix K := (List.range m.dim).foldl normalizeRow m

/-- `lu_decompose`. -/
def luDecompose (m : BandMatrix K) : BandMatrix K :=
  (List.range m.dim).foldl eliminateColumn m.normalize

/-- `l_solve`. -/
def lSolve (m : BandMatrix K) (b : ℕ → K) : ℕ → K :=
  sweep (fun x i ↦ b i * m.savedDiag i - ∑ j ∈ Ico (i - m.numLower) i, m.get i j * x j)
    (fun _ ↦ 0) (List.range m.dim)

/-- `r_solve`. -/
def rSolve (m : BandMatrix K) (b : ℕ → K) : ℕ → K :=
  sweep (fun x i ↦ (b i - ∑ j ∈ Ico (i + 1) (min (m.dim - 1) (i + m.numUpper) + 1),
      m.get i j * x j) / m.get i i)
    (fun _ ↦ 0) (List.range m.dim).reverse

/-- `lu_solve`. -/
def luSolve (m : BandMatrix K) (b : ℕ → K) : ℕ → K :=
  let m := m.luDecompose
  m.rSolve (m.lSolve b)

/-- The matrix that the band stands for. -/
def toMatrix (m : BandMatrix K) (i j : ℕ) : K :=
  if i ≤ j + m.numLower ∧ j ≤ i + m.numUpper then m.get i j else 0

variable {m : BandMatrix K} {i j k : ℕ}

theorem toMatrix_self (m : BandMatrix K) (i : ℕ) : m.toMatrix i i = m.get i i :=
  if_pos ⟨Nat.le_add_right _ _, Nat.le_add_right _ _⟩

theorem SameShape.toMatrix {m' : BandMatrix K} (h : SameShape m m') (i j : ℕ) :
    m'.toMatrix i j = if i ≤ j + m.numLower ∧ j ≤ i + m.numUpper then m'.get i j else 0 := by
  rw [BandMatrix.toMatrix, h.numLower, h.numUpper]

/-! ### Rows with ones on the diagonal -/

theorem sameShape_normalizeRow (m : BandMatrix K) (i : ℕ) : SameShape m (m.normalizeRow i) :=
  ((sameShape_setSavedDiag m i _).trans (sameShape_foldl_set _ _ _ i)).trans (sameShape_set _ i i 1)

theorem savedDiag_normalizeRow (m : BandMatrix K) (i r : ℕ) :
    (m.normalizeRow i).savedDiag r = if r = i then 1 / m.get i i else m.savedDiag r := by
  rw [normalizeRow, savedDiag_set, savedDiag_foldl_set, savedDiag_setSavedDiag]

/-- A row after the first loop. -/
def normalized (m : BandMatrix K) (i c : ℕ) : K :=
  if c = i then 1 else if c ∈ m.columns i then m.get i c * (1 / m.get i i) else m.get i c

theorem get_normalizeRow (m : BandMatrix K) (i r c : ℕ) :
    (m.normalizeRow i).get r c = if r = i then m.normalized i c else m.get r c := by
  set m' := m.setSavedDiag i (1 / m.get i i) with hm'
  have hget : ∀ r c, m'.get r c = m.get r c := get_setSavedDiag m i _
  have hsaved : m'.savedDiag i = 1 / m.get i i := by
    rw [hm', savedDiag_setSavedDiag, if_pos rfl]
  have hcolumns : m'.columns i = m.columns i := (sameShape_setSavedDiag m i _).columns i
  have hfold := get_foldl_set m' i (fun m j ↦ m.get i j * m.savedDiag i) (m'.nodup_columns i)
    (fun m'' j _ hsaved hget ↦ by rw [hget, hsaved]) r c
  rw [normalizeRow, get_set, hfold, hcolumns, hsaved, hget, hget, normalized]
  by_cases hr : r = i
  · by_cases hc : c = i
    · simp [hr, hc]
    · simp [hr, hc]
  · simp [hr]

theorem normalized_congr {m' : BandMatrix K} (h : SameShape m m')
    (hrow : ∀ c, m'.get i c = m.get i c) (c : ℕ) : m'.normalized i c = m.normalized i c := by
  rw [normalized, normalized, h.columns, hrow, hrow]

theorem get_foldl_normalizeRow (m : BandMatrix K) {done : List ℕ} (hdone : done.Nodup) (r c : ℕ) :
    (done.foldl normalizeRow m).get r c = if r ∈ done then m.normalized r c else m.get r c := by
  refine get_foldl_rows m normalizeRow m.normalized sameShape_normalizeRow ?_ hdone
    (List.Subset.refl done) r c
  intro m' i _ hshape hrow r c
  rw [get_normalizeRow, normalized_congr hshape fun c ↦ hrow i c (.inl rfl)]

theorem get_normalize (m : BandMatrix K) (hi : i < m.dim) (c : ℕ) :
    m.normalize.get i c = m.normalized i c := by
  rw [normalize, get_foldl_normalizeRow m List.nodup_range, if_pos (List.mem_range.mpr hi)]

theorem sameShape_normalize (m : BandMatrix K) : SameShape m m.normalize :=
  SameShape.foldl sameShape_normalizeRow _ m

theorem savedDiag_foldl_normalizeRow (m : BandMatrix K) {done : List ℕ} (hdone : done.Nodup)
    (r : ℕ) : (done.foldl normalizeRow m).savedDiag r =
      if r ∈ done then 1 / m.get r r else m.savedDiag r := by
  induction done using List.reverseRecOn generalizing r with
  | nil => rfl
  | append_singleton done i ih =>
      obtain ⟨hnodup, -, hdisjoint⟩ := List.nodup_append.mp hdone
      have hi : i ∉ done := fun h ↦ hdisjoint i h i (List.mem_singleton_self i) rfl
      rw [List.foldl_append, List.foldl_cons, List.foldl_nil, savedDiag_normalizeRow,
        get_foldl_normalizeRow m hnodup, if_neg hi, ih hnodup]
      by_cases hr : r = i
      · simp [hr]
      · simp [hr]

theorem savedDiag_normalize (m : BandMatrix K) (hi : i < m.dim) :
    m.normalize.savedDiag i = 1 / m.get i i := by
  rw [normalize, savedDiag_foldl_normalizeRow m List.nodup_range, if_pos (List.mem_range.mpr hi)]

/-- **The first loop** divides every row by its diagonal entry. -/
theorem toMatrix_normalize (hdiag : m.get i i ≠ 0) (hi : i < m.dim) (hj : j < m.dim) :
    m.normalize.toMatrix i j = m.toMatrix i j / m.toMatrix i i := by
  have hcolumn := mem_columns (m := m) (j := j) hi
  rw [(sameShape_normalize m).toMatrix, get_normalize m hi, toMatrix_self, toMatrix, normalized]
  by_cases hband : i ≤ j + m.numLower ∧ j ≤ i + m.numUpper
  · rw [if_pos hband, if_pos hband, if_pos (hcolumn.mpr ⟨hband, hj⟩)]
    split_ifs with hself
    · rw [hself, div_self hdiag]
    · exact mul_one_div _ _
  · rw [if_neg hband, if_neg hband, zero_div]

/-! ### Columns cleared below the diagonal -/

theorem sameShape_eliminateRow (k : ℕ) (m : BandMatrix K) (i : ℕ) :
    SameShape m (eliminateRow k m i) :=
  (sameShape_set m i k _).trans (sameShape_foldl_set _ _ _ i)

theorem sameShape_eliminateColumn (m : BandMatrix K) (k : ℕ) : SameShape m (m.eliminateColumn k) :=
  SameShape.foldl (sameShape_eliminateRow k) _ m

theorem savedDiag_eliminateRow (k : ℕ) (m : BandMatrix K) (i r : ℕ) :
    (eliminateRow k m i).savedDiag r = m.savedDiag r := by
  rw [eliminateRow, subtractRow, savedDiag_foldl_set, savedDiag_set]

/-- A row after a round of the second loop. -/
def cleared (m : BandMatrix K) (k i c : ℕ) : K :=
  if c = k then m.get i k / m.get k k
  else if c ∈ m.rightOf k then m.get i c - m.get i k / m.get k k * m.get k c else m.get i c

theorem get_eliminateRow (m : BandMatrix K) {k i : ℕ} (hki : k < i) (r c : ℕ) :
    (eliminateRow k m i).get r c = if r = i then m.cleared k i c else m.get r c := by
  set x := -m.get i k / m.get k k with hx
  set m' := m.set i k (-x) with hm'
  have hneg : -x = m.get i k / m.get k k := by rw [hx, neg_div, neg_neg]
  have hpivotRow : ∀ c, m'.get k c = m.get k c := by
    intro c
    rw [hm', get_set, if_neg fun h ↦ hki.ne h.1]
  have hshape : SameShape m m' := sameShape_set m i k _
  have hfold := get_foldl_set m' i (fun m j ↦ m.get i j + x * m.get k j)
    (m'.nodup_rightOf k) (fun m'' j hrows _ hget ↦ by rw [hget, hrows k j hki.ne]) r c
  rw [eliminateRow, subtractRow, hfold, hpivotRow, hshape.rightOf, hm', get_set, get_set, cleared,
    hneg]
  by_cases hr : r = i
  · subst hr
    by_cases hc : c = k
    · subst hc
      simp [notMem_rightOf]
    · have hsub : m.get r c + x * m.get k c = m.get r c - m.get r k / m.get k k * m.get k c := by
        rw [← hneg]
        ring
      simp [hc, hsub]
  · simp [hr]

theorem cleared_congr {m' : BandMatrix K} (h : SameShape m m')
    (hrow : ∀ c, m'.get i c = m.get i c) (hpivot : ∀ c, m'.get k c = m.get k c) (c : ℕ) :
    m'.cleared k i c = m.cleared k i c := by
  rw [cleared, cleared, h.rightOf, hrow, hrow, hpivot, hpivot]

theorem get_eliminateColumn (m : BandMatrix K) (k r c : ℕ) :
    (m.eliminateColumn k).get r c = if r ∈ m.below k then m.cleared k r c else m.get r c := by
  refine get_foldl_rows m (eliminateRow k) (m.cleared k) (sameShape_eliminateRow k) ?_
    (m.nodup_below k) (List.Subset.refl _) r c
  intro m' i hi hshape hrow r c
  have hki : k < i := lt_of_mem_below hi
  rw [get_eliminateRow m' hki, cleared_congr hshape (fun c ↦ hrow i c (.inl rfl)) fun c ↦
    hrow k c (.inr notMem_below)]

theorem toMatrix_of_band (h : i ≤ j + m.numLower ∧ j ≤ i + m.numUpper) :
    m.toMatrix i j = m.get i j := if_pos h

theorem toMatrix_of_below (h : j + m.numLower < i) : m.toMatrix i j = 0 :=
  if_neg fun hband ↦ absurd hband.1 (not_le.mpr h)

theorem toMatrix_of_above (h : i + m.numUpper < j) : m.toMatrix i j = 0 :=
  if_neg fun hband ↦ absurd hband.2 (not_le.mpr h)

/-- A row that the round comes to. -/
theorem cleared_eq_pivotStep (hj : j < m.dim) (hki : k < i) (hik : i ≤ k + m.numLower)
    (hband : i ≤ j + m.numLower ∧ j ≤ i + m.numUpper) :
    m.cleared k i j = pivotStep k m.toMatrix i j := by
  have hleft : m.toMatrix i k = m.get i k := toMatrix_of_band ⟨hik, by omega⟩
  rw [cleared, pivotStep, if_pos hki, toMatrix_of_band hband, hleft, toMatrix_self]
  by_cases hjk : j = k
  · rw [if_pos hjk, if_pos hjk]
  · rw [if_neg hjk, if_neg hjk]
    by_cases hin : k < j ∧ j ≤ k + m.numUpper
    · rw [if_pos ((mem_rightOf hj).mpr hin), if_pos hin.1, toMatrix_of_band ⟨by omega, hin.2⟩]
    · rw [if_neg fun h ↦ hin ((mem_rightOf hj).mp h)]
      split_ifs with hright
      · rw [toMatrix_of_above (i := k) (by omega), mul_zero, sub_zero]
      · rfl

/-- A row that the round does not come to has nothing in the column. -/
theorem pivotStep_eq_toMatrix (h : ¬ (k < i ∧ i ≤ k + m.numLower)) :
    pivotStep k m.toMatrix i j = m.toMatrix i j := by
  rw [pivotStep]
  split_ifs with hki hjk hright
  · rw [hjk, toMatrix_of_below (by omega), zero_div]
  · rw [toMatrix_of_below (i := i) (j := k) (by omega), zero_div, zero_mul, sub_zero]
  · rfl
  · rfl

theorem pivotStep_of_outside (h : ¬ (i ≤ j + m.numLower ∧ j ≤ i + m.numUpper)) :
    pivotStep k m.toMatrix i j = 0 := by
  have hzero : m.toMatrix i j = 0 := if_neg h
  rw [pivotStep]
  split_ifs with hki hjk hright
  · rw [← hjk, hzero, zero_div]
  · have hright' : k + m.numUpper < j ∨ k + m.numLower < i := by omega
    rcases hright' with habove | hbelow
    · rw [hzero, toMatrix_of_above habove, mul_zero, sub_zero]
    · rw [hzero, toMatrix_of_below hbelow, zero_div, zero_mul, sub_zero]
  · exact hzero
  · exact hzero

/-- **The second loop** clears a column: outside of the band there is nothing to do. -/
theorem toMatrix_eliminateColumn (hi : i < m.dim) (hj : j < m.dim) :
    (m.eliminateColumn k).toMatrix i j = pivotStep k m.toMatrix i j := by
  rw [(sameShape_eliminateColumn m k).toMatrix, get_eliminateColumn]
  split_ifs with hband hrow
  · obtain ⟨hki, hik⟩ := (mem_below hi).mp hrow
    exact cleared_eq_pivotStep hj hki hik hband
  · rw [pivotStep_eq_toMatrix fun h ↦ hrow ((mem_below hi).mpr h), toMatrix_of_band hband]
  · exact (pivotStep_of_outside hband).symm

theorem sameShape_luDecompose (m : BandMatrix K) : SameShape m m.luDecompose :=
  (sameShape_normalize m).trans (SameShape.foldl sameShape_eliminateColumn _ _)

theorem savedDiag_luDecompose (m : BandMatrix K) (hi : i < m.dim) :
    m.luDecompose.savedDiag i = 1 / m.get i i := by
  have hcolumn : ∀ (m : BandMatrix K) (k : ℕ),
      (m.eliminateColumn k).savedDiag i = m.savedDiag i := by
    intro m k
    rw [eliminateColumn]
    induction m.below k generalizing m with
    | nil => rfl
    | cons r rows ih => exact (ih _).trans (savedDiag_eliminateRow k m r i)
  have hfold : ∀ (ks : List ℕ) (m : BandMatrix K),
      (ks.foldl eliminateColumn m).savedDiag i = m.savedDiag i := by
    intro ks
    induction ks with
    | nil => exact fun m ↦ rfl
    | cons k ks ih => exact fun m ↦ (ih _).trans (hcolumn m k)
  rw [luDecompose, hfold, savedDiag_normalize m hi]

/-- **`lu_decompose`** is elimination in place of the matrix with ones on its diagonal. -/
theorem toMatrix_luDecompose (m : BandMatrix K) (hi : i < m.dim) (hj : j < m.dim) :
    m.luDecompose.toMatrix i j = eliminated m.normalize.toMatrix m.dim i j := by
  have hfold : ∀ k i j, i < m.dim → j < m.dim →
      ((List.range k).foldl eliminateColumn m.normalize).toMatrix i j =
        eliminated m.normalize.toMatrix k i j := by
    intro k
    induction k with
    | zero => exact fun i j _ _ ↦ rfl
    | succ k ih =>
        intro i j hi hj
        have hshape : SameShape m ((List.range k).foldl eliminateColumn m.normalize) :=
          (sameShape_normalize m).trans (SameShape.foldl sameShape_eliminateColumn _ _)
        rw [List.range_succ, List.foldl_append, List.foldl_cons, List.foldl_nil,
          toMatrix_eliminateColumn (hshape.dim ▸ hi) (hshape.dim ▸ hj), eliminated, pivotStep,
          pivotStep]
        by_cases hki : k < i
        · have hk : k < m.dim := hki.trans hi
          rw [if_pos hki, if_pos hki, ih i j hi hj, ih i k hi hk, ih k k hk hk, ih k j hk hj]
        · rw [if_neg hki, if_neg hki, ih i j hi hj]
  exact hfold m.dim i j hi hj

/-! ### The substitutions -/

theorem sum_band {x : ℕ → K} {s t : Finset ℕ} (hsub : s ⊆ t)
    (hin : ∀ j ∈ s, i ≤ j + m.numLower ∧ j ≤ i + m.numUpper)
    (hout : ∀ j ∈ t, j ∉ s → ¬ (i ≤ j + m.numLower ∧ j ≤ i + m.numUpper)) :
    ∑ j ∈ s, m.get i j * x j = ∑ j ∈ t, m.toMatrix i j * x j := by
  rw [← sum_subset hsub]
  · apply sum_congr rfl
    intro j hj
    rw [toMatrix_of_band (hin j hj)]
  · intro j hj hout'
    rw [toMatrix, if_neg (hout j hj hout'), zero_mul]

theorem forward_lSolve (m : BandMatrix K) (b : ℕ → K) :
    Forward m.toMatrix m.dim (fun i ↦ b i * m.savedDiag i) (m.lSolve b) := by
  intro i hi
  have hsum : ∑ j ∈ Ico (i - m.numLower) i, m.get i j * m.lSolve b j =
      ∑ j ∈ range i, m.toMatrix i j * m.lSolve b j := by
    apply sum_band
    · intro j hj
      exact mem_range.mpr (mem_Ico.mp hj).2
    · intro j hj
      have hin := mem_Ico.mp hj
      omega
    · intro j hj hout hband
      exact hout (mem_Ico.mpr ⟨by omega, mem_range.mp hj⟩)
  rw [← hsum]
  refine sweep_range_eq hi fun x x' h ↦ ?_
  congr 1
  apply sum_congr rfl
  intro j hj
  rw [h j (mem_Ico.mp hj).2]

theorem backward_rSolve (m : BandMatrix K) (y : ℕ → K) :
    Backward m.toMatrix m.dim y (m.rSolve y) := by
  intro i hi
  have hsum : ∑ j ∈ Ico (i + 1) (min (m.dim - 1) (i + m.numUpper) + 1), m.get i j * m.rSolve y j =
      ∑ j ∈ Ico (i + 1) m.dim, m.toMatrix i j * m.rSolve y j := by
    apply sum_band
    · intro j hj
      have hin := mem_Ico.mp hj
      exact mem_Ico.mpr ⟨hin.1, by omega⟩
    · intro j hj
      have hin := mem_Ico.mp hj
      omega
    · intro j hj hout hband
      have hin := mem_Ico.mp hj
      exact hout (mem_Ico.mpr ⟨hin.1, by omega⟩)
  rw [← hsum, toMatrix_self]
  refine sweep_reverse_eq hi fun x x' h ↦ ?_
  congr 2
  apply sum_congr rfl
  intro j hj
  have hin := mem_Ico.mp hj
  rw [h j (by omega) (by omega)]

/-! ### Solving -/

/-- What the assertions of `lu_decompose` say, and that the last pivot can be divided by. -/
structure Solvable (m : BandMatrix K) : Prop where
  diag_ne_zero : ∀ i < m.dim, m.get i i ≠ 0
  pivot_ne_zero : ∀ k < m.dim, eliminated m.normalize.toMatrix k k k ≠ 0

theorem sum_normalize (h : m.Solvable) (x : ℕ → K) (hi : i < m.dim) :
    ∑ j ∈ range m.dim, m.normalize.toMatrix i j * x j =
      (∑ j ∈ range m.dim, m.toMatrix i j * x j) / m.get i i := by
  rw [sum_div]
  apply sum_congr rfl
  intro j hj
  rw [toMatrix_normalize (h.diag_ne_zero i hi) hi (mem_range.mp hj), toMatrix_self,
    div_mul_eq_mul_div]

theorem sum_luSolve (h : m.Solvable) (b : ℕ → K) (hi : i < m.dim) :
    ∑ j ∈ range m.dim, m.toMatrix i j * m.luSolve b j = b i := by
  have hshape := sameShape_luDecompose m
  have hmatrix : ∀ i j, i < m.dim → j < m.dim →
      m.luDecompose.toMatrix i j = eliminated m.normalize.toMatrix m.dim i j :=
    fun i j hi hj ↦ toMatrix_luDecompose m hi hj
  have hforward : Forward (eliminated m.normalize.toMatrix m.dim) m.dim
      (fun i ↦ b i * m.luDecompose.savedDiag i) (m.luDecompose.lSolve b) := by
    have hsolve := forward_lSolve m.luDecompose b
    rw [hshape.dim] at hsolve
    exact hsolve.congr_matrix hmatrix
  have hbackward : Backward (eliminated m.normalize.toMatrix m.dim) m.dim
      (m.luDecompose.lSolve b) (m.luSolve b) := by
    have hsolve := backward_rSolve m.luDecompose (m.luDecompose.lSolve b)
    rw [hshape.dim] at hsolve
    exact hsolve.congr_matrix hmatrix
  have hsolves := solves_of_substitutions h.pivot_ne_zero hforward hbackward hi
  rw [sum_normalize h _ hi, savedDiag_luDecompose m hi, mul_one_div] at hsolves
  exact (div_left_inj' (h.diag_ne_zero i hi)).mp hsolves

/-- **`lu_solve`** solves the system, and there is no other solution. -/
theorem luSolve_iff (h : m.Solvable) (b x : ℕ → K) :
    (∀ i < m.dim, ∑ j ∈ range m.dim, m.toMatrix i j * x j = b i) ↔
      ∀ i < m.dim, x i = m.luSolve b i := by
  constructor
  · intro hx i hi
    refine eq_of_solves h.pivot_ne_zero (fun i hi ↦ ?_) hi
    rw [sum_normalize h x hi, sum_normalize h _ hi, hx i hi, sum_luSolve h b hi]
  · intro hx i hi
    calc
      ∑ j ∈ range m.dim, m.toMatrix i j * x j =
          ∑ j ∈ range m.dim, m.toMatrix i j * m.luSolve b j := by
        apply sum_congr rfl
        intro j hj
        rw [hx j (mem_range.mp hj)]
      _ = b i := sum_luSolve h b hi

end BandMatrix

/-! ### Dominated rows -/

namespace BandMatrix

variable {K : Type*} [Field K] [LinearOrder K] [IsStrictOrderedRing K] {m : BandMatrix K}

/-- **Rows dominated by their diagonal** pass the assertions. -/
theorem solvable_of_dominated (h : ∀ i < m.dim, Dominated m.toMatrix m.dim 0 i) : m.Solvable where
  diag_ne_zero i hi := toMatrix_self m i ▸ (h i hi).ne_zero
  pivot_ne_zero k hk := by
    apply eliminated_ne_zero (n := m.dim) _ hk
    intro i hi
    have hdiag : m.get i i ≠ 0 := toMatrix_self m i ▸ (h i hi).ne_zero
    have hentry : ∀ j ∈ Ico 0 m.dim, |m.normalize.toMatrix i j| =
        |m.toMatrix i j| / |m.toMatrix i i| := by
      intro j hj
      rw [toMatrix_normalize hdiag hi (mem_Ico.mp hj).2, abs_div]
    have hpos : 0 < |m.toMatrix i i| := abs_pos.mpr (h i hi).ne_zero
    rw [Dominated, hentry i (mem_Ico.mpr ⟨Nat.zero_le i, hi⟩),
      sum_congr rfl fun j hj ↦ hentry j (mem_of_mem_erase hj), ← sum_div]
    exact div_lt_div_of_pos_right (h i hi) hpos

end BandMatrix

/-- The equations `3 * x 0 + x 1 = b 0` and `x 0 + 2 * x 1 = b 1`. -/
def smallBand : BandMatrix ℚ :=
  ((((BandMatrix.create 2 1 1).set 0 0 3).set 0 1 1).set 1 0 1).set 1 1 2

theorem solvable_smallBand : smallBand.Solvable := by
  apply BandMatrix.solvable_of_dominated
  have hdominated : ∀ i < 2, Dominated smallBand.toMatrix 2 0 i := by
    unfold Dominated
    decide +kernel
  exact hdominated

theorem luSolve_iff_smallBand :
    (∀ i : ℕ, i < 2 → ∑ j ∈ range 2, smallBand.toMatrix i j * (j : ℚ) = 1 + (i : ℚ)) ↔
      ∀ i : ℕ, i < 2 → (i : ℚ) = smallBand.luSolve (fun i : ℕ ↦ 1 + (i : ℚ)) i :=
  BandMatrix.luSolve_iff solvable_smallBand (fun i : ℕ ↦ 1 + (i : ℚ)) fun i : ℕ ↦ (i : ℚ)

end Vsys.Sl
