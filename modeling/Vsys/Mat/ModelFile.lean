import Mathlib.Data.List.FinRange
import Mathlib.Data.Fin.Tuple.Basic
import Vsys.Vt.PhoTableFile

/-!
# Model files

A model file holds basic values, tokens, vectors, matrices and symmetric matrices one behind the
other, either in the binary format of Kaldi or raw.  A basic value stands behind a byte for its
size, which the writer makes negative for an unsigned type; a token is ended by a blank; of a
symmetric matrix only the rows up to the diagonal are written.

What is read back are the objects of the memory, byte by byte.  `modelFile_roundTrip_iff` says for
which sequences of values the file that is written is the file that is read.
-/

namespace Vsys.Mat.ModelFile

open Vsys.Io
open Vsys.Vt (byteOf charOf nul isspace writeToken readToken getChar readChar tokenLoop
  readChar_reads readToken_reads takeWhile_ne_nul)

/-- `ZOutputType` and `ZInputType`, less the text format, which nothing writes. -/
inductive Format
  | kaldi
  | raw
  deriving DecidableEq

/-! ## Basic types -/

/-- The integers of C. -/
inductive IntWidth
  | char
  | short
  | int
  | long

/-- The types of basic values. -/
inductive BasicType
  | bool
  | unsigned (width : IntWidth)
  | signed (width : IntWidth)
  | float
  | double

/-- `sizeof`. -/
def IntWidth.sizeof : IntWidth → ℕ
  | char => 1
  | short => 2
  | int => 4
  | long => 8

namespace BasicType

/-- `sizeof(T)`. -/
def sizeof : BasicType → ℕ
  | bool => 1
  | unsigned width => width.sizeof
  | signed width => width.sizeof
  | float => 4
  | double => 8

/-- `std::numeric_limits<T>::is_signed`. -/
def isSigned : BasicType → Bool
  | bool => false
  | unsigned _ => false
  | signed _ => true
  | float => true
  | double => true

/-- The objects of the type. -/
abbrev Object (T : BasicType) : Type := BitVec (8 * T.sizeof)

end BasicType

/-- An object of `n` bytes in the file. -/
def objectBytes {n : ℕ} (t : BitVec (8 * n)) : List UInt8 := leBytes n t.toNat

/-- The object of `n` bytes that stands in the file. -/
def objectOf (n : ℕ) (bytes : List UInt8) : BitVec (8 * n) := BitVec.ofNat _ (natOf bytes)

/-- `len_c` in `WriteBasicType`. -/
def lenC (T : BasicType) : UInt8 := UInt8.ofInt ((if T.isSigned then 1 else -1) * T.sizeof)

/-- `len_c_expected` in `ReadBasicType`. -/
def lenCExpected (T : BasicType) : UInt8 := UInt8.ofNat T.sizeof

/-- `WriteBasicType`. -/
def writeBasicType (T : BasicType) (t : T.Object) : List UInt8 := [lenC T] ++ objectBytes t

/-- `ReadBasicType` into `t`; another size in front of it fails an assertion. -/
def readBasicType (T : BasicType) (t : T.Object) : Reader UInt8 T.Object := do
  let len_c_in ← getChar
  if len_c_in = lenCExpected T then objectOf T.sizeof <$> fread (objectBytes t) else failure

/-- `ExpectToken`: what stands in front of a NUL is compared without regard to case. -/
def expectToken (pExpectToken : List Char) : Reader UInt8 Unit := do
  let token ← readToken
  if (token.takeWhile fun c ↦ decide (c ≠ nul)).map Char.toLower =
      pExpectToken.map Char.toLower then
    pure ()
  else failure

/-- `WriteBasicType` of an `int`. -/
def writeInt (size : ℕ) : List UInt8 := writeBasicType (.signed .int) (BitVec.ofNat _ size)

/-- `ReadBasicType` of an `int` that is 0, and the assertion that it is `size`. -/
def expectInt (size : ℕ) : Reader UInt8 Unit := do
  let ss ← readBasicType (.signed .int) 0
  if ss.toInt = size then pure () else failure

/-! ## Arrays and rows -/

/-- A `float`. -/
abbrev Cell : Type := BitVec (8 * 4)

/-- `WriteArray` of the first `num` entries. -/
def writeArray {n : ℕ} (t : Fin n → Cell) (num : ℕ) : List UInt8 :=
  ((List.ofFn t).take num).flatMap objectBytes

/-- `ReadArray` of the first `num` entries. -/
def readArray {n : ℕ} (t : Fin n → Cell) (num : ℕ) : Reader UInt8 (Fin n → Cell) :=
  (fun cells j ↦ cells.getD j (t j)) <$> Io.readArray 4 (objectOf 4) (writeArray t num)

/-- The loop of the rows when they are written. -/
def writeRows {row : ℕ} (write : Fin row → List UInt8) : List UInt8 := (List.ofFn write).flatten

/-- The loop of the rows when they are read. -/
def readRows {α : Type} : {row : ℕ} → (Fin row → Reader UInt8 α) → Reader UInt8 (Fin row → α)
  | 0, _ => pure Fin.elim0
  | _ + 1, read => do
      let first ← read 0
      Fin.cons first <$> readRows fun i ↦ read i.succ

/-- `data[j][i] = data[i][j]`. -/
def mirrorCell {n : ℕ} (data : Fin n → Fin n → Cell) (i j : Fin n) : Fin n → Fin n → Cell :=
  Function.update data j (Function.update (data j) i (data i j))

/-- The loops behind the reading of `ReadSy`: row after row, the cells left of the diagonal. -/
def mirror {n : ℕ} (data : Fin n → Fin n → Cell) : Fin n → Fin n → Cell :=
  (List.finRange n).foldl
    (fun data i ↦ ((List.finRange n).filter (· < i)).foldl (fun data j ↦ mirrorCell data i j) data)
    data

/-! ## Vectors and matrices -/

/-- `ZVec::Write`. -/
def writeVec {size : ℕ} (data : Fin size → Cell) : List UInt8 :=
  writeToken "FV".toList ++ writeInt size ++ writeArray data size

/-- `ZVec::Read`. -/
def readVec (format : Format) {size : ℕ} (data : Fin size → Cell) :
    Reader UInt8 (Fin size → Cell) :=
  match format with
  | .kaldi => do
      expectToken "FV".toList
      expectInt size
      readArray data size
  | .raw => readArray data size

/-- `ZMat::Write`. -/
def writeMat (format : Format) {row col : ℕ} (data : Fin row → Fin col → Cell) : List UInt8 :=
  match format with
  | .kaldi =>
      writeToken "FM".toList ++ writeInt row ++ writeInt col ++
        writeRows fun i ↦ writeArray (data i) col
  | .raw => writeRows fun i ↦ writeArray (data i) col

/-- `ZMat::Read`. -/
def readMat (format : Format) {row col : ℕ} (data : Fin row → Fin col → Cell) :
    Reader UInt8 (Fin row → Fin col → Cell) :=
  match format with
  | .kaldi => do
      expectToken "FM".toList
      expectInt row
      expectInt col
      readRows fun i ↦ readArray (data i) col
  | .raw => readRows fun i ↦ readArray (data i) col

/-- `ZMat::Write_Sy`. -/
def writeSy {row : ℕ} (data : Fin row → Fin row → Cell) : List UInt8 :=
  writeToken "FP".toList ++ writeInt row ++ writeRows fun i ↦ writeArray (data i) (i + 1)

/-- `ZMat::Read_Sy`, which asserts the format of Kaldi. -/
def readSy (format : Format) {row : ℕ} (data : Fin row → Fin row → Cell) :
    Reader UInt8 (Fin row → Fin row → Cell) :=
  match format with
  | .kaldi => do
      expectToken "FP".toList
      expectInt row
      mirror <$> readRows fun i ↦ readArray (data i) (i + 1)
  | .raw => failure

/-! ## Files -/

/-- What an item of a file is. -/
inductive Shape
  | basic (T : BasicType)
  | token
  | vec (size : ℕ)
  | mat (row col : ℕ)
  | sy (row : ℕ)

namespace Shape

/-- The values of the shape. -/
def Value : Shape → Type
  | basic T => T.Object
  | token => List Char
  | vec size => Fin size → Cell
  | mat row col => Fin row → Fin col → Cell
  | sy row => Fin row → Fin row → Cell

/-- The writing operation. -/
def write (format : Format) : (shape : Shape) → shape.Value → List UInt8
  | basic T, t => writeBasicType T t
  | token, pToken => writeToken pToken
  | vec _, data => writeVec data
  | mat _ _, data => writeMat format data
  | sy _, data => writeSy data

/-- The reading operation into an object. -/
def read (format : Format) : (shape : Shape) → shape.Value → Reader UInt8 shape.Value
  | basic T, t => readBasicType T t
  | token, _ => readToken
  | vec _, data => readVec format data
  | mat _ _, data => readMat format data
  | sy _, data => readSy format data

/-- What may be written: sizes are an `int`, tokens are strings of C without whitespace, and
`Write_Sy` is for symmetric matrices and asserts the format of Kaldi. -/
def Writable (format : Format) : (shape : Shape) → shape.Value → Prop
  | basic _, _ => True
  | token, (pToken : List Char) => ∀ c ∈ pToken, c.toNat < 256 ∧ c ≠ nul ∧ ¬ isspace c
  | vec size, _ => size < 2 ^ 31
  | mat row col, _ => row < 2 ^ 31 ∧ col < 2 ^ 31
  | sy row, data => row < 2 ^ 31 ∧ format = .kaldi ∧ ∀ i j, data i j = data j i

/-- What the reader of the format takes as it is written. -/
def Kept (format : Format) : (shape : Shape) → shape.Value → Prop
  | basic T, _ => T.isSigned = true
  | token, (pToken : List Char) => pToken.length ≤ 100
  | vec _, _ => format = .kaldi
  | mat _ _, _ => True
  | sy _, _ => True

end Shape

/-- A value that is written to a file or read from it. -/
structure Item where
  shape : Shape
  value : shape.Value

/-- A value for a file, and the object that it is read into when the file is read back. -/
structure Entry (format : Format) where
  shape : Shape
  value : shape.Value
  object : shape.Value
  writable : shape.Writable format value

/-- The value of an entry. -/
def Entry.item {format : Format} (entry : Entry format) : Item := ⟨entry.shape, entry.value⟩

/-- The bytes that a file of the format begins with. -/
def header : Format → List UInt8
  | .kaldi => [0, byteOf 'B']
  | .raw => []

/-- The file of a `ZFileOutput`. -/
def writeFile (format : Format) (items : List Item) : List UInt8 :=
  header format ++ items.flatMap fun item ↦ item.shape.write format item.value

/-- The assertions of `ZFileInput`. -/
def readHeader : Format → Reader UInt8 Unit
  | .kaldi => do
      let first ← getChar
      let second ← getChar
      if first = 0 ∧ second = byteOf 'B' then pure () else failure
  | .raw => pure ()

/-- The reading operations for the entries, one after the other. -/
def readItems (format : Format) : List (Entry format) → Reader UInt8 (List Item)
  | [] => pure []
  | entry :: entries => do
      let value ← entry.shape.read format entry.object
      (⟨entry.shape, value⟩ :: ·) <$> readItems format entries

/-- The whole file is read, with the matching operations in the same order. -/
def readFile (format : Format) (entries : List (Entry format)) : Reader UInt8 (List Item) := do
  readHeader format
  readItems format entries

/-- Every item is read with the value that has been written, and nothing is left of the file. -/
def RoundTrip {format : Format} (entries : List (Entry format)) : Prop :=
  (readFile format entries).run (writeFile format (entries.map Entry.item)) =
    some (entries.map Entry.item, [])

/-! ## Basic values -/

theorem objectBytes_length {n : ℕ} (t : BitVec (8 * n)) : (objectBytes t).length = n :=
  leBytes_length n _

theorem objectOf_objectBytes {n : ℕ} (t : BitVec (8 * n)) : objectOf n (objectBytes t) = t := by
  have hrange : t.toNat < 256 ^ n := by
    calc
      t.toNat < 2 ^ (8 * n) := t.isLt
      _ = (2 ^ 8) ^ n := pow_mul 2 8 n
  rw [objectOf, objectBytes, natOf_leBytes hrange, BitVec.ofNat_toNat, BitVec.setWidth_eq]

theorem fread_object {n : ℕ} (t old : BitVec (8 * n)) :
    Reads (objectOf n <$> fread (objectBytes old)) (objectBytes t) t := by
  have hlength : (objectBytes t).length = (objectBytes old).length := by
    rw [objectBytes_length, objectBytes_length]
  have hread := (fread_reads hlength).map (objectOf n)
  rwa [objectOf_objectBytes] at hread

theorem lenC_eq_iff (T : BasicType) : lenC T = lenCExpected T ↔ T.isSigned = true := by
  cases T with
  | bool => decide
  | unsigned width => cases width <;> decide
  | signed width => cases width <;> decide
  | float => decide
  | double => decide

/-- A value of a signed type is read back. -/
theorem readBasicType_reads {T : BasicType} (hT : T.isSigned = true) (t old : T.Object) :
    Reads (readBasicType T old) (writeBasicType T t) t := by
  apply (readChar_reads 0 (lenC T)).bind
  rw [if_pos ((lenC_eq_iff T).mpr hT)]
  exact fread_object t old

/-- The assertion fails for a value of an unsigned type, whatever it is. -/
theorem readBasicType_fails {T : BasicType} (hT : ¬ T.isSigned = true) (t old : T.Object)
    (rest : List UInt8) : (readBasicType T old).run (writeBasicType T t ++ rest) = none := by
  rw [writeBasicType, List.append_assoc, readBasicType, getChar,
    (readChar_reads 0 (lenC T)).run_bind, if_neg (mt (lenC_eq_iff T).mp hT)]
  rfl

theorem expectInt_reads {size : ℕ} (hsize : size < 2 ^ 31) :
    Reads (expectInt size) (writeInt size) () := by
  have hread := readBasicType_reads (T := .signed .int) rfl (BitVec.ofNat _ size) 0
  have hint : (BitVec.ofNat 32 size).toInt = size := by
    rw [BitVec.toInt_ofNat']
    apply Int.bmod_eq_of_le_mul_two <;> omega
  have hcheck : Reads (if (BitVec.ofNat 32 size).toInt = size then pure () else failure :
      Reader UInt8 Unit) [] () := by
    rw [if_pos hint]
    exact Reads.pure ()
  rw [← List.append_nil (writeInt size)]
  exact hread.bind hcheck

/-- The token that is expected, in front of each kind of object. -/
theorem expectToken_reads {pToken : List Char} (hchars : ∀ c ∈ pToken, c.toNat < 256)
    (hblank : ' ' ∉ pToken) (hnul : nul ∉ pToken) (hlength : pToken.length ≤ 100) :
    Reads (expectToken pToken) (writeToken pToken) () := by
  rw [← List.append_nil (writeToken pToken)]
  apply (readToken_reads hchars hblank hnul hlength).bind
  rw [takeWhile_ne_nul hnul, if_pos rfl]
  exact Reads.pure ()

/-! ## Arrays and loops -/

/-- The entries behind the first `num` stay as they were. -/
theorem readArray_reads {n : ℕ} (num : ℕ) (t old : Fin n → Cell) :
    Reads (readArray old num) (writeArray t num) (fun j : Fin n ↦ if (j : ℕ) < num then t j else old j) := by
  have hlength : ∀ s : Fin n → Cell, ((List.ofFn s).take num).length = min num n := by
    intro s
    rw [List.length_take, List.length_ofFn]
  have harray : (writeArray old num).length = ((List.ofFn t).take num).length * 4 := by
    rw [writeArray, length_flatMap_const objectBytes_length, hlength, hlength]
  have hread := (Io.readArray_reads (Nat.succ_pos 3) objectBytes_length harray fun a _ ↦
    objectOf_objectBytes a).map fun cells (j : Fin n) ↦ cells.getD j (old j)
  have hcells : (fun j : Fin n ↦ ((List.ofFn t).take num).getD j (old j)) =
      fun j : Fin n ↦ if (j : ℕ) < num then t j else old j := by
    funext j
    by_cases hj : (j : ℕ) < num
    · rw [if_pos hj, List.getD_eq_getElem _ _ (by rw [hlength]; omega), List.getElem_take,
        List.getElem_ofFn]
    · rw [if_neg hj, List.getD_eq_default _ _ (by rw [hlength]; omega)]
  rwa [hcells] at hread

/-- A whole array. -/
theorem readArray_whole {n : ℕ} (t old : Fin n → Cell) :
    Reads (readArray old n) (writeArray t n) t := by
  have hread := readArray_reads n t old
  have hall : (fun j : Fin n ↦ if (j : ℕ) < n then t j else old j) = t := by
    funext j
    exact if_pos j.isLt
  rwa [hall] at hread

theorem readRows_reads {α : Type} {row : ℕ} {read : Fin row → Reader UInt8 α}
    {write : Fin row → List UInt8} {a : Fin row → α} (h : ∀ i, Reads (read i) (write i) (a i)) :
    Reads (readRows read) (writeRows write) a := by
  induction row with
  | zero =>
      have hnone : a = Fin.elim0 := funext fun i ↦ i.elim0
      rw [hnone]
      exact Reads.pure _
  | succ row ih =>
      have hlater := (ih fun i ↦ h i.succ).map (Fin.cons (a 0) : _ → Fin (row + 1) → α)
      have hrows : writeRows write = write 0 ++ writeRows fun i ↦ write i.succ := by
        rw [writeRows, List.ofFn_succ, List.flatten_cons]
        rfl
      have hall : (Fin.cons (a 0) fun i ↦ a i.succ : Fin (row + 1) → α) = a :=
        Fin.cons_self_tail a
      rw [hall] at hlater
      rw [hrows]
      exact (h 0).bind hlater

/-! ## Symmetric matrices -/

section Mirror

variable {n : ℕ}

theorem mirrorCell_apply (data : Fin n → Fin n → Cell) (i j a b : Fin n) :
    mirrorCell data i j a b = if a = j ∧ b = i then data i j else data a b := by
  by_cases ha : a = j
  · subst ha
    by_cases hb : b = i
    · subst hb
      rw [mirrorCell, Function.update_self, Function.update_self, if_pos ⟨rfl, rfl⟩]
    · rw [mirrorCell, Function.update_self, Function.update_of_ne hb, if_neg fun h ↦ hb h.2]
  · rw [mirrorCell, Function.update_of_ne ha, if_neg fun h ↦ ha h.1]

/-- One row: its cells left of the diagonal are not written, and each goes to one place. -/
theorem mirrorRow_apply {i : Fin n} (l : List (Fin n)) (hl : ∀ j ∈ l, j < i)
    (data : Fin n → Fin n → Cell) (a b : Fin n) :
    l.foldl (fun data j ↦ mirrorCell data i j) data a b =
      if a ∈ l ∧ b = i then data i a else data a b := by
  induction l generalizing data with
  | nil => rw [List.foldl_nil, if_neg fun h ↦ absurd h.1 List.not_mem_nil]
  | cons j l ih =>
      rw [List.forall_mem_cons] at hl
      have hdiagonal : ∀ c, mirrorCell data i j i c = data i c := by
        intro c
        rw [mirrorCell_apply, if_neg fun h ↦ absurd h.1 hl.1.ne']
      rw [List.foldl_cons, ih hl.2, hdiagonal, mirrorCell_apply]
      simp only [List.mem_cons]
      by_cases hb : b = i
      · subst hb
        by_cases ha : a ∈ l
        · rw [if_pos ⟨ha, rfl⟩, if_pos ⟨.inr ha, rfl⟩]
        · rw [if_neg fun h ↦ ha h.1]
          by_cases haj : a = j
          · subst haj
            rw [if_pos ⟨rfl, rfl⟩, if_pos ⟨.inl rfl, rfl⟩]
          · rw [if_neg fun h ↦ haj h.1, if_neg fun h ↦ h.1.elim haj ha]
      · rw [if_neg fun h ↦ hb h.2, if_neg fun h ↦ hb h.2, if_neg fun h ↦ hb h.2]

/-- The loops of the rows in a list: the cells right of the diagonal in its columns are filled. -/
theorem mirrorRows_apply (l : List (Fin n)) (data : Fin n → Fin n → Cell) (a b : Fin n) :
    l.foldl (fun data i ↦
        ((List.finRange n).filter (· < i)).foldl (fun data j ↦ mirrorCell data i j) data) data a b =
      if b ∈ l ∧ a < b then data b a else data a b := by
  induction l generalizing data with
  | nil => rw [List.foldl_nil, if_neg fun h ↦ absurd h.1 List.not_mem_nil]
  | cons i l ih =>
      have hrow : ∀ a b : Fin n,
          ((List.finRange n).filter (· < i)).foldl (fun data j ↦ mirrorCell data i j) data a b =
            if a < i ∧ b = i then data i a else data a b := by
        intro a b
        rw [mirrorRow_apply _ fun j hj ↦ of_decide_eq_true (List.mem_filter.mp hj).2]
        simp only [List.mem_filter, List.mem_finRange, true_and, decide_eq_true_eq]
      rw [List.foldl_cons, ih, hrow, hrow]
      simp only [List.mem_cons]
      by_cases hab : a < b
      · have hbelow : ¬ (b < i ∧ a = i) := fun h ↦ lt_asymm h.1 (h.2 ▸ hab)
        rw [if_neg hbelow]
        by_cases hb : b = i
        · subst hb
          have hhere : a < b ∧ b = b := ⟨hab, rfl⟩
          rw [if_pos hhere, ite_self, if_pos ⟨.inl rfl, hab⟩]
        · simp only [hb, false_or, and_false, if_false]
      · have hright : ¬ (a < i ∧ b = i) := fun h ↦ hab (h.2 ▸ h.1)
        rw [if_neg hright, if_neg fun h ↦ hab h.2, if_neg fun h ↦ hab h.2]

theorem mirror_apply (data : Fin n → Fin n → Cell) (a b : Fin n) :
    mirror data a b = if a < b then data b a else data a b := by
  rw [mirror, mirrorRows_apply]
  simp only [List.mem_finRange, true_and]

/-- The rows up to the diagonal are enough for a symmetric matrix. -/
theorem mirror_of_symmetric {data : Fin n → Fin n → Cell} (hdata : ∀ i j, data i j = data j i)
    (old : Fin n → Fin n → Cell) :
    mirror (fun i j ↦ if (j : ℕ) < i + 1 then data i j else old i j) = data := by
  funext a b
  rw [mirror_apply]
  by_cases hab : a < b
  · rw [if_pos hab, if_pos (Nat.lt_succ_of_lt hab), hdata]
  · rw [if_neg hab, if_pos (Nat.lt_succ_of_le (not_lt.mp hab))]

end Mirror

/-! ## Items -/

theorem readVec_reads {size : ℕ} (hsize : size < 2 ^ 31) (data old : Fin size → Cell) :
    Reads (readVec .kaldi old) (writeVec data) data := by
  rw [writeVec, List.append_assoc]
  apply (expectToken_reads (by simp) (by decide) (by decide) (by decide)).bind
  apply (expectInt_reads hsize).bind
  exact readArray_whole data old

theorem readMat_reads (format : Format) {row col : ℕ} (hrow : row < 2 ^ 31) (hcol : col < 2 ^ 31)
    (data old : Fin row → Fin col → Cell) :
    Reads (readMat format old) (writeMat format data) data := by
  have hrows := readRows_reads fun i ↦ readArray_whole (data i) (old i)
  cases format with
  | raw => exact hrows
  | kaldi =>
      rw [writeMat, List.append_assoc, List.append_assoc]
      apply (expectToken_reads (by simp) (by decide) (by decide) (by decide)).bind
      apply (expectInt_reads hrow).bind
      apply (expectInt_reads hcol).bind
      exact hrows

theorem readSy_reads {row : ℕ} (hrow : row < 2 ^ 31) {data : Fin row → Fin row → Cell}
    (hdata : ∀ i j, data i j = data j i) (old : Fin row → Fin row → Cell) :
    Reads (readSy .kaldi old) (writeSy data) data := by
  have hrows := (readRows_reads fun i : Fin row ↦
    readArray_reads (i + 1) (data i) (old i)).map mirror
  rw [mirror_of_symmetric hdata] at hrows
  rw [writeSy, List.append_assoc]
  apply (expectToken_reads (by simp) (by decide) (by decide) (by decide)).bind
  apply (expectInt_reads hrow).bind
  exact hrows

theorem token_reads {pToken : List Char} (hchars : ∀ c ∈ pToken, c.toNat < 256 ∧ c ≠ nul ∧ ¬ isspace c)
    (hlength : pToken.length ≤ 100) : Reads readToken (writeToken pToken) pToken := by
  have hblank : ' ' ∉ pToken := fun hmem ↦ (hchars ' ' hmem).2.2 (.inl rfl)
  have hnul : nul ∉ pToken := fun hmem ↦ (hchars nul hmem).2.1 rfl
  exact readToken_reads (fun c hc ↦ (hchars c hc).1) hblank hnul hlength

/-- What the reader takes as it is written comes back, whatever stands behind it. -/
theorem Entry.reads {format : Format} (entry : Entry format)
    (hkept : entry.shape.Kept format entry.value) :
    Reads (entry.shape.read format entry.object) (entry.shape.write format entry.value)
      entry.value := by
  obtain ⟨shape, value, object, hwritable⟩ := entry
  cases shape with
  | basic T => exact readBasicType_reads hkept value object
  | token => exact token_reads hwritable hkept
  | vec size =>
      obtain rfl : format = .kaldi := hkept
      exact readVec_reads hwritable value object
  | mat row col => exact readMat_reads format hwritable.1 hwritable.2 value object
  | sy row =>
      obtain ⟨hrow, rfl, hdata⟩ := hwritable
      exact readSy_reads hrow hdata object

/-! ## What is lost -/

theorem tokenLoop_length (room : ℕ) (c : UInt8) {stream rest name : List UInt8}
    (h : (tokenLoop room c).run stream = some (name, rest)) : name.length ≤ room := by
  induction room generalizing c stream rest name with
  | zero =>
      obtain ⟨rfl, -⟩ := Prod.mk.inj (Option.some.inj h)
      exact Nat.zero_le 0
  | succ room ih =>
      rw [tokenLoop] at h
      split at h
      case isTrue =>
          obtain ⟨rfl, -⟩ := Prod.mk.inj (Option.some.inj h)
          exact Nat.zero_le _
      case isFalse =>
          rw [StateT.run_map, StateT.run_bind] at h
          obtain ⟨⟨later, left⟩, hread, hmade⟩ := Option.map_eq_some_iff.mp h
          obtain ⟨⟨next, after⟩, -, hloop⟩ := Option.bind_eq_some_iff.mp hread
          obtain ⟨rfl, -⟩ := Prod.mk.inj hmade
          exact Nat.succ_le_succ (ih next hloop)

/-- No token that is read has more than 100 characters. -/
theorem readToken_length {stream rest : List UInt8} {token : List Char}
    (h : readToken.run stream = some (token, rest)) : token.length ≤ 100 := by
  rw [readToken, StateT.run_map, StateT.run_bind] at h
  obtain ⟨⟨name, left⟩, hread, hmade⟩ := Option.map_eq_some_iff.mp h
  obtain ⟨⟨c, after⟩, -, hloop⟩ := Option.bind_eq_some_iff.mp hread
  obtain ⟨rfl, -⟩ := Prod.mk.inj hmade
  rw [List.length_map]
  exact tokenLoop_length 100 c hloop

theorem readChar_takesAtMost (c : UInt8) : TakesAtMost (readChar c) fun _ ↦ 1 :=
  TakesAtMost.map (fread_takesAtMost [c])

theorem tokenLoop_takesAtMost (room : ℕ) (c : UInt8) :
    TakesAtMost (tokenLoop room c) List.length := by
  induction room generalizing c with
  | zero => exact TakesAtMost.pure [] _
  | succ room ih =>
      rw [tokenLoop]
      split
      case isTrue => exact TakesAtMost.pure [] _
      case isFalse =>
          have hlater := (readChar_takesAtMost c).bind fun next ↦ ih next
          exact TakesAtMost.map (hlater.mono fun name ↦ (Nat.add_comm 1 name.length).le)

theorem readRows_takesAtMost {α : Type} {row n : ℕ} {read : Fin row → Reader UInt8 α}
    (h : ∀ i, TakesAtMost (read i) fun _ ↦ n) : TakesAtMost (readRows read) fun _ ↦ row * n := by
  induction row with
  | zero => exact TakesAtMost.pure _ _
  | succ row ih =>
      have hlater : ∀ first : α, TakesAtMost
          ((Fin.cons first : _ → Fin (row + 1) → α) <$> readRows fun i ↦ read i.succ)
          fun _ ↦ row * n := fun _ ↦ TakesAtMost.map (ih fun i ↦ h i.succ)
      exact ((h 0).bind hlater).mono fun _ ↦ by rw [Nat.succ_mul, Nat.add_comm]

theorem writeArray_length {n : ℕ} (t : Fin n → Cell) : (writeArray t n).length = n * 4 := by
  rw [writeArray, length_flatMap_const objectBytes_length, List.length_take, List.length_ofFn,
    Nat.min_self]

theorem readArray_takesAtMost {n : ℕ} (t : Fin n → Cell) :
    TakesAtMost (readArray t n) fun _ ↦ n * 4 := by
  have hbuffer := fread_takesAtMost (writeArray t n)
  rw [writeArray_length] at hbuffer
  exact TakesAtMost.map (TakesAtMost.map hbuffer)

/-- How much a raw file has to lose for an item. -/
def rawSize : (shape : Shape) → shape.Value → ℕ
  | .basic T, _ => 1 + T.sizeof
  | .token, (pToken : List Char) => 1 + pToken.length
  | .vec size, _ => size * 4
  | .mat row col, _ => row * (col * 4)
  | .sy _, _ => 0

theorem read_takesAtMost (shape : Shape) (object : shape.Value) :
    TakesAtMost (shape.read .raw object) (rawSize shape) := by
  cases shape with
  | basic T =>
      have hbuffer : TakesAtMost (fread (objectBytes (n := T.sizeof) object)) fun _ ↦ T.sizeof :=
        (fread_takesAtMost _).mono fun _ ↦ (objectBytes_length (n := T.sizeof) object).le
      apply (readChar_takesAtMost 0).bind
      intro len_c_in
      split_ifs
      · exact TakesAtMost.map hbuffer
      · exact TakesAtMost.failure _
  | token =>
      have hloop := (readChar_takesAtMost 0).bind fun c ↦ tokenLoop_takesAtMost 100 c
      exact TakesAtMost.map (hloop.mono fun name ↦ by rw [rawSize, List.length_map])
  | vec size => exact readArray_takesAtMost object
  | mat row col => exact readRows_takesAtMost fun i ↦ readArray_takesAtMost (object i)
  | sy row => exact TakesAtMost.failure _

theorem writeToken_length {pToken : List Char}
    (hchars : ∀ c ∈ pToken, c.toNat < 256 ∧ c ≠ nul ∧ ¬ isspace c) :
    (writeToken pToken).length = 1 + pToken.length := by
  have hnul : nul ∉ pToken := fun hmem ↦ (hchars nul hmem).2.1 rfl
  rw [writeToken, takeWhile_ne_nul hnul, List.length_append, List.length_map, Nat.add_comm]
  rfl

theorem writeRows_length {row n : ℕ} {write : Fin row → List UInt8}
    (h : ∀ i, (write i).length = n) : (writeRows write).length = row * n := by
  have hlengths : (List.ofFn write).map List.length = List.replicate row n := by
    apply List.eq_replicate_iff.mpr
    constructor
    · rw [List.length_map, List.length_ofFn]
    · intro m hm
      obtain ⟨l, hl, rfl⟩ := List.mem_map.mp hm
      obtain ⟨i, rfl⟩ := List.mem_ofFn.mp hl
      exact h i
  rw [writeRows, List.length_flatten, hlengths, List.sum_replicate_nat]

/-- What is left of an item of a raw file: the token and the size in front of a vector. -/
def unread : Shape → ℕ
  | .vec _ => 8
  | _ => 0

theorem writeBasicType_length (T : BasicType) (t : T.Object) :
    (writeBasicType T t).length = 1 + T.sizeof := by
  rw [writeBasicType, List.length_append, objectBytes_length]
  rfl

theorem write_length (entry : Entry .raw) :
    (entry.shape.write .raw entry.value).length =
      rawSize entry.shape entry.value + unread entry.shape := by
  obtain ⟨shape, value, object, hwritable⟩ := entry
  cases shape with
  | basic T => exact writeBasicType_length T value
  | token => exact writeToken_length hwritable
  | vec size =>
      have hdata := writeArray_length value
      change (writeToken "FV".toList ++ writeInt size ++ writeArray value size).length = size * 4 + 8
      rw [List.length_append, hdata, Nat.add_comm]
      rfl
  | mat row col => exact writeRows_length fun i ↦ writeArray_length (value i)
  | sy row => exact absurd hwritable.2.1 (by decide)

/-- How much a raw file has to lose for its items. -/
def itemsSize (items : List Item) : ℕ := (items.map fun item ↦ rawSize item.shape item.value).sum

theorem itemsSize_cons (item : Item) (items : List Item) :
    itemsSize (item :: items) = rawSize item.shape item.value + itemsSize items := rfl

theorem readItems_takesAtMost (entries : List (Entry .raw)) :
    TakesAtMost (readItems .raw entries) itemsSize := by
  induction entries with
  | nil => exact TakesAtMost.pure [] itemsSize
  | cons entry entries ih =>
      intro stream rest items h
      rw [readItems, StateT.run_bind] at h
      obtain ⟨⟨value, left⟩, hvalue, hlater⟩ := Option.bind_eq_some_iff.mp h
      rw [StateT.run_map] at hlater
      obtain ⟨⟨later, last⟩, hread, hmade⟩ := Option.map_eq_some_iff.mp hlater
      obtain ⟨rfl, rfl⟩ := Prod.mk.inj hmade
      have hone := read_takesAtMost entry.shape entry.object stream left value hvalue
      have hothers := ih left last later hread
      rw [itemsSize_cons]
      dsimp only
      omega

theorem writeFile_length (entries : List (Entry .raw)) :
    (writeFile .raw (entries.map Entry.item)).length =
      itemsSize (entries.map Entry.item) + (entries.map fun entry ↦ unread entry.shape).sum := by
  induction entries with
  | nil => rfl
  | cons entry entries ih =>
      have hone : (entry.item.shape.write .raw entry.item.value).length =
          rawSize entry.item.shape entry.item.value + unread entry.shape := write_length entry
      have hfile : writeFile .raw (entry.item :: entries.map Entry.item) =
          entry.item.shape.write .raw entry.item.value ++
            writeFile .raw (entries.map Entry.item) := rfl
      rw [List.map_cons, List.map_cons, hfile, List.length_append, ih, hone, itemsSize_cons,
        List.sum_cons]
      omega

/-- A raw file with a vector is not read to its end. -/
theorem unread_eq_zero {entries : List (Entry .raw)} (h : RoundTrip entries) :
    ∀ entry ∈ entries, unread entry.shape = 0 := by
  have htaken : (writeFile .raw (entries.map Entry.item)).length ≤
      itemsSize (entries.map Entry.item) := readItems_takesAtMost entries _ [] _ h
  have hsum : (entries.map fun entry ↦ unread entry.shape).sum = 0 := by
    rw [writeFile_length] at htaken
    omega
  intro entry hentry
  exact List.sum_eq_zero_iff_forall_eq_nat.mp hsum _ (List.mem_map_of_mem hentry)

/-! ## The file -/

theorem readHeader_reads (format : Format) : Reads (readHeader format) (header format) () := by
  cases format with
  | raw => exact Reads.pure ()
  | kaldi =>
      have hsecond : Reads (getChar >>= fun second ↦
          (if (0 : UInt8) = 0 ∧ second = byteOf 'B' then pure () else failure : Reader UInt8 Unit))
          ([byteOf 'B'] ++ []) () := (readChar_reads 0 (byteOf 'B')).bind (Reads.pure ())
      exact (readChar_reads 0 0).bind hsecond

theorem readItems_reads {format : Format} {entries : List (Entry format)}
    (h : ∀ entry ∈ entries, entry.shape.Kept format entry.value) :
    Reads (readItems format entries)
      ((entries.map Entry.item).flatMap fun item ↦ item.shape.write format item.value)
      (entries.map Entry.item) := by
  induction entries with
  | nil => exact Reads.pure []
  | cons entry entries ih =>
      rw [List.forall_mem_cons] at h
      exact (entry.reads h.1).bind ((ih h.2).map (entry.item :: ·))

/-- What has been read with the value that has been written is kept, whatever stands behind it: a
vector in a raw file apart, which `unread_eq_zero` is about. -/
theorem Entry.kept_of_read {format : Format} (entry : Entry format)
    (hvec : ∀ size, entry.shape = .vec size → format = .kaldi) {rest left : List UInt8}
    (h : (entry.shape.read format entry.object).run (entry.shape.write format entry.value ++ rest) =
      some (entry.value, left)) : entry.shape.Kept format entry.value := by
  obtain ⟨shape, value, object, hwritable⟩ := entry
  cases shape with
  | basic T =>
      by_contra hT
      exact Option.some_ne_none _ (h.symm.trans (readBasicType_fails hT value object rest))
  | token => exact readToken_length h
  | vec size => exact hvec size rfl
  | mat row col => exact trivial
  | sy row => exact trivial

theorem kept_of_readItems {format : Format} {entries : List (Entry format)}
    (hvec : ∀ entry ∈ entries, ∀ size, entry.shape = .vec size → format = .kaldi)
    (h : (readItems format entries).run
        ((entries.map Entry.item).flatMap fun item ↦ item.shape.write format item.value) =
      some (entries.map Entry.item, [])) :
    ∀ entry ∈ entries, entry.shape.Kept format entry.value := by
  induction entries with
  | nil => exact fun _ hentry ↦ absurd hentry List.not_mem_nil
  | cons entry entries ih =>
      rw [List.forall_mem_cons] at hvec ⊢
      rw [List.map_cons, List.flatMap_cons, readItems, StateT.run_bind] at h
      obtain ⟨⟨value, left⟩, hvalue, hlater⟩ := Option.bind_eq_some_iff.mp h
      rw [StateT.run_map] at hlater
      obtain ⟨⟨later, last⟩, hread, hmade⟩ := Option.map_eq_some_iff.mp hlater
      obtain ⟨hitems, rfl⟩ := Prod.mk.inj hmade
      obtain ⟨hitem, rfl⟩ := List.cons.inj hitems
      obtain rfl : value = entry.value := eq_of_heq (Item.mk.inj hitem).2
      have hkept := entry.kept_of_read hvec.1 hvalue
      have hleft : left = (entries.map Entry.item).flatMap fun item ↦
          item.shape.write format item.value := by
        have hexact := entry.reads hkept ((entries.map Entry.item).flatMap fun item ↦
          item.shape.write format item.value)
        exact congrArg Prod.snd (Option.some.inj (hvalue.symm.trans hexact))
      subst hleft
      exact ⟨hkept, ih hvec.2 hread⟩

theorem RoundTrip.readItems {format : Format} {entries : List (Entry format)}
    (h : RoundTrip entries) : (readItems format entries).run
        ((entries.map Entry.item).flatMap fun item ↦ item.shape.write format item.value) =
      some (entries.map Entry.item, []) :=
  ((readHeader_reads format).run_bind (fun _ ↦ ModelFile.readItems format entries) _).symm.trans h

/-- **Model files.** The values of a file are read back to its end if and only if no basic value is of
an unsigned type, no vector is in a raw file and no token has more than 100 characters. -/
theorem modelFile_roundTrip_iff {format : Format} (entries : List (Entry format)) :
    RoundTrip entries ↔ ∀ entry ∈ entries, entry.shape.Kept format entry.value := by
  constructor
  · intro h
    refine kept_of_readItems ?_ h.readItems
    intro entry hentry size hsize
    cases format with
    | kaldi => rfl
    | raw =>
        have hzero := unread_eq_zero h entry hentry
        rw [hsize] at hzero
        exact absurd hzero (Nat.succ_ne_zero 7)
  · intro h
    exact ((readHeader_reads format).bind (readItems_reads h)).whole

/-- A flag. -/
def boolEntry : Entry .kaldi := ⟨.basic .bool, (1 : BitVec 8), (0 : BitVec 8), trivial⟩

/-- A vector without entries. -/
def emptyVec : Entry .raw := ⟨.vec 0, Fin.elim0, Fin.elim0, Nat.two_pow_pos 31⟩

/-- A flag in a file of the format of Kaldi fails an assertion, and behind a vector a raw file is
not at its end. -/
theorem not_roundTrip :
    ¬ (∀ entries : List (Entry .kaldi), RoundTrip entries) ∧
      ¬ (∀ entries : List (Entry .raw), RoundTrip entries) := by
  constructor
  · intro h
    have hkept := kept_of_readItems (fun _ _ _ _ ↦ rfl) (h [boolEntry]).readItems
    exact absurd (hkept boolEntry List.mem_cons_self) Bool.false_ne_true
  · intro h
    exact absurd (unread_eq_zero (h [emptyVec]) emptyVec List.mem_cons_self) (by decide)

end Vsys.Mat.ModelFile
