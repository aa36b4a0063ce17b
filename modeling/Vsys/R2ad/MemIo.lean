import Mathlib.Data.List.GetD
import Mathlib.Data.List.Nodup
import Mathlib.Data.List.Perm.Basic
import Mathlib.Tactic.Ring
import Vsys.R2ad.Mem1

/-!
# `r2mem_i` and `r2mem_o`

`r2mem_i` takes interleaved samples apart into a row for each microphone, and `r2mem_o` puts rows
together again.  Each goes over a list of microphones; the place in the list is the place in a frame
and the entry is the number of the row.

The rows of `r2mem_i` lie one after the other in one block of memory and have room for a second of
audio, however long the input is; the output of `r2mem_o` grows.  A call is `none` if it divides by
zero, fails an assertion, asks for more memory than an `int` says, or writes outside of its block.

`roundTrip_iff` says when the two undo each other.
-/

namespace Vsys.R2ad

/-- A row for each microphone. -/
abbrev RowsOf (α : Type*) := ℕ → ℕ → α

/-- What is made of the bits of an `int` or a `float`. -/
structure Cells (α : Type*) where
  /-- `/ 4.0f`. -/
  intDiv4 : Word → α
  /-- `/ 1024.0f`. -/
  intDiv1024 : Word → α
  float : Word → α

/-- What the machine does with the bits of an `int` and a `float`. -/
structure Conversions where
  intDiv4 : Word → Word
  intDiv1024 : Word → Word
  toInt : Word → Word
  toShort : Word → Word

/-- The cells of memory with a `float` in them. -/
def Conversions.cells (V : Conversions) : Cells Word := ⟨V.intDiv4, V.intDiv1024, id⟩

/-- Sample number `k` of the input. -/
def InType.cell {α : Type*} (C : Cells α) : InType → (ℕ → UInt8) → ℕ → α
  | int24, p, k => C.intDiv4 (int24At p (3 * k))
  | int32, p, k => C.intDiv1024 (wordAt p (4 * k))
  | int32x10, p, k => C.intDiv4 (wordAt p (4 * k))
  | float32, p, k => C.float (wordAt p (4 * k))

section Loops

variable {α : Type*}

/-- The loop over a list, with the places in it. -/
def forPlaces {β : Type*} (ids : List ℕ) (body : β → ℕ → ℕ → β) (start : β) : β :=
  ids.zipIdx.foldl (fun state mic ↦ body state mic.1 mic.2) start

/-- The last entry comes last. -/
theorem forPlaces_concat {β : Type*} (ids : List ℕ) (last : ℕ) (body : β → ℕ → ℕ → β) (start : β) :
    forPlaces (ids ++ [last]) body start = body (forPlaces ids body start) last ids.length := by
  simp [forPlaces, List.zipIdx_append]

/-- The first `n` entries of a row are written. -/
def setRow (rows : RowsOf α) (mic n : ℕ) (value : ℕ → α) : RowsOf α :=
  Function.update rows mic fun i ↦ if i < n then value i else rows mic i

/-- What a loop writes into a row, if it writes the same for every place of a microphone. -/
theorem forPlaces_setRow (ids : List ℕ) (n : ℕ) (value : ℕ → ℕ → α) (rows : RowsOf α) {k : ℕ}
    (hk : k < n)
    (hsame : ∀ i < ids.length, ∀ j < ids.length, ids.getD i 0 = ids.getD j 0 → value i k = value j k)
    {i : ℕ} (hi : i < ids.length) :
    forPlaces ids (fun rows mic j ↦ setRow rows mic n (value j)) rows (ids.getD i 0) k =
      value i k := by
  -- from the last place to the first: the last write to a row stays
  induction ids using List.reverseRecOn generalizing i with
  | nil => exact absurd hi (Nat.not_lt_zero i)
  | append_singleton ids last ih =>
      have hlast : (ids ++ [last]).getD ids.length 0 = last := by simp
      have hbefore : ∀ j < ids.length, (ids ++ [last]).getD j 0 = ids.getD j 0 := by
        intro j hj
        rw [List.getD_append _ _ _ _ hj]
      rw [forPlaces_concat, setRow]
      rw [List.length_append, List.length_singleton] at hi hsame
      by_cases hrow : (ids ++ [last]).getD i 0 = last
      · rw [hrow, Function.update_self, if_pos hk]
        apply hsame ids.length (by omega) i hi
        rw [hlast, hrow]
      · have hi' : i < ids.length := by
          by_contra hge
          have hi_eq : i = ids.length := by omega
          rw [hi_eq] at hrow
          exact hrow hlast
        rw [Function.update_of_ne hrow, hbefore i hi']
        apply ih _ hi'
        intro a ha b hb hab
        apply hsame a (by omega) b (by omega)
        rw [hbefore a ha, hbefore b hb, hab]

end Loops

/-! ## `r2mem_i` -/

/-- `r2mem_i` with the microphones in some order, after the constructor: the size of the rows is
an `int`. -/
structure MemI (α : Type*) where
  inType : InType
  ids : List ℕ
  perm : ids.Perm (List.range ids.length)
  dataOut : RowsOf α
  alloc : 4 * ids.length * sampleRate < 2 ^ 31

/-- The samples that are written, by their number in the block of all rows. -/
def rowWrites (ids : List ℕ) (len : ℕ) : List ℕ :=
  ids.flatMap fun mic ↦ (List.range len).map fun i ↦ mic * sampleRate + i

namespace MemI

variable {α : Type*} (C : Cells α) (s : MemI α)

/-- The bytes of a frame. -/
def frame : ℕ := s.inType.size * s.ids.length

/-- The rows after the loops. -/
def rows (pData : ℕ → UInt8) (len : ℕ) : RowsOf α :=
  forPlaces s.ids (fun rows mic j ↦
    setRow rows mic len fun i ↦ s.inType.cell C pData (i * s.ids.length + j)) s.dataOut

/-- `process`. -/
def process (pData : ℕ → UInt8) (lenIn : ℕ) : Option (RowsOf α × ℕ) :=
  if 0 < s.frame ∧ lenIn % s.frame = 0 ∧
      ∀ cell ∈ rowWrites s.ids (lenIn / s.frame), cell < s.ids.length * sampleRate then
    some (s.rows C pData (lenIn / s.frame), lenIn / s.frame)
  else none

/-- On the cells of memory this is the `r2mem_i` of `r2mem1`. -/
theorem rows_words {D : Type*} (F : FloatOps D) {V : Conversions} (h4 : V.intDiv4 = F.intDiv4)
    (h1024 : V.intDiv1024 = F.intDiv1024) (s : MemI Word) (pData : ℕ → UInt8) (lenIn : ℕ) :
    (s.rows V.cells pData (lenIn / s.frame), lenIn / s.frame) =
      s.inType.process F s.ids s.dataOut pData lenIn := by
  rw [rows, InType.process, frame, Conversions.cells, h4, h1024]
  cases s.inType <;> rfl

variable {s}

theorem nodup : s.ids.Nodup := s.perm.nodup_iff.mpr List.nodup_range

theorem mem_ids_iff {mic : ℕ} : mic ∈ s.ids ↔ mic < s.ids.length := by
  rw [s.perm.mem_iff, List.mem_range]

/-- All writes are within the rows exactly if there is room for them in each row. -/
theorem rowWrites_lt_iff (hpos : 0 < s.ids.length) {len : ℕ} :
    (∀ cell ∈ rowWrites s.ids len, cell < s.ids.length * sampleRate) ↔ len ≤ sampleRate := by
  simp only [rowWrites, List.forall_mem_flatMap, List.forall_mem_map, List.mem_range, mem_ids_iff]
  constructor
  · intro h
    by_contra hlong
    have hlast := h (s.ids.length - 1) (by omega) sampleRate (by omega)
    rw [← Nat.succ_mul, Nat.succ_eq_add_one, Nat.sub_add_cancel hpos] at hlast
    exact Nat.lt_irrefl _ hlast
  · intro hlen mic hmic i hi
    calc
      mic * sampleRate + i < (mic + 1) * sampleRate := by
        rw [Nat.succ_mul]
        omega
      _ ≤ s.ids.length * sampleRate := Nat.mul_le_mul_right _ hmic

/-- What stands in the row of the microphone at a place. -/
theorem rows_getD (pData : ℕ → UInt8) {len j i : ℕ} (hj : j < s.ids.length) (hi : i < len) :
    s.rows C pData len (s.ids.getD j 0) i = s.inType.cell C pData (i * s.ids.length + j) := by
  rw [rows, forPlaces_setRow s.ids len _ s.dataOut hi _ hj]
  intro a ha b hb hab
  rw [List.getD_eq_getElem _ _ ha, List.getD_eq_getElem _ _ hb] at hab
  have hplace : a = b := (List.Nodup.getElem_inj_iff s.nodup).mp hab
  rw [hplace]

theorem frame_pos (hpos : 0 < s.ids.length) : 0 < s.frame := by
  rw [frame]
  apply Nat.mul_pos _ hpos
  cases s.inType <;> decide

theorem process_eq_some_iff {pData : ℕ → UInt8} {lenIn : ℕ} {result : RowsOf α × ℕ} :
    s.process C pData lenIn = some result ↔
      0 < s.ids.length ∧ s.frame ∣ lenIn ∧ lenIn / s.frame ≤ sampleRate ∧
        result = (s.rows C pData (lenIn / s.frame), lenIn / s.frame) := by
  by_cases hpos : 0 < s.ids.length
  · simp only [process, rowWrites_lt_iff hpos, Nat.dvd_iff_mod_eq_zero]
    have hframe := frame_pos hpos
    constructor
    · intro h
      split_ifs at h with hok
      · exact ⟨hpos, hok.2.1, hok.2.2, (Option.some.inj h).symm⟩
    · rintro ⟨-, hwhole, hlen, rfl⟩
      rw [if_pos ⟨hframe, hwhole, hlen⟩]
  · have hzero : s.frame = 0 := by
      rw [frame, Nat.eq_zero_of_not_pos hpos, Nat.mul_zero]
    rw [process, if_neg (by rw [hzero]; simp)]
    simp [hpos]

end MemI

/-! ## `r2mem_o` -/

/-- `r2_out_type`. -/
inductive OutType
  | int32
  | float32
  | short16
  deriving DecidableEq, Repr

namespace OutType

/-- The bytes of a sample. -/
def size : OutType → ℕ
  | short16 => 2
  | _ => 4

theorem size_pos (outType : OutType) : 0 < outType.size := by
  cases outType <;> decide

/-- Byte `k` of a sample. -/
def cellByte (V : Conversions) : OutType → Word → ℕ → UInt8
  | int32, x, k => byteOf (V.toInt x) k
  | float32, x, k => byteOf x k
  | short16, x, k => byteOf (V.toShort x) k

end OutType

/-- `r2mem_o` after the constructor; the output only grows, and its size is an `int`. -/
structure MemO where
  outType : OutType
  ids : List ℕ
  lenOutTotal : ℕ
  dataOut : ℕ → UInt8
  total_ge : sampleRate * outType.size * ids.length ≤ lenOutTotal
  total_lt : lenOutTotal < 2 ^ 31

/-- The bytes of sample `j` of every frame are written. -/
def setColumn (size n j len : ℕ) (value : ℕ → ℕ → UInt8) (data : ℕ → UInt8) : ℕ → UInt8 := fun p ↦
  if p / size % n = j ∧ p / size / n < len then value (p / size / n) (p % size) else data p

/-- The samples that are written, by their number in the output. -/
def cellWrites (n len : ℕ) : List ℕ :=
  (List.range n).flatMap fun j ↦ (List.range len).map fun i ↦ i * n + j

theorem cellWrites_lt {n len : ℕ} : ∀ cell ∈ cellWrites n len, cell < len * n := by
  simp only [cellWrites, List.forall_mem_flatMap, List.forall_mem_map, List.mem_range]
  intro j hj i hi
  calc
    i * n + j < (i + 1) * n := by
      rw [Nat.succ_mul]
      omega
    _ ≤ len * n := Nat.mul_le_mul_right n hi

/-- What a loop over columns writes. -/
theorem forPlaces_setColumn (ids : List ℕ) (size n len : ℕ) (value : ℕ → ℕ → ℕ → UInt8)
    (data : ℕ → UInt8) (p : ℕ) :
    forPlaces ids (fun out mic j ↦ setColumn size n j len (value mic) out) data p =
      if p / size % n < ids.length ∧ p / size / n < len then
        value (ids.getD (p / size % n) 0) (p / size / n) (p % size)
      else data p := by
  induction ids using List.reverseRecOn with
  | nil => exact (if_neg fun h ↦ Nat.not_lt_zero _ h.1).symm
  | append_singleton ids last ih =>
      rw [forPlaces_concat, setColumn, ih, List.length_append, List.length_singleton]
      by_cases hlast : p / size % n = ids.length
      · rw [hlast, List.getD_append_right _ _ _ _ le_rfl, Nat.sub_self]
        simp
      · by_cases hplace : p / size % n < ids.length
        · rw [List.getD_append _ _ _ _ hplace]
          simp [hlast, hplace, Nat.lt_succ_of_lt hplace]
        · have hbehind : ¬p / size % n < ids.length + 1 := by omega
          simp [hlast, hplace, hbehind]

namespace MemO

variable (V : Conversions) (o : MemO)

/-- The constructor. -/
def create (outType : OutType) (ids : List ℕ) : Option MemO :=
  if h : sampleRate * outType.size * ids.length < 2 ^ 31 then
    some ⟨outType, ids, sampleRate * outType.size * ids.length, fun _ ↦ 0, le_rfl, h⟩
  else none

/-- The output gets room for `lenOut` bytes, and for as many again. -/
def reserve (lenOut : ℕ) : Option MemO :=
  if hgrow : o.lenOutTotal < lenOut then
    if h : lenOut * 2 < 2 ^ 31 then
      some
        { o with
          lenOutTotal := lenOut * 2
          dataOut := fun _ ↦ 0
          total_ge := by
            have htotal := o.total_ge
            omega
          total_lt := h }
    else none
  else some o

/-- The output after the loops. -/
def columns (data : Rows) (len : ℕ) : ℕ → UInt8 :=
  forPlaces o.ids (fun out mic j ↦
    setColumn o.outType.size o.ids.length j len
      (fun i k ↦ o.outType.cellByte V (data mic i) k) out) o.dataOut

/-- `process`: the object and `iLen_Out`. -/
def process (data : Rows) (len : ℕ) : Option (MemO × ℕ) :=
  (o.reserve (len * o.outType.size * o.ids.length)).bind fun o ↦
    if ∀ cell ∈ cellWrites o.ids.length len, (cell + 1) * o.outType.size ≤ o.lenOutTotal then
      some ({ o with dataOut := o.columns V data len },
        len * o.outType.size * o.ids.length)
    else none

variable {o}

/-- With room for all frames nothing is written behind the output. -/
theorem cellWrites_fit {len : ℕ} (h : len * o.outType.size * o.ids.length ≤ o.lenOutTotal) :
    ∀ cell ∈ cellWrites o.ids.length len, (cell + 1) * o.outType.size ≤ o.lenOutTotal := by
  intro cell hcell
  calc
    (cell + 1) * o.outType.size ≤ len * o.ids.length * o.outType.size :=
      Nat.mul_le_mul_right _ (cellWrites_lt cell hcell)
    _ = len * o.outType.size * o.ids.length := Nat.mul_right_comm _ _ _
    _ ≤ o.lenOutTotal := h

/-- `r2mem_o` never writes outside of its output. -/
theorem process_of_reserve {o' : MemO} (data : Rows) {len : ℕ}
    (h : o.reserve (len * o.outType.size * o.ids.length) = some o') :
    o.process V data len =
      some ({ o' with dataOut := o'.columns V data len },
        len * o'.outType.size * o'.ids.length) := by
  have hfits : len * o'.outType.size * o'.ids.length ≤ o'.lenOutTotal := by
    rw [reserve] at h
    split_ifs at h with hgrow hsize
    · obtain rfl := Option.some.inj h
      dsimp only
      omega
    · obtain rfl := Option.some.inj h
      exact not_lt.mp hgrow
  rw [process, h, Option.bind_some, if_pos (cellWrites_fit hfits)]

/-- What stands in the output. -/
theorem columns_apply (data : Rows) {len p : ℕ} (hp : p < len * o.outType.size * o.ids.length) :
    o.columns V data len p =
      o.outType.cellByte V
        (data (o.ids.getD (p / o.outType.size % o.ids.length) 0)
          (p / o.outType.size / o.ids.length)) (p % o.outType.size) := by
  have hcell : p / o.outType.size < len * o.ids.length := by
    rw [Nat.div_lt_iff_lt_mul o.outType.size_pos, Nat.mul_right_comm]
    exact hp
  have hpos : 0 < o.ids.length := by
    apply Nat.pos_of_ne_zero
    intro hzero
    rw [hzero, Nat.mul_zero] at hcell
    exact Nat.not_lt_zero _ hcell
  have hframe : p / o.outType.size / o.ids.length < len :=
    (Nat.div_lt_iff_lt_mul hpos).mpr hcell
  rw [columns, forPlaces_setColumn, if_pos ⟨Nat.mod_lt _ hpos, hframe⟩]

end MemO

/-! ## Words in memory -/

/-- A number behind the bits of another one. -/
theorem or_shiftLeft {a k : ℕ} (h : a < 2 ^ k) (b : ℕ) : a ||| b <<< k = a + 2 ^ k * b := by
  rw [Nat.or_comm, ← Nat.shiftLeft_add_eq_or_of_lt h, Nat.shiftLeft_eq, Nat.add_comm, Nat.mul_comm]

/-- Four bytes put together. -/
theorem or_bytes {a b c : ℕ} (ha : a < 2 ^ 8) (hb : b < 2 ^ 8) (hc : c < 2 ^ 8) (d : ℕ) :
    a ||| b <<< 8 ||| c <<< 16 ||| d <<< 24 = a + 256 * (b + 256 * (c + 256 * d)) := by
  have hab : a + 2 ^ 8 * b < 2 ^ 16 := by omega
  have habc : a + 2 ^ 8 * b + 2 ^ 16 * c < 2 ^ 24 := by omega
  rw [or_shiftLeft ha, or_shiftLeft hab, or_shiftLeft habc]
  ring

theorem toNat_toUInt32_shiftLeft (b : UInt8) {k : UInt32} (hk : k.toNat ≤ 24) :
    (b.toUInt32 <<< k).toNat = b.toNat <<< k.toNat := by
  have hb := b.toNat_lt
  have hpow : b.toNat * 2 ^ k.toNat < 2 ^ 32 :=
    calc
      b.toNat * 2 ^ k.toNat < 2 ^ 8 * 2 ^ k.toNat := Nat.mul_lt_mul_of_pos_right hb (Nat.two_pow_pos _)
      _ ≤ 2 ^ 8 * 2 ^ 24 := Nat.mul_le_mul_left _ (Nat.pow_le_pow_right (by decide) hk)
      _ = 2 ^ 32 := rfl
  rw [UInt32.toNat_shiftLeft, UInt8.toNat_toUInt32, Nat.mod_eq_of_lt (by omega : k.toNat < 32),
    Nat.shiftLeft_eq, Nat.mod_eq_of_lt hpow]

theorem toNat_or_bytes (b₀ b₁ b₂ b₃ : UInt8) :
    (b₀.toUInt32 ||| b₁.toUInt32 <<< 8 ||| b₂.toUInt32 <<< 16 ||| b₃.toUInt32 <<< 24).toNat =
      b₀.toNat + 256 * (b₁.toNat + 256 * (b₂.toNat + 256 * b₃.toNat)) := by
  rw [UInt32.toNat_or, UInt32.toNat_or, UInt32.toNat_or, toNat_toUInt32_shiftLeft _ (by decide),
    toNat_toUInt32_shiftLeft _ (by decide), toNat_toUInt32_shiftLeft _ (by decide),
    UInt8.toNat_toUInt32]
  exact or_bytes b₀.toNat_lt b₁.toNat_lt b₂.toNat_lt _

theorem toNat_wordAt (p : ℕ → UInt8) (pos : ℕ) :
    (wordAt p pos).toNat = (p pos).toNat + 256 * ((p (pos + 1)).toNat + 256 *
      ((p (pos + 2)).toNat + 256 * (p (pos + 3)).toNat)) :=
  toNat_or_bytes _ _ _ _

theorem byteOf_wordAt (p : ℕ → UInt8) (pos : ℕ) {k : ℕ} (hk : k < 4) :
    byteOf (wordAt p pos) k = p (pos + k) := by
  apply UInt8.toNat.inj
  have h0 := (p pos).toNat_lt
  have h1 := (p (pos + 1)).toNat_lt
  have h2 := (p (pos + 2)).toNat_lt
  have h3 := (p (pos + 3)).toNat_lt
  have hamount : (UInt32.ofNat (8 * k)).toNat % 32 = 8 * k := by
    rw [UInt32.toNat_ofNat']
    omega
  rw [byteOf, UInt32.toNat_toUInt8, UInt32.toNat_shiftRight, toNat_wordAt, hamount,
    Nat.shiftRight_eq_div_pow]
  obtain rfl | rfl | rfl | rfl : k = 0 ∨ k = 1 ∨ k = 2 ∨ k = 3 := by omega
  · simp only [Nat.mul_zero, Nat.pow_zero, Nat.div_one, Nat.add_zero]
    omega
  · rw [Nat.mul_one]
    omega
  · rw [show 2 ^ (8 * 2) = 65536 from rfl]
    omega
  · rw [show 2 ^ (8 * 3) = 16777216 from rfl]
    omega

/-! ## There and back -/

/-- Both calls are made without a fault, and the bytes come back. -/
def RoundTrip (V : Conversions) (i : MemI Word) (o : MemO) (pData : ℕ → UInt8) (lenIn : ℕ) : Prop :=
  ∃ rows len o' lenOut,
    i.process V.cells pData lenIn = some (rows, len) ∧
      o.process V rows len = some (o', lenOut) ∧
        lenOut = lenIn ∧ ∀ p < lenIn, o'.dataOut p = pData p

section RoundTrip

variable (V : Conversions) {i : MemI Word} {o : MemO}

/-- The bytes that `r2mem_o` makes of the rows of `r2mem_i`. -/
theorem columns_rows (hin : i.inType = .float32) (hout : o.outType = .float32) (hids : o.ids = i.ids)
    (pData : ℕ → UInt8) {len p : ℕ} (hp : p < len * 4 * i.ids.length) :
    o.columns V (i.rows V.cells pData len) len p = pData p := by
  have hsize : o.outType.size = 4 := by rw [hout]; rfl
  have hcell : p / 4 < len * i.ids.length := by
    rw [Nat.div_lt_iff_lt_mul (by decide), Nat.mul_right_comm]
    exact hp
  have hpos : 0 < i.ids.length := Nat.pos_of_ne_zero fun hzero ↦ by simp [hzero] at hcell
  have hplace : p / 4 % i.ids.length < i.ids.length := Nat.mod_lt _ hpos
  have hframe : p / 4 / i.ids.length < len := (Nat.div_lt_iff_lt_mul hpos).mpr hcell
  have hrow := MemI.rows_getD V.cells pData hplace hframe
  rw [MemO.columns_apply V _ (by rw [hsize, hids]; exact hp), hsize, hids, hrow, hin,
    hout, Nat.mul_comm, Nat.div_add_mod]
  calc
    byteOf (wordAt pData (4 * (p / 4))) (p % 4) = pData (4 * (p / 4) + p % 4) :=
      byteOf_wordAt pData _ (Nat.mod_lt p (by decide))
    _ = pData p := by rw [Nat.div_add_mod]

/-- **The round trip of `r2mem_i` and `r2mem_o`.** Whole frames of `float`s come back, and no call
writes outside of its output, exactly if there is a microphone and the rows have room for the
frames. -/
theorem roundTrip_iff (hin : i.inType = .float32) (hout : o.outType = .float32)
    (hids : o.ids = i.ids) (pData : ℕ → UInt8) (frames : ℕ) :
    RoundTrip V i o pData (frames * (4 * i.ids.length)) ↔
      0 < i.ids.length ∧ frames ≤ sampleRate := by
  have hframe : i.frame = 4 * i.ids.length := by rw [MemI.frame, hin]; rfl
  have hsize : o.outType.size = 4 := by rw [hout]; rfl
  constructor
  · rintro ⟨rows, len, o', lenOut, hprocess, -⟩
    obtain ⟨hpos, -, hlen, -⟩ := (MemI.process_eq_some_iff _).mp hprocess
    rw [hframe, Nat.mul_div_cancel _ (by omega)] at hlen
    exact ⟨hpos, hlen⟩
  · rintro ⟨hpos, hlen⟩
    have hdiv : frames * (4 * i.ids.length) / i.frame = frames := by
      rw [hframe, Nat.mul_div_cancel _ (by omega)]
    have hlength : frames * 4 * i.ids.length = frames * (4 * i.ids.length) := Nat.mul_assoc _ _ _
    have hroom : frames * o.outType.size * o.ids.length ≤ o.lenOutTotal := by
      calc
        frames * o.outType.size * o.ids.length ≤ sampleRate * o.outType.size * o.ids.length :=
          Nat.mul_le_mul_right _ (Nat.mul_le_mul_right _ hlen)
        _ ≤ o.lenOutTotal := o.total_ge
    have hreserve : o.reserve (frames * o.outType.size * o.ids.length) = some o := by
      rw [MemO.reserve, dif_neg (not_lt.mpr hroom)]
    have hrows : i.process V.cells pData (frames * (4 * i.ids.length)) =
        some (i.rows V.cells pData frames, frames) := by
      rw [MemI.process_eq_some_iff, hdiv, hframe]
      exact ⟨hpos, Nat.dvd_mul_left _ _, hlen, rfl⟩
    refine ⟨_, _, _, _, hrows, MemO.process_of_reserve V _ hreserve, ?_, ?_⟩
    · rw [hsize, hids, hlength]
    · intro p hp
      rw [← hlength] at hp
      exact columns_rows V hin hout hids pData hp

end RoundTrip

/-- Input of `float`s from some microphones, in some order. -/
def floatsIn (ids : List ℕ) (perm : ids.Perm (List.range ids.length))
    (alloc : 4 * ids.length * sampleRate < 2 ^ 31) : MemI Word :=
  ⟨.float32, ids, perm, fun _ _ ↦ 0, alloc⟩

/-- Output of `float`s for some microphones. -/
def floatsOut (ids : List ℕ) (alloc : sampleRate * 4 * ids.length < 2 ^ 31) : MemO :=
  ⟨.float32, ids, sampleRate * 4 * ids.length, fun _ ↦ 0, le_rfl, alloc⟩

theorem create_floatsOut (ids : List ℕ) (alloc : sampleRate * 4 * ids.length < 2 ^ 31) :
    MemO.create .float32 ids = some (floatsOut ids alloc) := dif_pos alloc

/-- Two microphones in the other order. -/
theorem roundTrip_swapped :
    RoundTrip ⟨id, id, id, id⟩ (floatsIn [1, 0] (by decide) (by decide))
        (floatsOut [1, 0] (by decide)) UInt8.ofNat (16000 * (4 * 2)) ↔
      0 < 2 ∧ 16000 ≤ sampleRate :=
  roundTrip_iff ⟨id, id, id, id⟩ rfl rfl rfl UInt8.ofNat 16000

/-- One frame more than a second does not fit. -/
theorem not_roundTrip_long :
    ¬∀ (V : Conversions) (i : MemI Word) (o : MemO), i.inType = .float32 → o.outType = .float32 →
      o.ids = i.ids → ∀ (pData : ℕ → UInt8) (frames : ℕ),
        RoundTrip V i o pData (frames * (4 * i.ids.length)) := by
  intro h
  obtain ⟨rows, len, o', lenOut, hprocess, -⟩ := h ⟨id, id, id, id⟩
    (floatsIn [0] (by decide) (by decide)) (floatsOut [0] (by decide)) rfl rfl rfl UInt8.ofNat 16001
  obtain ⟨-, -, hlen, -⟩ := (MemI.process_eq_some_iff _).mp hprocess
  exact absurd hlen (by decide)

end Vsys.R2ad
