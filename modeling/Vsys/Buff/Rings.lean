import Vsys.Stream.Ring
import Vsys.Stream.Windows
import Vsys.Trace.Run

/-!
# `ZVecBuff` and `ZMatBuff`

Two rings: one of samples, written and read in runs that go round as often as they need to, and one
of rows, written row by row.  Both hold the end of the stream put into them (`ZVecBuff.holds_run`,
`ZMatBuff.holds_run`), and a read is the part of the stream at the distances asked for.  What stands
in a new ring counts as the beginning of its stream.
-/

namespace Vsys.Buff

open Vsys.Stream Vsys.Trace

variable {F : Type*}

/-! ## Samples -/

/-- The ring of samples. -/
structure ZVecBuff (F : Type*) where
  size : ℕ
  curPos : ℕ
  vec : ℕ → F

namespace ZVecBuff

/-- A new ring, or one after `Reset`. -/
def create (size : ℕ) (memory : ℕ → F) : ZVecBuff F := ⟨size, 0, memory⟩

/-- The copy of one round of `PutBuff`. -/
def fill (b : ZVecBuff F) (piece : List F) : ZVecBuff F :=
  { b with vec := writeAt b.vec b.curPos piece, curPos := b.curPos + piece.length }

/-- The end of the ring is reached. -/
def wrap (b : ZVecBuff F) : ZVecBuff F := { b with curPos := 0 }

/-- `PutBuff`: every round writes up to the end of the ring, and there are no more rounds than
samples. -/
def putBuff (b : ZVecBuff F) (pData : List F) : ZVecBuff F :=
  windowLoop b.size curPos fill wrap pData.length pData b

/-- The loop of `GetBuff` for `iDataNum` samples from `iPos1` on. -/
def getLoop (b : ZVecBuff F) : ℕ → ℕ → ℕ → List F
  | 0, _, _ => []
  | rounds + 1, iDataNum, iPos1 =>
      if iDataNum = 0 then []
      else
        let ll := min iDataNum (b.size - iPos1)
        (List.range ll).map (fun k ↦ b.vec (iPos1 + k)) ++
          b.getLoop rounds (iDataNum - ll) (if iPos1 + ll = b.size then 0 else iPos1 + ll)

/-- `GetBuff`, or nothing if one of its assertions fails. -/
def getBuff (b : ZVecBuff F) (start stop : ℕ) : Option (List F) :=
  if start < b.size ∧ stop < b.size ∧ stop < start then
    let iPos1 := if b.curPos < start then b.curPos + b.size - start else b.curPos - start
    some (b.getLoop (start - stop) (start - stop) iPos1)
  else none

/-- The ring is in order and holds the end of the stream. -/
structure HoldsStream (b : ZVecBuff F) (size : ℕ) (l : List F) : Prop where
  size_eq : b.size = size
  curPos_lt : b.curPos < size
  holds : Holds size b.curPos b.vec l

theorem HoldsStream.fill {b : ZVecBuff F} {size : ℕ} {l : List F} (h : b.HoldsStream size l)
    {piece : List F} (hpiece : b.curPos + piece.length ≤ size) :
    (if (b.fill piece).curPos = size then (b.fill piece).wrap else b.fill piece).HoldsStream size
      (l ++ piece) := by
  have hpos := h.curPos_lt
  have hplace : (if (b.fill piece).curPos = size then (b.fill piece).wrap
      else b.fill piece).curPos = ahead size b.curPos piece.length := by
    rw [ahead]
    split_ifs with hend hlt hlt
    · exact absurd hend hlt.ne
    · change 0 = b.curPos + piece.length - size
      omega
    · rfl
    · exact absurd (Nat.le_antisymm hpiece (Nat.le_of_not_lt hlt)) hend
  have hvec : (if (b.fill piece).curPos = size then (b.fill piece).wrap
      else b.fill piece).vec = writeAt b.vec b.curPos piece := by
    split_ifs <;> rfl
  have hsize : (if (b.fill piece).curPos = size then (b.fill piece).wrap
      else b.fill piece).size = size := by
    split_ifs <;> exact h.size_eq
  refine ⟨hsize, ?_, ?_⟩
  · rw [hplace]
    exact ahead_lt hpos (by omega)
  · rw [hplace, hvec]
    refine h.holds.append hpos (fun d hd hlen ↦ ?_) fun d hd hcap ↦ ?_
    · have hback : back size (ahead size b.curPos piece.length) d =
          b.curPos + (piece.length - d) := by
        rw [back, ahead]
        split_ifs <;> omega
      have hin : piece.length - d < piece.length := by omega
      rw [hback, writeAt, if_pos (Nat.le_add_right _ _), Nat.add_sub_cancel_left,
        List.getD_eq_getElem?_getD, List.getElem?_eq_getElem hin]
      rfl
    · have hback : back size (ahead size b.curPos piece.length) d < b.curPos ∨
          b.curPos + piece.length ≤ back size (ahead size b.curPos piece.length) d := by
        rw [back, ahead]
        split_ifs <;> omega
      obtain hbefore | hbehind := hback
      · rw [writeAt, if_neg (Nat.not_le.mpr hbefore)]
      · rw [writeAt, if_pos (by omega), List.getD_eq_getElem?_getD,
          List.getElem?_eq_none (by omega)]
        rfl

/-- **`PutBuff`** goes round as often as it needs to. -/
theorem HoldsStream.putBuff {b : ZVecBuff F} {size : ℕ} {l : List F} (h : b.HoldsStream size l)
    (pData : List F) : (b.putBuff pData).HoldsStream size (l ++ pData) := by
  rw [ZVecBuff.putBuff, h.size_eq]
  exact windowLoop_inv (fun l (b : ZVecBuff F) ↦ b.HoldsStream size l) (fun _ _ hb ↦ hb.curPos_lt)
    (fun _ _ _ hb hpiece ↦ hb.fill hpiece) (Nat.le_refl _) h

/-- What was in the ring, and everything put into it. -/
theorem holds_run {size : ℕ} (hsize : 0 < size) (memory : ℕ → F) (chunks : List (List F)) :
    (run putBuff (create size memory) chunks).HoldsStream size
      ((List.range size).map memory ++ chunks.flatten) := by
  apply run_flatten (fun l (b : ZVecBuff F) ↦ b.HoldsStream size l)
    (fun _ _ chunk hb ↦ hb.putBuff chunk)
  refine ⟨rfl, hsize, holds_of_whole (by simp) fun k hk ↦ ?_⟩
  rw [List.getElem?_map, List.getElem?_range hk]
  rfl

/-- The loop of `GetBuff` reads on, from the end of the ring at its beginning. -/
theorem getLoop_eq (b : ZVecBuff F) {rounds iDataNum iPos1 : ℕ} (hrounds : iDataNum ≤ rounds)
    (hpos : iPos1 < b.size) :
    b.getLoop rounds iDataNum iPos1 =
      (List.range iDataNum).map fun k ↦ b.vec ((iPos1 + k) % b.size) := by
  induction rounds generalizing iDataNum iPos1 with
  | zero =>
      obtain rfl := Nat.le_zero.mp hrounds
      rfl
  | succ rounds ih =>
      rw [getLoop]
      split_ifs with hnone
      · rw [hnone]
        rfl
      · set ll := min iDataNum (b.size - iPos1) with hll
        have hsplit : iDataNum = ll + (iDataNum - ll) := by omega
        have hnext : (if iPos1 + ll = b.size then 0 else iPos1 + ll) < b.size := by
          split_ifs <;> omega
        have hmod : (if iPos1 + ll = b.size then 0 else iPos1 + ll) = (iPos1 + ll) % b.size := by
          split_ifs with hend
          · rw [hend, Nat.mod_self]
          · rw [Nat.mod_eq_of_lt (by omega)]
        have hrange : List.range iDataNum =
            List.range ll ++ (List.range (iDataNum - ll)).map (ll + ·) := by
          rw [← List.range_add, ← hsplit]
        have hrest := ih (by omega : iDataNum - ll ≤ rounds) hnext
        dsimp only
        rw [hrest, hrange, List.map_append, List.map_map]
        congr 1
        · apply List.map_congr_left
          intro k hk
          have hk := List.mem_range.mp hk
          rw [Nat.mod_eq_of_lt (by omega)]
        · apply List.map_congr_left
          intro k _
          rw [hmod, Function.comp_apply, ← Nat.add_assoc, Nat.mod_add_mod]

/-- **`GetBuff`** reads the end of the stream. -/
theorem HoldsStream.getBuff {b : ZVecBuff F} {size : ℕ} {l : List F} (h : b.HoldsStream size l)
    {start stop : ℕ} (hstop : stop < start) (hstart : start < size) (hlen : start ≤ l.length) :
    b.getBuff start stop = some (tailSlice l start stop) := by
  obtain ⟨rfl, hpos, hholds⟩ := h
  have hplace : (if b.curPos < start then b.curPos + b.size - start else b.curPos - start) =
      back b.size b.curPos start := by
    rw [back]
    split_ifs <;> omega
  have hback : back b.size b.curPos start < b.size := by
    rw [back]
    split_ifs <;> omega
  rw [ZVecBuff.getBuff, if_pos ⟨hstart, by omega, hstop⟩, hplace]
  dsimp only
  rw [getLoop_eq b (Nat.le_refl _) hback, ← hholds.read hstart.le hlen]
  congr 1
  apply List.map_congr_left
  intro k hk
  have hk := List.mem_range.mp hk
  congr 1
  rw [back, back]
  split_ifs with hcur hcur' hcur'
  · rw [Nat.mod_eq_of_lt (by omega)]
    omega
  · omega
  · have hround : b.curPos + b.size - start + k = b.curPos - (start - k) + b.size := by omega
    rw [hround, Nat.add_mod_right, Nat.mod_eq_of_lt (by omega)]
  · rw [Nat.mod_eq_of_lt (by omega)]
    omega

end ZVecBuff

/-! ## Rows -/

/-- The ring of rows, of `col` samples each. -/
structure ZMatBuff (F : Type*) (col : ℕ) where
  row : ℕ
  curPos : ℕ
  mat : ℕ → Fin col → F

namespace ZMatBuff

variable {col : ℕ}

/-- A new ring, or one after `Reset`. -/
def create (row : ℕ) (memory : ℕ → Fin col → F) : ZMatBuff F col := ⟨row, 0, memory⟩

/-- One round of `PutBuff`. -/
def putRow (b : ZMatBuff F col) (data : Fin col → F) : ZMatBuff F col :=
  { b with
    mat := Function.update b.mat b.curPos data
    curPos := if b.curPos + 1 = b.row then 0 else b.curPos + 1 }

/-- `PutBuff`. -/
def putBuff (b : ZMatBuff F col) (pDataBuff : List (Fin col → F)) : ZMatBuff F col :=
  pDataBuff.foldl putRow b

/-- `GetBuff`, or nothing if its assertion fails. -/
def getBuff (b : ZMatBuff F col) (offset : ℕ) : Option (Fin col → F) :=
  if offset ≤ b.row then
    some (b.mat (if b.curPos < offset then b.curPos + b.row - offset else b.curPos - offset))
  else none

/-- The ring is in order and holds the end of the stream of rows. -/
structure HoldsStream (b : ZMatBuff F col) (row : ℕ) (l : List (Fin col → F)) : Prop where
  row_eq : b.row = row
  curPos_lt : b.curPos < row
  holds : Holds row b.curPos b.mat l

theorem HoldsStream.putRow {b : ZMatBuff F col} {row : ℕ} {l : List (Fin col → F)}
    (h : b.HoldsStream row l) (data : Fin col → F) :
    (b.putRow data).HoldsStream row (l ++ [data]) := by
  obtain ⟨rfl, hpos, hholds⟩ := h
  have hplace : (b.putRow data).curPos = ahead b.row b.curPos 1 := by
    rw [ZMatBuff.putRow, ahead]
    dsimp only
    split_ifs <;> omega
  refine ⟨rfl, ?_, ?_⟩
  · rw [hplace]
    exact ahead_lt hpos (by omega)
  · rw [hplace]
    exact hholds.push hpos data

theorem HoldsStream.putBuff {b : ZMatBuff F col} {row : ℕ} {l : List (Fin col → F)}
    (h : b.HoldsStream row l) (pDataBuff : List (Fin col → F)) :
    (b.putBuff pDataBuff).HoldsStream row (l ++ pDataBuff) := by
  induction pDataBuff generalizing b l with
  | nil => rwa [List.append_nil]
  | cons data pDataBuff ih =>
      rw [List.append_cons]
      exact ih (h.putRow data)

/-- What was in the ring, and everything put into it. -/
theorem holds_run {row : ℕ} (hrow : 0 < row) (memory : ℕ → Fin col → F)
    (blocks : List (List (Fin col → F))) :
    (run putBuff (create row memory) blocks).HoldsStream row
      ((List.range row).map memory ++ blocks.flatten) := by
  apply run_flatten (fun l (b : ZMatBuff F col) ↦ b.HoldsStream row l)
    (fun _ _ block hb ↦ hb.putBuff block)
  refine ⟨rfl, hrow, holds_of_whole (by simp) fun k hk ↦ ?_⟩
  rw [List.getElem?_map, List.getElem?_range hk]
  rfl

/-- **`GetBuff`** is the row put `offset` rows ago. -/
theorem HoldsStream.getBuff {b : ZMatBuff F col} {row : ℕ} {l : List (Fin col → F)}
    (h : b.HoldsStream row l) {offset : ℕ} (hoffset : 1 ≤ offset) (hrow : offset ≤ row)
    (hlen : offset ≤ l.length) : b.getBuff offset = l[l.length - offset]? := by
  obtain ⟨rfl, hpos, hholds⟩ := h
  have hplace : (if b.curPos < offset then b.curPos + b.row - offset else b.curPos - offset) =
      back b.row b.curPos offset := by
    rw [back]
    split_ifs <;> omega
  rw [ZMatBuff.getBuff, if_pos hrow, hplace, hholds offset hoffset hrow hlen]

end ZMatBuff

/-! ## Both rings -/

/-- **The rings hold the end of their streams.**  After any sequence of `PutBuff` calls a read of the
ring of samples gives the samples at the distances asked for, and a read of the ring of rows the row
put that many rows ago. -/
theorem getBuff_of_puts {col : ℕ} {size row : ℕ} (memory : ℕ → F) (rows : ℕ → Fin col → F)
    (chunks : List (List F)) (blocks : List (List (Fin col → F))) :
    (∀ start stop, stop < start → start < size →
      (run ZVecBuff.putBuff (ZVecBuff.create size memory) chunks).getBuff start stop =
        some (tailSlice ((List.range size).map memory ++ chunks.flatten) start stop)) ∧
      ∀ k, 1 ≤ k → k ≤ row →
        (run ZMatBuff.putBuff (ZMatBuff.create row rows) blocks).getBuff k =
          ((List.range row).map rows ++ blocks.flatten)[row + blocks.flatten.length - k]? := by
  constructor
  · intro start stop hstop hstart
    apply (ZVecBuff.holds_run (by omega) memory chunks).getBuff hstop hstart
    rw [List.length_append, List.length_map, List.length_range]
    omega
  · intro k hk hrow
    have hlen : ((List.range row).map rows ++ blocks.flatten).length =
        row + blocks.flatten.length := by
      rw [List.length_append, List.length_map, List.length_range]
    rw [← hlen]
    apply (ZMatBuff.holds_run (by omega) rows blocks).getBuff hk hrow
    rw [hlen]
    omega

end Vsys.Buff
