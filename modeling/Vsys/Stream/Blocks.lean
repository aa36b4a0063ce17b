import Mathlib.Data.List.Range
import Mathlib.Tactic.Ring

/-!
# Cutting a stream into blocks

`blocks n l` lists the complete consecutive blocks of `n` samples of `l`, and `leftover n l` is
what follows the last of them.  `blocks_append` and `leftover_append` say that a stream can be cut
piece by piece: only the leftover of the earlier part matters for the later one.

`overwrite` is the effect of a copy into the middle of a buffer.
-/

namespace Vsys.Stream

variable {α : Type*}

/-- Copy `src` over the part of `dst` that begins at `offset`. -/
def overwrite (dst : List α) (offset : ℕ) (src : List α) : List α :=
  dst.take offset ++ src ++ dst.drop (offset + src.length)

/-- The block with number `k`. -/
def blockAt (n k : ℕ) (l : List α) : List α := (l.drop (k * n)).take n

/-- The complete blocks of `n` samples, in order. -/
def blocks (n : ℕ) (l : List α) : List (List α) :=
  (List.range (l.length / n)).map fun k ↦ blockAt n k l

/-- What follows the last complete block. -/
def leftover (n : ℕ) (l : List α) : List α := l.drop (l.length / n * n)

/-! ## Copies -/

theorem overwrite_length {dst src : List α} {offset : ℕ} (h : offset + src.length ≤ dst.length) :
    (overwrite dst offset src).length = dst.length := by
  simp only [overwrite, List.length_append, List.length_take, List.length_drop]
  omega

/-- A copy that reaches the end of the buffer. -/
theorem overwrite_to_end {dst src : List α} {offset : ℕ} (h : dst.length ≤ offset + src.length) :
    overwrite dst offset src = dst.take offset ++ src := by
  rw [overwrite, List.drop_eq_nil_of_le h, List.append_nil]

theorem overwrite_zero (dst src : List α) :
    overwrite dst 0 src = src ++ dst.drop src.length := by
  simp [overwrite]

/-- What stands before the copy, and the copy. -/
theorem take_overwrite {dst : List α} {offset n : ℕ} (h : offset ≤ dst.length) (src : List α)
    (hn : offset + src.length = n) :
    (overwrite dst offset src).take n = dst.take offset ++ src := by
  have hlen : (dst.take offset ++ src).length = n := by
    rw [List.length_append, List.length_take, min_eq_left h, hn]
  rw [overwrite, ← hlen, List.take_left]

theorem take_overwrite_zero (dst : List α) {src : List α} {n : ℕ} (h : src.length = n) :
    (overwrite dst 0 src).take n = src :=
  take_overwrite (Nat.zero_le _) src ((Nat.zero_add _).trans h)

/-- Entries written behind those in use. -/
theorem overwrite_append {dst used : List α} {n : ℕ} (data : List α)
    (hroom : n + data.length ≤ dst.length) (hused : dst.take n = used) :
    n + data.length ≤ (overwrite dst n data).length ∧
      (overwrite dst n data).take (n + data.length) = used ++ data := by
  rw [overwrite_length hroom, take_overwrite (by omega) data rfl, hused]
  exact ⟨hroom, rfl⟩

/-- Entries in use moved to a larger buffer. -/
theorem take_overwrite_replicate (total : ℕ) (x : α) {src : List α} {n : ℕ} (h : n ≤ src.length)
    (htotal : n ≤ total) :
    (overwrite (List.replicate total x) 0 (src.take n)).length = total ∧
      (overwrite (List.replicate total x) 0 (src.take n)).take n = src.take n := by
  have hlen : (src.take n).length = n := by
    rw [List.length_take]
    exact min_eq_left h
  refine ⟨?_, take_overwrite_zero _ hlen⟩
  rw [overwrite_length (by rw [hlen, List.length_replicate]; omega), List.length_replicate]

/-! ## Blocks -/

@[simp]
theorem blocks_length (n : ℕ) (l : List α) : (blocks n l).length = l.length / n := by
  simp [blocks]

@[simp]
theorem leftover_length (n : ℕ) (l : List α) : (leftover n l).length = l.length % n := by
  have := Nat.div_add_mod' l.length n
  simp only [leftover, List.length_drop]
  omega

theorem blocks_of_length_lt {n : ℕ} {l : List α} (h : l.length < n) : blocks n l = [] := by
  simp [blocks, Nat.div_eq_of_lt h]

theorem leftover_of_length_lt {n : ℕ} {l : List α} (h : l.length < n) : leftover n l = l := by
  simp [leftover, Nat.div_eq_of_lt h]

/-- A list of the length of a block is one. -/
theorem blocks_of_length_eq {n : ℕ} (hn : 0 < n) {l : List α} (h : l.length = n) :
    blocks n l = [l] := by
  rw [blocks, h, Nat.div_self hn, List.range_one, List.map_singleton, blockAt, Nat.zero_mul,
    List.drop_zero, List.take_of_length_le h.le]

theorem leftover_of_length_eq {n : ℕ} (hn : 0 < n) {l : List α} (h : l.length = n) :
    leftover n l = [] := by
  rw [leftover, h, Nat.div_self hn, Nat.one_mul, List.drop_eq_nil_of_le h.le]

/-- The first block begins as the stream does. -/
theorem head_of_blocks_eq {n : ℕ} (hn : 0 < n) {l block : List α} {later : List (List α)}
    (h : blocks n l = block :: later) : block.head? = l.head? := by
  rw [blocks] at h
  cases hcount : l.length / n with
  | zero => simp [hcount] at h
  | succ count =>
      rw [hcount, List.range_succ_eq_map, List.map_cons] at h
      rw [← (List.cons.inj h).1, blockAt, Nat.zero_mul, List.drop_zero, List.head?_take,
        if_neg hn.ne']

theorem blockAt_append_left {n k q : ℕ} {whole rest : List α} (hwhole : whole.length = q * n)
    (hk : k < q) : blockAt n k (whole ++ rest) = blockAt n k whole := by
  have hfit : k * n + n ≤ q * n := by
    calc
      k * n + n = (k + 1) * n := by ring
      _ ≤ q * n := Nat.mul_le_mul_right n hk
  rw [blockAt, blockAt, List.drop_append_of_le_length (by omega),
    List.take_append_of_le_length (by simp only [List.length_drop]; omega)]

theorem blockAt_append_right {n k q : ℕ} {whole rest : List α} (hwhole : whole.length = q * n) :
    blockAt n (q + k) (whole ++ rest) = blockAt n k rest := by
  have hdrop : (whole ++ rest).drop (whole.length + k * n) = rest.drop (k * n) := by
    rw [List.drop_append, List.drop_eq_nil_of_le (Nat.le_add_right _ _), List.nil_append,
      Nat.add_sub_cancel_left]
  rw [blockAt, blockAt, Nat.add_mul, ← hwhole, hdrop]

/-- Whole blocks in front are cut off first. -/
theorem blocks_append_of_length {n q : ℕ} (hn : 0 < n) {whole rest : List α}
    (hwhole : whole.length = q * n) :
    blocks n (whole ++ rest) = blocks n whole ++ blocks n rest := by
  have hcount : (whole ++ rest).length / n = q + rest.length / n := by
    rw [List.length_append, hwhole, Nat.add_comm, Nat.add_mul_div_right _ _ hn, Nat.add_comm]
  rw [blocks, blocks, blocks, hcount, hwhole, Nat.mul_div_cancel q hn, List.range_add,
    List.map_append, List.map_map]
  congr 1
  · apply List.map_congr_left
    intro k hk
    exact blockAt_append_left hwhole (List.mem_range.mp hk)
  · apply List.map_congr_left
    intro k _
    exact blockAt_append_right hwhole

theorem leftover_append_of_length {n q : ℕ} (hn : 0 < n) {whole rest : List α}
    (hwhole : whole.length = q * n) : leftover n (whole ++ rest) = leftover n rest := by
  have hcount : (whole ++ rest).length / n = q + rest.length / n := by
    rw [List.length_append, hwhole, Nat.add_comm, Nat.add_mul_div_right _ _ hn, Nat.add_comm]
  rw [leftover, leftover, hcount, Nat.add_mul, ← hwhole, List.drop_append]
  simp

/-- A list is its complete blocks followed by its leftover. -/
theorem take_append_leftover (n : ℕ) (l : List α) :
    l.take (l.length / n * n) ++ leftover n l = l :=
  List.take_append_drop _ _

theorem take_blocks_length (n : ℕ) (l : List α) :
    (l.take (l.length / n * n)).length = l.length / n * n := by
  rw [List.length_take]
  exact min_eq_left (Nat.div_mul_le_self _ _)

/-- **Blocks of a stream that arrives in two parts.** -/
theorem blocks_append {n : ℕ} (hn : 0 < n) (front rest : List α) :
    blocks n (front ++ rest) = blocks n front ++ blocks n (leftover n front ++ rest) := by
  have hlen := take_blocks_length n front
  have hshort : (leftover n front).length < n := by
    rw [leftover_length]
    exact Nat.mod_lt _ hn
  calc
    blocks n (front ++ rest) =
        blocks n (front.take (front.length / n * n) ++ (leftover n front ++ rest)) := by
      rw [← List.append_assoc, take_append_leftover]
    _ = blocks n (front.take (front.length / n * n)) ++ blocks n (leftover n front ++ rest) :=
      blocks_append_of_length hn hlen
    _ = blocks n front ++ blocks n (leftover n front ++ rest) := by
      have hfront : blocks n (front.take (front.length / n * n) ++ leftover n front) = _ :=
        blocks_append_of_length hn hlen
      rw [take_append_leftover, blocks_of_length_lt hshort, List.append_nil] at hfront
      rw [hfront]

/-- **The leftover of a stream that arrives in two parts.** -/
theorem leftover_append {n : ℕ} (hn : 0 < n) (front rest : List α) :
    leftover n (front ++ rest) = leftover n (leftover n front ++ rest) := by
  have hlen := take_blocks_length n front
  calc
    leftover n (front ++ rest) =
        leftover n (front.take (front.length / n * n) ++ (leftover n front ++ rest)) := by
      rw [← List.append_assoc, take_append_leftover]
    _ = leftover n (leftover n front ++ rest) := leftover_append_of_length hn hlen

/-! ## Frames filled in place

A frame of `n` samples is filled from a chunk that follows `off` samples of an earlier one.
-/

/-- The frame that was begun is completed. -/
theorem overwrite_first {n off : ℕ} {buff data : List α} (hbuff : buff.length = n) (hoff : off ≤ n)
    (hlen : n ≤ off + data.length) :
    overwrite buff off ((data.drop 0).take (n - off)) = blockAt n 0 (buff.take off ++ data) := by
  have hfront : (buff.take off).length = off := by
    rw [List.length_take, hbuff]
    exact min_eq_left hoff
  have hsrc : ((data.drop 0).take (n - off)).length = n - off := by
    rw [List.length_take, List.length_drop]
    omega
  rw [overwrite_to_end (by omega), blockAt, Nat.zero_mul, List.drop_zero, List.drop_zero,
    List.take_append, hfront, List.take_of_length_le (l := buff.take off) (by omega)]

/-- A later frame is copied from the chunk. -/
theorem overwrite_later {n off i : ℕ} {buff data front : List α} (hbuff : buff.length = n)
    (hfront : front.length = off) (hoff : off ≤ i * n) (hlen : (i + 1) * n ≤ off + data.length) :
    overwrite buff 0 ((data.drop (i * n - off)).take (n - 0)) = blockAt n i (front ++ data) := by
  rw [Nat.add_mul, Nat.one_mul] at hlen
  have hsrc : ((data.drop (i * n - off)).take n).length = n := by
    rw [List.length_take, List.length_drop]
    omega
  have hdrop : front.drop (i * n) = [] := List.drop_eq_nil_of_le (by omega)
  rw [Nat.sub_zero, overwrite_to_end (by omega), List.take_zero, List.nil_append, blockAt,
    List.drop_append, hdrop, List.nil_append, hfront]

/-- The tail copy never takes more than the chunk. -/
theorem tail_le {n off len : ℕ} (hoff : off < n) :
    (if len + off > n then (len + off) % n else len) ≤ len := by
  split_ifs with h
  · have hmod : (len + off) % n = (len + off - n) % n := Nat.mod_eq_sub_mod h.le
    have := Nat.mod_le (len + off - n) n
    omega
  · exact le_rfl

theorem tail_length {n off len : ℕ} {buff data : List α} (hbuff : buff.length = n)
    (hoff : off < n) :
    (overwrite buff 0 ((data.drop (len - if len + off > n then (len + off) % n else len)).take
      (if len + off > n then (len + off) % n else len))).length = n := by
  have hn : 0 < n := by omega
  have hfit : (if len + off > n then (len + off) % n else len) ≤ n := by
    split_ifs
    · exact (Nat.mod_lt _ hn).le
    · omega
  rw [overwrite_length, hbuff]
  rw [List.length_take, List.length_drop, hbuff]
  omega

/-- After a completed frame the tail copy keeps exactly the leftover. -/
theorem tail_take_whole {n off len : ℕ} {buff data front : List α} (hfront : front.length = off)
    (hdata : data.length = len) (hoff : off < n) (h : n ≤ off + len) :
    (overwrite buff 0 ((data.drop (len - if len + off > n then (len + off) % n else len)).take
      (if len + off > n then (len + off) % n else len))).take ((len + off) % n) =
        leftover n (front ++ data) := by
  have htotal : (front ++ data).length = len + off := by
    rw [List.length_append, hfront, hdata, Nat.add_comm]
  rcases h.lt_or_eq with hmore | hexact
  · have hle : (if len + off > n then (len + off) % n else len) ≤ len := tail_le hoff
    have hsplit := Nat.div_add_mod' (len + off) n
    have hdrop : front.drop ((len + off) / n * n) = [] := by
      apply List.drop_eq_nil_of_le
      have : 1 ≤ (len + off) / n := (Nat.one_le_div_iff (by omega)).mpr (by omega)
      have := Nat.mul_le_mul_right n this
      omega
    rw [if_pos (by omega)] at hle ⊢
    have htake : (data.drop (len - (len + off) % n)).length = (len + off) % n := by
      rw [List.length_drop]
      omega
    rw [overwrite_zero, List.take_of_length_le htake.le, List.take_append_of_le_length htake.ge,
      List.take_of_length_le htake.le, leftover, htotal, List.drop_append, hdrop, List.nil_append,
      hfront]
    congr 1
    omega
  · have hzero : (len + off) % n = 0 := by
      rw [Nat.add_comm, ← hexact, Nat.mod_self]
    rw [hzero, List.take_zero]
    symm
    apply List.eq_nil_of_length_eq_zero
    rw [leftover_length, htotal, hzero]

end Vsys.Stream
