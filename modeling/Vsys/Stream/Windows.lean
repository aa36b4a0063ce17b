import Mathlib.Data.List.Basic
import Mathlib.Data.List.Range

/-!
# Overlapping windows of a stream

`window width hop k l` is the window of `width` entries that begins at `k * hop`.  A buffer of
`width` cells produces the windows of a stream that arrives in pieces: it is filled, its content is
a window, and the last `width - hop` entries of it are moved to the front.  `Carried` says what the
buffer holds in between, and `Carried.fill`, `Carried.window` and `Carried.shift` are the three
steps; `Carried.count_eq` gives the number of windows so far.

`windowLoop` is the loop that feeds such a buffer from a chunk, and `windowLoop_inv` its induction.
-/

namespace Vsys.Stream

variable {α : Type*}

/-- The window with number `k`. -/
def window (width hop k : ℕ) (l : List α) : List α := (l.drop (k * hop)).take width

/-- The number of complete windows in `length` entries. -/
def windowCount (width hop length : ℕ) : ℕ := (length - (width - hop)) / hop

/-- `count` windows have been produced, and the first `pos` cells hold what follows the beginning
of the next one. -/
structure Carried (hop : ℕ) (l : List α) (count pos : ℕ) (buf : ℕ → α) : Prop where
  length_eq : count * hop + pos = l.length
  cells : ∀ j < pos, l[count * hop + j]? = some (buf j)

/-- The buffer with some entries written from `pos` on. -/
def writeAt (buf : ℕ → α) (pos : ℕ) (piece : List α) : ℕ → α := fun j ↦
  if pos ≤ j then piece.getD (j - pos) (buf j) else buf j

/-- Feed a chunk: as much of it as fits is written behind `pos`, and a full buffer is used up.  The
first argument bounds the number of rounds. -/
def windowLoop {σ : Type*} (width : ℕ) (pos : σ → ℕ) (fill : σ → List α → σ) (full : σ → σ) :
    ℕ → List α → σ → σ
  | 0, _, s => s
  | rounds + 1, chunk, s =>
      if chunk = [] then s
      else
        let piece := chunk.take (width - pos s)
        let filled := fill s piece
        windowLoop width pos fill full rounds (chunk.drop piece.length)
          (if pos filled = width then full filled else filled)

/-- The states `windowLoop` goes through, those with a piece of the chunk in the buffer included. -/
def windowStates {σ : Type*} (width : ℕ) (pos : σ → ℕ) (fill : σ → List α → σ) (full : σ → σ) :
    ℕ → List α → σ → List σ
  | 0, _, s => [s]
  | rounds + 1, chunk, s =>
      if chunk = [] then [s]
      else
        let piece := chunk.take (width - pos s)
        let filled := fill s piece
        s :: filled :: windowStates width pos fill full rounds (chunk.drop piece.length)
          (if pos filled = width then full filled else filled)

variable {width hop count pos : ℕ} {l : List α} {buf buf' : ℕ → α}

/-- Windows that are complete do not change when the stream goes on. -/
theorem window_append {k : ℕ} (hk : k * hop + width ≤ l.length) (more : List α) :
    window width hop k (l ++ more) = window width hop k l := by
  rw [window, window, List.drop_append_of_le_length (by omega),
    List.take_append_of_le_length (by rw [List.length_drop]; omega)]

theorem carried_nil (hop : ℕ) (buf : ℕ → α) : Carried hop ([] : List α) 0 0 buf :=
  ⟨by simp, fun j hj ↦ nomatch hj⟩

/-- More entries are written behind the ones in the buffer. -/
theorem Carried.fill (h : Carried hop l count pos buf) (piece : List α) :
    Carried hop (l ++ piece) count (pos + piece.length) (writeAt buf pos piece) := by
  refine ⟨by rw [List.length_append, ← h.length_eq, Nat.add_assoc], fun j hj ↦ ?_⟩
  have hlength := h.length_eq
  by_cases hpos : j < pos
  · rw [List.getElem?_append_left (by omega), h.cells j hpos, writeAt, if_neg (by omega)]
  · have hindex : count * hop + j - l.length = j - pos := by omega
    have hpiece : j - pos < piece.length := by omega
    rw [List.getElem?_append_right (by omega), hindex, writeAt, if_pos (by omega),
      List.getD_eq_getElem?_getD, List.getElem?_eq_getElem hpiece]
    rfl

/-- The entries from a place in the buffer on. -/
theorem Carried.slice (h : Carried hop l count pos buf) (offset n : ℕ) (hn : offset + n ≤ pos) :
    (List.range n).map (fun j ↦ buf (offset + j)) = (l.drop (count * hop + offset)).take n := by
  apply List.ext_getElem?
  intro j
  rw [List.getElem?_map, List.getElem?_take, List.getElem?_drop]
  by_cases hj : j < n
  · rw [if_pos hj, List.getElem?_range hj, Option.map_some, Nat.add_assoc,
      h.cells (offset + j) (by omega)]
  · rw [if_neg hj, List.getElem?_eq_none (by simpa using hj), Option.map_none]

/-- The entries of the buffer, after more of them are written behind. -/
theorem map_range_writeAt {front : List α} (hfront : (List.range pos).map buf = front)
    (piece : List α) :
    (List.range (pos + piece.length)).map (writeAt buf pos piece) = front ++ piece := by
  rw [List.range_add, List.map_append, List.map_map, ← hfront]
  congr 1
  · apply List.map_congr_left
    intro j hj
    rw [writeAt, if_neg (Nat.not_le.mpr (List.mem_range.mp hj))]
  · apply List.ext_getElem
    · rw [List.length_map, List.length_range]
    · intro j hj hpiece
      rw [List.getElem_map, List.getElem_range, Function.comp_apply, writeAt,
        if_pos (Nat.le_add_right pos j), Nat.add_sub_cancel_left,
        List.getD_eq_getElem?_getD, List.getElem?_eq_getElem hpiece, Option.getD_some]

/-- Writing the same entries again changes nothing. -/
theorem writeAt_writeAt (buf : ℕ → α) (pos : ℕ) (piece : List α) :
    writeAt (writeAt buf pos piece) pos piece = writeAt buf pos piece := by
  funext j
  rw [writeAt]
  split_ifs with hj
  · rw [writeAt, if_pos hj, List.getD_eq_getElem?_getD, List.getD_eq_getElem?_getD]
    cases piece[j - pos]? <;> rfl
  · rfl

/-- A full buffer is the next window. -/
theorem Carried.window (h : Carried hop l count width buf) :
    (List.range width).map buf = window width hop count l := by
  have hslice := h.slice 0 width (by omega)
  simpa [Stream.window] using hslice

/-- The end of a full buffer is moved to the front. -/
theorem Carried.shift (h : Carried hop l count width buf) (hhop : hop ≤ width)
    (hmove : ∀ j < width - hop, buf' j = buf (hop + j)) :
    Carried hop l (count + 1) (width - hop) buf' := by
  have hlength := h.length_eq
  refine ⟨by rw [Nat.add_mul, Nat.one_mul]; omega, fun j hj ↦ ?_⟩
  have hindex : (count + 1) * hop + j = count * hop + (hop + j) := by
    rw [Nat.add_mul, Nat.one_mul, Nat.add_assoc]
  rw [hindex, h.cells (hop + j) (by omega), hmove j hj]

/-- The number of windows is the number of complete ones, if the buffer is not full and the last
shift has not been undone. -/
theorem Carried.count_eq (h : Carried hop l count pos buf) (hhop : 0 < hop) (hpos : pos < width)
    (hleft : count = 0 ∨ width - hop ≤ pos) : count = windowCount width hop l.length := by
  have hlength := h.length_eq
  rw [windowCount]
  symm
  obtain rfl | hleft := hleft
  · apply Nat.div_eq_of_lt
    omega
  · have hrest : l.length - (width - hop) = pos - (width - hop) + count * hop := by omega
    rw [hrest, Nat.add_mul_div_right _ _ hhop, Nat.div_eq_of_lt (by omega), Nat.zero_add]

theorem windowLoop_nil {σ : Type*} (pos : σ → ℕ) (fill : σ → List α → σ) (full : σ → σ)
    (rounds : ℕ) (s : σ) : windowLoop width pos fill full rounds [] s = s := by
  cases rounds with
  | zero => rfl
  | succ rounds => rw [windowLoop, if_pos rfl]

/-- A round that fills the buffer. -/
theorem windowLoop_of_full {σ : Type*} {pos : σ → ℕ} {fill : σ → List α → σ} {full : σ → σ}
    {rounds : ℕ} {piece rest : List α} {s : σ} (hpiece : piece ≠ [])
    (hspace : pos s + piece.length = width) (hfull : pos (fill s piece) = width) :
    windowLoop width pos fill full (rounds + 1) (piece ++ rest) s =
      windowLoop width pos fill full rounds rest (full (fill s piece)) := by
  have hwidth : width - pos s = piece.length := by omega
  rw [windowLoop, if_neg (by simp [hpiece]), hwidth]
  dsimp only
  rw [List.take_left, List.drop_left, if_pos hfull]

/-- A piece of a chunk, and the rest behind it. -/
theorem take_append_rest (chunk : List α) (n : ℕ) :
    chunk.take n ++ chunk.drop (chunk.take n).length = chunk := by
  rw [List.length_take]
  obtain hle | hle := Nat.le_total n chunk.length
  · rw [Nat.min_eq_left hle, List.take_append_drop]
  · rw [Nat.min_eq_right hle, List.take_of_length_le hle, List.drop_length, List.append_nil]

/-- What holds before a chunk and is kept by every round holds after the chunk. -/
theorem windowLoop_inv {σ : Type*} {pos : σ → ℕ} {fill : σ → List α → σ} {full : σ → σ}
    (inv : List α → σ → Prop) (hpos : ∀ l s, inv l s → pos s < width)
    (hfill : ∀ l s piece, inv l s → pos s + piece.length ≤ width →
      inv (l ++ piece) (if pos (fill s piece) = width then full (fill s piece) else fill s piece))
    {rounds : ℕ} {chunk : List α} (hrounds : chunk.length ≤ rounds) {s : σ} (h : inv l s) :
    inv (l ++ chunk) (windowLoop width pos fill full rounds chunk s) := by
  induction rounds generalizing l chunk s with
  | zero =>
      obtain rfl := List.eq_nil_of_length_eq_zero (Nat.le_zero.mp hrounds)
      rw [List.append_nil]
      exact h
  | succ rounds ih =>
      rw [windowLoop]
      split_ifs with hnil
      · rw [hnil, List.append_nil]
        exact h
      · have hspace := hpos l s h
        have hlength := List.length_pos_of_ne_nil hnil
        have hpiece : (chunk.take (width - pos s)).length = min (width - pos s) chunk.length :=
          List.length_take
        have hstep := hfill l s (chunk.take (width - pos s)) h (by omega)
        have hlater := @ih _ (chunk.drop (chunk.take (width - pos s)).length)
          (by rw [List.length_drop]; omega) _ hstep
        rw [List.append_assoc, take_append_rest] at hlater
        exact hlater

/-- The loop ends in the last of the states it goes through. -/
theorem getLast?_windowStates {σ : Type*} (pos : σ → ℕ) (fill : σ → List α → σ) (full : σ → σ)
    (rounds : ℕ) (chunk : List α) (s : σ) :
    (windowStates width pos fill full rounds chunk s).getLast? =
      some (windowLoop width pos fill full rounds chunk s) := by
  induction rounds generalizing chunk s with
  | zero => rfl
  | succ rounds ih =>
      rw [windowStates, windowLoop]
      split_ifs with hnil
      · rfl
      · rw [List.getLast?_cons, List.getLast?_cons, ih]
        rfl

/-- What every round keeps, of the state and the rest of the chunk, gives what holds in all the states
of the loop. -/
theorem windowStates_all {σ : Type*} {pos : σ → ℕ} {fill : σ → List α → σ} {full : σ → σ}
    {good : σ → Prop} (inv : List α → σ → Prop) (hgood : ∀ rest s, inv rest s → good s)
    (hround : ∀ piece rest s, inv (piece ++ rest) s → pos s + piece.length ≤ width →
      good (fill s piece) ∧
        inv rest (if pos (fill s piece) = width then full (fill s piece) else fill s piece))
    (hpos : ∀ rest s, inv rest s → pos s ≤ width) (rounds : ℕ) {chunk : List α} {s : σ}
    (h : inv chunk s) : ∀ t ∈ windowStates width pos fill full rounds chunk s, good t := by
  induction rounds generalizing chunk s with
  | zero =>
      intro t ht
      rw [windowStates, List.mem_singleton] at ht
      rw [ht]
      exact hgood chunk s h
  | succ rounds ih =>
      have hle := hpos chunk s h
      have hpiece : (chunk.take (width - pos s)).length ≤ width - pos s := List.length_take_le _ _
      have hnext := hround (chunk.take (width - pos s))
        (chunk.drop (chunk.take (width - pos s)).length) s (by rw [take_append_rest]; exact h)
        (by omega)
      intro t ht
      rw [windowStates] at ht
      split_ifs at ht with hnil
      · rw [List.mem_singleton] at ht
        rw [ht]
        exact hgood chunk s h
      · rw [List.mem_cons, List.mem_cons] at ht
        obtain rfl | rfl | ht := ht
        · exact hgood chunk t h
        · exact hnext.1
        · exact ih hnext.2 t ht

end Vsys.Stream
