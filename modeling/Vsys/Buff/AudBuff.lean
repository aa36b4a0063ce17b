import Mathlib.Data.List.Induction
import Mathlib.Data.Rat.Defs
import Vsys.Stream.Ring
import Vsys.Trace.Run

/-!
# `ZAudBuff`

The last samples of every channel in a ring.  A chunk shorter than the ring is written in one piece
or in two; a chunk that fills the ring takes a shortcut, which copies `m_iMaxLen` samples from
`iLen - m_iMicNum` on, and so the last samples of the chunk only if there are as many microphones
as cells.

The ring always holds the end of what was really copied into it (`holds_written`), and reading is
right for every position (`getLastAudio_eq`).  `right_iff` compares what was copied with what was
put.
-/

namespace Vsys.Buff

open Vsys.Stream Vsys.Trace

/-- A chunk `pAudBuff` of `iLen` samples: `data i k` is what stands at `pAudBuff[i][k]`, also before
and behind the samples. -/
structure Chunk (micNum : ℕ) where
  iLen : ℕ
  data : Fin micNum → ℤ → ℚ

/-- `iLen` samples of a channel from `start` on. -/
def Chunk.slab {micNum : ℕ} (chunk : Chunk micNum) (i : Fin micNum) (start : ℤ) (iLen : ℕ) :
    List ℚ :=
  (List.range iLen).map fun k : ℕ ↦ chunk.data i (start + (k : ℤ))

/-- The samples of a channel. -/
def Chunk.samples {micNum : ℕ} (chunk : Chunk micNum) (i : Fin micNum) : List ℚ :=
  chunk.slab i 0 chunk.iLen

/-- A `memcpy` of `n` samples into a row. -/
def memcpy (row : ℕ → ℚ) (offset : ℕ) (src : ℤ → ℚ) (start : ℤ) (n : ℕ) : ℕ → ℚ := fun j ↦
  if offset ≤ j ∧ j < offset + n then src (start + ((j - offset : ℕ) : ℤ)) else row j

/-- The buffer; the rows of `audio` have `maxLen` cells. -/
structure ZAudBuff (micNum : ℕ) where
  maxLen : ℕ
  curPos : ℕ
  audio : Fin micNum → ℕ → ℚ

namespace ZAudBuff

variable {micNum : ℕ}

/-- The constructor; the rows come with what is in the memory. -/
def create (maxLen : ℕ) (memory : Fin micNum → ℕ → ℚ) : ZAudBuff micNum := ⟨maxLen, 0, memory⟩

/-- `PutAudio`. -/
def putAudio (b : ZAudBuff micNum) (chunk : Chunk micNum) : ZAudBuff micNum :=
  if b.maxLen ≤ chunk.iLen then
    { b with
      curPos := 0
      audio := fun i ↦
        memcpy (b.audio i) 0 (chunk.data i) ((chunk.iLen : ℤ) - micNum) b.maxLen }
  else
    let len1 := min chunk.iLen (b.maxLen - b.curPos)
    let b1 : ZAudBuff micNum :=
      { b with
        curPos := if b.curPos + len1 = b.maxLen then 0 else b.curPos + len1
        audio := fun i ↦ memcpy (b.audio i) b.curPos (chunk.data i) 0 len1 }
    if len1 < chunk.iLen then
      let len2 := chunk.iLen - len1
      { b1 with
        curPos := b1.curPos + len2
        audio := fun i ↦ memcpy (b1.audio i) b1.curPos (chunk.data i) len1 len2 }
    else b1

/-- The three layouts of a read, for one row. -/
def lastOfRow (b : ZAudBuff micNum) (iStart iEnd : ℕ) (row : ℕ → ℚ) : List ℚ :=
  if iStart < b.curPos then
    (List.range (iStart - iEnd)).map fun k ↦ row (b.curPos - iStart + k)
  else if b.curPos < iEnd then
    (List.range (iStart - iEnd)).map fun k ↦ row (b.maxLen + b.curPos - iStart + k)
  else
    let iLen1 := iStart - b.curPos
    let iLen2 := b.curPos - iEnd
    ((List.range iLen1).map fun k ↦ row (b.maxLen - iLen1 + k)) ++ (List.range iLen2).map row

/-- `GetLastAudio` for all channels. -/
def getLastAudio (b : ZAudBuff micNum) (iStart iEnd : ℕ) : Fin micNum → List ℚ := fun i ↦
  b.lastOfRow iStart iEnd (b.audio i)

/-- `GetLastAudio` for one channel. -/
def getLastAudioCn (b : ZAudBuff micNum) (iStart iEnd : ℕ) (iCn : Fin micNum) : List ℚ :=
  b.lastOfRow iStart iEnd (b.audio iCn)

/-- `Reset`. -/
def reset (b : ZAudBuff micNum) : ZAudBuff micNum := { b with curPos := 0, audio := fun _ _ ↦ 0 }

end ZAudBuff

/-- A call that changes the buffer. -/
inductive BuffOp (micNum : ℕ)
  | putAudio (chunk : Chunk micNum)
  | reset

namespace BuffOp

variable {micNum : ℕ}

/-- The effect of a call. -/
def apply (b : ZAudBuff micNum) : BuffOp micNum → ZAudBuff micNum
  | .putAudio chunk => b.putAudio chunk
  | .reset => b.reset

/-- The length of a chunk, nothing for a `Reset`. -/
def length : BuffOp micNum → Option ℕ
  | .putAudio chunk => some chunk.iLen
  | .reset => none

/-- The stream of a channel since the last `Reset`, with one call more. -/
def extend (i : Fin micNum) (stream : List ℚ) : BuffOp micNum → List ℚ
  | .putAudio chunk => stream ++ chunk.samples i
  | .reset => []

/-- What was really copied into a row since the last `Reset`, with one call more. -/
def extendWritten (maxLen : ℕ) (i : Fin micNum) (written : List ℚ) : BuffOp micNum → List ℚ
  | .putAudio chunk =>
      written ++
        if maxLen ≤ chunk.iLen then chunk.slab i ((chunk.iLen : ℤ) - micNum) maxLen
        else chunk.samples i
  | .reset => []

end BuffOp

/-- The samples put into a channel since the last `Reset`. -/
def stream {micNum : ℕ} (i : Fin micNum) (ops : List (BuffOp micNum)) : List ℚ :=
  ops.foldl (BuffOp.extend i) []

/-- The samples copied into a row since the last `Reset`. -/
def written {micNum : ℕ} (maxLen : ℕ) (i : Fin micNum) (ops : List (BuffOp micNum)) : List ℚ :=
  ops.foldl (BuffOp.extendWritten maxLen i) []

/-- The number of samples put after the last chunk that filled the ring, if there was one since the
last `Reset`. -/
def sinceLong (maxLen : ℕ) (lengths : List (Option ℕ)) : Option ℕ :=
  lengths.foldl (fun since length ↦
    length.bind fun iLen ↦ if maxLen ≤ iLen then some 0 else since.map (· + iLen)) none

/-! ## The ring -/

namespace ZAudBuff

variable {micNum : ℕ}

/-- The state after some calls. -/
def after (maxLen : ℕ) (memory : Fin micNum → ℕ → ℚ) (ops : List (BuffOp micNum)) :
    ZAudBuff micNum :=
  run BuffOp.apply (create maxLen memory) ops

/-- Every row holds the end of what was copied into it. -/
structure Ring (b : ZAudBuff micNum) (maxLen : ℕ) (written : Fin micNum → List ℚ) : Prop where
  maxLen_eq : b.maxLen = maxLen
  curPos_lt : b.curPos < maxLen ∨ maxLen = 0
  holds : ∀ i, Holds maxLen b.curPos (b.audio i) (written i)

/-- A short chunk that fits behind `curPos` is written in one piece. -/
theorem putAudio_of_fits {b : ZAudBuff micNum} {chunk : Chunk micNum}
    (hshort : chunk.iLen < b.maxLen) (hfits : b.curPos + chunk.iLen ≤ b.maxLen) :
    b.putAudio chunk =
      { b with
        curPos := ahead b.maxLen b.curPos chunk.iLen
        audio := fun i ↦ memcpy (b.audio i) b.curPos (chunk.data i) 0 chunk.iLen } := by
  have hlen1 : min chunk.iLen (b.maxLen - b.curPos) = chunk.iLen := by omega
  rw [putAudio, if_neg (by omega), hlen1, if_neg (by omega), ahead]
  split_ifs <;> first | omega | simp_all

/-- Any other short chunk is written in two pieces, the second from the beginning of the row. -/
theorem putAudio_of_wraps {b : ZAudBuff micNum} {chunk : Chunk micNum} (hpos : b.curPos < b.maxLen)
    (hshort : chunk.iLen < b.maxLen) (hwraps : b.maxLen < b.curPos + chunk.iLen) :
    b.putAudio chunk =
      { b with
        curPos := ahead b.maxLen b.curPos chunk.iLen
        audio := fun i ↦
          memcpy (memcpy (b.audio i) b.curPos (chunk.data i) 0 (b.maxLen - b.curPos)) 0
            (chunk.data i) (b.maxLen - b.curPos : ℕ) (chunk.iLen - (b.maxLen - b.curPos)) } := by
  have hlen1 : min chunk.iLen (b.maxLen - b.curPos) = b.maxLen - b.curPos := by omega
  have hend : b.curPos + (b.maxLen - b.curPos) = b.maxLen := by omega
  have hahead : ahead b.maxLen b.curPos chunk.iLen =
      0 + (chunk.iLen - (b.maxLen - b.curPos)) := by
    rw [ahead, if_neg (by omega)]
    omega
  rw [putAudio, if_neg (by omega), hlen1, if_pos (by omega), if_pos hend, hahead]

/-- An entry of a slab, counted from its end. -/
theorem slab_getElem? (chunk : Chunk micNum) (i : Fin micNum) (start : ℤ) {n k : ℕ} (hk : k < n) :
    (chunk.slab i start n)[k]? = some (chunk.data i (start + k)) := by
  rw [Chunk.slab, List.getElem?_map, List.getElem?_range hk]
  rfl

theorem slab_length (chunk : Chunk micNum) (i : Fin micNum) (start : ℤ) (n : ℕ) :
    (chunk.slab i start n).length = n := by
  rw [Chunk.slab, List.length_map, List.length_range]

theorem samples_length (chunk : Chunk micNum) (i : Fin micNum) :
    (chunk.samples i).length = chunk.iLen :=
  slab_length chunk i 0 chunk.iLen

theorem holds_putAudio_of_fits {b : ZAudBuff micNum} {chunk : Chunk micNum} {l : List ℚ}
    (hpos : b.curPos < b.maxLen) (hshort : chunk.iLen < b.maxLen)
    (hfits : b.curPos + chunk.iLen ≤ b.maxLen) {i : Fin micNum}
    (h : Holds b.maxLen b.curPos (b.audio i) l) :
    Holds b.maxLen (b.putAudio chunk).curPos ((b.putAudio chunk).audio i)
      (l ++ chunk.samples i) := by
  have hlen := samples_length chunk i
  rw [putAudio_of_fits hshort hfits]
  dsimp only
  rw [← hlen]
  refine h.append hpos (fun d hd hmore ↦ ?_) fun d hmore hcap ↦ ?_
  · rw [hlen] at hmore ⊢
    have hback : back b.maxLen (ahead b.maxLen b.curPos chunk.iLen) d =
        b.curPos + (chunk.iLen - d) := by
      rw [back, ahead]
      split_ifs <;> omega
    rw [Chunk.samples, slab_getElem? chunk i 0 (by omega), hback, memcpy, if_pos (by omega),
      Nat.add_sub_cancel_left]
  · rw [hlen] at hmore ⊢
    rw [memcpy, if_neg]
    rw [back, ahead]
    split_ifs <;> omega

theorem holds_putAudio_of_wraps {b : ZAudBuff micNum} {chunk : Chunk micNum} {l : List ℚ}
    (hpos : b.curPos < b.maxLen) (hshort : chunk.iLen < b.maxLen)
    (hwraps : b.maxLen < b.curPos + chunk.iLen) {i : Fin micNum}
    (h : Holds b.maxLen b.curPos (b.audio i) l) :
    Holds b.maxLen (b.putAudio chunk).curPos ((b.putAudio chunk).audio i)
      (l ++ chunk.samples i) := by
  have hlen := samples_length chunk i
  have hahead : ahead b.maxLen b.curPos chunk.iLen = b.curPos + chunk.iLen - b.maxLen := by
    rw [ahead, if_neg (by omega)]
  rw [putAudio_of_wraps hpos hshort hwraps]
  dsimp only
  rw [← hlen]
  refine h.append hpos (fun d hd hmore ↦ ?_) fun d hmore hcap ↦ ?_
  · rw [hlen] at hmore ⊢
    rw [Chunk.samples, slab_getElem? chunk i 0 (by omega), Int.zero_add]
    -- the entry is in the second piece or in the first
    by_cases hsecond : d ≤ b.curPos + chunk.iLen - b.maxLen
    · have hback : back b.maxLen (ahead b.maxLen b.curPos chunk.iLen) d =
          b.curPos + chunk.iLen - b.maxLen - d := by
        rw [back, hahead, if_pos hsecond]
      rw [hback, memcpy, if_pos (by omega), ← Int.natCast_add]
      congr 3
      omega
    · have hback : back b.maxLen (ahead b.maxLen b.curPos chunk.iLen) d =
          b.curPos + (chunk.iLen - d) := by
        rw [back, hahead, if_neg hsecond]
        omega
      rw [hback, memcpy, if_neg (by omega), memcpy, if_pos (by omega), Nat.add_sub_cancel_left,
        Int.zero_add]
  · rw [hlen] at hmore ⊢
    have hback : back b.maxLen (ahead b.maxLen b.curPos chunk.iLen) d =
        b.curPos + chunk.iLen - d := by
      rw [back, hahead]
      split_ifs <;> omega
    rw [hback, memcpy, if_neg (by omega), memcpy, if_neg (by omega)]

theorem holds_putAudio_short {b : ZAudBuff micNum} {chunk : Chunk micNum} {l : List ℚ}
    (hpos : b.curPos < b.maxLen) (hshort : chunk.iLen < b.maxLen) {i : Fin micNum}
    (h : Holds b.maxLen b.curPos (b.audio i) l) :
    Holds b.maxLen (b.putAudio chunk).curPos ((b.putAudio chunk).audio i)
      (l ++ chunk.samples i) := by
  obtain hfits | hwraps := Nat.lt_or_ge b.maxLen (b.curPos + chunk.iLen) |>.symm
  · exact holds_putAudio_of_fits hpos hshort hfits h
  · exact holds_putAudio_of_wraps hpos hshort hwraps h

theorem holds_putAudio_long {b : ZAudBuff micNum} {chunk : Chunk micNum}
    (hlong : b.maxLen ≤ chunk.iLen) (i : Fin micNum) (l : List ℚ) :
    Holds b.maxLen (b.putAudio chunk).curPos ((b.putAudio chunk).audio i)
      (l ++ chunk.slab i ((chunk.iLen : ℤ) - micNum) b.maxLen) := by
  have hlen := slab_length chunk i ((chunk.iLen : ℤ) - micNum) b.maxLen
  rw [putAudio, if_pos hlong]
  refine holds_append_left l (holds_of_whole hlen fun k hk ↦ ?_) (Nat.le_of_eq hlen.symm)
  dsimp only
  rw [slab_getElem? chunk i _ hk, memcpy, if_pos (by omega), Nat.sub_zero]

theorem maxLen_putAudio (b : ZAudBuff micNum) (chunk : Chunk micNum) :
    (b.putAudio chunk).maxLen = b.maxLen := by
  rw [putAudio]
  split_ifs
  · rfl
  · dsimp only
    split_ifs <;> rfl

theorem Ring.putAudio {b : ZAudBuff micNum} {maxLen : ℕ} {l : Fin micNum → List ℚ}
    (h : Ring b maxLen l) (chunk : Chunk micNum) :
    Ring (b.putAudio chunk) maxLen
      fun i ↦ BuffOp.extendWritten maxLen i (l i) (.putAudio chunk) := by
  obtain ⟨rfl, hpos, hholds⟩ := h
  by_cases hlong : b.maxLen ≤ chunk.iLen
  · refine ⟨maxLen_putAudio b chunk, ?_, fun i ↦ ?_⟩
    · rw [ZAudBuff.putAudio, if_pos hlong]
      exact (Nat.eq_zero_or_pos b.maxLen).symm
    · rw [BuffOp.extendWritten, if_pos hlong]
      exact holds_putAudio_long hlong i (l i)
  · have hshort : chunk.iLen < b.maxLen := Nat.lt_of_not_le hlong
    have hpos : b.curPos < b.maxLen := hpos.resolve_right (by omega)
    refine ⟨maxLen_putAudio b chunk, .inl ?_, fun i ↦ ?_⟩
    · obtain hfits | hwraps := Nat.lt_or_ge b.maxLen (b.curPos + chunk.iLen) |>.symm
      · rw [putAudio_of_fits hshort hfits]
        exact ahead_lt hpos (Nat.le_of_lt hshort)
      · rw [putAudio_of_wraps hpos hshort hwraps]
        exact ahead_lt hpos (Nat.le_of_lt hshort)
    · rw [BuffOp.extendWritten, if_neg hlong]
      exact holds_putAudio_short hpos hshort (hholds i)

theorem Ring.reset {b : ZAudBuff micNum} {maxLen : ℕ} {l : Fin micNum → List ℚ}
    (h : Ring b maxLen l) : Ring b.reset maxLen fun _ ↦ [] :=
  ⟨h.maxLen_eq, (Nat.eq_zero_or_pos maxLen).symm, fun _ ↦ holds_nil _ _ _⟩

/-- **The rows hold the end of what was copied.** -/
theorem ring_after (maxLen : ℕ) (memory : Fin micNum → ℕ → ℚ) (ops : List (BuffOp micNum)) :
    Ring (after maxLen memory ops) maxLen fun i ↦ written maxLen i ops := by
  induction ops using List.reverseRecOn with
  | nil => exact ⟨rfl, (Nat.eq_zero_or_pos maxLen).symm, fun _ ↦ holds_nil _ _ _⟩
  | append_singleton ops op ih =>
      have hafter : after maxLen memory (ops ++ [op]) =
          BuffOp.apply (after maxLen memory ops) op := by
        rw [after, run_append]
        rfl
      have hwritten : ∀ i, written maxLen i (ops ++ [op]) =
          BuffOp.extendWritten maxLen i (written maxLen i ops) op := fun i ↦ by
        rw [written, List.foldl_concat, ← written]
      simp only [hafter, hwritten]
      cases op with
      | putAudio chunk => exact ih.putAudio chunk
      | reset => exact ih.reset

/-! ## Reading -/

theorem map_range_row_congr (row : ℕ → ℚ) {f g : ℕ → ℕ} {n : ℕ} (h : ∀ k < n, f k = g k) :
    ((List.range n).map fun k ↦ row (f k)) = (List.range n).map fun k ↦ row (g k) := by
  apply List.map_congr_left
  intro k hk
  rw [h k (List.mem_range.mp hk)]

/-- The three layouts read the same cells: those from the distance `iStart` to `iEnd + 1`. -/
theorem lastOfRow_eq {b : ZAudBuff micNum} {iStart iEnd : ℕ} (hstart : iStart < b.maxLen)
    (hend : iEnd ≤ iStart) (row : ℕ → ℚ) :
    b.lastOfRow iStart iEnd row =
      (List.range (iStart - iEnd)).map fun k ↦ row (back b.maxLen b.curPos (iStart - k)) := by
  rw [lastOfRow]
  split_ifs with hbefore hbehind
  · apply map_range_row_congr
    intro k hk
    rw [back, if_pos (by omega)]
    omega
  · apply map_range_row_congr
    intro k hk
    rw [back, if_neg (by omega)]
    omega
  · have hlen : iStart - iEnd = (iStart - b.curPos) + (b.curPos - iEnd) := by omega
    rw [hlen, List.range_add, List.map_append, List.map_map]
    dsimp only
    congr 1
    · apply map_range_row_congr
      intro k hk
      rw [back, if_neg (by omega)]
      omega
    · apply map_range_row_congr row
      intro k hk
      dsimp only
      rw [back, if_pos (by omega)]
      omega

/-- Both reads return the end of what was copied. -/
theorem lastOfRow_after {maxLen : ℕ} {memory : Fin micNum → ℕ → ℚ} {ops : List (BuffOp micNum)}
    {i : Fin micNum} {iStart iEnd : ℕ} (hstart : iStart < maxLen) (hend : iEnd ≤ iStart)
    (hlen : iStart ≤ (written maxLen i ops).length) :
    (after maxLen memory ops).lastOfRow iStart iEnd ((after maxLen memory ops).audio i) =
      tailSlice (written maxLen i ops) iStart iEnd := by
  obtain ⟨hmaxLen, -, hholds⟩ := ring_after maxLen memory ops
  rw [lastOfRow_eq (hmaxLen.symm ▸ hstart) hend, hmaxLen]
  exact (hholds i).read (Nat.le_of_lt hstart) hlen

/-- Both overloads of `GetLastAudio` return the samples of the stream, for all distances up to the
number of samples. -/
def Right (b : ZAudBuff micNum) (stream : Fin micNum → List ℚ) : Prop :=
  ∀ i iStart iEnd, iEnd ≤ iStart → iStart < b.maxLen → iStart ≤ (stream i).length →
    b.getLastAudio iStart iEnd i = tailSlice (stream i) iStart iEnd ∧
      b.getLastAudioCn iStart iEnd i = tailSlice (stream i) iStart iEnd

end ZAudBuff

/-! ## What was copied and what was put -/

section Compare

variable {micNum : ℕ} {maxLen : ℕ}

theorem stream_concat (i : Fin micNum) (ops : List (BuffOp micNum)) (op : BuffOp micNum) :
    stream i (ops ++ [op]) = BuffOp.extend i (stream i ops) op := by
  rw [stream, List.foldl_concat, ← stream]

theorem written_concat (i : Fin micNum) (ops : List (BuffOp micNum)) (op : BuffOp micNum) :
    written maxLen i (ops ++ [op]) = BuffOp.extendWritten maxLen i (written maxLen i ops) op := by
  rw [written, List.foldl_concat, ← written]

theorem sinceLong_concat (lengths : List (Option ℕ)) (length : Option ℕ) :
    sinceLong maxLen (lengths ++ [length]) =
      length.bind fun iLen ↦
        if maxLen ≤ iLen then some 0 else (sinceLong maxLen lengths).map (· + iLen) := by
  rw [sinceLong, List.foldl_concat, ← sinceLong]

/-- Without a chunk that fills the ring, what was put was copied. -/
theorem written_eq_stream (i : Fin micNum) {ops : List (BuffOp micNum)}
    (h : sinceLong maxLen (ops.map BuffOp.length) = none) :
    written maxLen i ops = stream i ops := by
  induction ops using List.reverseRecOn with
  | nil => rfl
  | append_singleton ops op ih =>
      rw [written_concat, stream_concat]
      cases op with
      | reset => rfl
      | putAudio chunk =>
          rw [List.map_append, List.map_singleton, sinceLong_concat] at h
          simp only [BuffOp.length, Option.bind_some] at h
          split_ifs at h with hlong
          rw [Option.map_eq_none_iff] at h
          rw [BuffOp.extendWritten, BuffOp.extend, if_neg hlong, ih h]

/-- The last chunk that filled the ring: both sides go on alike behind it. -/
theorem exists_long (i : Fin micNum) {ops : List (BuffOp micNum)} {d : ℕ}
    (h : sinceLong maxLen (ops.map BuffOp.length) = some d) :
    ∃ (chunk : Chunk micNum) (front front' behind : List ℚ),
      .putAudio chunk ∈ ops ∧ maxLen ≤ chunk.iLen ∧ behind.length = d ∧
      written maxLen i ops =
        front ++ chunk.slab i ((chunk.iLen : ℤ) - micNum) maxLen ++ behind ∧
      stream i ops = front' ++ chunk.samples i ++ behind := by
  induction ops using List.reverseRecOn generalizing d with
  | nil => exact nomatch h
  | append_singleton ops op ih =>
      rw [List.map_append, List.map_singleton, sinceLong_concat] at h
      cases op with
      | reset => exact nomatch h
      | putAudio chunk =>
          simp only [BuffOp.length, Option.bind_some] at h
          rw [written_concat, stream_concat, BuffOp.extendWritten, BuffOp.extend]
          split_ifs at h ⊢ with hlong
          · obtain rfl := Option.some_inj.mp h
            exact ⟨chunk, written maxLen i ops, stream i ops, [], by simp, hlong, rfl, by simp,
              by simp⟩
          · obtain ⟨before, hbefore, rfl⟩ := Option.map_eq_some_iff.mp h
            obtain ⟨long, front, front', behind, hmem, hlen, rfl, hwritten, hstream⟩ := ih hbefore
            refine ⟨long, front, front', behind ++ chunk.samples i, by simp [hmem], hlen, ?_, ?_, ?_⟩
            · rw [List.length_append, Chunk.samples, ZAudBuff.slab_length]
            · rw [hwritten, List.append_assoc]
            · rw [hstream, List.append_assoc]

/-- With as many microphones as cells, the shortcut copies the last samples of the chunk. -/
theorem samples_eq_append_slab (chunk : Chunk micNum) (i : Fin micNum) (hlong : micNum ≤ chunk.iLen) :
    chunk.samples i = chunk.slab i 0 (chunk.iLen - micNum) ++
      chunk.slab i ((chunk.iLen : ℤ) - micNum) micNum := by
  have hlen : chunk.iLen = (chunk.iLen - micNum) + micNum := by omega
  rw [Chunk.samples, Chunk.slab, Chunk.slab, Chunk.slab]
  nth_rewrite 1 [hlen]
  rw [List.range_add, List.map_append, List.map_map]
  congr 1
  apply List.map_congr_left
  intro k _
  rw [Function.comp_apply]
  congr 1
  omega

/-- The condition under which the last chunk that filled the ring is no longer seen. -/
def Recovered (micNum maxLen : ℕ) (lengths : List (Option ℕ)) : Prop :=
  micNum = 0 ∨ micNum = maxLen ∨ ∀ d ∈ sinceLong maxLen lengths, maxLen ≤ d + 1

instance (micNum maxLen : ℕ) (lengths : List (Option ℕ)) :
    Decidable (Recovered micNum maxLen lengths) :=
  inferInstanceAs (Decidable (_ ∨ _ ∨ _))

/-- Then what was copied and what was put end alike, as far as a read can see. -/
theorem tailSlice_written (i : Fin micNum) {ops : List (BuffOp micNum)} {iStart : ℕ}
    (h : Recovered micNum maxLen (ops.map BuffOp.length)) (hstart : iStart < maxLen) (iEnd : ℕ)
    (hlen : iStart ≤ (stream i ops).length) :
    iStart ≤ (written maxLen i ops).length ∧
      tailSlice (written maxLen i ops) iStart iEnd = tailSlice (stream i ops) iStart iEnd := by
  cases hsince : sinceLong maxLen (ops.map BuffOp.length) with
  | none =>
      rw [written_eq_stream i hsince]
      exact ⟨hlen, rfl⟩
  | some d =>
      obtain ⟨chunk, front, front', behind, -, hlong, hbehind, hwritten, hstream⟩ :=
        exists_long i hsince
      obtain hnone | rfl | hfar := h
      · exact absurd i.isLt (by omega)
      · have hslab := ZAudBuff.slab_length chunk i ((chunk.iLen : ℤ) - micNum) micNum
        have hend : iStart ≤
            (chunk.slab i ((chunk.iLen : ℤ) - micNum) micNum ++ behind).length := by
          rw [List.length_append, hslab]
          omega
        rw [samples_eq_append_slab chunk i hlong, ← List.append_assoc] at hstream
        rw [hwritten, hstream, List.append_assoc, List.append_assoc,
          tailSlice_append_right _ hend, tailSlice_append_right _ hend]
        refine ⟨?_, rfl⟩
        rw [List.length_append]
        omega
      · have hd : maxLen ≤ d + 1 := hfar d hsince
        have hend : iStart ≤ behind.length := by omega
        rw [hwritten, hstream, tailSlice_append_right _ hend, tailSlice_append_right _ hend]
        refine ⟨?_, rfl⟩
        rw [List.length_append]
        omega

end Compare

namespace ZAudBuff

variable {micNum : ℕ}

theorem right_of_recovered {maxLen : ℕ} (memory : Fin micNum → ℕ → ℚ) {ops : List (BuffOp micNum)}
    (h : Recovered micNum maxLen (ops.map BuffOp.length)) :
    Right (after maxLen memory ops) fun i ↦ stream i ops := by
  intro i iStart iEnd hend hstart hlen
  rw [(ring_after maxLen memory ops).maxLen_eq] at hstart
  obtain ⟨hlen', hslice⟩ := tailSlice_written i h hstart iEnd hlen
  have hread := (@lastOfRow_after _ _ memory _ _ _ _ hstart hend hlen').trans hslice
  exact ⟨hread, hread⟩

/-- A call with samples that tell where they stand in the chunk. -/
def numbered (micNum : ℕ) : Option ℕ → BuffOp micNum
  | some iLen => .putAudio ⟨iLen, fun _ k ↦ k⟩
  | none => .reset

theorem length_numbered (lengths : List (Option ℕ)) :
    (lengths.map (numbered micNum)).map BuffOp.length = lengths := by
  rw [List.map_map]
  conv_rhs => rw [← List.map_id lengths]
  apply List.map_congr_left
  intro length _
  cases length <;> rfl

theorem data_of_mem_numbered {lengths : List (Option ℕ)} {chunk : Chunk micNum}
    (h : .putAudio chunk ∈ lengths.map (numbered micNum)) (i : Fin micNum) (k : ℤ) :
    chunk.data i k = k := by
  obtain ⟨length, -, hchunk⟩ := List.mem_map.mp h
  cases length with
  | none => exact nomatch hchunk
  | some iLen =>
      obtain rfl := BuffOp.putAudio.inj hchunk
      rfl

/-- The sample at one distance. -/
theorem tailSlice_singleton {α : Type*} (front behind : List α) (x : α) :
    tailSlice (front ++ [x] ++ behind) (behind.length + 1) behind.length = [x] := by
  have hlen : (front ++ [x] ++ behind).length - (behind.length + 1) = front.length := by
    simp
  rw [tailSlice, hlen, List.append_assoc, List.drop_left]
  simp

theorem slab_succ (chunk : Chunk micNum) (i : Fin micNum) (start : ℤ) (n : ℕ) :
    chunk.slab i start (n + 1) = chunk.slab i start n ++ [chunk.data i (start + n)] := by
  rw [Chunk.slab, Chunk.slab, List.range_succ, List.map_append, List.map_singleton]

/-- A long chunk of numbered samples whose end has not been overwritten is read wrong. -/
theorem recovered_of_right {maxLen : ℕ} {memory : Fin micNum → ℕ → ℚ} {lengths : List (Option ℕ)}
    (h : Right (after maxLen memory (lengths.map (numbered micNum)))
      fun i ↦ stream i (lengths.map (numbered micNum))) :
    Recovered micNum maxLen lengths := by
  by_contra hbad
  simp only [Recovered, not_or, not_forall, Nat.not_le] at hbad
  obtain ⟨hmics, hcells, d, hsince, hd⟩ := hbad
  let i : Fin micNum := ⟨0, Nat.pos_of_ne_zero hmics⟩
  rw [← @length_numbered micNum lengths] at hsince
  obtain ⟨chunk, front, front', behind, hmem, hlong, rfl, hwritten, hstream⟩ :=
    exists_long i hsince
  have hdata := data_of_mem_numbered hmem i
  -- the last sample of the long chunk, as it was copied and as it was put
  obtain ⟨m, rfl⟩ : ∃ m, maxLen = m + 1 := ⟨maxLen - 1, by omega⟩
  obtain ⟨n, hn⟩ : ∃ n, chunk.iLen = n + 1 := ⟨chunk.iLen - 1, by omega⟩
  rw [slab_succ, ← List.append_assoc, hdata] at hwritten
  rw [Chunk.samples, hn, slab_succ, ← List.append_assoc, hdata] at hstream
  have hcopied : (after (m + 1) memory (lengths.map (numbered micNum))).getLastAudio
      (behind.length + 1) behind.length i = _ :=
    lastOfRow_after (by omega) (by omega) (by rw [hwritten]; simp; omega)
  have hput := h i (behind.length + 1) behind.length (by omega)
    (by rw [(ring_after _ _ _).maxLen_eq]; omega) (by dsimp only; rw [hstream]; simp; omega)
  dsimp only at hput
  rw [hcopied, hwritten, hstream, tailSlice_singleton, tailSlice_singleton] at hput
  have hsame : (chunk.iLen : ℤ) - micNum + m = 0 + n := by
    exact_mod_cast List.singleton_inj.mp hput.1
  omega

/-- **When the last samples are the last samples.** For chunks of given lengths, both overloads of
`GetLastAudio` return the samples that were put, whatever these are, exactly if there are as many
microphones as cells (or none), or no chunk filled the ring since the last `Reset`, or enough
samples came after the last one that did. -/
theorem right_iff (maxLen : ℕ) (memory : Fin micNum → ℕ → ℚ) (lengths : List (Option ℕ)) :
    (∀ ops : List (BuffOp micNum), ops.map BuffOp.length = lengths →
        Right (after maxLen memory ops) fun i ↦ stream i ops) ↔
      Recovered micNum maxLen lengths := by
  constructor
  · intro h
    exact recovered_of_right (h (lengths.map (numbered micNum)) (length_numbered lengths))
  · rintro h ops rfl
    exact right_of_recovered memory h

/-- Two channels with the samples `0, 1, 2, 3` in a ring of four cells. -/
def four : List (BuffOp 2) := [.putAudio ⟨4, fun _ k ↦ k⟩]

theorem not_right_four : ¬ Right (after 4 (fun _ _ ↦ 0) four) fun i ↦ stream i four := by
  intro h
  have hread := (h 0 3 2 (by decide) (by decide) (by decide)).1
  exact absurd hread (by decide)

end ZAudBuff

end Vsys.Buff
