import Mathlib.Algebra.Notation.Defs
import Vsys.Stream.Blocks
import Vsys.Trace.Run

/-!
# `ZAudBuff_S`

The samples since the last `Reset` in one buffer that grows.  `GetBuff` copies the samples between
two distances from the end to the caller.  Where there are fewer samples than asked for, zeros should
come in front of them; but the `memset` is of the buffer, not of the caller's memory, and it clears
samples that are stored (`getBuff_right_iff`).
-/

namespace Vsys.Buff

open Vsys.Stream Vsys.Trace

/-- The buffer; `m_iTotalSize` is the length of `data`. -/
structure ZAudBuffS (F : Type*) where
  working : Bool
  curSize : ℕ
  data : List F
  curSize_le : curSize ≤ data.length

namespace ZAudBuffS

variable {F : Type*}

/-- The samples stored. -/
def content (b : ZAudBuffS F) : List F := b.data.take b.curSize

/-- `Reset`. -/
def reset (b : ZAudBuffS F) : ZAudBuffS F where
  working := false
  curSize := 0
  data := b.data
  curSize_le := Nat.zero_le _

theorem length_content (b : ZAudBuffS F) : b.content.length = b.curSize := by
  rw [content, List.length_take]
  exact min_eq_left b.curSize_le

variable [Zero F]

/-- The constructor. -/
def create (size : ℕ) : ZAudBuffS F where
  working := false
  curSize := 0
  data := List.replicate size 0
  curSize_le := Nat.zero_le _

/-- The memory `PutBuff` writes to: a larger one if the samples do not fit. -/
def room (b : ZAudBuffS F) (iDataNum : ℕ) : List F :=
  if b.curSize + iDataNum > b.data.length then
    overwrite (List.replicate ((b.curSize + iDataNum) * 2) 0) 0 b.content
  else b.data

theorem le_length_room (b : ZAudBuffS F) (iDataNum : ℕ) :
    b.curSize + iDataNum ≤ (b.room iDataNum).length := by
  rw [room]
  split_ifs with hgrow
  · rw [overwrite_length (by rw [length_content, List.length_replicate]; omega),
      List.length_replicate]
    omega
  · omega

theorem take_room (b : ZAudBuffS F) (iDataNum : ℕ) : (b.room iDataNum).take b.curSize = b.content := by
  rw [room]
  split_ifs
  · exact take_overwrite_zero _ b.length_content
  · rfl

/-- `PutBuff`. -/
def putBuff (b : ZAudBuffS F) (pData : List F) : ZAudBuffS F where
  working := b.working
  curSize := b.curSize + pData.length
  data := overwrite (b.room pData.length) b.curSize pData
  curSize_le := by
    rw [overwrite_length (b.le_length_room _)]
    exact b.le_length_room _

/-- `memset(m_pData, 0, n * sizeof(float))`. -/
def clear (b : ZAudBuffS F) (n : ℕ) : ZAudBuffS F where
  working := b.working
  curSize := b.curSize
  data := List.replicate (min n b.data.length) 0 ++ b.data.drop n
  curSize_le := by
    have := b.curSize_le
    rw [List.length_append, List.length_replicate, List.length_drop]
    omega

/-- `GetBuff`: the buffer and the caller's memory afterwards, or nothing if the `memset` goes beyond
the buffer. -/
def getBuff (b : ZAudBuffS F) (pData : List F) (start stop : ℕ) : Option (ZAudBuffS F × List F) :=
  if start ≤ b.curSize then
    some (b, overwrite pData 0 ((b.data.drop (b.curSize - start)).take (start - stop)))
  else if start - b.curSize ≤ b.data.length then
    let cleared := b.clear (start - b.curSize)
    some (cleared,
      overwrite pData (start - b.curSize) (cleared.data.take (cleared.curSize - stop)))
  else none

theorem content_putBuff (b : ZAudBuffS F) (pData : List F) :
    (b.putBuff pData).content = b.content ++ pData := by
  have hroom := b.le_length_room pData.length
  calc
    (b.putBuff pData).content =
        (overwrite (b.room pData.length) b.curSize pData).take (b.curSize + pData.length) := rfl
    _ = b.content ++ pData := by rw [take_overwrite (by omega) pData rfl, take_room]

/-- The content is what was put since the last `Reset`. -/
theorem content_run (b : ZAudBuffS F) (chunks : List (List F)) :
    (run putBuff b.reset chunks).content = chunks.flatten := by
  have hkeep : ∀ l (b : ZAudBuffS F) (chunk : List F), b.content = l →
      (b.putBuff chunk).content = l ++ chunk := by
    rintro l b chunk rfl
    exact content_putBuff b chunk
  exact run_flatten (fun l (b : ZAudBuffS F) ↦ b.content = l) hkeep rfl chunks

/-! ## Reads -/

/-- The samples at the distances `start`, …, `stop + 1` from the end of a stream, with zeros before
its beginning. -/
def lastSamples (stream : List F) (start stop : ℕ) : List F :=
  (List.replicate (start - stream.length) 0 ++ stream.drop (stream.length - start)).take
    (start - stop)

/-- The caller gets the samples asked for, the rest of its memory is left alone, and the content of
the buffer stays. -/
def Right (b : ZAudBuffS F) (pData : List F) (start stop : ℕ) : Prop :=
  ∃ b' out, b.getBuff pData start stop = some (b', out) ∧
    out = lastSamples b.content start stop ++ pData.drop (start - stop) ∧
    b'.content = b.content

theorem content_clear (b : ZAudBuffS F) (n : ℕ) :
    (b.clear n).content = List.replicate (min n b.curSize) 0 ++ b.content.drop n := by
  have hle := b.curSize_le
  have hfront : min b.curSize (min n b.data.length) = min n b.curSize := by omega
  have hback : b.curSize - min n b.data.length = b.curSize - n := by omega
  calc
    (b.clear n).content =
        (List.replicate (min n b.data.length) 0 ++ b.data.drop n).take b.curSize := rfl
    _ = List.replicate (min n b.curSize) 0 ++ b.content.drop n := by
      rw [List.take_append, List.take_replicate, List.length_replicate, hfront, hback, content,
        List.drop_take]

theorem content_clear_eq_iff (b : ZAudBuffS F) (n : ℕ) :
    (b.clear n).content = b.content ↔ ∀ x ∈ b.content.take n, x = 0 := by
  have hlen : (b.content.take n).length = min n b.curSize := by
    rw [List.length_take, length_content]
  rw [content_clear]
  nth_rewrite 2 [← List.take_append_drop n b.content]
  rw [List.append_left_inj, eq_comm, List.eq_replicate_iff, hlen]
  exact and_iff_right rfl

/-- Copies of a beginning are the same if the whole is. -/
theorem take_clear_data (b : ZAudBuffS F) (n stop : ℕ) :
    (b.clear n).data.take ((b.clear n).curSize - stop) =
      (b.clear n).content.take (b.curSize - stop) := by
  rw [content, List.take_take]
  congr 1
  exact (min_eq_left (Nat.sub_le _ _)).symm

/-- Enough samples are stored: they are copied. -/
theorem right_of_enough (b : ZAudBuffS F) (pData : List F) {start stop : ℕ}
    (henough : start ≤ b.curSize) : b.Right pData start stop := by
  have hlength := b.length_content
  have hcopied : (b.data.drop (b.curSize - start)).take (start - stop) =
      lastSamples b.content start stop := by
    rw [lastSamples, hlength, Nat.sub_eq_zero_of_le henough, List.replicate_zero,
      List.nil_append, content, List.drop_take, List.take_take]
    congr 1
    omega
  have hlast : (lastSamples b.content start stop).length = start - stop := by
    have hle := b.curSize_le
    rw [← hcopied, List.length_take, List.length_drop]
    omega
  refine ⟨b, _, if_pos henough, ?_, rfl⟩
  rw [hcopied, overwrite_zero, hlast]

/-- Too few samples are stored: the zeros in front of them must be there already. -/
theorem right_iff_of_short (b : ZAudBuffS F) {pData : List F} {start stop : ℕ}
    (hcur : stop ≤ b.curSize) (hroom : start - stop ≤ pData.length) (hshort : ¬ start ≤ b.curSize) :
    b.Right pData start stop ↔
      start - b.curSize ≤ b.data.length ∧ (∀ x ∈ pData.take (start - b.curSize), x = 0) ∧
        ∀ x ∈ b.content.take (start - b.curSize), x = 0 := by
  have hlength := b.length_content
  set n := start - b.curSize with hn
  have hlast : lastSamples b.content start stop =
      List.replicate n 0 ++ b.content.take (b.curSize - stop) := by
    have hnone : b.curSize - start = 0 := by omega
    have hmin : min (start - stop) n = n := by omega
    have hrest : start - stop - n = b.curSize - stop := by omega
    rw [lastSamples, hlength, ← hn, hnone, List.drop_zero, List.take_append,
      List.take_replicate, List.length_replicate, hmin, hrest]
  have hout : ∀ copied : List F, copied.length = b.curSize - stop →
      overwrite pData n copied = pData.take n ++ copied ++ pData.drop (start - stop) := by
    intro copied hcopied
    rw [overwrite, hcopied]
    congr 2
    omega
  have hcopied : ((b.clear n).content.take (b.curSize - stop)).length = b.curSize - stop := by
    rw [List.length_take, length_content]
    exact min_eq_left (Nat.sub_le _ _)
  have hfront : (pData.take n).length = n := by
    rw [List.length_take]
    omega
  have hzeros : pData.take n = List.replicate n 0 ↔ ∀ x ∈ pData.take n, x = 0 := by
    rw [List.eq_replicate_iff]
    exact and_iff_right hfront
  rw [← hzeros, ← content_clear_eq_iff, Right, getBuff, if_neg hshort]
  constructor
  · rintro ⟨b', out, hget, hright, hcontent⟩
    split_ifs at hget with hfits
    obtain ⟨rfl, rfl⟩ := Prod.mk.inj (Option.some.inj hget)
    refine ⟨hfits, ?_, hcontent⟩
    rw [← hn, take_clear_data, hout _ hcopied, hlast, hcontent, List.append_left_inj] at hright
    exact (List.append_left_inj _).mp hright
  · rintro ⟨hfits, hmemory, hcontent⟩
    refine ⟨_, _, if_pos hfits, ?_, hcontent⟩
    rw [← hn, take_clear_data, hout _ hcopied, hlast, hcontent, hmemory]

/-- **When a read is right.**  Enough samples are stored; or the caller's memory and the stored
samples are zero already where zeros belong, and the `memset` stays within the buffer. -/
theorem right_iff_of_le (b : ZAudBuffS F) {pData : List F} {start stop : ℕ}
    (hcur : stop ≤ b.curSize) (hroom : start - stop ≤ pData.length) :
    b.Right pData start stop ↔
      start ≤ b.curSize ∨
        (start - b.curSize ≤ b.data.length ∧ (∀ x ∈ pData.take (start - b.curSize), x = 0) ∧
          ∀ x ∈ b.content.take (start - b.curSize), x = 0) := by
  by_cases henough : start ≤ b.curSize
  · exact iff_of_true (b.right_of_enough pData henough) (.inl henough)
  · rw [or_iff_right henough]
    exact b.right_iff_of_short hcur hroom henough

/-- **Reads of what was put since a `Reset`.**  The content is what was put, and a read of it is right
exactly if there is enough of it, or if zeros stand already where zeros belong. -/
theorem getBuff_right_iff (b : ZAudBuffS F) (chunks : List (List F)) {pData : List F}
    {start stop : ℕ} (_ : stop ≤ start) (hcur : stop ≤ (run putBuff b.reset chunks).curSize)
    (hroom : start - stop ≤ pData.length) :
    (run putBuff b.reset chunks).content = chunks.flatten ∧
      ((run putBuff b.reset chunks).Right pData start stop ↔
        start ≤ chunks.flatten.length ∨
          (start - chunks.flatten.length ≤ (run putBuff b.reset chunks).data.length ∧
            (∀ x ∈ pData.take (start - chunks.flatten.length), x = 0) ∧
            ∀ x ∈ chunks.flatten.take (start - chunks.flatten.length), x = 0)) := by
  have hcontent := content_run b chunks
  have hsize : (run putBuff b.reset chunks).curSize = chunks.flatten.length := by
    rw [← hcontent, length_content]
  refine ⟨hcontent, ?_⟩
  rw [← hsize, ← hcontent]
  exact right_iff_of_le _ hcur hroom

/-- A read of the last three of five samples, without the very last one. -/
theorem getBuff_right_of_five :
    (run putBuff (create 4 : ZAudBuffS ℤ).reset [[1, 2], [3, 4, 5]]).Right [0, 0] 3 1 :=
  (getBuff_right_iff (create 4 : ZAudBuffS ℤ) [[1, 2], [3, 4, 5]] (by decide) (by decide)
    (by decide)).2.mpr (.inl (by decide))

/-- **The wrong `memset`.**  Two samples are asked for and one is stored.  The caller's memory is not
cleared, and the sample is. -/
theorem not_right_of_short :
    ¬ (run putBuff (create 4 : ZAudBuffS ℤ).reset [[5]]).Right [7, 7] 2 0 ∧
      ((run putBuff (create 4 : ZAudBuffS ℤ).reset [[5]]).getBuff [7, 7] 2 0).map
        (fun answer ↦ (answer.1.content, answer.2)) = some ([0], [7, 0]) ∧
      lastSamples ((run putBuff (create 4 : ZAudBuffS ℤ).reset [[5]]).content) 2 0 = [0, 5] := by
  refine ⟨?_, by decide, by decide⟩
  rintro ⟨b', out, hget, -, hcontent⟩
  have hcleared : ((run putBuff (create 4 : ZAudBuffS ℤ).reset [[5]]).getBuff [7, 7] 2 0).map
      (fun answer ↦ answer.1.content) = some [5] := by
    rw [hget]
    exact congrArg some hcontent
  exact absurd hcleared (by decide)

end ZAudBuffS

end Vsys.Buff
