import Vsys.R2ad.MicHealth
import Vsys.Stream.Conserve

/-!
# `r2mem_buff` as a queue of bytes

`put` appends, `getdata` takes from the front.  When a `put` does not fit, the unread bytes move to
the front of a larger buffer, and `m_iLen` should lose the bytes that were read; but `m_iLen_Cur` is
cleared before it is subtracted.  So the buffer is a queue as long as it is never enlarged with
bytes read (`Fifo.conserves_iff`).
-/

namespace Vsys.R2ad

open Vsys.Stream Vsys.Trace

namespace Buff

/-- `getdatalen`. -/
def getDataLen (b : Buff) : ℕ := b.len - b.lenCur

theorem length_pending (b : Buff) : b.pending.length = b.getDataLen := by
  rw [pending, List.length_map, List.length_range, getDataLen]

/-- The bytes fit, or none of those in the buffer has been read. -/
def Fits (b : Buff) (len : ℕ) : Prop := b.len + len ≤ b.lenTotal ∨ b.lenCur = 0

instance (b : Buff) (len : ℕ) : Decidable (b.Fits len) := inferInstanceAs (Decidable (_ ∨ _))

theorem reserve_pending_of_fits {b : Buff} {len : ℕ} (h : b.Fits len) :
    (b.reserve len).pending = b.pending := by
  rw [reserve]
  split
  · obtain hfits | hunread := h
    · omega
    · simp only [pending, hunread, Nat.sub_zero, Nat.zero_add]
      apply List.map_congr_left
      intro p hp
      exact if_pos (List.mem_range.mp hp)
  · rfl

theorem put_pending_of_fits {b : Buff} (hb : b.lenCur ≤ b.len) {len : ℕ} (h : b.Fits len)
    (pData : ℕ → UInt8) : (b.put pData len).pending = b.pending ++ (List.range len).map pData := by
  rw [put_pending_eq hb, reserve_pending_of_fits h]

/-- A buffer that is enlarged with bytes read counts them as unread again. -/
theorem getDataLen_put_of_not_fits {b : Buff} {len : ℕ} (h : ¬ b.Fits len) (pData : ℕ → UInt8) :
    (b.put pData len).getDataLen = b.len + len := by
  have hgrow : b.lenTotal < b.len + len := by
    rw [Fits] at h
    omega
  rw [put, reserve, if_pos hgrow]
  rfl

end Buff

/-- A call on the buffer. -/
inductive FifoOp
  | put (pData : ℕ → UInt8) (len : ℕ)
  | getData (len : ℕ)

/-- A buffer with the bytes put into it and the bytes read. -/
structure Fifo where
  buff : Buff
  written : List UInt8
  read : List UInt8

namespace Fifo

/-- A new buffer. -/
def create : Fifo := ⟨Buff.create, [], []⟩

/-- The next call. -/
def step (s : Fifo) : FifoOp → Fifo
  | .put pData len =>
      { s with buff := s.buff.put pData len, written := s.written ++ (List.range len).map pData }
  | .getData len =>
      { s with buff := (s.buff.getData len).1, read := s.read ++ (s.buff.getData len).2 }

/-- The buffer is not enlarged with bytes read. -/
def Fits (s : Fifo) : FifoOp → Prop
  | .put _ len => s.buff.Fits len
  | .getData _ => True

instance (s : Fifo) : ∀ op, Decidable (s.Fits op)
  | .put _ len => inferInstanceAs (Decidable (s.buff.Fits len))
  | .getData _ => inferInstanceAs (Decidable True)

/-- The bytes read are the beginning of those put, and the length reported is that of the rest. -/
def Queued (s : Fifo) : Prop := Conserves s.written s.read s.buff.getDataLen

instance (s : Fifo) : Decidable s.Queued := inferInstanceAs (Decidable (Conserves _ _ _))

/-- What is unread are the bytes put after those read. -/
structure Inv (s : Fifo) : Prop where
  lenCur_le : s.buff.lenCur ≤ s.buff.len
  written : s.read ++ s.buff.pending = s.written

theorem create_inv : create.Inv := ⟨Nat.le_refl 0, rfl⟩

theorem Inv.queued {s : Fifo} (h : s.Inv) : s.Queued :=
  conserves_of_append h.written s.buff.length_pending

theorem Inv.step {s : Fifo} (h : s.Inv) {op : FifoOp} (hop : s.Fits op) : (s.step op).Inv := by
  cases op with
  | put pData len =>
      refine ⟨Buff.put_lenCur_le h.lenCur_le pData len, ?_⟩
      calc
        s.read ++ (s.buff.put pData len).pending =
            s.read ++ (s.buff.pending ++ (List.range len).map pData) := by
          rw [Buff.put_pending_of_fits h.lenCur_le hop]
        _ = s.written ++ (List.range len).map pData := by rw [← List.append_assoc, h.written]
  | getData len =>
      refine ⟨Buff.getData_lenCur_le h.lenCur_le len, ?_⟩
      calc
        s.read ++ (s.buff.getData len).2 ++ (s.buff.getData len).1.pending =
            s.read ++ s.buff.pending := by
          rw [List.append_assoc, Buff.getData_pending h.lenCur_le]
        _ = s.written := h.written

/-- The length reported is wrong at once. -/
theorem Inv.not_queued_step {s : Fifo} (h : s.Inv) {op : FifoOp} (hop : ¬ s.Fits op) :
    ¬ (s.step op).Queued := by
  cases op with
  | put pData len =>
      intro hqueued
      have hlen := h.queued.2
      have hlen' := hqueued.2
      have hread : 0 < s.buff.lenCur := by
        by_contra hzero
        exact hop (.inr (by omega))
      have hcur := h.lenCur_le
      simp only [Fifo.step, Buff.getDataLen_put_of_not_fits hop, List.length_append,
        List.length_map, List.length_range] at hlen'
      rw [Buff.getDataLen] at hlen
      omega
  | getData len => exact absurd trivial hop

/-- Two bytes, of which one is read, and a thousand more. -/
def readThenGrow : List FifoOp := [.put (fun _ ↦ 1) 2, .getData 1, .put (fun _ ↦ 2) 1000]

end Fifo

end Vsys.R2ad
