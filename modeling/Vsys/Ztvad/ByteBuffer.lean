import Mathlib.Data.List.Basic
import Vsys.Num.RoundEven
import Vsys.Trace.Run

/-!
# Byte buffers that grow

`ByteBuffer` keeps a block of memory, its recorded size and the number of bytes stored at its
beginning.  A byte of a new block is not set, `none`.  A call that reads or writes outside a block,
or whose `int` arithmetic overflows, has no result.

`Queue` is what a byte buffer is for.  The buffer is such a queue as long as `Init` is not called
with the recorded size of a block that `Reset` has freed: it then returns true without a block.
-/

namespace Vsys.Bytes

open Vsys.Num

variable {α : Type}

/-! ## The buffer -/

/-- A block of memory. -/
abbrev Block (α : Type) := List (Option α)

/-- Copies `data` into the block from `pos` on. -/
def memcpy (block : Block α) (pos : ℕ) (data : Block α) : Option (Block α) :=
  if pos + data.length ≤ block.length then
    some (block.take pos ++ data ++ block.drop (pos + data.length))
  else none

/-- The `count` bytes from `pos` on, if the block has them. -/
def readBytes (block : Block α) (pos count : ℕ) : Option (Block α) :=
  if pos + count ≤ block.length then some ((block.drop pos).take count) else none

/-- `ByteBuffer`. -/
structure ByteBuffer (α : Type) where
  pBuffer : Option (Block α)
  nBufSize : ℕ
  bAutoInc : Bool
  nBufPos : ℕ
  nMaxBufSize : ℕ
deriving DecidableEq

/-- What a call returns, and the length that `Feed` leaves. -/
structure Reply where
  returned : Bool
  nLen : ℤ
deriving DecidableEq

/-- An increase of the size in single precision: `1.25f` times the size, in quarters. -/
def increased (nBufSize : ℕ) : ℕ := roundEven 24 (5 * roundEven 24 nBufSize)

/-- The needed size is below the increased one; an `int` is compared as a `float`. -/
def IsSmall (nBufSize nNewSize : ℕ) : Prop := 4 * roundEven 24 nNewSize < increased nBufSize

instance (nBufSize nNewSize : ℕ) : Decidable (IsSmall nBufSize nNewSize) :=
  inferInstanceAs (Decidable (_ < _))

/-- The size of the new block.  The cast to `int` fails from `2 ^ 31` on. -/
def grownSize (nBufSize nMaxBufSize nNewSize : ℕ) : Option ℕ := do
  let nNewSize ←
    if IsSmall nBufSize nNewSize then
      if increased nBufSize / 4 < 2 ^ 31 then some (increased nBufSize / 4) else none
    else some nNewSize
  some (if nMaxBufSize < nNewSize then nMaxBufSize else nNewSize)

namespace ByteBuffer

/-- The constructor; the other members are not set. -/
def new (bAutoInc : Bool) (nBufPos nMaxBufSize : ℕ) : ByteBuffer α where
  pBuffer := none
  nBufSize := 0
  bAutoInc := bAutoInc
  nBufPos := nBufPos
  nMaxBufSize := nMaxBufSize

variable (b : ByteBuffer α)

/-- `Clear`. -/
def clear : ByteBuffer α := { b with nBufPos := 0 }

/-- `Reset`. -/
def reset : ByteBuffer α := { b.clear with pBuffer := none }

/-- `SetAutoInc`. -/
def setAutoInc (bAutoInc : Bool) : ByteBuffer α := { b with bAutoInc := bAutoInc }

/-- `Init`. -/
def init (nBufInitSize : ℤ) (bAutoInc : Bool) (nMaxBufSize : ℤ) : ByteBuffer α × Bool :=
  if nBufInitSize ≤ 0 ∨ nMaxBufSize ≤ 0 ∨ nMaxBufSize < nBufInitSize then (b, false)
  else if (b.nBufSize : ℤ) = nBufInitSize then
    ({ b with bAutoInc := bAutoInc, nMaxBufSize := nMaxBufSize.toNat }.clear, true)
  else
    ({ b.reset with
        pBuffer := some (List.replicate nBufInitSize.toNat none)
        nBufSize := nBufInitSize.toNat
        bAutoInc := bAutoInc
        nMaxBufSize := nMaxBufSize.toNat }.clear, true)

/-- The end of `Feed`: `nUsable` bytes are copied behind the stored ones. -/
def store (block : Block α) (data : List α) (nLen nUsable : ℕ) : Option (ByteBuffer α × Reply) := do
  let source ← readBytes (data.map some) 0 nUsable
  let block ← memcpy block b.nBufPos source
  some ({ b with pBuffer := some block, nBufPos := b.nBufPos + nUsable },
    ⟨true, (nLen : ℤ) - nUsable⟩)

/-- `Feed` of a block that is not null, with a length that is not negative. -/
def feedBlock (block : Block α) (data : List α) (nLen : ℕ) : Option (ByteBuffer α × Reply) :=
  if 2 ^ 31 ≤ b.nBufPos + nLen then none
  else if b.nBufSize < b.nBufPos + nLen then
    if b.bAutoInc then
      if b.nMaxBufSize < b.nBufPos + nLen then some (b, ⟨false, nLen⟩)
      else do
        let nNewSize ← grownSize b.nBufSize b.nMaxBufSize (b.nBufPos + nLen)
        let stored ← readBytes block 0 b.nBufPos
        let pNewBuf ← memcpy (List.replicate nNewSize none) 0 stored
        { b with pBuffer := some pNewBuf, nBufSize := nNewSize }.store pNewBuf data nLen nLen
    else b.store block data nLen (b.nBufSize - b.nBufPos)
  else b.store block data nLen nLen

/-- `Feed`; a null pointer is `none`. -/
def feed (pData : Option (List α)) (nLen : ℤ) : Option (ByteBuffer α × Reply) :=
  match pData, b.pBuffer with
  | some data, some block =>
      if nLen < 0 then some (b, ⟨false, nLen⟩) else b.feedBlock block data nLen.toNat
  | _, _ => some (b, ⟨false, nLen⟩)

/-- `Shift`. -/
def shift (nLen : ℤ) : Option (ByteBuffer α × Bool) :=
  match b.pBuffer with
  | none => some (b, false)
  | some block =>
      if nLen < 0 then some (b, false)
      else if nLen = 0 then some (b, true)
      else if (b.nBufPos : ℤ) ≤ nLen then some ({ b with nBufPos := 0 }, true)
      else do
        let kept ← readBytes block nLen.toNat (b.nBufPos - nLen.toNat)
        let block ← memcpy block 0 kept
        some ({ b with pBuffer := some block, nBufPos := b.nBufPos - nLen.toNat }, true)

/-- `GetBytes` up to `GetByteNum`. -/
def getBytes : Block α := (b.pBuffer.getD []).take b.nBufPos

end ByteBuffer

/-- A call of a byte buffer. -/
inductive Call (α : Type) where
  | init (nBufInitSize : ℤ) (bAutoInc : Bool) (nMaxBufSize : ℤ)
  | reset
  | clear
  | setAutoInc (bAutoInc : Bool)
  | feed (pData : Option (List α)) (nLen : ℤ)
  | shift (nLen : ℤ)
deriving DecidableEq

/-- A call with its answer; `Reset`, `Clear` and `SetAutoInc` return nothing. -/
def ByteBuffer.call (b : ByteBuffer α) : Call α → Option (ByteBuffer α × Reply)
  | .init nBufInitSize bAutoInc nMaxBufSize =>
      let (b, returned) := b.init nBufInitSize bAutoInc nMaxBufSize
      some (b, ⟨returned, 0⟩)
  | .reset => some (b.reset, ⟨true, 0⟩)
  | .clear => some (b.clear, ⟨true, 0⟩)
  | .setAutoInc bAutoInc => some (b.setAutoInc bAutoInc, ⟨true, 0⟩)
  | .feed pData nLen => b.feed pData nLen
  | .shift nLen => (b.shift nLen).map fun result ↦ (result.1, ⟨result.2, 0⟩)

/-! ## The queue -/

/-- A bounded byte queue. -/
structure Queue (α : Type) where
  bytes : List α
  capacity : ℕ
  autoInc : Bool
  maximum : ℕ

namespace Queue

/-- The bytes that are appended of `data`. -/
def accepted (q : Queue α) (data : List α) : List α :=
  if q.autoInc then if q.maximum < q.bytes.length + data.length then [] else data
  else data.take (q.capacity - q.bytes.length)

/-- The queue after `data` was offered.  A queue that grows has the capacity `grown` then. -/
def feed (q : Queue α) (data : List α) (grown : ℕ) : Queue α where
  bytes := q.bytes ++ q.accepted data
  capacity :=
    if q.capacity < (q.bytes ++ q.accepted data).length then grown else q.capacity
  autoInc := q.autoInc
  maximum := q.maximum

/-- What the queue answers to `data`. -/
def reply (q : Queue α) (data : List α) : Reply :=
  ⟨!(q.autoInc && decide (q.maximum < q.bytes.length + data.length)),
    (data.length : ℤ) - (q.accepted data).length⟩

/-- What becomes of the queue; there is none before `Init` and after `Reset`. -/
def after (q : Option (Queue α)) (grown : ℕ) : Call α → Option (Queue α)
  | .init nBufInitSize bAutoInc nMaxBufSize =>
      if 0 < nBufInitSize ∧ nBufInitSize ≤ nMaxBufSize then
        some ⟨[], nBufInitSize.toNat, bAutoInc, nMaxBufSize.toNat⟩
      else q
  | .reset => none
  | .clear => q.map fun q ↦ { q with bytes := [] }
  | .setAutoInc bAutoInc => q.map fun q ↦ { q with autoInc := bAutoInc }
  | .feed none _ => q
  | .feed (some data) nLen =>
      if nLen < 0 then q else q.map fun q ↦ q.feed (data.take nLen.toNat) grown
  | .shift nLen => q.map fun q ↦ { q with bytes := q.bytes.drop nLen.toNat }

/-- What the call has to answer. -/
def Answers (q : Option (Queue α)) (reply : Reply) : Call α → Prop
  | .init nBufInitSize _ nMaxBufSize =>
      reply.returned = decide (0 < nBufInitSize ∧ nBufInitSize ≤ nMaxBufSize)
  | .feed none nLen => reply = ⟨false, nLen⟩
  | .feed (some data) nLen =>
      if nLen < 0 then reply = ⟨false, nLen⟩
      else ∀ queue, q = some queue → reply = queue.reply (data.take nLen.toNat)
  | _ => True

end Queue

/-- The bytes of the queue are those that `GetBytes` and `GetByteNum` show. -/
structure ByteBuffer.Shows (b : ByteBuffer α) (q : Queue α) : Prop where
  bytes : b.getBytes = q.bytes.map some
  byteNum : b.nBufPos = q.bytes.length
  bufSize : b.nBufSize = q.capacity
  autoInc : b.bAutoInc = q.autoInc
  maxBufSize : b.nMaxBufSize = q.maximum
  le_capacity : q.bytes.length ≤ q.capacity
  capacity_le : q.capacity ≤ q.maximum

/-- The buffer is a bounded byte queue along the calls: it shows the queue between them, every
call has a result and answers as the queue does, and one that returns false changes nothing. -/
def Lawful : ByteBuffer α → Option (Queue α) → List (Call α) → Prop
  | b, q, [] => ∀ queue, q = some queue → b.Shows queue
  | b, q, call :: calls =>
      (∀ queue, q = some queue → b.Shows queue) ∧
        ∃ b' reply, b.call call = some (b', reply) ∧ (reply.returned = false → b' = b) ∧
          Queue.Answers q reply call ∧ Lawful b' (Queue.after q b'.nBufSize call) calls

/-! ## The calls as steps -/

/-- A buffer, and whether `Init` has returned true since the last `Reset`. -/
structure Session (α : Type) where
  buffer : ByteBuffer α
  live : Bool

namespace Session

/-- Whether the buffer is in use after a call. -/
def liveAfter (live returned : Bool) : Call α → Bool
  | .init _ _ _ => live || returned
  | .reset => false
  | _ => live

/-- After a call; a call without a result changes nothing. -/
def call (s : Session α) (c : Call α) : Session α :=
  match s.buffer.call c with
  | none => s
  | some (b, reply) => ⟨b, liveAfter s.live reply.returned c⟩

/-- A new buffer, whose members are not all set. -/
def new (bAutoInc : Bool) (nBufPos nMaxBufSize : ℕ) : Session α :=
  ⟨ByteBuffer.new bAutoInc nBufPos nMaxBufSize, false⟩

/-- The caller's part: `Feed` gets as many bytes as it is told, and lengths do not add up to
`2 ^ 31`. -/
def Fits (s : Session α) : Call α → Prop
  | .feed (some data) nLen =>
      nLen ≤ data.length ∧ (s.buffer.pBuffer.isSome = true → s.buffer.nBufPos + nLen < 2 ^ 31)
  | _ => True

/-- A `Feed` of a buffer in use, which does not exceed the maximum, finds a block, and a size that
is increased remains an `int`. -/
def Sane (s : Session α) : Call α → Prop
  | .feed (some _) nLen =>
      0 ≤ nLen → s.live = true →
        ¬ (s.buffer.bAutoInc = true ∧ s.buffer.nMaxBufSize < s.buffer.nBufPos + nLen.toNat) →
          s.buffer.pBuffer.isSome = true ∧
            (s.buffer.bAutoInc = true → s.buffer.nBufSize < s.buffer.nBufPos + nLen.toNat →
              IsSmall s.buffer.nBufSize (s.buffer.nBufPos + nLen.toNat) →
                increased s.buffer.nBufSize / 4 < 2 ^ 31)
  | _ => True

instance (s : Session α) : ∀ c, Decidable (s.Fits c)
  | .feed (some _) _ => inferInstanceAs (Decidable (_ ∧ _))
  | .feed none _ | .init _ _ _ | .reset | .clear | .setAutoInc _ | .shift _ => isTrue trivial

instance (s : Session α) : ∀ c, Decidable (s.Sane c)
  | .feed (some _) _ => inferInstanceAs (Decidable (_ → _ → ¬ _ → _))
  | .feed none _ | .init _ _ _ | .reset | .clear | .setAutoInc _ | .shift _ => isTrue trivial

end Session

/-- `Init` returns true without a block exactly if there is none and the recorded size is asked
for. -/
theorem ByteBuffer.init_pBuffer_eq_none_iff (b : ByteBuffer α) {nBufInitSize nMaxBufSize : ℤ}
    (bAutoInc : Bool) (h : 0 < nBufInitSize ∧ nBufInitSize ≤ nMaxBufSize) :
    (b.init nBufInitSize bAutoInc nMaxBufSize).1.pBuffer = none ↔
      b.pBuffer = none ∧ (b.nBufSize : ℤ) = nBufInitSize := by
  rw [init, if_neg (by omega)]
  split_ifs with hsize
  · exact (and_iff_left hsize).symm
  · exact iff_of_false (Option.some_ne_none _) fun hboth ↦ hsize hboth.2

/-! ## Blocks -/

theorem readBytes_eq {block : Block α} {pos count : ℕ} (h : pos + count ≤ block.length) :
    readBytes block pos count = some ((block.drop pos).take count) := if_pos h

/-- The bytes behind the copied ones may be anything. -/
theorem memcpy_spec (block data : Block α) (pos : ℕ) (h : pos + data.length ≤ block.length) :
    ∃ next, memcpy block pos data = some next ∧ next.length = block.length ∧
      next.take (pos + data.length) = block.take pos ++ data := by
  have hpos : (block.take pos).length = pos := List.length_take_of_le (by omega)
  have hfront : (block.take pos ++ data).length = pos + data.length := by
    rw [List.length_append, hpos]
  refine ⟨_, if_pos h, ?_, ?_⟩
  · rw [List.length_append, hfront, List.length_drop]
    omega
  · rw [← hfront, List.take_left]

/-- A size that grows is the needed one or above it, and within the maximum. -/
theorem grownSize_spec {nBufSize nMaxBufSize need : ℕ} (hmax : need ≤ nMaxBufSize)
    (hcast : IsSmall nBufSize need → increased nBufSize / 4 < 2 ^ 31) :
    ∃ size, grownSize nBufSize nMaxBufSize need = some size ∧ need ≤ size ∧
      size ≤ nMaxBufSize := by
  by_cases hsmall : IsSmall nBufSize need
  · have hneed : need ≤ increased nBufSize / 4 := by
      by_contra hlt
      obtain ⟨kept, hkept, heq⟩ := exists_roundEven 24 (5 * roundEven 24 nBufSize)
      have hle : increased nBufSize ≤ 2 ^ 2 * need := by omega
      rw [increased, heq] at hle
      have hround := le_roundEven_of_le (by decide) hkept hle
      rw [← heq] at hround
      exact absurd hsmall (Nat.not_lt.mpr hround)
    refine ⟨_, by rw [grownSize, if_pos hsmall, if_pos (hcast hsmall)]; rfl, ?_, ?_⟩
    all_goals split_ifs
    all_goals omega
  · refine ⟨need, ?_, le_rfl, hmax⟩
    rw [grownSize, if_neg hsmall]
    exact congrArg some (if_neg (Nat.not_lt.mpr hmax))

/-! ## Feeding -/

namespace Queue

variable {q : Queue α} {data : List α}

/-- Data for which there is room is accepted. -/
theorem accepted_of_le (hmax : q.capacity ≤ q.maximum)
    (h : q.bytes.length + data.length ≤ q.capacity) : q.accepted data = data := by
  unfold accepted
  split_ifs with hauto hexceeds
  · omega
  · rfl
  · exact List.take_of_length_le (by omega)

theorem accepted_of_autoInc (hauto : q.autoInc = true)
    (h : q.bytes.length + data.length ≤ q.maximum) : q.accepted data = data := by
  rw [accepted, if_pos hauto, if_neg (Nat.not_lt.mpr h)]

theorem accepted_of_exceeds (hauto : q.autoInc = true)
    (h : q.maximum < q.bytes.length + data.length) : q.accepted data = [] := by
  rw [accepted, if_pos hauto, if_pos h]

theorem accepted_of_fixed (hauto : q.autoInc = false) :
    q.accepted data = data.take (q.capacity - q.bytes.length) := by
  rw [accepted, if_neg (by simp [hauto])]

/-- The answer to data that does not exceed the maximum. -/
theorem reply_of_le (h : q.autoInc = true → q.bytes.length + data.length ≤ q.maximum) :
    q.reply data = ⟨true, (data.length : ℤ) - (q.accepted data).length⟩ := by
  have hnot : (q.autoInc && decide (q.maximum < q.bytes.length + data.length)) = false := by
    cases hauto : q.autoInc with
    | false => rfl
    | true => simpa using h hauto
  rw [reply, hnot]
  rfl

end Queue

namespace ByteBuffer

variable {b : ByteBuffer α} {block : Block α} {q : Queue α} {data : List α}

/-- The end of `Feed`, when the usable bytes fit into the block. -/
theorem store_spec {stored : List α} {nUsable : ℕ} (nLen : ℕ)
    (hstored : block.take b.nBufPos = stored.map some) (hfit : b.nBufPos + nUsable ≤ block.length)
    (hdata : nUsable ≤ data.length) :
    ∃ next,
      b.store block data nLen nUsable =
        some ({ b with pBuffer := some next, nBufPos := b.nBufPos + nUsable },
          ⟨true, (nLen : ℤ) - nUsable⟩) ∧
      next.length = block.length ∧
      next.take (b.nBufPos + nUsable) = (stored ++ data.take nUsable).map some := by
  have hread : readBytes (data.map some) 0 nUsable = some ((data.take nUsable).map some) := by
    rw [readBytes_eq (by simpa using hdata), List.drop_zero, List.map_take]
  have hlength : ((data.take nUsable).map some).length = nUsable := by
    rw [List.length_map, List.length_take_of_le hdata]
  obtain ⟨next, hcopy, hnext, htake⟩ :=
    memcpy_spec block ((data.take nUsable).map some) b.nBufPos (by rwa [hlength])
  refine ⟨next, ?_, hnext, ?_⟩
  · simp only [store, hread, hcopy, Option.bind_eq_bind, Option.bind_some]
  · rw [hlength] at htake
    rw [htake, hstored, List.map_append]

theorem take_block (hs : b.Shows q) (hblock : b.pBuffer = some block) :
    block.take b.nBufPos = q.bytes.map some := by
  have h := hs.bytes
  rwa [getBytes, hblock] at h

/-- What a buffer shows after bytes were accepted. -/
theorem shows_feed {b' : ByteBuffer α} (hs : b.Shows q) (hblock : b'.pBuffer = some block)
    (hbytes : block.take b'.nBufPos = (q.bytes ++ q.accepted data).map some)
    (hpos : b'.nBufPos = (q.bytes ++ q.accepted data).length) (hauto : b'.bAutoInc = b.bAutoInc)
    (hmax : b'.nMaxBufSize = b.nMaxBufSize) (hle : b'.nBufPos ≤ b'.nBufSize)
    (hsize : b'.nBufSize ≤ b.nMaxBufSize)
    (hgrown : (q.bytes ++ q.accepted data).length ≤ q.capacity → b'.nBufSize = q.capacity) :
    b'.Shows (q.feed data b'.nBufSize) := by
  have hcapacity : (q.feed data b'.nBufSize).capacity = b'.nBufSize := by
    dsimp only [Queue.feed]
    split_ifs with h
    · rfl
    · exact (hgrown (Nat.le_of_not_lt h)).symm
  refine ⟨?_, hpos, hcapacity.symm, hauto.trans hs.autoInc, hmax.trans hs.maxBufSize, ?_, ?_⟩
  · rw [getBytes, hblock]
    exact hbytes
  · rw [hcapacity]
    exact hpos ▸ hle
  · rw [hcapacity]
    exact hsize.trans_eq hs.maxBufSize

/-- What a call of `Feed` gives: the queue is fed as well, and the buffer keeps a whole block. -/
def Fed (b : ByteBuffer α) (q : Queue α) (data : List α)
    (result : Option (ByteBuffer α × Reply)) : Prop :=
  ∃ b' reply, result = some (b', reply) ∧ (reply.returned = false → b' = b) ∧
    reply = q.reply data ∧ b'.Shows (q.feed data b'.nBufSize) ∧
    ∃ next, b'.pBuffer = some next ∧ next.length = b'.nBufSize

/-- The usable bytes are copied behind the stored ones, into the old block or into one that begins
with the same bytes. -/
theorem fed_store {stored : Block α} {size nLen nUsable : ℕ} (hs : b.Shows q)
    (htake : stored.take b.nBufPos = q.bytes.map some) (hlength : stored.length = size)
    (hdata : nLen ≤ data.length) (hfit : b.nBufPos + nUsable ≤ size) (husable : nUsable ≤ nLen)
    (hsize : size ≤ b.nMaxBufSize) (haccepted : q.accepted (data.take nLen) = data.take nUsable)
    (hmax : q.autoInc = true → b.nBufPos + nLen ≤ q.maximum)
    (hgrown : b.nBufPos + nUsable ≤ q.capacity → size = q.capacity) :
    b.Fed q (data.take nLen)
      ({ b with pBuffer := some stored, nBufSize := size }.store stored data nLen nUsable) := by
  have hlen : (data.take nLen).length = nLen := List.length_take_of_le hdata
  have hcount : (data.take nUsable).length = nUsable :=
    List.length_take_of_le (husable.trans hdata)
  have htotal : (q.bytes ++ q.accepted (data.take nLen)).length = b.nBufPos + nUsable := by
    rw [haccepted, List.length_append, hcount, hs.byteNum]
  obtain ⟨next, heq, hnext, hbytes⟩ :=
    store_spec (b := { b with pBuffer := some stored, nBufSize := size }) nLen htake
      (hlength ▸ hfit) (husable.trans hdata)
  refine ⟨{ b with pBuffer := some next, nBufSize := size, nBufPos := b.nBufPos + nUsable }, _, heq,
    nofun, ?_, ?_, next, rfl, hnext.trans hlength⟩
  · rw [Queue.reply_of_le (by rwa [hlen, ← hs.byteNum]), haccepted, hlen, hcount]
  · apply shows_feed hs rfl
    · rw [haccepted]
      exact hbytes
    · exact htotal.symm
    · rfl
    · rfl
    · exact hfit
    · exact hsize
    · rwa [htotal]

/-- The data has room. -/
theorem fed_of_fits (hs : b.Shows q) (hblock : b.pBuffer = some block)
    (hlength : block.length = b.nBufSize) {nLen : ℕ} (hdata : nLen ≤ data.length)
    (hfits : b.nBufPos + nLen ≤ b.nBufSize) :
    b.Fed q (data.take nLen) (b.store block data nLen nLen) := by
  have hlen : (data.take nLen).length = nLen := List.length_take_of_le hdata
  have ⟨_, hpos, hsize, _, hmax, _, hmaximum⟩ := hs
  have h := fed_store hs (take_block hs hblock) hlength hdata hfits le_rfl (by omega)
    (Queue.accepted_of_le hmaximum (by omega)) (fun _ ↦ by omega) fun _ ↦ hsize
  rwa [show ({ b with pBuffer := some block, nBufSize := b.nBufSize } : ByteBuffer α) = b by
    rw [← hblock]] at h

/-- A buffer of a fixed size leaves out what does not fit. -/
theorem fed_of_fixed (hs : b.Shows q) (hblock : b.pBuffer = some block)
    (hlength : block.length = b.nBufSize) {nLen : ℕ} (hdata : nLen ≤ data.length)
    (hfull : b.nBufSize < b.nBufPos + nLen) (hauto : b.bAutoInc = false) :
    b.Fed q (data.take nLen) (b.store block data nLen (b.nBufSize - b.nBufPos)) := by
  have ⟨_, hpos, hsize, hautoInc, hmax, hcapacity, hmaximum⟩ := hs
  have hfixed : q.autoInc = false := hautoInc.symm.trans hauto
  have haccepted : q.accepted (data.take nLen) = data.take (b.nBufSize - b.nBufPos) := by
    rw [Queue.accepted_of_fixed hfixed, List.take_take]
    congr 1
    omega
  have h := fed_store hs (take_block hs hblock) hlength hdata (by omega) (by omega) (by omega)
    haccepted (by simp [hfixed]) fun _ ↦ hsize
  rwa [show ({ b with pBuffer := some block, nBufSize := b.nBufSize } : ByteBuffer α) = b by
    rw [← hblock]] at h

/-- Data that would exceed the maximum is refused. -/
theorem fed_of_exceeds (hs : b.Shows q) (hblock : b.pBuffer = some block)
    (hlength : block.length = b.nBufSize) {nLen : ℕ} (hdata : nLen ≤ data.length)
    (hauto : b.bAutoInc = true) (hexceeds : b.nMaxBufSize < b.nBufPos + nLen) :
    b.Fed q (data.take nLen) (some (b, ⟨false, nLen⟩)) := by
  have hlen : (data.take nLen).length = nLen := List.length_take_of_le hdata
  have hgrows : q.autoInc = true := hs.autoInc.symm.trans hauto
  have hqueue : q.maximum < q.bytes.length + (data.take nLen).length := by
    rwa [hlen, ← hs.byteNum, ← hs.maxBufSize]
  have haccepted : q.accepted (data.take nLen) = [] := Queue.accepted_of_exceeds hgrows hqueue
  have hnil : q.bytes ++ q.accepted (data.take nLen) = q.bytes := by
    rw [haccepted, List.append_nil]
  refine ⟨b, ⟨false, nLen⟩, rfl, fun _ ↦ rfl, ?_, ?_, block, hblock, hlength⟩
  · rw [Queue.reply, haccepted, hgrows, decide_eq_true hqueue, hlen]
    rfl
  · apply shows_feed hs hblock
    · rw [hnil, take_block hs hblock]
    · rw [hnil, hs.byteNum]
    · rfl
    · rfl
    · rw [hs.byteNum, hs.bufSize]
      exact hs.le_capacity
    · exact hs.bufSize.trans_le (hs.capacity_le.trans hs.maxBufSize.ge)
    · exact fun _ ↦ hs.bufSize

/-- A buffer that grows moves its bytes into a larger block first. -/
theorem fed_of_grows (hs : b.Shows q) (hblock : b.pBuffer = some block)
    (hlength : block.length = b.nBufSize) {nLen : ℕ} (hdata : nLen ≤ data.length)
    (hfull : b.nBufSize < b.nBufPos + nLen) (hauto : b.bAutoInc = true)
    (hneed : b.nBufPos + nLen ≤ b.nMaxBufSize)
    (hcast : IsSmall b.nBufSize (b.nBufPos + nLen) → increased b.nBufSize / 4 < 2 ^ 31) :
    b.Fed q (data.take nLen) (do
      let nNewSize ← grownSize b.nBufSize b.nMaxBufSize (b.nBufPos + nLen)
      let stored ← readBytes block 0 b.nBufPos
      let pNewBuf ← memcpy (List.replicate nNewSize none) 0 stored
      { b with pBuffer := some pNewBuf, nBufSize := nNewSize }.store pNewBuf data nLen nLen) := by
  have hlen : (data.take nLen).length = nLen := List.length_take_of_le hdata
  have hstored := take_block hs hblock
  have ⟨_, hpos, hsize, hautoInc, hmax, hcapacity, hmaximum⟩ := hs
  obtain ⟨size, hgrown, hle, hsizemax⟩ := grownSize_spec hneed hcast
  have hread : readBytes block 0 b.nBufPos = some (q.bytes.map some) := by
    rw [readBytes_eq (by omega), List.drop_zero, hstored]
  obtain ⟨moved, hmove, hmoved, htake⟩ :=
    memcpy_spec (List.replicate size (none : Option α)) (q.bytes.map some) 0
      (by rw [List.length_map, List.length_replicate]; omega)
  rw [List.length_replicate] at hmoved
  rw [List.length_map, Nat.zero_add, ← hpos, List.take_zero, List.nil_append] at htake
  have haccepted : q.accepted (data.take nLen) = data.take nLen :=
    Queue.accepted_of_autoInc (hautoInc.symm.trans hauto) (by omega)
  simp only [hgrown, hread, hmove, Option.bind_eq_bind, Option.bind_some]
  exact fed_store hs htake hmoved hdata hle le_rfl hsizemax haccepted (fun _ ↦ by omega)
    fun hroom ↦ by omega

/-- `Feed` of a block: as the queue is fed. -/
theorem fed_feedBlock (hs : b.Shows q) (hblock : b.pBuffer = some block)
    (hlength : block.length = b.nBufSize) {nLen : ℕ} (hdata : nLen ≤ data.length)
    (hsum : b.nBufPos + nLen < 2 ^ 31)
    (hcast : b.bAutoInc = true → b.nBufPos + nLen ≤ b.nMaxBufSize →
      b.nBufSize < b.nBufPos + nLen → IsSmall b.nBufSize (b.nBufPos + nLen) →
        increased b.nBufSize / 4 < 2 ^ 31) :
    b.Fed q (data.take nLen) (b.feedBlock block data nLen) := by
  rw [feedBlock, if_neg (Nat.not_le.mpr hsum)]
  split_ifs with hfull hauto hexceeds
  · exact fed_of_exceeds hs hblock hlength hdata hauto hexceeds
  · have hneed : b.nBufPos + nLen ≤ b.nMaxBufSize := Nat.le_of_not_lt hexceeds
    exact fed_of_grows hs hblock hlength hdata hfull hauto hneed (hcast hauto hneed hfull)
  · exact fed_of_fixed hs hblock hlength hdata hfull (Bool.eq_false_of_not_eq_true hauto)
  · exact fed_of_fits hs hblock hlength hdata (Nat.le_of_not_lt hfull)

end ByteBuffer

/-! ## Calls -/

/-- The buffer, with the queue it is. -/
structure Holds (s : Session α) (q : Option (Queue α)) : Prop where
  live_eq : s.live = q.isSome
  shows : ∀ queue, q = some queue → s.buffer.Shows queue
  block_length : ∀ block, s.buffer.pBuffer = some block → block.length = s.buffer.nBufSize
  freed : q = none → s.buffer.pBuffer = none

theorem holds_new (bAutoInc : Bool) (nBufPos nMaxBufSize : ℕ) :
    Holds (Session.new (α := α) bAutoInc nBufPos nMaxBufSize) none :=
  ⟨rfl, nofun, nofun, fun _ ↦ rfl⟩

/-- What a sane call does: it answers as the queue does, and the buffer is the queue again. -/
def Kept (s : Session α) (q : Option (Queue α)) (c : Call α) : Prop :=
  ∃ b' reply, s.buffer.call c = some (b', reply) ∧ (reply.returned = false → b' = s.buffer) ∧
    Queue.Answers q reply c ∧ Holds (s.call c) (Queue.after q b'.nBufSize c)

variable {s : Session α} {q : Option (Queue α)}

theorem Session.call_eq {c : Call α} {b' : ByteBuffer α} {reply : Reply}
    (h : s.buffer.call c = some (b', reply)) :
    s.call c = ⟨b', liveAfter s.live reply.returned c⟩ := by
  rw [Session.call, h]

/-- A call is kept if it has a result with the four properties. -/
theorem kept_of_call {c : Call α} {b' : ByteBuffer α} {reply : Reply}
    (h : s.buffer.call c = some (b', reply)) (hsame : reply.returned = false → b' = s.buffer)
    (hanswers : Queue.Answers q reply c)
    (hholds : Holds ⟨b', Session.liveAfter s.live reply.returned c⟩
      (Queue.after q b'.nBufSize c)) : Kept s q c :=
  ⟨b', reply, h, hsame, hanswers, by rwa [Session.call_eq h]⟩

theorem kept_init (h : Holds s q) (nBufInitSize : ℤ) (bAutoInc : Bool) (nMaxBufSize : ℤ) :
    Kept s q (.init nBufInitSize bAutoInc nMaxBufSize) := by
  by_cases hvalid : 0 < nBufInitSize ∧ nBufInitSize ≤ nMaxBufSize
  · have hargs : ¬ (nBufInitSize ≤ 0 ∨ nMaxBufSize ≤ 0 ∨ nMaxBufSize < nBufInitSize) := by omega
    have hle : nBufInitSize.toNat ≤ nMaxBufSize.toNat := by omega
    by_cases hsize : (s.buffer.nBufSize : ℤ) = nBufInitSize
    · -- the recorded size: the old block is kept
      have hcall : s.buffer.call (.init nBufInitSize bAutoInc nMaxBufSize) =
          some ({ s.buffer with
            bAutoInc := bAutoInc, nMaxBufSize := nMaxBufSize.toNat }.clear, ⟨true, 0⟩) := by
        simp only [ByteBuffer.call, ByteBuffer.init, if_neg hargs, if_pos hsize]
      refine kept_of_call hcall nofun (by simp [Queue.Answers, hvalid]) ?_
      rw [Queue.after, if_pos hvalid]
      refine ⟨by simp [Session.liveAfter], ?_, h.block_length, nofun⟩
      rintro queue ⟨⟩
      have hrecorded : s.buffer.nBufSize = nBufInitSize.toNat := by omega
      exact ⟨by simp [ByteBuffer.getBytes, ByteBuffer.clear], rfl, hrecorded, rfl, rfl,
        Nat.zero_le _, hle⟩
    · have hcall : s.buffer.call (.init nBufInitSize bAutoInc nMaxBufSize) =
          some ({ s.buffer.reset with
            pBuffer := some (List.replicate nBufInitSize.toNat none)
            nBufSize := nBufInitSize.toNat
            bAutoInc := bAutoInc
            nMaxBufSize := nMaxBufSize.toNat }.clear, ⟨true, 0⟩) := by
        simp only [ByteBuffer.call, ByteBuffer.init, if_neg hargs, if_neg hsize]
      refine kept_of_call hcall nofun (by simp [Queue.Answers, hvalid]) ?_
      rw [Queue.after, if_pos hvalid]
      refine ⟨by simp [Session.liveAfter], ?_, ?_, nofun⟩
      · rintro queue ⟨⟩
        exact ⟨by simp [ByteBuffer.getBytes, ByteBuffer.clear], rfl, rfl, rfl, rfl,
          Nat.zero_le _, hle⟩
      · rintro block ⟨⟩
        exact List.length_replicate
  · have hargs : nBufInitSize ≤ 0 ∨ nMaxBufSize ≤ 0 ∨ nMaxBufSize < nBufInitSize := by omega
    have hcall : s.buffer.call (.init nBufInitSize bAutoInc nMaxBufSize) =
        some (s.buffer, ⟨false, 0⟩) := by
      simp only [ByteBuffer.call, ByteBuffer.init, if_pos hargs]
    refine kept_of_call hcall (fun _ ↦ rfl) (by simp [Queue.Answers, hvalid]) ?_
    rw [Queue.after, if_neg hvalid, Session.liveAfter, Bool.or_false]
    exact h

/-- A buffer that shows a queue still shows it when fewer bytes of its block are used. -/
theorem shows_of_take {b b' : ByteBuffer α} {queue : Queue α} {bytes : List α} (h : b.Shows queue)
    (hbytes : b'.getBytes = bytes.map some) (hpos : b'.nBufPos = bytes.length)
    (hsize : b'.nBufSize = b.nBufSize) (hauto : b'.bAutoInc = b.bAutoInc)
    (hmax : b'.nMaxBufSize = b.nMaxBufSize) (hlength : bytes.length ≤ queue.bytes.length) :
    b'.Shows { queue with bytes := bytes } :=
  ⟨hbytes, hpos, hsize.trans h.bufSize, hauto.trans h.autoInc, hmax.trans h.maxBufSize,
    hlength.trans h.le_capacity, h.capacity_le⟩

theorem kept_reset (s : Session α) (q : Option (Queue α)) : Kept s q .reset :=
  kept_of_call rfl nofun trivial ⟨rfl, nofun, nofun, fun _ ↦ rfl⟩

theorem kept_clear (h : Holds s q) : Kept s q .clear := by
  refine kept_of_call rfl nofun trivial ⟨?_, ?_, h.block_length, ?_⟩
  · rw [Queue.after, Option.isSome_map]
    exact h.live_eq
  · intro queue hqueue
    obtain ⟨old, hold, rfl⟩ := Option.map_eq_some_iff.mp hqueue
    exact shows_of_take (h.shows old hold) (by simp [ByteBuffer.getBytes, ByteBuffer.clear]) rfl
      rfl rfl rfl (Nat.zero_le _)
  · exact fun hnone ↦ h.freed (Option.map_eq_none_iff.mp hnone)

theorem kept_setAutoInc (h : Holds s q) (bAutoInc : Bool) : Kept s q (.setAutoInc bAutoInc) := by
  refine kept_of_call rfl nofun trivial ⟨?_, ?_, h.block_length, ?_⟩
  · rw [Queue.after, Option.isSome_map]
    exact h.live_eq
  · intro queue hqueue
    obtain ⟨old, hold, rfl⟩ := Option.map_eq_some_iff.mp hqueue
    obtain ⟨hbytes, hpos, hsize, -, hmax, hcapacity, hle⟩ := h.shows old hold
    exact ⟨hbytes, hpos, hsize, rfl, hmax, hcapacity, hle⟩
  · exact fun hnone ↦ h.freed (Option.map_eq_none_iff.mp hnone)

/-- `Shift` of a block: as many bytes are dropped, and the others move to the front. -/
theorem shift_spec {b : ByteBuffer α} {queue : Queue α} {block : Block α} (h : b.Shows queue)
    (hblock : b.pBuffer = some block) (hlength : block.length = b.nBufSize) (nLen : ℤ) :
    ∃ b' returned next, b.shift nLen = some (b', returned) ∧ (returned = false → b' = b) ∧
      b'.Shows { queue with bytes := queue.bytes.drop nLen.toNat } ∧
      b'.pBuffer = some next ∧ next.length = b'.nBufSize := by
  have hpos := h.byteNum
  have hcapacity := h.le_capacity
  have hsize := h.bufSize
  by_cases hnone : nLen ≤ 0
  · -- nothing is dropped
    have hdrop : { queue with bytes := queue.bytes.drop nLen.toNat } = queue := by
      rw [show nLen.toNat = 0 by omega, List.drop_zero]
    have hshift : b.shift nLen = some (b, decide (nLen = 0)) := by
      by_cases hneg : nLen < 0
      · simp [ByteBuffer.shift, hblock, hneg, hneg.ne]
      · simp [ByteBuffer.shift, hblock, show nLen = 0 by omega]
    exact ⟨b, _, block, hshift, fun _ ↦ rfl, by rwa [hdrop], hblock, hlength⟩
  by_cases hall : (b.nBufPos : ℤ) ≤ nLen
  · refine ⟨{ b with nBufPos := 0 }, true, block, ?_, nofun, ?_, hblock, hlength⟩
    · simp only [ByteBuffer.shift, hblock]
      rw [if_neg (by omega), if_neg (by omega), if_pos hall]
    · have hdrop : queue.bytes.drop nLen.toNat = [] := List.drop_eq_nil_of_le (by omega)
      rw [hdrop]
      exact shows_of_take h (by simp [ByteBuffer.getBytes]) rfl rfl rfl rfl (Nat.zero_le _)
  · have hkept : (queue.bytes.drop nLen.toNat).length = b.nBufPos - nLen.toNat := by
      rw [List.length_drop, hpos]
    have hread : readBytes block nLen.toNat (b.nBufPos - nLen.toNat) =
        some ((queue.bytes.drop nLen.toNat).map some) := by
      rw [readBytes_eq (by omega), List.map_drop, ← ByteBuffer.take_block h hblock,
        List.drop_take]
    obtain ⟨next, hmove, hnext, htake⟩ :=
      memcpy_spec block ((queue.bytes.drop nLen.toNat).map some) 0
        (by rw [List.length_map, hkept]; omega)
    rw [List.length_map, Nat.zero_add, hkept, List.take_zero, List.nil_append] at htake
    refine ⟨{ b with pBuffer := some next, nBufPos := b.nBufPos - nLen.toNat }, true, next, ?_,
      nofun, ?_, rfl, hnext.trans hlength⟩
    · simp only [ByteBuffer.shift, hblock]
      rw [if_neg (by omega), if_neg (by omega), if_neg hall]
      simp only [hread, hmove, Option.bind_eq_bind, Option.bind_some]
    · exact shows_of_take h htake hkept.symm rfl rfl rfl (by rw [List.length_drop]; omega)

/-- A buffer without a block shows an empty queue. -/
theorem bytes_eq_nil {b : ByteBuffer α} {queue : Queue α} (h : b.Shows queue)
    (hblock : b.pBuffer = none) : queue.bytes = [] := by
  have hbytes := h.bytes
  rw [ByteBuffer.getBytes, hblock] at hbytes
  simpa using hbytes.symm

theorem kept_shift (h : Holds s q) (nLen : ℤ) : Kept s q (.shift nLen) := by
  cases hblock : s.buffer.pBuffer with
  | none =>
      have hcall : s.buffer.call (.shift nLen) = some (s.buffer, ⟨false, 0⟩) := by
        simp [ByteBuffer.call, ByteBuffer.shift, hblock]
      have hafter : Queue.after q s.buffer.nBufSize (.shift nLen) = q := by
        cases hq : q with
        | none => rfl
        | some queue =>
            have hnil := bytes_eq_nil (h.shows queue hq) hblock
            simp only [Queue.after, Option.map_some, hnil, List.drop_nil]
            rw [← hnil]
      refine kept_of_call hcall (fun _ ↦ rfl) trivial ?_
      rw [hafter]
      exact h
  | some block =>
      cases hq : q with
      | none => exact absurd (h.freed hq) (by simp [hblock])
      | some queue =>
          obtain ⟨b', returned, next, hshift, hsame, hshows, hnext, hlength⟩ :=
            shift_spec (h.shows queue hq) hblock (h.block_length block hblock) nLen
          have hcall : s.buffer.call (.shift nLen) = some (b', ⟨returned, 0⟩) := by
            rw [ByteBuffer.call, hshift]
            rfl
          refine kept_of_call hcall hsame trivial ⟨?_, ?_, ?_, nofun⟩
          · exact h.live_eq.trans (by rw [hq]; rfl)
          · rintro _ ⟨⟩
            exact hshows
          · intro other hother
            rw [← Option.some.inj (hnext.symm.trans hother)]
            exact hlength

theorem kept_feed_null (h : Holds s q) (nLen : ℤ) : Kept s q (.feed none nLen) := by
  have hcall : s.buffer.call (.feed none nLen) = some (s.buffer, ⟨false, nLen⟩) := rfl
  exact kept_of_call hcall (fun _ ↦ rfl) rfl h

theorem kept_feed_negative (h : Holds s q) (data : List α) {nLen : ℤ} (hneg : nLen < 0) :
    Kept s q (.feed (some data) nLen) := by
  have hcall : s.buffer.call (.feed (some data) nLen) = some (s.buffer, ⟨false, nLen⟩) := by
    cases hblock : s.buffer.pBuffer <;> simp [ByteBuffer.call, ByteBuffer.feed, hblock, hneg]
  refine kept_of_call hcall (fun _ ↦ rfl) ?_ ?_
  · rw [Queue.Answers, if_pos hneg]
  · rw [Queue.after, if_pos hneg]
    exact h

/-- `Feed` before `Init` or after `Reset`. -/
theorem kept_feed_freed (h : Holds s none) (data : List α) {nLen : ℤ} (hlen : ¬ nLen < 0) :
    Kept s none (.feed (some data) nLen) := by
  have hcall : s.buffer.call (.feed (some data) nLen) = some (s.buffer, ⟨false, nLen⟩) := by
    simp [ByteBuffer.call, ByteBuffer.feed, h.freed rfl]
  refine kept_of_call hcall (fun _ ↦ rfl) ?_ ?_
  · rw [Queue.Answers, if_neg hlen]
    exact nofun
  · rw [Queue.after, if_neg hlen]
    exact h

/-- `Feed` of a buffer in use that has a block. -/
theorem kept_feed_block {queue : Queue α} {block : Block α} (h : Holds s (some queue))
    (hblock : s.buffer.pBuffer = some block) {data : List α} {nLen : ℤ} (hlen : ¬ nLen < 0)
    (hfits : s.Fits (.feed (some data) nLen)) (hsane : s.Sane (.feed (some data) nLen)) :
    Kept s (some queue) (.feed (some data) nLen) := by
  have hisSome : s.buffer.pBuffer.isSome = true := Option.isSome_iff_exists.mpr ⟨block, hblock⟩
  have hsum := hfits.2 hisSome
  have hdata : nLen.toNat ≤ data.length := by
    have := hfits.1
    omega
  obtain ⟨b', reply, hfeed, hsame, hreply, hshows, next, hnext, hlength⟩ :=
    ByteBuffer.fed_feedBlock (h.shows queue rfl) hblock (h.block_length block hblock) hdata
      (by omega)
      fun hauto hle hfull hsmall ↦
        (hsane (by omega) h.live_eq (by omega)).2 hauto hfull hsmall
  have hcall : s.buffer.call (.feed (some data) nLen) = some (b', reply) := by
    simp only [ByteBuffer.call, ByteBuffer.feed, hblock]
    rw [if_neg hlen, hfeed]
  refine kept_of_call hcall hsame ?_ ?_
  · rw [Queue.Answers, if_neg hlen]
    rintro _ ⟨⟩
    exact hreply
  · rw [Queue.after, if_neg hlen]
    refine ⟨h.live_eq, ?_, ?_, nofun⟩
    · rintro _ ⟨⟩
      exact hshows
    · intro other hother
      rw [← Option.some.inj (hnext.symm.trans hother)]
      exact hlength

theorem call_feed_dead (hblock : s.buffer.pBuffer = none) (data : List α) (nLen : ℤ) :
    s.buffer.call (.feed (some data) nLen) = some (s.buffer, ⟨false, nLen⟩) := by
  simp [ByteBuffer.call, ByteBuffer.feed, hblock]

/-- `Feed` of a buffer in use without a block, with more than the maximum. -/
theorem kept_feed_dead {queue : Queue α} (h : Holds s (some queue))
    (hblock : s.buffer.pBuffer = none) {data : List α} {nLen : ℤ} (hlen : ¬ nLen < 0)
    (hfits : s.Fits (.feed (some data) nLen)) (hauto : s.buffer.bAutoInc = true)
    (hexceeds : s.buffer.nMaxBufSize < s.buffer.nBufPos + nLen.toNat) :
    Kept s (some queue) (.feed (some data) nLen) := by
  have hs := h.shows queue rfl
  have htake : (data.take nLen.toNat).length = nLen.toNat :=
    List.length_take_of_le (by have := hfits.1; omega)
  have hgrows : queue.autoInc = true := hs.autoInc.symm.trans hauto
  have hqueue : queue.maximum < queue.bytes.length + (data.take nLen.toNat).length := by
    rwa [htake, ← hs.byteNum, ← hs.maxBufSize]
  have haccepted := Queue.accepted_of_exceeds hgrows hqueue
  have hsame : queue.feed (data.take nLen.toNat) s.buffer.nBufSize = queue := by
    rw [Queue.feed, haccepted, List.append_nil, if_neg (Nat.not_lt.mpr hs.le_capacity)]
  refine kept_of_call (call_feed_dead hblock data nLen) (fun _ ↦ rfl) ?_ ?_
  · rw [Queue.Answers, if_neg hlen]
    rintro _ ⟨⟩
    rw [Queue.reply, haccepted, hgrows, decide_eq_true hqueue, htake]
    simp only [Bool.and_self, Bool.not_true, List.length_nil, Reply.mk.injEq, true_and]
    omega
  · rw [Queue.after, if_neg hlen, Option.map_some, hsame]
    exact h

/-- Every sane call is kept. -/
theorem kept_of_sane (h : Holds s q) {c : Call α} (hfits : s.Fits c) (hsane : s.Sane c) :
    Kept s q c := by
  cases c with
  | init nBufInitSize bAutoInc nMaxBufSize => exact kept_init h nBufInitSize bAutoInc nMaxBufSize
  | reset => exact kept_reset s q
  | clear => exact kept_clear h
  | setAutoInc bAutoInc => exact kept_setAutoInc h bAutoInc
  | shift nLen => exact kept_shift h nLen
  | feed pData nLen =>
      cases pData with
      | none => exact kept_feed_null h nLen
      | some data =>
          by_cases hlen : nLen < 0
          · exact kept_feed_negative h data hlen
          cases q with
          | none => exact kept_feed_freed h data hlen
          | some queue =>
              cases hblock : s.buffer.pBuffer with
              | some block => exact kept_feed_block h hblock hlen hfits hsane
              | none =>
                  by_cases hover : s.buffer.bAutoInc = true ∧
                      s.buffer.nMaxBufSize < s.buffer.nBufPos + nLen.toNat
                  · exact kept_feed_dead h hblock hlen hfits hover.1 hover.2
                  · have hsome := (hsane (not_lt.mp hlen) h.live_eq hover).1
                    rw [hblock] at hsome
                    exact absurd hsome Bool.false_ne_true

/-- A growing size that is no `int` any more. -/
theorem grownSize_eq_none {nBufSize need : ℕ} (nMaxBufSize : ℕ) (hsmall : IsSmall nBufSize need)
    (hcast : ¬ increased nBufSize / 4 < 2 ^ 31) : grownSize nBufSize nMaxBufSize need = none := by
  rw [grownSize, if_pos hsmall, if_neg hcast]
  rfl

/-- A call that is not sane has no result, or not the one of the queue. -/
theorem not_answers_of_not_sane (h : Holds s q) {c : Call α} (hfits : s.Fits c)
    (hsane : ¬ s.Sane c) {b' : ByteBuffer α} {reply : Reply}
    (hcall : s.buffer.call c = some (b', reply)) : ¬ Queue.Answers q reply c := by
  obtain ⟨data, nLen, rfl⟩ : ∃ data nLen, c = .feed (some data) nLen := by
    rcases c with _ | _ | _ | _ | ⟨_ | data, nLen⟩ | _
    case feed.some => exact ⟨data, nLen, rfl⟩
    all_goals exact absurd trivial hsane
  simp only [Session.Sane, Classical.not_imp] at hsane
  obtain ⟨hnonneg, hlive, hover, hbad⟩ := hsane
  have hlen : ¬ nLen < 0 := not_lt.mpr hnonneg
  obtain ⟨queue, hq⟩ := Option.isSome_iff_exists.mp (h.live_eq.symm.trans hlive)
  have hs := h.shows queue hq
  cases hblock : s.buffer.pBuffer with
  | none =>
      rw [call_feed_dead hblock] at hcall
      obtain ⟨-, rfl⟩ := Prod.mk.inj (Option.some.inj hcall)
      intro hanswers
      rw [Queue.Answers, if_neg hlen] at hanswers
      have hreply := hanswers queue hq
      have htake : (data.take nLen.toNat).length = nLen.toNat :=
        List.length_take_of_le (by have := hfits.1; omega)
      rw [Queue.reply_of_le fun hauto ↦ ?_] at hreply
      · exact absurd (congrArg Reply.returned hreply) Bool.false_ne_true
      · rw [htake, ← hs.byteNum, ← hs.maxBufSize]
        exact Nat.le_of_not_lt fun hlt ↦ hover ⟨hs.autoInc.trans hauto, hlt⟩
  | some block =>
      have hisSome : s.buffer.pBuffer.isSome = true :=
        Option.isSome_iff_exists.mpr ⟨block, hblock⟩
      have hsum := hfits.2 hisSome
      simp only [hisSome, true_and, Classical.not_imp] at hbad
      obtain ⟨hauto, hfull, hsmall, hcast⟩ := hbad
      have hmax : ¬ s.buffer.nMaxBufSize < s.buffer.nBufPos + nLen.toNat :=
        fun hlt ↦ hover ⟨hauto, hlt⟩
      have hnone : s.buffer.call (.feed (some data) nLen) = none := by
        simp only [ByteBuffer.call, ByteBuffer.feed, hblock]
        rw [if_neg hlen, ByteBuffer.feedBlock, if_neg (by omega), if_pos hfull, if_pos hauto,
          if_neg hmax, grownSize_eq_none _ hsmall hcast]
        rfl
      rw [hnone] at hcall
      exact absurd hcall (Option.some_ne_none _).symm

theorem lawful_iff_of_holds (h : Holds s q) {calls : List (Call α)}
    (hfits : Trace.Along Session.call Session.Fits s calls) :
    Lawful s.buffer q calls ↔ Trace.Along Session.call Session.Sane s calls := by
  induction calls generalizing s q with
  | nil => exact iff_of_true h.shows trivial
  | cons c calls ih =>
      by_cases hsane : s.Sane c
      · obtain ⟨b', reply, hcall, hsame, hanswers, hholds⟩ := kept_of_sane h hfits.1 hsane
        have hrest := ih hholds hfits.2
        have hbuffer : (s.call c).buffer = b' := by rw [Session.call_eq hcall]
        rw [hbuffer] at hrest
        constructor
        · rintro ⟨-, b'', reply', hcall', -, -, hlater⟩
          obtain ⟨rfl, rfl⟩ := Prod.mk.inj (Option.some.inj (hcall.symm.trans hcall'))
          exact ⟨hsane, hrest.mp hlater⟩
        · intro hall
          exact ⟨h.shows, b', reply, hcall, hsame, hanswers, hrest.mpr hall.2⟩
      · refine iff_of_false ?_ fun hall ↦ hsane hall.1
        rintro ⟨-, b', reply, hcall, -, hanswers, -⟩
        exact not_answers_of_not_sane h hfits.1 hsane hcall hanswers

/-- **The byte buffer is a bounded queue** along a sequence of calls exactly if every `Feed` of it,
between an `Init` that returned true and the next `Reset`, finds a block and does not increase the
size beyond an `int`, unless it is refused for its length. -/
theorem byteBuffer_lawful_iff (bAutoInc : Bool) (nBufPos nMaxBufSize : ℕ) (calls : List (Call α))
    (hfits : Trace.Along Session.call Session.Fits (Session.new bAutoInc nBufPos nMaxBufSize)
      calls) :
    Lawful (ByteBuffer.new bAutoInc nBufPos nMaxBufSize) none calls ↔
      Trace.Along Session.call Session.Sane (Session.new bAutoInc nBufPos nMaxBufSize) calls :=
  lawful_iff_of_holds (holds_new bAutoInc nBufPos nMaxBufSize) hfits

theorem byteBuffer_lawful_growing :
    Lawful (ByteBuffer.new false 3 0) none
      [.init 4 false 9, .feed (some ['a', 'b', 'c', 'd', 'e']) 5, .shift 2, .setAutoInc true,
        .feed (some ['f', 'g', 'h']) 3, .feed (some ['i', 'j', 'k', 'l', 'm']) 5, .reset,
        .init 8 true 8, .feed (some ['n']) 1, .clear] :=
  (byteBuffer_lawful_iff false 3 0 _ (by decide +kernel)).mpr (by decide +kernel)

/-- `Reset`, then `Init` with the same size: the buffer takes no byte. -/
theorem byteBuffer_lawful_freed :
    ¬ Lawful (ByteBuffer.new false 3 0) none
      [.init 4 false 9, .reset, .init 4 false 9, .feed (some ['a']) 1] :=
  mt (lawful_iff_of_holds (holds_new false 3 0) (by decide +kernel)).mp (by decide +kernel)

end Vsys.Bytes
