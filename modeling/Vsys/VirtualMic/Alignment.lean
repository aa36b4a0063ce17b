import Vsys.VirtualMic.Delivery
import Mathlib.Algebra.BigOperators.Group.List.Basic
import Mathlib.Algebra.GroupWithZero.Nat

/-!
# Block alignment

Two threads read the sender's socket.  The receive thread fills its local buffer by partial reads
without the lock; `clear_socket`, which `virtual_mic_start` calls for the first track, throws away
what it finds.  The receive thread does not notice this, so that its later blocks are shifted by
the number of bytes that were thrown away.

The bytes of the sender are known by their positions in its stream.  `start_aligned_exact` says when every
pushed block begins at a multiple of `BUFFER_SIZE`.
-/

namespace Vsys.VirtualMic

open Vsys.Stream Vsys.Trace

variable {Client : Type*}

/-- A piece of the sender's stream. -/
structure Chunk where
  position : ℕ
  length : ℕ
  deriving DecidableEq, Repr

/-- The bytes of the pieces. -/
def contents (stream : ℕ → UInt8) (chunks : List Chunk) : List UInt8 :=
  chunks.flatMap fun chunk ↦ (List.range chunk.length).map fun k ↦ stream (chunk.position + k)

/-- The number of bytes of the pieces. -/
def total (chunks : List Chunk) : ℕ := (chunks.map Chunk.length).sum

@[simp]
theorem total_nil : total [] = 0 := rfl

theorem contents_length (stream : ℕ → UInt8) (chunks : List Chunk) :
    (contents stream chunks).length = total chunks := by
  simp [contents, total, List.length_flatMap]

/-- The connection: the tracks, the socket and the two threads that read it. -/
structure Link (Client : Type*) where
  tracks : State Client
  /-- The bytes that the sender has written. -/
  written : ℕ
  /-- The bytes that were read from the socket, by either thread. -/
  taken : ℕ
  /-- The reads that fill the receive thread's `buf`. -/
  buf : List Chunk
  /-- The receive thread waits for a track. -/
  waiting : Bool
  /-- The track whose start clears the socket, with the lock held. -/
  clearing : Option TrackType
  /-- The bytes that `clear_socket` has thrown away. -/
  drained : ℕ
  /-- How many these were when the receive thread read the first byte of its `buf`. -/
  drainedBefore : ℕ
  /-- The blocks that were pushed to a track. -/
  pushed : List (List Chunk)

/-- What a thread or the sender does next. -/
inductive Move (Client : Type*)
  | write (n : ℕ)
  | receive (n : ℕ)
  | deliver
  | wake
  | start (type : TrackType)
  | recv (n : ℕ)
  | stop (type : TrackType)
  | read (client : Client) (type : TrackType) (size : ℕ)
  deriving DecidableEq

namespace Link

/-- A sender has connected and written nothing. -/
def init : Link Client where
  tracks := .init
  written := 0
  taken := 0
  buf := []
  waiting := false
  clearing := none
  drained := 0
  drainedBefore := 0
  pushed := []

variable (link : Link Client)

/-- The receive thread's `read` gives at most what is missing in the buffer. -/
def receive (n : ℕ) : Link Client :=
  if link.waiting ∨ n = 0 ∨ bufferSize < total link.buf + n ∨ link.written < link.taken + n then link
  else
    { link with
      taken := link.taken + n
      buf := link.buf ++ [⟨link.taken, n⟩]
      drainedBefore := if link.buf = [] then link.drained else link.drainedBefore }

/-- The list of some track gets longer. -/
def Grows (before after : State Client) : Prop :=
  before.pending .default < after.pending .default ∨ before.pending .btcall < after.pending .btcall

instance (before after : State Client) : Decidable (Grows before after) :=
  inferInstanceAs (Decidable (_ ∨ _))

/-- The receive thread takes the lock with a full buffer.  With no track it waits, and the block is
lost. -/
def deliver (stream : ℕ → UInt8) : Link Client :=
  if hfull : total link.buf = bufferSize then
    if link.waiting ∨ link.clearing ≠ none then link
    else if link.tracks.Empty then { link with waiting := true, buf := [] }
    else
      let block : Block := ⟨(contents stream link.buf).toArray, by simp [contents_length, hfull]⟩
      let tracks := link.tracks.deliver block
      { link with
        tracks := tracks
        buf := []
        pushed := if Grows link.tracks tracks then link.pushed ++ [link.buf] else link.pushed }
  else link

/-- `condition.wait` returns. -/
def wake : Link Client :=
  if link.clearing = none ∧ ¬ link.tracks.Empty then { link with waiting := false } else link

/-- `virtual_mic_start` takes the lock.  The socket is cleared before the first track is entered. -/
def start (type : TrackType) : Link Client :=
  if link.clearing ≠ none then link
  else if link.tracks.Empty then { link with clearing := some type }
  else { link with tracks := link.tracks.virtualMicStart type }

/-- One `recv` of `clear_socket`: at most 4096 bytes; the start goes on when none is left. -/
def recv (n : ℕ) : Link Client :=
  match link.clearing with
  | none => link
  | some type =>
      if link.written = link.taken then
        { link with clearing := none, tracks := link.tracks.virtualMicStart type }
      else if n = 0 ∨ 4096 < n ∨ link.written < link.taken + n then link
      else { link with taken := link.taken + n, drained := link.drained + n }

/-- `virtual_mic_stop` and the attempts of `virtual_mic_read` take the lock. -/
def region [DecidableEq Client] (act : Act Client) : Link Client :=
  if link.clearing ≠ none then link else { link with tracks := VirtualMic.step link.tracks act }

end Link

variable [DecidableEq Client]

/-- One move.  Nothing moves after a crash. -/
def move (stream : ℕ → UInt8) (link : Link Client) (next : Move Client) : Link Client :=
  if link.tracks.crashed then link
  else
    match next with
    | .write n => { link with written := link.written + n }
    | .receive n => link.receive n
    | .deliver => link.deliver stream
    | .wake => link.wake
    | .start type => link.start type
    | .recv n => link.recv n
    | .stop type => link.region (.stop type)
    | .read client type size => link.region (.read client type size)

/-! ## What a move can do -/

/-- The part of the connection that is about positions. -/
structure SamePositions (link link' : Link Client) : Prop where
  taken : link'.taken = link.taken
  buf : link'.buf = link.buf
  drained : link'.drained = link.drained
  drainedBefore : link'.drainedBefore = link.drainedBefore
  pushed : link'.pushed = link.pushed

/-- Every move leaves the positions, reads into the buffer, empties the full buffer or drains. -/
theorem move_cases (stream : ℕ → UInt8) (link : Link Client) (next : Move Client) :
    SamePositions link (move stream link next) ∨
      (∃ n, total link.buf + n ≤ bufferSize ∧ 0 < n ∧
        move stream link next =
          { link with
            taken := link.taken + n
            buf := link.buf ++ [⟨link.taken, n⟩]
            drainedBefore := if link.buf = [] then link.drained else link.drainedBefore }) ∨
      (total link.buf = bufferSize ∧ ∃ tracks waiting,
        move stream link next = { link with tracks := tracks, waiting := waiting, buf := [] } ∨
        move stream link next =
          { link with
            tracks := tracks, waiting := waiting, buf := [], pushed := link.pushed ++ [link.buf] }) ∨
      ∃ n, move stream link next =
        { link with taken := link.taken + n, drained := link.drained + n } := by
  have hsame : SamePositions link link := ⟨rfl, rfl, rfl, rfl, rfl⟩
  simp only [move]
  split
  · exact .inl hsame
  · cases next with
    | write n => exact .inl ⟨rfl, rfl, rfl, rfl, rfl⟩
    | receive n =>
        simp only [Link.receive]
        split
        · exact .inl hsame
        · rename_i hread
          simp only [not_or, Nat.not_lt] at hread
          exact .inr (.inl ⟨n, hread.2.2.1, Nat.pos_of_ne_zero hread.2.1, rfl⟩)
    | deliver =>
        simp only [Link.deliver]
        split
        · rename_i hfull
          split
          · exact .inl hsame
          · split
            · exact .inr (.inr (.inl ⟨hfull, _, _, .inl rfl⟩))
            · split
              · exact .inr (.inr (.inl ⟨hfull, _, _, .inr rfl⟩))
              · exact .inr (.inr (.inl ⟨hfull, _, _, .inl rfl⟩))
        · exact .inl hsame
    | wake =>
        simp only [Link.wake]
        split
        · exact .inl ⟨rfl, rfl, rfl, rfl, rfl⟩
        · exact .inl hsame
    | start type =>
        simp only [Link.start]
        repeat' split
        all_goals exact .inl ⟨rfl, rfl, rfl, rfl, rfl⟩
    | recv n =>
        simp only [Link.recv]
        split
        · exact .inl hsame
        · split
          · exact .inl ⟨rfl, rfl, rfl, rfl, rfl⟩
          · split
            · exact .inl hsame
            · exact .inr (.inr (.inr ⟨n, rfl⟩))
    | stop type =>
        simp only [Link.region]
        split
        · exact .inl hsame
        · exact .inl ⟨rfl, rfl, rfl, rfl, rfl⟩
    | read client type size =>
        simp only [Link.region]
        split
        · exact .inl hsame
        · exact .inl ⟨rfl, rfl, rfl, rfl, rfl⟩

/-! ## Alignment -/

/-- The block begins at a multiple of the block size in the sender's stream. -/
def StartAligned (block : List Chunk) : Prop := ∀ first ∈ block.head?, bufferSize ∣ first.position

/-- Every pushed block does. -/
def Aligned (link : Link Client) : Prop := ∀ block ∈ link.pushed, StartAligned block

/-- A block that is pushed: the bytes thrown away before its first byte are a multiple of the block
size in number. -/
def DrainsWhole (stream : ℕ → UInt8) (link : Link Client) (next : Move Client) : Prop :=
  (move stream link next).pushed ≠ link.pushed → bufferSize ∣ link.drainedBefore

/-- Where the bytes in the buffer come from. -/
structure Placed (link : Link Client) : Prop where
  taken : ∃ blocks, link.taken = blocks * bufferSize + total link.buf + link.drained
  first : ∀ first ∈ link.buf.head?, ∃ blocks,
    first.position = blocks * bufferSize + link.drainedBefore
  aligned : Aligned link

variable {stream : ℕ → UInt8} {link : Link Client} {next : Move Client}

omit [DecidableEq Client] in
/-- The buffer begins at a multiple of the block size exactly if a multiple was thrown away. -/
theorem Placed.startAligned_iff (h : Placed link) (hbuf : link.buf ≠ []) :
    StartAligned link.buf ↔ bufferSize ∣ link.drainedBefore := by
  obtain ⟨first, rest, hcons⟩ := List.exists_cons_of_ne_nil hbuf
  obtain ⟨blocks, hfirst⟩ := h.first first (by rw [hcons]; rfl)
  have hdvd : bufferSize ∣ first.position ↔ bufferSize ∣ link.drainedBefore := by
    rw [hfirst]
    exact Nat.dvd_add_right (Dvd.intro_left blocks rfl)
  rw [← hdvd, StartAligned, hcons]
  simp

omit [DecidableEq Client] in
theorem buf_ne_nil (hfull : total link.buf = bufferSize) : link.buf ≠ [] := by
  intro hnil
  rw [hnil] at hfull
  exact absurd hfull (by decide)

omit [DecidableEq Client] in
theorem Placed.empty {link' : Link Client} (h : Placed link) (hfull : total link.buf = bufferSize)
    (htaken : link'.taken = link.taken) (hdrained : link'.drained = link.drained)
    (hbuf : link'.buf = []) (haligned : Aligned link') : Placed link' where
  taken := by
    obtain ⟨blocks, hblocks⟩ := h.taken
    refine ⟨blocks + 1, ?_⟩
    rw [htaken, hdrained, hbuf, hblocks, hfull, Nat.succ_mul, total_nil, Nat.add_zero]
  first := by simp [hbuf]
  aligned := haligned

theorem total_concat (chunks : List Chunk) (chunk : Chunk) :
    total (chunks ++ [chunk]) = total chunks + chunk.length := by
  simp [total]

/-- A move keeps the places, if it pushes only after whole blocks were thrown away. -/
theorem Placed.keep (h : Placed link) (hok : DrainsWhole stream link next) :
    Placed (move stream link next) := by
  obtain hsame | ⟨n, -, -, heq⟩ | ⟨hfull, tracks, waiting, heq⟩ | ⟨n, heq⟩ :=
    move_cases stream link next
  · refine ⟨?_, ?_, ?_⟩
    · rw [hsame.taken, hsame.buf, hsame.drained]
      exact h.taken
    · rw [hsame.buf, hsame.drainedBefore]
      exact h.first
    · rw [Aligned, hsame.pushed]
      exact h.aligned
  · rw [heq]
    obtain ⟨blocks, hblocks⟩ := h.taken
    refine ⟨⟨blocks, ?_⟩, ?_, h.aligned⟩
    · show link.taken + n = blocks * bufferSize + total (link.buf ++ [⟨link.taken, n⟩]) + link.drained
      rw [hblocks, total_concat]
      ring
    · intro first hfirst
      by_cases hnil : link.buf = []
      · -- the first read into the buffer: whole blocks were received before
        simp only [hnil, List.nil_append, List.head?_cons, Option.mem_def, Option.some.injEq] at hfirst
        refine ⟨blocks, ?_⟩
        rw [← hfirst, if_pos hnil]
        simpa [hnil, total] using hblocks
      · simp only [List.head?_append_of_ne_nil _ hnil] at hfirst
        rw [if_neg hnil]
        exact h.first first hfirst
  · obtain heq | heq := heq
    · rw [heq]
      exact h.empty hfull rfl rfl rfl h.aligned
    · have hpushed : (move stream link next).pushed ≠ link.pushed := by
        rw [heq]
        simp
      have hblock := (h.startAligned_iff (buf_ne_nil hfull)).mpr (hok hpushed)
      rw [heq]
      refine h.empty hfull rfl rfl rfl fun block hblock' ↦ ?_
      obtain hold | hnew := List.mem_append.mp hblock'
      · exact h.aligned block hold
      · exact List.mem_singleton.mp hnew ▸ hblock
  · rw [heq]
    obtain ⟨blocks, hblocks⟩ := h.taken
    refine ⟨⟨blocks, ?_⟩, h.first, h.aligned⟩
    show link.taken + n = blocks * bufferSize + total link.buf + (link.drained + n)
    rw [hblocks]
    ring

/-- A push after a part of a block was thrown away is not aligned. -/
theorem Placed.not_aligned (h : Placed link) (hok : ¬ DrainsWhole stream link next) :
    ¬ Aligned (move stream link next) := by
  obtain ⟨hpushed, hdrained⟩ := Classical.not_imp.mp hok
  intro haligned
  obtain hsame | ⟨n, -, -, heq⟩ | ⟨hfull, tracks, waiting, heq⟩ | ⟨n, heq⟩ :=
    move_cases stream link next
  · exact hpushed hsame.pushed
  · exact hpushed (by rw [heq])
  · obtain heq | heq := heq
    · exact hpushed (by rw [heq])
    · refine hdrained ((h.startAligned_iff (buf_ne_nil hfull)).mp (haligned link.buf ?_))
      rw [heq]
      exact List.mem_append_right _ (List.mem_singleton_self _)
  · exact hpushed (by rw [heq])

omit [DecidableEq Client] in
theorem placed_init : Placed (.init : Link Client) where
  taken := ⟨0, rfl⟩
  first := by simp [Link.init]
  aligned := by simp [Aligned, Link.init]

/-- **Block alignment.** Every pushed block begins at a multiple of the block size in the sender's
stream exactly if, whenever a block is pushed, `clear_socket` had thrown away a multiple of the
block size before the first byte of the block was received. -/
theorem start_aligned_exact (stream : ℕ → UInt8) (moves : List (Move Client)) :
    Throughout (move stream) Aligned .init moves ↔
      Along (move stream) (DrainsWhole stream) .init moves :=
  throughout_exact Placed Aligned (fun _ _ h ↦ h.keep) (fun _ _ h ↦ h.not_aligned)
    (fun _ h ↦ h.aligned) placed_init moves

/-- A track is stopped and started again while the receive thread has a part of a block: the bytes
in the socket are thrown away, and the second block begins at byte 4840. -/
theorem restart_not_aligned :
    ¬ Aligned (run (move fun _ ↦ 0) .init
      ([.start .default, .recv 4096, .write 1000, .receive 1000, .write 1000, .stop .default,
        .start .default, .recv 1000, .recv 4096, .write 6680, .receive 2840, .deliver,
        .receive 3840, .deliver] : List (Move Unit))) := by
  intro h
  have hpushed : [⟨4840, 3840⟩] ∈ (run (move fun _ ↦ 0) .init
      ([.start .default, .recv 4096, .write 1000, .receive 1000, .write 1000, .stop .default,
        .start .default, .recv 1000, .recv 4096, .write 6680, .receive 2840, .deliver,
        .receive 3840, .deliver] : List (Move Unit))).pushed := by
    decide
  have hdvd := h _ hpushed ⟨4840, 3840⟩ rfl
  exact absurd hdvd (by decide)

end Vsys.VirtualMic
