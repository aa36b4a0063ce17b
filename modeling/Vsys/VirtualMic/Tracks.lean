import Vsys.VirtualMic.MemoryManager
import Vsys.Trace.Run
import Vsys.Trace.History

/-!
# The tracks of the virtual microphone

`virtual_mic_start`, `virtual_mic_stop`, `virtual_mic_read` and the delivery of a block by
`recv_thread` in `test/virtual_mic/VirtualMic_readmic.cpp`.  They share `map_tracks` under one
mutex, and every region under the lock is one step here.  A client's read is up to three such
regions; each of them is a step of its own, so that other threads come in between.

The sender is connected (`g_clientfd > 0`), since the receive thread belongs to its connection.
When the map is empty, the receive thread throws its block away and waits: waiting only delays its
next block, so that the deliveries in this model may come at any time.
-/

namespace Vsys.VirtualMic

open Vsys.Stream Vsys.Trace

/-- `BUFFER_SIZE`. -/
def bufferSize : ℕ := 3840

/-- A complete buffer of the receive thread. -/
abbrev Block := Vector UInt8 bufferSize

/-- `enum track_type_t`. -/
inductive TrackType
  | default
  | btcall
  deriving DecidableEq, Repr

/-- `enum op_type_t`. -/
inductive OpType
  | handshake
  | stateEnable
  | stateDisable
  | rateChFmt
  deriving DecidableEq, Repr

/-- A `uint8_t*` into the memory of the manager at `base`. -/
structure Ptr where
  base : ℕ
  offset : ℕ
  deriving DecidableEq, Repr

/-- An entry of the map: the queued blocks, and the manager, null if the pair was made by
`operator[]`. -/
structure Track where
  first : List Ptr
  second : Option ℕ
  deriving DecidableEq, Repr

/-- What a finished `virtual_mic_read` returned: no bytes, or the bytes it copied. -/
structure Result (Client : Type*) where
  client : Client
  type : TrackType
  bytes : List (Option UInt8)

/-- The globals of the file, the heap of managers, and what was sent and returned so far. -/
structure State (Client : Type*) where
  mapTracks : TrackType → Option Track
  heap : ℕ → Option MemoryManager
  /-- The next address `make_shared` gives out. -/
  next : ℕ
  gType : Option OpType
  sent : List OpType
  /-- The attempts that are left to the read in progress; 0 if there is none. -/
  time : Client → ℕ
  returned : List (Result Client)
  crashed : Bool

/-- A region under the lock. -/
inductive Act (Client : Type*)
  | start (type : TrackType)
  | stop (type : TrackType)
  | read (client : Client) (type : TrackType) (size : ℕ)
  | deliver (buf : Block)
  deriving DecidableEq

variable {Client : Type*}

namespace State

/-- Nothing is started, nothing was sent. -/
def init : State Client where
  mapTracks := fun _ ↦ none
  heap := fun _ ↦ none
  next := 0
  gType := none
  sent := []
  time := fun _ ↦ 0
  returned := []
  crashed := false

/-- `map_tracks.empty()`. -/
def Empty (s : State Client) : Prop := ∀ type, s.mapTracks type = none

theorem empty_iff (s : State Client) :
    s.Empty ↔ s.mapTracks .default = none ∧ s.mapTracks .btcall = none := by
  refine ⟨fun h ↦ ⟨h .default, h .btcall⟩, fun h type ↦ ?_⟩
  cases type with
  | default => exact h.1
  | btcall => exact h.2

instance (s : State Client) : Decidable s.Empty := decidable_of_iff' _ s.empty_iff

/-- A null or dangling pointer is followed. -/
def crash (s : State Client) : State Client := { s with crashed := true }

/-- `map_tracks[type] = track`. -/
def setTrack (s : State Client) (type : TrackType) (track : Option Track) : State Client :=
  { s with mapTracks := Function.update s.mapTracks type track }

/-- The object at an address changes. -/
def setManager (s : State Client) (address : ℕ) (m : Option MemoryManager) : State Client :=
  { s with heap := Function.update s.heap address m }

/-- `virtual_mic_control`. -/
def virtualMicControl (s : State Client) (type : OpType) : State Client :=
  { s with gType := some type, sent := s.sent ++ [type] }

/-- `map_tracks.try_emplace`: a manager is made for a new track; an entry that is there stays. -/
def tryEmplace (s : State Client) (type : TrackType) : State Client :=
  match s.mapTracks type with
  | some _ => s
  | none =>
      { (s.setManager s.next (some (.make (bufferSize * 3) bufferSize))).setTrack type
          (some ⟨[], some s.next⟩) with
        next := s.next + 1 }

/-- `virtual_mic_start`. -/
def virtualMicStart (s : State Client) (type : TrackType) : State Client :=
  (if s.Empty then s.virtualMicControl .stateEnable else s).tryEmplace type

/-- `map_tracks.erase`: the last reference to the manager goes with the entry. -/
def erase (s : State Client) (type : TrackType) : State Client :=
  match (s.mapTracks type).bind Track.second with
  | some address => (s.setManager address none).setTrack type none
  | none => s.setTrack type none

/-- `virtual_mic_stop`. -/
def virtualMicStop (s : State Client) (type : TrackType) : State Client :=
  let s' := s.erase type
  if s'.Empty then s'.virtualMicControl .stateDisable else s'

/-- The attempts of a read that are left after this one: a call begins with three. -/
def timeLeft (s : State Client) (client : Client) : ℕ :=
  if s.time client = 0 then 2 else s.time client - 1

variable [DecidableEq Client]

/-- The read found nothing: it sleeps, or returns 0 after its last attempt. -/
def retry (s : State Client) (client : Client) (type : TrackType) : State Client :=
  { s with
    time := Function.update s.time client (s.timeLeft client)
    returned := if s.timeLeft client = 0 then s.returned ++ [⟨client, type, []⟩] else s.returned }

/-- The read leaves its loop with these bytes. -/
def answer (s : State Client) (client : Client) (type : TrackType) (bytes : List (Option UInt8)) :
    State Client :=
  { s with
    time := Function.update s.time client 0
    returned := s.returned ++ [⟨client, type, bytes⟩] }

/-- One attempt of `virtual_mic_read`.  `map_tracks[type]` makes an entry for a track that has
none, with an empty list and a null manager. -/
def virtualMicRead (s : State Client) (client : Client) (type : TrackType) (size : ℕ) :
    State Client :=
  let track := (s.mapTracks type).getD ⟨[], none⟩
  match track.first with
  | [] => (s.setTrack type (some track)).retry client type
  | block :: rest =>
      match s.heap block.base, track.second with
      | some source, some address =>
          match s.heap address with
          | some m =>
              -- `deallocate` is given a block of the track's own manager
              ((s.setManager address (some (m.deallocate block.offset))).setTrack type
                (some ⟨rest, track.second⟩)).answer client type (source.read block.offset size)
          | none => s.crash
      | _, _ => s.crash

omit [DecidableEq Client]

/-- The receive thread's loop body for one track. -/
def push (s : State Client) (buf : Block) (type : TrackType) : State Client :=
  match s.mapTracks type with
  | none => s
  | some track =>
      match track.second with
      | none => s.crash
      | some address =>
          match s.heap address with
          | none => s.crash
          | some m =>
              match m.allocate with
              | (none, _) => s
              | (some offset, m') =>
                  (s.setManager address (some (m'.write offset buf.toList))).setTrack type
                    (some ⟨track.first ++ [⟨address, offset⟩], some address⟩)

/-- The receive thread with a complete block: every track gets it. -/
def deliver (s : State Client) (buf : Block) : State Client :=
  let s' := s.push buf .default
  if s'.crashed then s' else s'.push buf .btcall

end State

variable [DecidableEq Client]

/-- One region under the lock.  Nothing happens after a crash. -/
def step (s : State Client) (act : Act Client) : State Client :=
  if s.crashed then s
  else
    match act with
    | .start type => s.virtualMicStart type
    | .stop type => s.virtualMicStop type
    | .read client type size => s.virtualMicRead client type size
    | .deliver buf => s.deliver buf

/-- The state after the regions of a log, from the start of the program. -/
def server (log : List (Act Client)) : State Client := run step .init log

omit [DecidableEq Client]

/-- The track was started and has not been stopped since. -/
def Started (log : List (Act Client)) (type : TrackType) : Prop :=
  Since (fun act ↦ act = .start type) (fun act ↦ act = .stop type) log

end Vsys.VirtualMic
