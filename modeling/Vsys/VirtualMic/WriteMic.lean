import Mathlib.Data.List.TakeWhile
import Vsys.VirtualMic.Queues

/-!
# The microphone with a list of tracks

`virtual_mic_write`, `virtual_mic_read`, `virtual_mic_start` and `virtual_mic_stop` of
`test/virtual_mic/WriteMic.cpp`.  They share `list_tracks` under one mutex, and every region under
the lock is one step here.  A client's read is up to three such regions; each of them is a step of
its own, so that other threads come in between.

A start always adds an entry to the list, and a stop erases one entry only.  `served_exact` says
that the clients of a type get what is written, in order and each block once, as long as no type is
started that has an entry already, and that nothing less is enough.
-/

namespace Vsys.VirtualMic.WriteMic

open Vsys.Stream Vsys.Trace

variable {Client TrackType : Type*}

/-- `struct Track`: the queued blocks are known by their offsets in the memory. -/
structure Track (TrackType : Type*) where
  memory : MemoryManager
  data : List ℕ
  type : TrackType

/-- What a finished `virtual_mic_read` returned: no bytes, or the bytes it copied. -/
structure Result (Client TrackType : Type*) where
  client : Client
  type : TrackType
  bytes : List (Option UInt8)

/-- The list, the attempts that are left to each read in progress, and what was returned so far. -/
structure State (Client TrackType : Type*) where
  listTracks : List (Track TrackType)
  time : Client → ℕ
  returned : List (Result Client TrackType)

/-- A region under the lock. -/
inductive Act (Client TrackType : Type*)
  | start (type : TrackType)
  | stop (type : TrackType)
  | write (buf : Block)
  | read (client : Client) (type : TrackType)
  deriving DecidableEq

namespace Track

/-- The constructor. -/
def make (type : TrackType) : Track TrackType := ⟨.make (bufferSize * 6) bufferSize, [], type⟩

/-- The loop body of `virtual_mic_write`. -/
def write (track : Track TrackType) (buf : Block) : Track TrackType :=
  match track.memory.allocate with
  | (some block, memory) =>
      { track with memory := memory.write block buf.toList, data := track.data ++ [block] }
  | (none, _) => track

/-- The body of the `if` in `virtual_mic_read`. -/
def read (track : Track TrackType) : Option (List (Option UInt8) × Track TrackType) :=
  match track.data with
  | [] => none
  | block :: data =>
      some (track.memory.read block bufferSize,
        { track with memory := track.memory.deallocate block, data := data })

end Track

section Code

variable [DecidableEq TrackType]

/-- The loop of `virtual_mic_read`: the first entry of the type that has data. -/
def readTracks (type : TrackType) :
    List (Track TrackType) → Option (List (Option UInt8) × List (Track TrackType))
  | [] => none
  | track :: tracks =>
      match if track.type = type then track.read else none with
      | some (bytes, track') => some (bytes, track' :: tracks)
      | none => (readTracks type tracks).map fun result ↦ (result.1, track :: result.2)

namespace State

/-- No track. -/
def init : State Client TrackType := ⟨[], fun _ ↦ 0, []⟩

/-- `virtual_mic_start`. -/
def virtualMicStart (s : State Client TrackType) (type : TrackType) : State Client TrackType :=
  { s with listTracks := .make type :: s.listTracks }

/-- `virtual_mic_stop`. -/
def virtualMicStop (s : State Client TrackType) (type : TrackType) : State Client TrackType :=
  { s with listTracks := s.listTracks.eraseP fun track ↦ track.type = type }

/-- `virtual_mic_write` of `BUFFER_SIZE` bytes. -/
def virtualMicWrite (s : State Client TrackType) (buf : Block) : State Client TrackType :=
  { s with listTracks := s.listTracks.map fun track ↦ track.write buf }

/-- The attempts of a read that are left after this one: a call begins with three. -/
def timeLeft (s : State Client TrackType) (client : Client) : ℕ :=
  if s.time client = 0 then 2 else s.time client - 1

variable [DecidableEq Client]

/-- One attempt of `virtual_mic_read` of `BUFFER_SIZE` bytes.  If there is nothing to be read, the
client sleeps, or its call returns 0 after the last attempt. -/
def virtualMicRead (s : State Client TrackType) (client : Client) (type : TrackType) :
    State Client TrackType :=
  match readTracks type s.listTracks with
  | some (bytes, tracks) =>
      { listTracks := tracks
        time := Function.update s.time client 0
        returned := s.returned ++ [⟨client, type, bytes⟩] }
  | none =>
      { s with
        time := Function.update s.time client (s.timeLeft client)
        returned :=
          if s.timeLeft client = 0 then s.returned ++ [⟨client, type, []⟩] else s.returned }

end State

variable [DecidableEq Client]

/-- One region under the lock. -/
def step (s : State Client TrackType) : Act Client TrackType → State Client TrackType
  | .start type => s.virtualMicStart type
  | .stop type => s.virtualMicStop type
  | .write buf => s.virtualMicWrite buf
  | .read client type => s.virtualMicRead client type

/-- The state after the regions of a log, from the start of the program. -/
def server (log : List (Act Client TrackType)) : State Client TrackType := run step .init log

end Code

/-! ## What the clients are promised -/

/-- The type was started and has not been stopped since. -/
def Started (log : List (Act Client TrackType)) (type : TrackType) : Prop :=
  Since (fun act ↦ act = .start type) (fun act ↦ act = .stop type) log

/-- The blocks that were written. -/
def written (log : List (Act Client TrackType)) : List Block :=
  log.filterMap fun
    | .write buf => some buf
    | _ => none

section Promise

variable [DecidableEq Client] [DecidableEq TrackType]

/-- The blocks that were written since the first start of a type. -/
def writtenSince (log : List (Act Client TrackType)) (type : TrackType) : List Block :=
  written (log.dropWhile fun act ↦ act ≠ .start type)

namespace State

/-- The blocks that were read for a type, as its clients got them. -/
def blocksRead (s : State Client TrackType) (type : TrackType) : List (List (Option UInt8)) :=
  (s.returned.filter fun result ↦ result.type = type ∧ result.bytes ≠ []).map Result.bytes

end State

/-- After the log: the blocks that were read for a type are of those written since its first start,
in order and each once, and there is no block for a type that is not started. -/
structure Served (log : List (Act Client TrackType)) : Prop where
  inOrder : ∀ type,
    ((server log).blocksRead type).Sublist ((writtenSince log type).map Block.bytes)
  stopped : ∀ type client, ¬ Started log type →
    (step (server log) (.read client type)).blocksRead type = (server log).blocksRead type

/-- A type is started that has no entry. -/
def Fresh (s : State Client TrackType) : Act Client TrackType → Prop
  | .start type => ∀ track ∈ s.listTracks, track.type ≠ type
  | _ => True

end Promise

/-! ## One track -/

namespace Track

/-- What is queued. -/
def contents (track : Track TrackType) : List (List (Option UInt8)) :=
  track.data.map fun block ↦ track.memory.read block bufferSize

/-- The used blocks of the memory are those that are queued. -/
structure Sound (track : Track TrackType) : Prop where
  blockSize_eq : track.memory.blockSize = bufferSize
  numBlocks_eq : track.memory.numBlocks = 6
  stores : ∃ held : List ℕ, track.data = held.map (· * bufferSize) ∧
    track.memory.Stores held track.contents

theorem sound_make (type : TrackType) : (make type).Sound where
  blockSize_eq := rfl
  numBlocks_eq := by
    calc
      (make type).memory.numBlocks = bufferSize * 6 / bufferSize := List.length_replicate
      _ = 6 := by decide
  stores := ⟨[], rfl, MemoryManager.make_stores _ _⟩

theorem contents_eq_nil_iff (track : Track TrackType) : track.contents = [] ↔ track.data = [] :=
  List.map_eq_nil_iff

/-- The memory of a track with its numbers of blocks says what is queued. -/
theorem contents_of_stores {track : Track TrackType} {held : List ℕ}
    {queued : List (List (Option UInt8))} (hsize : track.memory.blockSize = bufferSize)
    (hdata : track.data = held.map (· * bufferSize)) (h : track.memory.Stores held queued) :
    track.contents = queued := by
  calc
    track.contents = held.map ((fun block ↦ track.memory.read block bufferSize) ∘ (· * bufferSize)) := by
      rw [contents, hdata, List.map_map]
    _ = queued := by
      rw [← h.stored, hsize]
      apply List.map_congr_left
      intro i _
      rw [Function.comp_apply]

variable {track track' : Track TrackType}

/-- A track that is full stays as it is. -/
theorem Sound.write_of_full (h : track.Sound) (buf : Block)
    (hfull : track.memory.allocate.1 = none) : track.write buf = track ∧ track.data ≠ [] := by
  obtain ⟨-, hnum, held, hdata, hstores⟩ := h
  constructor
  · rw [Track.write]
    split
    · next hnew =>
        rw [hnew] at hfull
        cases hfull
    · rfl
  · have hused := hstores.allocate_eq_none_iff.mp hfull
    rw [hdata]
    intro hnil
    rw [List.map_eq_nil_iff] at hnil
    rw [hnil, hnum] at hused
    exact absurd hused (by decide)

/-- A block that there is room for is queued. -/
theorem Sound.write_of_room (h : track.Sound) (buf : Block) {offset : ℕ} {memory : MemoryManager}
    (hnew : track.memory.allocate = (some offset, memory)) :
    (track.write buf).Sound ∧ (track.write buf).type = track.type ∧
      (track.write buf).contents = track.contents ++ [buf.bytes] ∧ (track.write buf).data ≠ [] := by
  obtain ⟨hsize, hnum, held, hdata, hstores⟩ := h
  have hlength : buf.toList.length = track.memory.blockSize := by
    rw [hsize, Vector.length_toList]
  obtain ⟨i, rfl, hsize', hnum', hstores'⟩ := hstores.allocate hnew hlength
  have hdone : track.write buf = { track with
      memory := memory.write (i * track.memory.blockSize) buf.toList
      data := track.data ++ [i * track.memory.blockSize] } := by
    rw [Track.write, hnew]
  have hdata' : (track.write buf).data = (held ++ [i]).map (· * bufferSize) := by
    rw [hdone, hdata, List.map_append, hsize]
    rfl
  have hcontents : (track.write buf).contents = track.contents ++ [buf.bytes] := by
    apply contents_of_stores _ hdata'
    · rw [hdone]
      exact hstores'
    · rw [hdone]
      exact hsize'.trans hsize
  refine ⟨⟨?_, ?_, held ++ [i], hdata', ?_⟩, by rw [hdone], hcontents, ?_⟩
  · rw [hdone]
    exact hsize'.trans hsize
  · rw [hdone]
    exact hnum'.trans hnum
  · rw [hcontents, hdone]
    exact hstores'
  · rw [hdone]
    exact List.concat_ne_nil _ _

/-- **Writing.** A block is queued if there is room, and in any case something is queued then. -/
theorem Sound.write (h : track.Sound) (buf : Block) :
    (track.write buf).Sound ∧ (track.write buf).type = track.type ∧
      (track.write buf).contents.Sublist (track.contents ++ [buf.bytes]) ∧
      (track.write buf).data ≠ [] := by
  cases hnew : track.memory.allocate with
  | mk offset memory =>
      cases offset with
      | none =>
          obtain ⟨hsame, hne⟩ := h.write_of_full buf (congrArg Prod.fst hnew)
          rw [hsame]
          exact ⟨h, rfl, List.sublist_append_left _ _, hne⟩
      | some offset =>
          obtain ⟨hsound, htype, hcontents, hne⟩ := h.write_of_room buf hnew
          exact ⟨hsound, htype, hcontents ▸ List.Sublist.refl _, hne⟩

theorem read_eq_none_iff (track : Track TrackType) : track.read = none ↔ track.data = [] := by
  rw [read]
  cases track.data <;> simp

/-- **Reading.** The first block that is queued is read, and the others stay. -/
theorem Sound.read {bytes : List (Option UInt8)} (h : track.Sound)
    (hread : track.read = some (bytes, track')) :
    track'.Sound ∧ track'.type = track.type ∧ track.contents = bytes :: track'.contents ∧
      bytes ≠ [] := by
  obtain ⟨hsize, hnum, held, hdata, hstores⟩ := h
  cases held with
  | nil =>
      rw [Track.read, hdata] at hread
      exact absurd hread (by simp)
  | cons i held =>
      rw [Track.read, hdata, List.map_cons] at hread
      obtain ⟨rfl, rfl⟩ := Prod.mk.inj (Option.some.inj hread)
      obtain ⟨rest, hcontents, hsize', hnum', hstores'⟩ :=
        hstores.deallocate (by rw [hsize]; exact Nat.succ_pos 3839)
      rw [hsize] at hcontents hsize' hnum' hstores'
      have hrest : contents { track with
          memory := track.memory.deallocate (i * bufferSize)
          data := held.map (· * bufferSize) } = rest := contents_of_stores hsize' rfl hstores'
      refine ⟨⟨hsize', hnum'.trans hnum, held, rfl, ?_⟩, rfl, ?_, ?_⟩
      · rw [hrest]
        exact hstores'
      · rw [hrest, hcontents]
      · intro hnil
        exact absurd (congrArg List.length hnil) (by simp [MemoryManager.read, bufferSize])

end Track

/-! ## The entries of a type -/

section Entries

variable [DecidableEq TrackType]

/-- The entries of a type, the latest first. -/
def entries (tracks : List (Track TrackType)) (type : TrackType) : List (Track TrackType) :=
  tracks.filter fun track ↦ track.type = type

/-- What is queued for a type. -/
def pending (tracks : List (Track TrackType)) (type : TrackType) : List (List (Option UInt8)) :=
  (entries tracks type).flatMap Track.contents

variable {tracks tracks' : List (Track TrackType)} {type : TrackType}

theorem mem_entries_iff {track : Track TrackType} :
    track ∈ entries tracks type ↔ track ∈ tracks ∧ track.type = type := by
  rw [entries, List.mem_filter, decide_eq_true_eq]

theorem entries_cons (track : Track TrackType) (tracks : List (Track TrackType)) (type : TrackType) :
    entries (track :: tracks) type =
      if track.type = type then track :: entries tracks type else entries tracks type := by
  by_cases h : track.type = type
  · rw [if_pos h, entries, List.filter_cons_of_pos (by simpa using h), entries]
  · rw [if_neg h, entries, List.filter_cons_of_neg (by simpa using h), entries]

/-- The latest entry is erased. -/
theorem entries_eraseP (tracks : List (Track TrackType)) (type other : TrackType) :
    entries (tracks.eraseP fun track ↦ track.type = type) other =
      if type = other then (entries tracks other).tail else entries tracks other := by
  induction tracks with
  | nil => simp [entries]
  | cons track tracks ih =>
      by_cases htype : track.type = type
      · rw [List.eraseP_cons_of_pos (by simpa using htype), entries_cons, htype]
        by_cases hother : type = other
        · rw [if_pos hother, if_pos hother, List.tail_cons]
        · rw [if_neg hother, if_neg hother]
      · rw [List.eraseP_cons_of_neg (by simpa using htype), entries_cons, entries_cons, ih]
        by_cases hother : type = other
        · have hne : track.type ≠ other := fun h ↦ htype (h.trans hother.symm)
          rw [if_pos hother, if_pos hother, if_neg hne, if_neg hne]
        · rw [if_neg hother, if_neg hother]

theorem pending_cons (track : Track TrackType) (tracks : List (Track TrackType)) (type : TrackType) :
    pending (track :: tracks) type =
      if track.type = type then track.contents ++ pending tracks type else pending tracks type := by
  rw [pending, entries_cons]
  split_ifs
  · rw [List.flatMap_cons, pending]
  · rw [pending]

theorem entries_map_write (tracks : List (Track TrackType)) (hsound : ∀ track ∈ tracks, track.Sound)
    (buf : Block) (type : TrackType) :
    entries (tracks.map fun track ↦ track.write buf) type =
      (entries tracks type).map fun track ↦ track.write buf := by
  induction tracks with
  | nil => rfl
  | cons track tracks ih =>
      rw [List.forall_mem_cons] at hsound
      rw [List.map_cons, entries_cons, entries_cons, ih hsound.2, (hsound.1.write buf).2.1]
      split_ifs <;> rfl

/-- The loop finds nothing if nothing is queued for the type. -/
theorem readTracks_eq_none_iff :
    readTracks type tracks = none ↔ ∀ track ∈ entries tracks type, track.data = [] := by
  induction tracks with
  | nil => simp [readTracks, entries]
  | cons track tracks ih =>
      rw [readTracks, entries_cons]
      by_cases htype : track.type = type
      · rw [if_pos htype, if_pos htype, List.forall_mem_cons, ← track.read_eq_none_iff]
        cases hread : track.read with
        | none => simpa using ih
        | some result => simp
      · rw [if_neg htype, if_neg htype]
        simpa using ih

/-- **The loop.** One block is read, the first that is queued for the type; the entries stay. -/
theorem readTracks_spec (hsound : ∀ track ∈ tracks, track.Sound) {bytes : List (Option UInt8)}
    (hread : readTracks type tracks = some (bytes, tracks')) :
    (∀ track ∈ tracks', track.Sound) ∧ bytes ≠ [] ∧
      (∀ other, (entries tracks' other).length = (entries tracks other).length) ∧
      pending tracks type = bytes :: pending tracks' type ∧
      ∀ other, other ≠ type → pending tracks' other = pending tracks other := by
  induction tracks generalizing tracks' with
  | nil => exact absurd hread.symm (Option.some_ne_none _)
  | cons track tracks ih =>
      rw [List.forall_mem_cons] at hsound
      rw [readTracks] at hread
      cases hone : (if track.type = type then track.read else none) with
      | some result =>
          obtain ⟨htype, hfirst⟩ := Option.ite_none_right_eq_some.mp hone
          obtain ⟨first, track'⟩ := result
          obtain ⟨hsound', htype', hcontents, hne⟩ := hsound.1.read hfirst
          rw [hone] at hread
          obtain ⟨rfl, rfl⟩ := Prod.mk.inj (Option.some.inj hread)
          refine ⟨List.forall_mem_cons.mpr ⟨hsound', hsound.2⟩, hne, fun other ↦ ?_, ?_,
            fun other hother ↦ ?_⟩
          · rw [entries_cons, entries_cons, htype']
            split_ifs <;> rfl
          · rw [pending_cons, pending_cons, htype', if_pos htype, if_pos htype, hcontents,
              List.cons_append]
          · rw [pending_cons, pending_cons, htype', htype, if_neg hother.symm, if_neg hother.symm]
      | none =>
          rw [hone] at hread
          obtain ⟨⟨later, rest⟩, hlater, hmade⟩ := Option.map_eq_some_iff.mp hread
          obtain ⟨rfl, rfl⟩ := Prod.mk.inj hmade
          obtain ⟨hsound', hne, hentries, htaken, hothers⟩ := ih hsound.2 hlater
          refine ⟨List.forall_mem_cons.mpr ⟨hsound.1, hsound'⟩, hne, fun other ↦ ?_, ?_,
            fun other hother ↦ ?_⟩
          · rw [entries_cons, entries_cons]
            split_ifs
            · rw [List.length_cons, List.length_cons, hentries]
            · exact hentries other
          · rw [pending_cons, pending_cons, htaken]
            split_ifs with htype
            · rw [if_pos htype, track.read_eq_none_iff, ← track.contents_eq_nil_iff] at hone
              rw [hone, List.nil_append, List.nil_append]
            · rfl
          · rw [pending_cons, pending_cons, hothers other hother]

end Entries

/-! ## What was written since the first start -/

section History

variable {log : List (Act Client TrackType)} {type : TrackType}

theorem written_append (log later : List (Act Client TrackType)) :
    written (log ++ later) = written log ++ written later := List.filterMap_append

theorem Started.mem_start (h : Started log type) : .start type ∈ log := by
  obtain ⟨past, act, since, rfl, rfl, -⟩ := h
  exact List.mem_append_right _ List.mem_cons_self

theorem started_concat_iff {act : Act Client TrackType} :
    Started (log ++ [act]) type ↔ act = .start type ∨ Started log type ∧ act ≠ .stop type :=
  since_concat_iff

variable [DecidableEq Client] [DecidableEq TrackType]

/-- What is written later comes behind what was written already. -/
theorem writtenSince_append (hstart : .start type ∈ log) (later : List (Act Client TrackType)) :
    writtenSince (log ++ later) type = writtenSince log type ++ written later := by
  have hne : ¬ (log.dropWhile fun act ↦ act ≠ .start type).isEmpty := by
    rw [List.isEmpty_iff, List.dropWhile_eq_nil_iff]
    intro hall
    exact absurd (of_decide_eq_true (hall _ hstart)) (not_not_intro rfl)
  rw [writtenSince, List.dropWhile_append, if_neg hne, writtenSince, written_append]

theorem writtenSince_of_not_mem (hstart : .start type ∉ log) : writtenSince log type = [] := by
  have hnil : (log.dropWhile fun act ↦ act ≠ .start type) = [] := by
    rw [List.dropWhile_eq_nil_iff]
    intro act hact
    exact decide_eq_true (ne_of_mem_of_not_mem hact hstart)
  rw [writtenSince, hnil]
  rfl

theorem writtenSince_sublist (log later : List (Act Client TrackType)) (type : TrackType) :
    (writtenSince log type).Sublist (writtenSince (log ++ later) type) := by
  by_cases hstart : .start type ∈ log
  · rw [writtenSince_append hstart]
    exact List.sublist_append_left _ _
  · rw [writtenSince_of_not_mem hstart]
    exact List.nil_sublist _

theorem server_concat (log : List (Act Client TrackType)) (act : Act Client TrackType) :
    server (log ++ [act]) = step (server log) act := by
  rw [server, run_append]
  rfl

end History

/-! ## What a read returns -/

section Reading

variable [DecidableEq Client] [DecidableEq TrackType]

namespace State

variable (s : State Client TrackType) (client : Client) (type : TrackType)

/-- If nothing is queued for the type, no block is read for any. -/
theorem virtualMicRead_none (hnone : readTracks type s.listTracks = none) :
    (s.virtualMicRead client type).listTracks = s.listTracks ∧
      ∀ other, (s.virtualMicRead client type).blocksRead other = s.blocksRead other := by
  have hstep : s.virtualMicRead client type = { s with
      time := Function.update s.time client (s.timeLeft client)
      returned :=
        if s.timeLeft client = 0 then s.returned ++ [⟨client, type, []⟩] else s.returned } := by
    rw [virtualMicRead, hnone]
  rw [hstep]
  refine ⟨rfl, fun other ↦ ?_⟩
  rw [blocksRead, blocksRead]
  dsimp only
  split_ifs
  · rw [List.filter_append, List.filter_cons_of_neg (by simp), List.filter_nil, List.append_nil]
  · rfl

/-- The block that is read is returned. -/
theorem virtualMicRead_some {bytes : List (Option UInt8)} {tracks : List (Track TrackType)}
    (hsome : readTracks type s.listTracks = some (bytes, tracks)) (hne : bytes ≠ []) :
    (s.virtualMicRead client type).listTracks = tracks ∧
      (s.virtualMicRead client type).blocksRead type = s.blocksRead type ++ [bytes] ∧
      ∀ other, other ≠ type →
        (s.virtualMicRead client type).blocksRead other = s.blocksRead other := by
  have hstep : s.virtualMicRead client type = {
      listTracks := tracks
      time := Function.update s.time client 0
      returned := s.returned ++ [⟨client, type, bytes⟩] } := by
    rw [virtualMicRead, hsome]
  rw [hstep]
  refine ⟨rfl, ?_, fun other hother ↦ ?_⟩
  · rw [blocksRead, List.filter_append, List.filter_cons_of_pos (by simpa using hne),
      List.filter_nil, List.map_append, blocksRead]
    rfl
  · rw [blocksRead, List.filter_append, List.filter_cons_of_neg (by simp [hother.symm]),
      List.filter_nil, List.append_nil, blocksRead]

end State

end Reading

/-! ## Runs -/

section Runs

variable [DecidableEq Client] [DecidableEq TrackType] {log : List (Act Client TrackType)}

/-- The memories of all tracks are sound. -/
def State.Sound (s : State Client TrackType) : Prop := ∀ track ∈ s.listTracks, track.Sound

theorem sound_step {s : State Client TrackType} (hsound : s.Sound) (act : Act Client TrackType) :
    (step s act).Sound := by
  cases act with
  | start type => exact List.forall_mem_cons.mpr ⟨Track.sound_make type, hsound⟩
  | stop type => exact fun track htrack ↦ hsound track (List.mem_of_mem_eraseP htrack)
  | write buf =>
      intro track htrack
      obtain ⟨old, hold, rfl⟩ := List.mem_map.mp htrack
      exact ((hsound old hold).write buf).1
  | read client type =>
      change ∀ track ∈ (s.virtualMicRead client type).listTracks, track.Sound
      cases hread : readTracks type s.listTracks with
      | none => rwa [(s.virtualMicRead_none client type hread).1]
      | some result =>
          obtain ⟨hsound', hne, -⟩ := readTracks_spec hsound hread
          rwa [(s.virtualMicRead_some client type hread hne).1]

theorem sound_server (log : List (Act Client TrackType)) : (server log).Sound := by
  have hinit : (State.init : State Client TrackType).Sound :=
    fun _ htrack ↦ absurd htrack List.not_mem_nil
  have hstep : ∀ (s : State Client TrackType) act, s.Sound → (step s act).Sound :=
    fun _ act h ↦ sound_step h act
  exact run_keeps hstep hinit log

/-! Each region, as the log gets longer. -/

theorem entries_start (log : List (Act Client TrackType)) (type other : TrackType) :
    entries (server (log ++ [.start type])).listTracks other =
      if type = other then .make type :: entries (server log).listTracks other
      else entries (server log).listTracks other := by
  rw [server_concat]
  exact entries_cons (.make type) _ other

theorem entries_stop (log : List (Act Client TrackType)) (type other : TrackType) :
    entries (server (log ++ [.stop type])).listTracks other =
      if type = other then (entries (server log).listTracks other).tail
      else entries (server log).listTracks other := by
  rw [server_concat]
  exact entries_eraseP _ type other

theorem entries_write (log : List (Act Client TrackType)) (buf : Block) (type : TrackType) :
    entries (server (log ++ [.write buf])).listTracks type =
      (entries (server log).listTracks type).map fun track ↦ track.write buf := by
  rw [server_concat]
  exact entries_map_write _ (sound_server log) buf type

/-- Each type that is started has one entry, and what was read and what is queued was written. -/
structure Ordered (log : List (Act Client TrackType)) : Prop where
  single : ∀ type, (entries (server log).listTracks type).length ≤ 1
  started : ∀ type, entries (server log).listTracks type ≠ [] → Started log type
  kept : ∀ type, ((server log).blocksRead type ++ pending (server log).listTracks type).Sublist
    ((writtenSince log type).map Block.bytes)

theorem ordered_nil : Ordered ([] : List (Act Client TrackType)) where
  single := fun _ ↦ Nat.zero_le 1
  started := fun _ h ↦ absurd rfl h
  kept := fun _ ↦ List.Sublist.refl _

omit [DecidableEq Client] in
theorem Fresh.entries_eq_nil {s : State Client TrackType} {type : TrackType}
    (h : Fresh s (.start type)) : entries s.listTracks type = [] := by
  rw [entries, List.filter_eq_nil_iff]
  intro track htrack
  simpa using h track htrack

theorem Ordered.start (h : Ordered log) {type : TrackType}
    (hfresh : Fresh (server log) (.start type)) : Ordered (log ++ [.start type]) := by
  have hread : ∀ other, (server (log ++ [.start type])).blocksRead other =
      (server log).blocksRead other := by
    intro other
    rw [server_concat]
    rfl
  have hnil := hfresh.entries_eq_nil
  constructor
  case single =>
      intro other
      rw [entries_start]
      split_ifs with hother
      · obtain rfl : type = other := hother
        rw [hnil]
        exact Nat.le_refl 1
      · exact h.single other
  case started =>
      intro other hne
      rw [entries_start] at hne
      rw [started_concat_iff]
      split_ifs at hne with hother
      · obtain rfl : type = other := hother
        exact .inl rfl
      · exact .inr ⟨h.started other hne, fun hact ↦ nomatch hact⟩
  case kept =>
      intro other
      have hpending : pending (server (log ++ [.start type])).listTracks other =
          pending (server log).listTracks other := by
        rw [pending, entries_start]
        split_ifs <;> rfl
      rw [hread, hpending]
      exact (h.kept other).trans ((writtenSince_sublist log _ other).map _)

theorem Ordered.stop (h : Ordered log) (type : TrackType) : Ordered (log ++ [.stop type]) := by
  have hread : ∀ other, (server (log ++ [.stop type])).blocksRead other =
      (server log).blocksRead other := by
    intro other
    rw [server_concat]
    rfl
  constructor
  case single =>
      intro other
      rw [entries_stop]
      split_ifs
      · rw [List.length_tail]
        exact (Nat.sub_le _ 1).trans (h.single other)
      · exact h.single other
  case started =>
      intro other hne
      rw [entries_stop] at hne
      rw [started_concat_iff]
      split_ifs at hne with hother
      · have hlength : (entries (server log).listTracks other).tail.length ≤ 0 := by
          rw [List.length_tail]
          exact Nat.sub_le_sub_right (h.single other) 1
        exact absurd (List.length_eq_zero_iff.mp (Nat.le_zero.mp hlength)) hne
      · refine .inr ⟨h.started other hne, fun hact ↦ hother ?_⟩
        exact Act.stop.inj hact
  case kept =>
      intro other
      have hpending : (pending (server (log ++ [.stop type])).listTracks other).Sublist
          (pending (server log).listTracks other) := by
        rw [pending, pending, entries_stop]
        split_ifs
        · cases entries (server log).listTracks other with
          | nil => exact List.Sublist.refl _
          | cons track tracks =>
              rw [List.tail_cons, List.flatMap_cons]
              exact List.sublist_append_right _ _
        · exact List.Sublist.refl _
      calc
        _ = (server log).blocksRead other ++
            pending (server (log ++ [.stop type])).listTracks other := by rw [hread]
        List.Sublist _ ((server log).blocksRead other ++ pending (server log).listTracks other) :=
          hpending.append_left _
        List.Sublist _ ((writtenSince log other).map Block.bytes) := h.kept other
        List.Sublist _ _ := (writtenSince_sublist log _ other).map _

theorem Ordered.write (h : Ordered log) (buf : Block) : Ordered (log ++ [.write buf]) := by
  have hread : ∀ type, (server (log ++ [.write buf])).blocksRead type =
      (server log).blocksRead type := by
    intro type
    rw [server_concat]
    rfl
  constructor
  case single =>
      intro type
      rw [entries_write, List.length_map]
      exact h.single type
  case started =>
      intro type hne
      rw [entries_write, ne_eq, List.map_eq_nil_iff] at hne
      exact started_concat_iff.mpr (.inr ⟨h.started type hne, fun hact ↦ nomatch hact⟩)
  case kept =>
      intro type
      have hkept := h.kept type
      rw [hread, pending, entries_write]
      rw [pending] at hkept
      cases hone : entries (server log).listTracks type with
      | nil =>
          rw [hone] at hkept
          exact hkept.trans ((writtenSince_sublist log _ type).map _)
      | cons track tracks =>
          have hnone : tracks = [] := by
            have hsingle := h.single type
            rw [hone, List.length_cons] at hsingle
            exact List.length_eq_zero_iff.mp (by omega)
          subst hnone
          have hstart : .start type ∈ log :=
            (h.started type (by rw [hone]; exact List.cons_ne_nil _ _)).mem_start
          have hmem : track ∈ entries (server log).listTracks type := by
            rw [hone]
            exact List.mem_cons_self
          have hqueued := ((sound_server log track (mem_entries_iff.mp hmem).1).write buf).2.2.1
          rw [hone, List.flatMap_cons, List.flatMap_nil, List.append_nil] at hkept
          rw [List.map_cons, List.map_nil, List.flatMap_cons, List.flatMap_nil, List.append_nil,
            writtenSince_append hstart, List.map_append]
          calc
            List.Sublist _ ((server log).blocksRead type ++ (track.contents ++ [buf.bytes])) :=
              hqueued.append_left _
            _ = (server log).blocksRead type ++ track.contents ++ [buf.bytes] :=
              (List.append_assoc ..).symm
            List.Sublist _ _ := hkept.append_right [buf.bytes]

theorem Ordered.read (h : Ordered log) (client : Client) (type : TrackType) :
    Ordered (log ++ [.read client type]) := by
  have hserver : server (log ++ [.read client type]) =
      (server log).virtualMicRead client type := server_concat log _
  have hstarted : ∀ other, Started log other → Started (log ++ [.read client type]) other :=
    fun other hother ↦ started_concat_iff.mpr (.inr ⟨hother, fun hact ↦ nomatch hact⟩)
  have hwritten : ∀ other, ((writtenSince log other).map Block.bytes).Sublist
      ((writtenSince (log ++ [.read client type]) other).map Block.bytes) :=
    fun other ↦ (writtenSince_sublist log _ other).map _
  cases hread : readTracks type (server log).listTracks with
  | none =>
      obtain ⟨htracks, hblocks⟩ := (server log).virtualMicRead_none client type hread
      rw [← hserver] at htracks hblocks
      constructor
      case single =>
          rw [htracks]
          exact h.single
      case started =>
          intro other hne
          rw [htracks] at hne
          exact hstarted other (h.started other hne)
      case kept =>
          intro other
          rw [htracks, hblocks]
          exact (h.kept other).trans (hwritten other)
  | some result =>
      obtain ⟨-, hne, hentries, htaken, hothers⟩ := readTracks_spec (sound_server log) hread
      obtain ⟨htracks, hblock, hblocks⟩ :=
        (server log).virtualMicRead_some client type hread hne
      rw [← hserver] at htracks hblock hblocks
      constructor
      case single =>
          intro other
          rw [htracks, hentries]
          exact h.single other
      case started =>
          intro other hsome
          rw [htracks, ← List.length_pos_iff, hentries, List.length_pos_iff] at hsome
          exact hstarted other (h.started other hsome)
      case kept =>
          intro other
          by_cases hother : other = type
          · subst hother
            have hkept := h.kept other
            rw [htaken] at hkept
            rw [htracks, hblock, List.append_assoc]
            exact hkept.trans (hwritten other)
          · rw [htracks, hblocks other hother, hothers other hother]
            exact (h.kept other).trans (hwritten other)

/-- A type that is not started has no entry, and nothing can be read for it. -/
theorem Ordered.served (h : Ordered log) : Served log where
  inOrder := fun type ↦ (List.sublist_append_left _ _).trans (h.kept type)
  stopped := by
    intro type client hstarted
    have hnil : entries (server log).listTracks type = [] :=
      by_contra fun hne ↦ hstarted (h.started type hne)
    have hnone : readTracks type (server log).listTracks = none := by
      rw [readTracks_eq_none_iff, hnil]
      exact fun track htrack ↦ absurd htrack List.not_mem_nil
    exact ((server log).virtualMicRead_none client type hnone).2 type

theorem ordered_of_along (h : Along step Fresh .init log) : Ordered log := by
  induction log using List.reverseRecOn with
  | nil => exact ordered_nil
  | append_singleton log act ih =>
      obtain ⟨hlog, hact⟩ := along_append_iff.mp h
      cases act with
      | start type => exact (ih hlog).start hact.1
      | stop type => exact (ih hlog).stop type
      | write buf => exact (ih hlog).write buf
      | read client type => exact (ih hlog).read client type

/-- If a type has an entry when it is started, the next stop leaves it one, and a block that is then
written is read. -/
theorem not_served_of_not_fresh (client : Client) {type : TrackType}
    (h : ¬ Fresh (server log) (.start type)) (buf : Block) :
    ¬ Served (log ++ [.start type] ++ [.stop type] ++ [.write buf]) := by
  intro hserved
  have hstopped : ¬ Started (log ++ [.start type] ++ [.stop type] ++ [.write buf]) type := by
    rw [started_concat_iff, started_concat_iff]
    simp
  have hentries : entries
      (server (log ++ [.start type] ++ [.stop type] ++ [.write buf])).listTracks type =
        (entries (server log).listTracks type).map fun track ↦ track.write buf := by
    rw [entries_write, entries_stop, if_pos rfl, entries_start, if_pos rfl, List.tail_cons]
  obtain ⟨track, htrack, htype⟩ : ∃ track ∈ (server log).listTracks, track.type = type := by
    by_contra hnone
    exact h fun track htrack htype ↦ hnone ⟨track, htrack, htype⟩
  have hmem : track.write buf ∈ entries
      (server (log ++ [.start type] ++ [.stop type] ++ [.write buf])).listTracks type := by
    rw [hentries]
    exact List.mem_map_of_mem (mem_entries_iff.mpr ⟨htrack, htype⟩)
  have hqueued := ((sound_server log track htrack).write buf).2.2.2
  have hsame := hserved.stopped type client hstopped
  cases hread : readTracks type
      (server (log ++ [.start type] ++ [.stop type] ++ [.write buf])).listTracks with
  | none => exact hqueued (readTracks_eq_none_iff.mp hread _ hmem)
  | some result =>
      obtain ⟨-, hne, -⟩ := readTracks_spec (sound_server _) hread
      have hblock := (State.virtualMicRead_some _ client type hread hne).2.1
      exact absurd (hsame.symm.trans hblock) (by simp)

/-- **The tracks.** Whatever the clients write, read and stop after any part of a run, they get what
is written, if and only if no type is started in the run that has an entry. -/
theorem served_exact [Inhabited Client] (log : List (Act Client TrackType)) :
    (∀ first, first <+: log → ∀ later, (∀ act ∈ later, ∀ type, act ≠ .start type) →
        Served (first ++ later)) ↔ Along step Fresh .init log := by
  constructor
  · intro h
    induction log using List.reverseRecOn with
    | nil => trivial
    | append_singleton log act ih =>
        have hlog := ih fun first hfirst ↦ h first (hfirst.trans (List.prefix_append _ _))
        refine along_append_iff.mpr ⟨hlog, ?_, trivial⟩
        cases act with
        | start type =>
            by_contra hfresh
            have hserved := h (log ++ [.start type]) List.prefix_rfl
              [.stop type, .write (Vector.replicate bufferSize 0)] (by simp)
            rw [List.append_cons] at hserved
            exact not_served_of_not_fresh default hfresh _ hserved
        | stop type => trivial
        | write buf => trivial
        | read client type => trivial
  · intro h first hfirst later hlater
    have hfree : ∀ act ∈ later, ∀ s : State Client TrackType, Fresh s act := by
      intro act hact s
      cases act with
      | start type => exact absurd rfl (hlater _ hact type)
      | stop type => trivial
      | write buf => trivial
      | read client type => trivial
    have halong : Along step Fresh .init (first ++ later) :=
      along_append_iff.mpr ⟨along_of_isPrefix hfirst h, along_of_forall hfree _⟩
    exact (ordered_of_along halong).served

/-- A type that is started twice. -/
def twice : List (Act Unit Unit) := [.start (), .start ()]

/-- A block of zeros. -/
def silence : Block := Vector.replicate bufferSize 0

/-- One block is read twice, and a block is read behind a stop. -/
theorem not_served_twice :
    ¬ Served (twice ++ [.write silence, .read () (), .read () ()]) ∧
      ¬ Served (twice ++ [.stop (), .write silence]) := by
  constructor
  · intro h
    have htwo : ((server (twice ++ [.write silence, .read () (), .read () ()])).blocksRead
        ()).length = 2 := by decide +kernel
    have hone : (writtenSince (twice ++ [.write silence, .read () (), .read () ()]) ()).length = 1 := by
      decide +kernel
    have hle := (h.inOrder ()).length_le
    rw [List.length_map, htwo, hone] at hle
    exact absurd hle (by decide)
  · have hfresh : ¬ Fresh (server ([.start ()] : List (Act Unit Unit))) (.start ()) :=
      fun hfresh ↦ hfresh (.make ()) List.mem_cons_self rfl
    exact not_served_of_not_fresh () hfresh silence

end Runs

end Vsys.VirtualMic.WriteMic
