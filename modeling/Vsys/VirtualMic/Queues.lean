import Vsys.VirtualMic.Tracks

/-!
# Tracks as bounded queues

What the tracks are for: each started track is a queue of at most three blocks, and a block that
arrives at a full queue is lost.  `Represents` says that the map, the lists of block addresses, the
usage bits and the memory of the managers stand for such queues.  Every region keeps it, except a
read of a track that has no entry (`step_represents`).
-/

namespace Vsys.VirtualMic

open Vsys.Stream Vsys.Trace

variable {Client : Type*}

/-- The queues of the started tracks. -/
abbrev Queues := TrackType → Option (List Block)

/-- A block joins a queue that has room for it. -/
def enqueue (queue : List Block) (buf : Block) : List Block :=
  if queue.length < 3 then queue ++ [buf] else queue

/-- The effect of a region on the queues. -/
def queueStep (queues : Queues) : Act Client → Queues
  | .start type => Function.update queues type (some ((queues type).getD []))
  | .stop type => Function.update queues type none
  | .read _ type _ => Function.update queues type ((queues type).map List.tail)
  | .deliver buf => fun type ↦ (queues type).map (enqueue · buf)

/-- The queues after the regions of a log. -/
def queuesOf (log : List (Act Client)) : Queues := run queueStep (fun _ ↦ none) log

/-- The bytes of a block in memory. -/
def Block.bytes (buf : Block) : List (Option UInt8) := buf.toList.map some

/-- The entry of the track stands for the queue: it has a live manager, the manager's used blocks
are the listed ones, and they hold the blocks of the queue. -/
def TrackIs (s : State Client) (type : TrackType) : Option (List Block) → Prop
  | none => s.mapTracks type = none
  | some queue =>
      ∃ address m held,
        s.mapTracks type = some ⟨held.map fun i ↦ ⟨address, i * bufferSize⟩, some address⟩ ∧
          s.heap address = some m ∧ address < s.next ∧ m.blockSize = bufferSize ∧
            m.numBlocks = 3 ∧ m.Stores held (queue.map Block.bytes)

/-- The state stands for the queues, and no two tracks share a manager. -/
structure Represents (s : State Client) (queues : Queues) : Prop where
  alive : s.crashed = false
  track : ∀ type, TrackIs s type (queues type)
  own : ∀ type other first first' address, s.mapTracks type = some ⟨first, some address⟩ →
    s.mapTracks other = some ⟨first', some address⟩ → type = other

theorem init_represents : Represents (.init : State Client) fun _ ↦ none where
  alive := rfl
  track := fun _ ↦ rfl
  own := by
    intro _ _ _ _ _ h
    exact absurd h (by simp [State.init])

/-! ## Frames -/

variable {s s' : State Client} {type other : TrackType} {queues : Queues}

/-- A track is not concerned by changes to other entries and other managers. -/
theorem TrackIs.frame {queue : Option (List Block)} (h : TrackIs s type queue)
    (hmap : s'.mapTracks type = s.mapTracks type)
    (hheap : ∀ first address, s.mapTracks type = some ⟨first, some address⟩ → address < s.next →
      s'.heap address = s.heap address)
    (hnext : s.next ≤ s'.next) : TrackIs s' type queue := by
  cases queue with
  | none => exact hmap.trans h
  | some queue =>
      obtain ⟨address, m, held, hentry, hlive, hlt, hm⟩ := h
      have hsame := hheap _ address hentry hlt
      exact ⟨address, m, held, hmap.trans hentry, hsame.trans hlive, hlt.trans_le hnext, hm⟩

theorem Represents.mapTracks_ne_none_iff (h : Represents s queues) (type : TrackType) :
    s.mapTracks type ≠ none ↔ queues type ≠ none := by
  have htrack := h.track type
  cases hqueue : queues type with
  | none =>
      rw [hqueue] at htrack
      exact iff_of_false (fun hne ↦ hne htrack) (fun hne ↦ hne rfl)
  | some queue =>
      rw [hqueue] at htrack
      obtain ⟨address, m, held, hentry, -⟩ := htrack
      exact iff_of_true (by simp [hentry]) (by simp)

theorem Represents.empty_iff (h : Represents s queues) : s.Empty ↔ ∀ type, queues type = none :=
  forall_congr' fun type ↦ not_iff_not.mp (h.mapTracks_ne_none_iff type)

/-- A change to what is not the map of tracks, the heap or the crash flag. -/
theorem Represents.congr (h : Represents s queues) (hmap : s'.mapTracks = s.mapTracks)
    (hheap : s'.heap = s.heap) (hnext : s'.next = s.next) (hcrash : s'.crashed = s.crashed) :
    Represents s' queues where
  alive := hcrash.trans h.alive
  track := fun type ↦
    (h.track type).frame (congrFun hmap type) (fun _ address _ _ ↦ congrFun hheap address) hnext.ge
  own := by
    rw [hmap]
    exact h.own

/-- Two queue maps that agree are represented by the same states. -/
theorem Represents.of_eq {queues' : Queues} (h : Represents s queues) (heq : queues = queues') :
    Represents s queues' := heq ▸ h

/-- A new entry for a track, with a manager that no other track has. -/
theorem Represents.own_update (h : Represents s queues) {entry : Option Track}
    (hnew : ∀ first address, entry = some ⟨first, some address⟩ →
      ∀ other, other ≠ type → ∀ first', s.mapTracks other ≠ some ⟨first', some address⟩) :
    ∀ t t' first first' address,
      Function.update s.mapTracks type entry t = some ⟨first, some address⟩ →
        Function.update s.mapTracks type entry t' = some ⟨first', some address⟩ → t = t' := by
  intro t t' first first' address ht ht'
  by_cases htype : t = type
  · by_cases htype' : t' = type
    · rw [htype, htype']
    · rw [htype, Function.update_self] at ht
      rw [Function.update_of_ne htype'] at ht'
      exact absurd ht' (hnew first address ht t' htype' first')
  · rw [Function.update_of_ne htype] at ht
    by_cases htype' : t' = type
    · rw [htype', Function.update_self] at ht'
      exact absurd ht (hnew first' address ht' t htype first)
    · rw [Function.update_of_ne htype'] at ht'
      exact h.own t t' first first' address ht ht'

/-- One entry and its own manager change. -/
theorem Represents.update (h : Represents s queues) {first : List Ptr} {address : ℕ}
    (hentry : s.mapTracks type = some ⟨first, some address⟩) (m : MemoryManager) (held : List ℕ)
    {queue : List Block} (hlt : address < s.next) (hsize : m.blockSize = bufferSize)
    (hblocks : m.numBlocks = 3) (hstores : m.Stores held (queue.map Block.bytes)) :
    Represents ((s.setManager address (some m)).setTrack type
      (some ⟨held.map fun i ↦ ⟨address, i * bufferSize⟩, some address⟩))
      (Function.update queues type (some queue)) where
  alive := h.alive
  track := by
    intro other
    by_cases hother : other = type
    · subst hother
      rw [Function.update_self]
      exact ⟨address, m, held, Function.update_self .., Function.update_self .., hlt, hsize,
        hblocks, hstores⟩
    · rw [Function.update_of_ne hother]
      refine (h.track other).frame (Function.update_of_ne hother ..) ?_ le_rfl
      intro first' address' hentry' _
      have hne : address' ≠ address := by
        rintro rfl
        exact hother (h.own other type _ _ _ hentry' hentry)
      exact Function.update_of_ne hne ..
  own := by
    apply h.own_update
    intro first' address' hnew other hother first'' hentry'
    simp only [Option.some.injEq, Track.mk.injEq] at hnew
    exact hother (h.own other type _ _ _ hentry' (hnew.2 ▸ hentry))

/-! ## The regions -/

/-- A new entry gets a manager that nobody else has. -/
theorem Represents.tryEmplace (h : Represents s queues) (type : TrackType) :
    Represents (s.tryEmplace type) (Function.update queues type (some ((queues type).getD []))) := by
  have htrack := h.track type
  cases hqueue : queues type with
  | some queue =>
      rw [hqueue] at htrack
      obtain ⟨address, m, held, hentry, -⟩ := htrack
      rw [State.tryEmplace, hentry, Option.getD_some, ← hqueue, Function.update_eq_self]
      exact h
  | none =>
      rw [hqueue] at htrack
      have hnone : s.mapTracks type = none := htrack
      rw [State.tryEmplace, hnone]
      refine ⟨h.alive, fun other ↦ ?_, h.own_update ?_⟩
      · by_cases hother : other = type
        · subst hother
          rw [Function.update_self]
          exact ⟨s.next, .make (bufferSize * 3) bufferSize, [], Function.update_self ..,
            Function.update_self .., Nat.lt_succ_self _, rfl, rfl, MemoryManager.make_stores ..⟩
        · rw [Function.update_of_ne hother]
          refine (h.track other).frame (Function.update_of_ne hother ..) ?_ (Nat.le_succ _)
          intro first address _ hlt
          exact Function.update_of_ne hlt.ne ..
      · -- an address that is in the map already is not the new one
        intro first address hnew other _ first' hentry
        simp only [Option.some.injEq, Track.mk.injEq] at hnew
        have htrack := h.track other
        cases hq : queues other with
        | none =>
            rw [hq] at htrack
            exact absurd (hentry.symm.trans htrack) (by simp)
        | some queue =>
            rw [hq] at htrack
            obtain ⟨address', -, held, hentry', -, hlt, -⟩ := htrack
            rw [hentry'] at hentry
            simp only [Option.some.injEq, Track.mk.injEq] at hentry
            exact hlt.ne (hentry.2.trans hnew.2.symm)

theorem Represents.virtualMicControl (h : Represents s queues) (op : OpType) :
    Represents (s.virtualMicControl op) queues :=
  h.congr rfl rfl rfl rfl

theorem Represents.virtualMicStart (h : Represents s queues) (type : TrackType) :
    Represents (s.virtualMicStart type)
      (Function.update queues type (some ((queues type).getD []))) := by
  rw [State.virtualMicStart]
  split
  · exact (h.virtualMicControl .stateEnable).tryEmplace type
  · exact h.tryEmplace type

/-- An entry goes with its manager. -/
theorem Represents.erase (h : Represents s queues) (type : TrackType) :
    Represents (s.erase type) (Function.update queues type none) := by
  have hframe : ∀ heap : ℕ → Option MemoryManager,
      (∀ other first address, other ≠ type → s.mapTracks other = some ⟨first, some address⟩ →
        heap address = s.heap address) →
      Represents (({ s with heap := heap }).setTrack type none)
        (Function.update queues type none) := by
    intro heap hheap
    refine ⟨h.alive, fun other ↦ ?_, h.own_update (fun _ _ hnew ↦ absurd hnew (by simp))⟩
    by_cases hother : other = type
    · subst hother
      rw [Function.update_self]
      exact Function.update_self ..
    · rw [Function.update_of_ne hother]
      exact (h.track other).frame (Function.update_of_ne hother ..)
        (fun first address hentry _ ↦ hheap other first address hother hentry) le_rfl
  have htrack := h.track type
  cases hqueue : queues type with
  | none =>
      rw [hqueue] at htrack
      have hnone : s.mapTracks type = none := htrack
      rw [State.erase, hnone]
      exact hframe s.heap fun _ _ _ _ _ ↦ rfl
  | some queue =>
      rw [hqueue] at htrack
      obtain ⟨address, m, held, hentry, -⟩ := htrack
      rw [State.erase, hentry]
      refine hframe (Function.update s.heap address none) ?_
      intro other first address' hother hentry'
      have hne : address' ≠ address := by
        rintro rfl
        exact hother (h.own other type _ _ _ hentry' hentry)
      exact Function.update_of_ne hne ..

theorem Represents.virtualMicStop (h : Represents s queues) (type : TrackType) :
    Represents (s.virtualMicStop type) (Function.update queues type none) := by
  rw [State.virtualMicStop]
  split
  · exact (h.erase type).virtualMicControl .stateDisable
  · exact h.erase type

/-- A block is pushed to one track. -/
theorem Represents.push (h : Represents s queues) (buf : Block) (type : TrackType) :
    Represents (s.push buf type)
      (Function.update queues type ((queues type).map (enqueue · buf))) := by
  have htrack := h.track type
  cases hqueue : queues type with
  | none =>
      rw [hqueue] at htrack
      have hnone : s.mapTracks type = none := htrack
      rw [State.push, hnone, Option.map_none, ← hqueue, Function.update_eq_self]
      exact h
  | some queue =>
      rw [hqueue] at htrack
      obtain ⟨address, m, held, hentry, hlive, hlt, hsize, hblocks, hstores⟩ := htrack
      have hlen : held.length = queue.length := by
        simpa using congrArg List.length hstores.stored
      have hfull := hstores.allocate_eq_none_iff
      rw [hblocks, hlen] at hfull
      have hle : queue.length ≤ 3 := by
        rw [← hlen, ← hblocks]
        exact hstores.holds.length_le
      simp only [State.push, hentry, hlive]
      cases hnew : m.allocate with
      | mk offset m' =>
          cases offset with
          | none =>
              -- the pool is exhausted: the block is not stored
              have hthree : queue.length = 3 := hfull.mp (by rw [hnew])
              rw [Option.map_some, enqueue, if_neg (by omega), ← hqueue, Function.update_eq_self]
              exact h
          | some offset =>
              have hroom : queue.length < 3 := by
                have hne : queue.length ≠ 3 := fun heq ↦ by simpa [hnew] using hfull.mpr heq
                omega
              have hdata : buf.toList.length = m.blockSize := by
                rw [hsize]
                exact buf.length_toList
              obtain ⟨i, rfl, hsize', hblocks', hstores'⟩ := hstores.allocate hnew hdata
              rw [Option.map_some, enqueue, if_pos hroom]
              rw [hsize] at hstores' hsize' hblocks' ⊢
              have hcontents : (queue ++ [buf]).map Block.bytes =
                  queue.map Block.bytes ++ [buf.toList.map some] := by
                rw [List.map_append]
                rfl
              rw [← hcontents] at hstores'
              have hnext := h.update hentry _ _ hlt hsize' (hblocks'.trans hblocks) hstores'
              rwa [List.map_append] at hnext

theorem Represents.deliver (h : Represents s queues) (buf : Block) :
    Represents (s.deliver buf) fun type ↦ (queues type).map (enqueue · buf) := by
  have hfirst := h.push buf .default
  have hboth := hfirst.push buf .btcall
  simp only [State.deliver, hfirst.alive]
  refine hboth.of_eq ?_
  funext type
  cases type <;> rfl

variable [DecidableEq Client]

/-- One attempt of a read on a started track takes the block at the front, if there is one. -/
theorem Represents.virtualMicRead (h : Represents s queues) (client : Client) {type : TrackType}
    {queue : List Block} (hqueue : queues type = some queue) (size : ℕ) :
    Represents (s.virtualMicRead client type size) (Function.update queues type (some queue.tail)) := by
  have htrack := h.track type
  rw [hqueue] at htrack
  obtain ⟨address, m, held, hentry, hlive, hlt, hsize, hblocks, hstores⟩ := htrack
  cases held with
  | nil =>
      have hnil : queue = [] := by simpa using hstores.stored.symm
      subst hnil
      rw [List.tail_nil, ← hqueue, Function.update_eq_self]
      have hsame : s.setTrack type (some ⟨[], some address⟩) = s := by
        rw [State.setTrack, Function.update_eq_self_iff.mpr hentry.symm]
      simp only [State.virtualMicRead, hentry, Option.getD_some, List.map_nil, hsame]
      exact h.congr rfl rfl rfl rfl
  | cons i held =>
      have hpos : 0 < m.blockSize := hsize ▸ Nat.succ_pos _
      obtain ⟨rest, hrest, hsize', hblocks', hstores'⟩ := hstores.deallocate hpos
      have htail : rest = queue.tail.map Block.bytes := by
        rw [List.map_tail, hrest, List.tail_cons]
      subst htail
      rw [hsize] at hstores' hsize' hblocks'
      have hnext := h.update hentry _ _ hlt hsize' (hblocks'.trans hblocks) hstores'
      simp only [State.virtualMicRead, hentry, Option.getD_some, List.map_cons, hlive]
      exact hnext.congr rfl rfl rfl rfl

/-- **One region.** Every region acts on the queues, as long as only started tracks are read. -/
theorem step_represents (h : Represents s queues) {act : Act Client}
    (hread : ∀ client type size, act = .read client type size → queues type ≠ none) :
    Represents (step s act) (queueStep queues act) := by
  simp only [step, h.alive, Bool.false_eq_true, if_false]
  cases act with
  | start type => exact h.virtualMicStart type
  | stop type => exact h.virtualMicStop type
  | deliver buf => exact h.deliver buf
  | read client type size =>
      obtain ⟨queue, hqueue⟩ := Option.ne_none_iff_exists'.mp (hread client type size rfl)
      have hnext := h.virtualMicRead client hqueue size
      rw [queueStep, hqueue]
      exact hnext

end Vsys.VirtualMic
