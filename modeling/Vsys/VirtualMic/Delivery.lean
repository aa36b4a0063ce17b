import Vsys.VirtualMic.Control

/-!
# From the deliveries to the reads of a track

The blocks that clients read from a started track are the delivered ones, in order, without those
that found three blocks pending.  The manager's used blocks are the listed ones, and the reads of
one track do not concern another.

All this is for runs that read only started tracks.  A read of another track leaves an entry
without a manager (`Control`), and the next delivery ends the program.
-/

namespace Vsys.VirtualMic

open Vsys.Stream Vsys.Trace

variable {Client : Type*}

/-! ## One queue -/

/-- The effect of a region on the queue of one track. -/
def trackStep (type : TrackType) (queue : Option (List Block)) : Act Client → Option (List Block)
  | .start other => if other = type then some (queue.getD []) else queue
  | .stop other => if other = type then none else queue
  | .read _ other _ => if other = type then queue.map List.tail else queue
  | .deliver buf => queue.map (enqueue · buf)

/-- The block that a region takes from the queue of a track. -/
def taken (type : TrackType) (queue : Option (List Block)) : Act Client → List Block
  | .read _ other _ => if other = type then (queue.bind List.head?).toList else []
  | _ => []

/-- The block that a region brings, with the number of blocks before it in the queue. -/
def brought (queue : Option (List Block)) : Act Client → List (Block × ℕ)
  | .deliver buf => [(buf, (queue.getD []).length)]
  | _ => []

/-- The blocks that found room. -/
def accepted (arrivals : List (Block × ℕ)) : List Block :=
  (arrivals.filter fun arrival ↦ arrival.2 < 3).map Prod.fst

theorem queueStep_apply (queues : Queues) (act : Act Client) (type : TrackType) :
    queueStep queues act type = trackStep type (queues type) act := by
  cases act with
  | start other =>
      by_cases h : other = type
      · subst h
        simp [queueStep, trackStep]
      · simp [queueStep, trackStep, h, Ne.symm h]
  | stop other =>
      by_cases h : other = type
      · subst h
        simp [queueStep, trackStep]
      · simp [queueStep, trackStep, h, Ne.symm h]
  | read client other size =>
      by_cases h : other = type
      · subst h
        simp [queueStep, trackStep]
      · simp [queueStep, trackStep, h, Ne.symm h]
  | deliver buf => rfl

theorem run_queueStep_apply (queues : Queues) (log : List (Act Client)) (type : TrackType) :
    run queueStep queues log type = run (trackStep type) (queues type) log := by
  induction log generalizing queues with
  | nil => rfl
  | cons act log ih => rw [run_cons, run_cons, ih, queueStep_apply]

theorem queuesOf_apply (log : List (Act Client)) (type : TrackType) :
    queuesOf log type = run (trackStep type) none log :=
  run_queueStep_apply ..

/-- What one region of a started track does to its queue. -/
theorem trackStep_balance {type : TrackType} (queue : List Block) {act : Act Client}
    (hstop : act ≠ .stop type) :
    ∃ queue', trackStep type (some queue) act = some queue' ∧
      queue ++ accepted (brought (some queue) act) = taken type (some queue) act ++ queue' := by
  cases act with
  | start other => exact ⟨queue, by simp [trackStep], by simp [brought, taken, accepted]⟩
  | stop other =>
      have hother : other ≠ type := fun h ↦ hstop (by rw [h])
      exact ⟨queue, by simp [trackStep, hother], by simp [brought, taken, accepted]⟩
  | read client other size =>
      by_cases hother : other = type
      · refine ⟨queue.tail, by simp [trackStep, hother], ?_⟩
        cases queue <;> simp [brought, taken, accepted, hother]
      · exact ⟨queue, by simp [trackStep, hother], by simp [brought, taken, accepted, hother]⟩
  | deliver buf =>
      refine ⟨enqueue queue buf, rfl, ?_⟩
      by_cases hroom : queue.length < 3
      · simp [enqueue, brought, taken, accepted, hroom]
      · simp [enqueue, brought, taken, accepted, hroom]

theorem accepted_append (first second : List (Block × ℕ)) :
    accepted (first ++ second) = accepted first ++ accepted second := by
  simp [accepted]

/-- **A bounded queue.** While the track is not stopped, what was in the queue and what found room
is what was taken and what is in the queue now. -/
theorem run_balance {type : TrackType} (queue : List Block) {log : List (Act Client)}
    (hstop : ∀ act ∈ log, act ≠ .stop type) :
    ∃ queue', run (trackStep type) (some queue) log = some queue' ∧
      queue ++ accepted (outputs (trackStep type) brought (some queue) log) =
        outputs (trackStep type) (taken type) (some queue) log ++ queue' := by
  induction log generalizing queue with
  | nil => exact ⟨queue, rfl, by simp [accepted]⟩
  | cons act log ih =>
      obtain ⟨middle, hmiddle, hbalance⟩ := trackStep_balance queue (hstop act List.mem_cons_self)
      obtain ⟨queue', hrun, hlater⟩ :=
        ih middle fun later hmem ↦ hstop later (List.mem_cons_of_mem act hmem)
      refine ⟨queue', by rw [run_cons, hmiddle, hrun], ?_⟩
      rw [outputs_cons, outputs_cons, hmiddle, accepted_append, ← List.append_assoc, hbalance,
        List.append_assoc, hlater, List.append_assoc]

/-! ## Other tracks -/

/-- A region that is not a read of another track. -/
def Concerns (type : TrackType) : Act Client → Bool
  | .read _ other _ => decide (other = type)
  | _ => true

theorem run_filter_concerns (type : TrackType) (queue : Option (List Block))
    (log : List (Act Client)) :
    run (trackStep type) queue (log.filter (Concerns type)) = run (trackStep type) queue log := by
  induction log generalizing queue with
  | nil => rfl
  | cons act log ih =>
      by_cases hact : Concerns type act
      · rw [List.filter_cons_of_pos hact, run_cons, run_cons, ih]
      · rw [List.filter_cons_of_neg hact, run_cons, ih]
        cases act <;> simp_all [Concerns, trackStep]

theorem outputs_filter_concerns (type : TrackType) (queue : Option (List Block))
    (log : List (Act Client)) :
    outputs (trackStep type) (taken type) queue (log.filter (Concerns type)) =
      outputs (trackStep type) (taken type) queue log := by
  induction log generalizing queue with
  | nil => rfl
  | cons act log ih =>
      by_cases hact : Concerns type act
      · rw [List.filter_cons_of_pos hact, outputs_cons, outputs_cons, ih]
      · rw [List.filter_cons_of_neg hact, outputs_cons, ih]
        cases act <;> simp_all [Concerns, trackStep, taken]

/-! ## What the clients get -/

namespace State

variable (s : State Client)

/-- The blocks that the reads of a track have returned so far. -/
def blocksRead (type : TrackType) : List (List (Option UInt8)) :=
  (s.returned.filter fun result ↦ result.type = type ∧ result.bytes ≠ []).map Result.bytes

/-- The number of blocks in the list of a track. -/
def pending (type : TrackType) : ℕ := ((s.mapTracks type).map fun track ↦ track.first.length).getD 0

/-- The contents of the blocks in the list of a track. -/
def queued (type : TrackType) : List (List (Option UInt8)) :=
  ((s.mapTracks type).map fun track ↦ track.first.map fun block ↦
    ((s.heap block.base).map fun m ↦ m.read block.offset bufferSize).getD []).getD []

/-- The block that a region delivers, with the number of blocks in the track's list before it. -/
def arrival (type : TrackType) : Act Client → List (Block × ℕ)
  | .deliver buf => [(buf, s.pending type)]
  | _ => []

@[simp]
theorem push_returned (buf : Block) (type : TrackType) :
    (s.push buf type).returned = s.returned := by
  rw [push]
  repeat' split
  all_goals rfl

@[simp]
theorem deliver_returned (buf : Block) : (s.deliver buf).returned = s.returned := by
  rw [deliver]
  split <;> simp

@[simp]
theorem virtualMicStart_returned (type : TrackType) :
    (s.virtualMicStart type).returned = s.returned := by
  rw [virtualMicStart, tryEmplace]
  repeat' split
  all_goals rfl

@[simp]
theorem erase_returned (type : TrackType) : (s.erase type).returned = s.returned := by
  rw [erase]
  split <;> rfl

@[simp]
theorem virtualMicStop_returned (type : TrackType) :
    (s.virtualMicStop type).returned = s.returned := by
  simp only [virtualMicStop]
  split
  · exact s.erase_returned type
  · exact s.erase_returned type

end State

theorem blocksRead_congr {s s' : State Client} (h : s'.returned = s.returned) (type : TrackType) :
    s'.blocksRead type = s.blocksRead type := by
  rw [State.blocksRead, h, State.blocksRead]

theorem Block.bytes_ne_nil (buf : Block) : buf.bytes ≠ [] := by
  intro h
  have hlen : buf.bytes.length = bufferSize := by simp [Block.bytes]
  rw [h] at hlen
  exact absurd hlen (by decide)

variable {s : State Client} {queues : Queues}

/-- The list of a track is as long as its queue. -/
theorem Represents.pending_eq (h : Represents s queues) (type : TrackType) :
    s.pending type = ((queues type).getD []).length := by
  have htrack := h.track type
  cases hqueue : queues type with
  | none =>
      rw [hqueue] at htrack
      have hnone : s.mapTracks type = none := htrack
      simp [State.pending, hnone]
  | some queue =>
      rw [hqueue] at htrack
      obtain ⟨address, m, held, hentry, -, -, -, -, hstores⟩ := htrack
      have hlen : held.length = queue.length := by
        simpa using congrArg List.length hstores.stored
      simp [State.pending, hentry, hlen]

/-- The listed blocks hold the blocks of the queue. -/
theorem Represents.queued_eq (h : Represents s queues) (type : TrackType) :
    s.queued type = ((queues type).getD []).map Block.bytes := by
  have htrack := h.track type
  cases hqueue : queues type with
  | none =>
      rw [hqueue] at htrack
      have hnone : s.mapTracks type = none := htrack
      simp [State.queued, hnone]
  | some queue =>
      rw [hqueue] at htrack
      obtain ⟨address, m, held, hentry, hlive, -, hsize, -, hstores⟩ := htrack
      rw [Option.getD_some, ← hstores.stored, hsize]
      simp [State.queued, hentry, hlive]

theorem Represents.arrival_eq (h : Represents s queues) (type : TrackType) (act : Act Client) :
    s.arrival type act = brought (queues type) act := by
  cases act with
  | deliver buf => simp [State.arrival, brought, h.pending_eq]
  | start _ => rfl
  | stop _ => rfl
  | read _ _ _ => rfl

variable [DecidableEq Client]

theorem blocksRead_answer (s : State Client) (client : Client) (type other : TrackType)
    {bytes : List (Option UInt8)} (hbytes : bytes ≠ []) :
    (s.answer client type bytes).blocksRead other =
      s.blocksRead other ++ if type = other then [bytes] else [] := by
  by_cases hother : type = other
  · simp [State.blocksRead, State.answer, hbytes, hother]
  · simp [State.blocksRead, State.answer, hother]

theorem blocksRead_retry (s : State Client) (client : Client) (type other : TrackType) :
    (s.retry client type).blocksRead other = s.blocksRead other := by
  simp only [State.blocksRead, State.retry]
  split <;> simp

/-- A full read of a started track returns the block at the front of the queue. -/
theorem Represents.blocksRead_virtualMicRead (h : Represents s queues) (client : Client)
    {type : TrackType} {queue : List Block} (hqueue : queues type = some queue)
    (other : TrackType) :
    (s.virtualMicRead client type bufferSize).blocksRead other =
      s.blocksRead other ++ if type = other then queue.head?.toList.map Block.bytes else [] := by
  have htrack := h.track type
  rw [hqueue] at htrack
  obtain ⟨address, m, held, hentry, hlive, -, hsize, -, hstores⟩ := htrack
  cases held with
  | nil =>
      have hnil : queue = [] := by simpa using hstores.stored.symm
      subst hnil
      simp only [State.virtualMicRead, hentry, Option.getD_some, List.map_nil, blocksRead_retry]
      simp [State.blocksRead, State.setTrack]
  | cons i held =>
      cases queue with
      | nil => exact absurd hstores.stored (by simp)
      | cons buf queue =>
          have hbytes : m.read (i * bufferSize) bufferSize = buf.bytes := by
            have hstored := hstores.stored
            rw [hsize, List.map_cons, List.map_cons] at hstored
            exact (List.cons.inj hstored).1
          simp only [State.virtualMicRead, hentry, Option.getD_some, List.map_cons, hlive, hbytes]
          rw [blocksRead_answer _ _ _ _ buf.bytes_ne_nil]
          rfl

/-- The reads of one region are what it takes from the queue. -/
theorem Represents.blocksRead_step (h : Represents s queues) {act : Act Client}
    (hread : ∀ client type size, act = .read client type size →
      size = bufferSize ∧ queues type ≠ none) (type : TrackType) :
    (step s act).blocksRead type =
      s.blocksRead type ++ (taken type (queues type) act).map Block.bytes := by
  simp only [step, h.alive, Bool.false_eq_true, if_false]
  cases act with
  | start other => simp [taken, blocksRead_congr (s.virtualMicStart_returned other)]
  | stop other => simp [taken, blocksRead_congr (s.virtualMicStop_returned other)]
  | deliver buf => simp [taken, blocksRead_congr (s.deliver_returned buf)]
  | read client other size =>
      obtain ⟨rfl, hne⟩ := hread client other size rfl
      obtain ⟨queue, hqueue⟩ := Option.ne_none_iff_exists'.mp hne
      show (s.virtualMicRead client other bufferSize).blocksRead type = _
      rw [h.blocksRead_virtualMicRead client hqueue, taken]
      by_cases hother : other = type
      · subst hother
        rw [if_pos rfl, if_pos rfl, hqueue, Option.bind_some]
      · rw [if_neg hother, if_neg hother, List.map_nil]

/-! ## Whole runs -/

/-- A read takes a whole block, and it finds its track started. -/
def FullRead (log : List (Act Client)) (act : Act Client) : Prop :=
  ∀ client type size, act = .read client type size → size = bufferSize ∧ Started log type

omit [DecidableEq Client] in
theorem FullRead.queue {log : List (Act Client)} {act : Act Client} (h : FullRead log act)
    (client : Client) (type : TrackType) (size : ℕ) (heq : act = .read client type size) :
    size = bufferSize ∧ queuesOf log type ≠ none := by
  obtain ⟨hsize, hstarted⟩ := h client type size heq
  exact ⟨hsize, (queuesOf_ne_none_iff log type).mpr hstarted⟩

theorem represents_of_guarded {log : List (Act Client)} (h : Guarded FullRead log) :
    Represents (server log) (queuesOf log) := by
  refine @Guarded.invariant _ FullRead log (fun log ↦ Represents (server log) (queuesOf log))
    init_represents (fun log act hlog hact ↦ ?_) h
  rw [server_concat, queuesOf_concat]
  exact step_represents hlog fun client type size heq ↦ (hact.queue client type size heq).2

/-- The blocks read are the ones taken from the queue. -/
theorem blocksRead_of_guarded {log : List (Act Client)} (h : Guarded FullRead log)
    (type : TrackType) :
    (server log).blocksRead type =
      (outputs (trackStep type) (taken type) none log).map Block.bytes := by
  induction log using List.reverseRecOn with
  | nil => rfl
  | append_singleton log act ih =>
      obtain ⟨hlog, hact⟩ := guarded_concat_iff.mp h
      rw [server_concat, (represents_of_guarded hlog).blocksRead_step hact.queue, ih hlog,
        outputs_concat, List.map_append, queuesOf_apply]

/-- The deliveries of a run are what the queue is brought. -/
theorem arrivals_of_guarded {past since : List (Act Client)} (h : Guarded FullRead (past ++ since))
    (type : TrackType) :
    outputs step (fun s ↦ s.arrival type) (server past) since =
      outputs (trackStep type) brought (queuesOf past type) since := by
  induction since using List.reverseRecOn with
  | nil => rfl
  | append_singleton since act ih =>
      rw [← List.append_assoc] at h
      have hlog := (guarded_concat_iff.mp h).1
      have hserver : run step (server past) since = server (past ++ since) := (run_append ..).symm
      have hqueue : run (trackStep type) (queuesOf past type) since =
          queuesOf (past ++ since) type := by
        rw [queuesOf_apply, queuesOf_apply, run_append]
      rw [outputs_concat, outputs_concat, ih hlog, hserver, hqueue,
        (represents_of_guarded hlog).arrival_eq]

omit [DecidableEq Client] in
theorem started_filter_concerns (type other : TrackType) (log : List (Act Client)) :
    Started (log.filter (Concerns other)) type ↔ Started log type := by
  induction log using List.reverseRecOn with
  | nil => exact Iff.rfl
  | append_singleton log act ih =>
      rw [List.filter_append, started_concat_iff]
      by_cases hact : Concerns other act
      · rw [List.filter_cons_of_pos hact, List.filter_nil, started_concat_iff, ih]
      · rw [List.filter_cons_of_neg hact, List.filter_nil, List.append_nil, ih]
        cases act with
        | read client read size => simp
        | start _ => exact absurd rfl hact
        | stop _ => exact absurd rfl hact
        | deliver _ => exact absurd rfl hact

omit [DecidableEq Client] in
theorem guarded_filter_concerns (type : TrackType) {log : List (Act Client)}
    (h : Guarded FullRead log) : Guarded FullRead (log.filter (Concerns type)) := by
  induction log using List.reverseRecOn with
  | nil => exact guarded_nil
  | append_singleton log act ih =>
      obtain ⟨hlog, hact⟩ := guarded_concat_iff.mp h
      rw [List.filter_append]
      by_cases hconcerns : Concerns type act
      · rw [List.filter_cons_of_pos hconcerns, List.filter_nil]
        refine (ih hlog).concat fun client other size heq ↦ ?_
        rw [started_filter_concerns]
        exact hact client other size heq
      · rw [List.filter_cons_of_neg hconcerns, List.filter_nil, List.append_nil]
        exact ih hlog

omit [DecidableEq Client] in
/-- A started track was started once, after which it was not stopped. -/
theorem Started.exists_start {log : List (Act Client)} {type : TrackType} (h : Started log type) :
    ∃ past since, log = past ++ .start type :: since ∧ ¬ Started past type ∧
      ∀ act ∈ since, act ≠ .stop type := by
  induction log using List.reverseRecOn with
  | nil => exact absurd h not_since_nil
  | append_singleton log act ih =>
      by_cases hlog : Started log type
      · obtain ⟨past, since, rfl, hpast, hsince⟩ := ih hlog
        by_cases hact : act = .stop type
        · subst hact
          obtain heq | ⟨-, hne⟩ := started_concat_iff.mp h
          · exact absurd heq (by simp)
          · exact absurd rfl hne
        · refine ⟨past, since ++ [act], by simp, hpast, fun later hlater ↦ ?_⟩
          obtain hlater | hlater := List.mem_append.mp hlater
          · exact hsince later hlater
          · exact List.mem_singleton.mp hlater ▸ hact
      · obtain rfl | ⟨hstarted, -⟩ := started_concat_iff.mp h
        · exact ⟨log, [], rfl, hlog, by simp⟩
        · exact absurd hstarted hlog

/-- What a track has done from its start in `s₀` to `s`, while the blocks of `arrivals` came. -/
structure Faithful (s₀ s : State Client) (type : TrackType) (arrivals : List (Block × ℕ)) :
    Prop where
  /-- Blocks are read in the order they came in; only those that found three are missing. -/
  blocks : ∃ got queue : List Block,
    s.blocksRead type = s₀.blocksRead type ++ got.map Block.bytes ∧
      s.queued type = queue.map Block.bytes ∧ got ++ queue = accepted arrivals ∧
        got.Sublist (arrivals.map Prod.fst)
  /-- The used blocks of the manager are the listed ones, each once. -/
  pool : ∃ track address m, s.mapTracks type = some track ∧ track.second = some address ∧
    s.heap address = some m ∧ m.numBlocks = 3 ∧ track.first.Nodup ∧
      (∀ block ∈ track.first, ∃ i, block = ⟨address, i * bufferSize⟩) ∧
        ∀ i, m.blockUsage[i]? = some true ↔ ⟨address, i * bufferSize⟩ ∈ track.first

omit [DecidableEq Client] in
/-- The manager of a represented track. -/
theorem Represents.pool (h : Represents s queues) {type : TrackType} {queue : List Block}
    (hqueue : queues type = some queue) :
    ∃ track address m, s.mapTracks type = some track ∧ track.second = some address ∧
      s.heap address = some m ∧ m.numBlocks = 3 ∧ track.first.Nodup ∧
        (∀ block ∈ track.first, ∃ i, block = ⟨address, i * bufferSize⟩) ∧
          ∀ i, m.blockUsage[i]? = some true ↔ ⟨address, i * bufferSize⟩ ∈ track.first := by
  have htrack := h.track type
  rw [hqueue] at htrack
  obtain ⟨address, m, held, hentry, hlive, -, -, hblocks, hstores⟩ := htrack
  have hinj : Function.Injective fun i : ℕ ↦ (⟨address, i * bufferSize⟩ : Ptr) := by
    intro i j hij
    simp only [Ptr.mk.injEq, true_and] at hij
    exact Nat.eq_of_mul_eq_mul_right (by decide) hij
  refine ⟨_, address, m, hentry, rfl, hlive, hblocks, hstores.holds.nodup.map hinj, ?_, ?_⟩
  · intro block hblock
    obtain ⟨i, -, rfl⟩ := List.mem_map.mp hblock
    exact ⟨i, rfl⟩
  · intro i
    rw [hstores.holds.used_iff, List.mem_map_of_injective hinj]

/-- What is said of a started track: it is a faithful queue since its start, and what is read from
it and left in it is the same without the reads of other tracks. -/
structure Served (log : List (Act Client)) (type : TrackType) : Prop where
  since_start : ∃ past since, log = past ++ .start type :: since ∧ ¬ Started past type ∧
    (∀ act ∈ since, act ≠ .stop type) ∧
      Faithful (server (past ++ [.start type])) (server log) type
        (outputs step (fun s ↦ s.arrival type) (server (past ++ [.start type])) since)
  alone_read : (server (log.filter (Concerns type))).blocksRead type = (server log).blocksRead type
  alone_queued : (server (log.filter (Concerns type))).queued type = (server log).queued type

/-- The part of a run since the start of a track. -/
theorem faithful_since {past since : List (Act Client)} {type : TrackType}
    (h : Guarded FullRead (past ++ [.start type] ++ since)) (hnew : ¬ Started past type)
    (hstop : ∀ act ∈ since, act ≠ .stop type) :
    Faithful (server (past ++ [.start type])) (server (past ++ [.start type] ++ since)) type
      (outputs step (fun s ↦ s.arrival type) (server (past ++ [.start type])) since) := by
  have hpast : queuesOf past type = none :=
    not_not.mp fun hne ↦ hnew ((queuesOf_ne_none_iff past type).mp hne)
  have hstart : queuesOf (past ++ [.start type]) type = some [] := by
    rw [queuesOf_concat, queueStep_apply, hpast]
    simp [trackStep]
  obtain ⟨queue, hrun, hbalance⟩ := run_balance [] hstop
  have hqueue : queuesOf (past ++ [.start type] ++ since) type = some queue := by
    rw [queuesOf_apply, run_append, ← queuesOf_apply, hstart, hrun]
  have hrep := represents_of_guarded h
  refine ⟨⟨outputs (trackStep type) (taken type) (some []) since, queue, ?_, ?_, ?_, ?_⟩,
    hrep.pool hqueue⟩
  · have hbefore : Guarded FullRead (past ++ [.start type]) := fun before act after heq ↦
      h before act (after ++ since) (by rw [heq, List.append_assoc, List.cons_append])
    have hstate : run (trackStep type) none (past ++ [.start type]) = some [] := by
      rw [← hstart, queuesOf_apply]
    rw [blocksRead_of_guarded h, blocksRead_of_guarded hbefore, outputs_append, hstate,
      List.map_append]
  · rw [hrep.queued_eq, hqueue, Option.getD_some]
  · rw [arrivals_of_guarded h, hstart, ← hbalance, List.nil_append]
  · rw [arrivals_of_guarded h, hstart]
    calc
      (outputs (trackStep type) (taken type) (some []) since).Sublist
          (outputs (trackStep type) (taken type) (some []) since ++ queue) :=
        List.sublist_append_left ..
      _ = accepted (outputs (trackStep type) brought (some []) since) := hbalance.symm
      List.Sublist _ ((outputs (trackStep type) brought (some []) since).map Prod.fst) :=
        List.filter_sublist.map _

/-- **Delivery.** In a run that reads only started tracks, every started track is served. -/
theorem track_served {log : List (Act Client)} (h : Guarded FullRead log) {type : TrackType}
    (hstarted : Started log type) : Served log type where
  since_start := by
    obtain ⟨past, since, rfl, hnew, hstop⟩ := hstarted.exists_start
    refine ⟨past, since, rfl, hnew, hstop, ?_⟩
    rw [List.append_cons past (.start type) since] at h ⊢
    exact faithful_since h hnew hstop
  alone_read := by
    rw [blocksRead_of_guarded h, blocksRead_of_guarded (guarded_filter_concerns type h),
      outputs_filter_concerns]
  alone_queued := by
    have hqueue : queuesOf (log.filter (Concerns type)) type = queuesOf log type := by
      rw [queuesOf_apply, run_filter_concerns, queuesOf_apply]
    rw [(represents_of_guarded h).queued_eq,
      (represents_of_guarded (guarded_filter_concerns type h)).queued_eq, hqueue]

/-- A client starts the default track and reads the block that arrives. -/
theorem track_served_one :
    Served ([.start .default, .deliver (Vector.replicate bufferSize 0),
      .read () .default bufferSize] : List (Act Unit)) .default := by
  have hstarted : Started ([.start .default, .deliver (Vector.replicate bufferSize 0)] :
      List (Act Unit)) .default := by
    have hstart : Started ([] ++ [.start .default] : List (Act Unit)) .default :=
      started_concat_iff.mpr (.inl rfl)
    exact hstart.concat (by simp)
  have hguarded : Guarded FullRead (([] ++ [.start .default]) ++
      [.deliver (Vector.replicate bufferSize 0)] ++ [.read () .default bufferSize] :
        List (Act Unit)) := by
    refine ((guarded_nil.concat ?_).concat ?_).concat ?_
    · simp [FullRead]
    · simp [FullRead]
    · rintro client type size heq
      simp only [Act.read.injEq] at heq
      obtain ⟨-, rfl, rfl⟩ := heq
      exact ⟨rfl, hstarted⟩
  exact track_served hguarded (hstarted.concat (by simp))

/-- A track that is read before it is started has no manager. -/
theorem read_before_start_not_served :
    Started ([.read () .default bufferSize, .start .default] : List (Act Unit)) .default ∧
      ¬ Served ([.read () .default bufferSize, .start .default] : List (Act Unit)) .default := by
  have hstarted : Started ([.read () .default bufferSize] ++ [.start .default] : List (Act Unit))
      .default := started_concat_iff.mpr (.inl rfl)
  refine ⟨hstarted, fun h ↦ ?_⟩
  obtain ⟨past, since, -, -, -, hfaithful⟩ := h.since_start
  obtain ⟨track, address, m, hentry, hsecond, -⟩ := hfaithful.pool
  have hnull : (server ([.read () .default bufferSize, .start .default] : List (Act Unit))).mapTracks
      .default = some ⟨[], none⟩ := by decide
  rw [hnull] at hentry
  obtain rfl := Option.some.inj hentry
  exact absurd hsecond (by simp)

end Vsys.VirtualMic
