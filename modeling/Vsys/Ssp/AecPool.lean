import Vsys.Ssp.Aec
import Vsys.Trace.Run
import Vsys.Trace.Workers
import Mathlib.Tactic.Abel

/-!
# The worker pool of the echo canceller

With more than one channel `r2ssp_aec_init` starts threads that run `r2ssp_aec_thread`, and
`r2ssp_aec_process` puts the channels into a list of tasks, posts a permit for each, and waits until as
many are finished.  The list is filled without the mutex and emptied with it, and the permits are counted
apart from the tasks.

An event is a call, a step of the caller or a step of one worker; a step that would block changes
nothing, so every list of events is a run.  `Inv` relates the list, the semaphores, the mutex and the
places of the workers, and has one lemma for each step.  `pool_correct` is the result, and `progress` says
that a call never gets stuck.

`thread_error_flag` is never set, and `thread_exit_flag` only by `r2ssp_aec_free`; they are left out.
-/

namespace Vsys.Ssp

open Vsys.Trace

variable {F σ : Type*} {threads : ℕ}

/-! ## The pool -/

/-- The place of a worker in `r2ssp_aec_thread`. -/
inductive Worker
  /-- Before `sem_wait(start_sems)`. -/
  | waiting
  | locking
  /-- Before `assert(tasks.size())`. -/
  | checking
  /-- Before `taskId = *tasks.begin()`. -/
  | taking
  /-- Before `tasks.pop_front()`. -/
  | popping (taskId : ℕ)
  | unlocking (taskId : ℕ)
  /-- Before the calls of Speex. -/
  | cancelling (taskId : ℕ)
  /-- Before `sem_post(stop_sems)`. -/
  | posting
  /-- Between the post and the next wait. -/
  | posted
  /-- The assertion failed. -/
  | failed
  deriving DecidableEq, Repr

/-- The loop the caller is in. -/
inductive Phase
  | pushing
  | posting
  | waiting
  deriving DecidableEq, Repr

/-- The arguments of `r2ssp_aec_process`, and `fScale`. -/
structure Call (F : Type*) where
  mixSamples : ℕ → F
  length : ℤ
  scale : F

/-- The place of the caller: between two calls, or in a loop, with its index. -/
inductive Caller (F : Type*)
  | idle
  | busy (call : Call F) (phase : Phase) (i : ℕ)

/-- The memory that the threads share, with their places; `log` lists what was cancelled in the current
call, and `returned` the calls that have returned. -/
structure Pool (σ F : Type*) (threads : ℕ) where
  handle : AecHandle σ F
  tasks : List ℕ
  startSems : ℕ
  stopSems : ℕ
  taskMutex : Option (Fin threads)
  caller : Caller F
  worker : Fin threads → Worker
  log : List (Task F)
  returned : List (Op F × Result F)

/-- What can happen next. -/
inductive Event (F : Type*) (threads : ℕ)
  | call (op : Op F)
  | caller
  | worker (w : Fin threads)

namespace Pool

/-- The pool after `r2ssp_aec_init`. -/
def init (handle : AecHandle σ F) : Pool σ F threads where
  handle := handle
  tasks := []
  startSems := 0
  stopSems := 0
  taskMutex := none
  caller := .idle
  worker := fun _ ↦ .waiting
  log := []
  returned := []

section Steps

variable (R : FloatOps F) (E : Speex σ F) (channels speaker : ℕ)

/-- A call that returns at once. -/
def reply (s : Pool σ F threads) (op : Op F) (result : AecHandle σ F × Result F) :
    Pool σ F threads :=
  { s with handle := result.1, returned := s.returned ++ [(op, result.2)] }

/-- `r2ssp_aec_process` up to its loops. -/
def enter (s : Pool σ F threads) (mixSamples : ℕ → F) (length : ℤ) : Pool σ F threads :=
  if length < frameSample * channels then
    s.reply (.process mixSamples length) (s.handle, ⟨-2, [], []⟩)
  else if s.handle.silent R speaker then
    s.reply (.process mixSamples length) (s.handle.passOn channels mixSamples)
  else
    let ready := s.handle.prepare R channels speaker mixSamples
    { s with handle := ready.1, caller := .busy ⟨mixSamples, length, ready.2⟩ .pushing 0 }

/-- A call; there is one caller, so nothing happens while it is busy. -/
def call (s : Pool σ F threads) (op : Op F) : Pool σ F threads :=
  match s.caller, op with
  | .idle, .bufferFarend refSamples length =>
      s.reply (.bufferFarend refSamples length) (s.handle.farend speaker refSamples length)
  | .idle, .process mixSamples length => s.enter R channels speaker mixSamples length
  | .busy .., _ => s

/-- The end of `r2ssp_aec_process`. -/
def finish (s : Pool σ F threads) (call : Call F) : Pool σ F threads :=
  { s with
    caller := .idle
    log := []
    returned := s.returned ++
      [(.process call.mixSamples call.length, ⟨0, s.handle.deliver R channels call.scale, s.log⟩)] }

/-- A step of the caller in its loops. -/
def callerStep (s : Pool σ F threads) : Pool σ F threads :=
  match s.caller with
  | .idle => s
  | .busy call .pushing i =>
      if i < channels then
        { s with tasks := s.tasks ++ [i], caller := .busy call .pushing (i + 1) }
      else { s with caller := .busy call .posting 0 }
  | .busy call .posting i =>
      if i < channels then
        { s with startSems := s.startSems + 1, caller := .busy call .posting (i + 1) }
      else { s with caller := .busy call .waiting 0 }
  | .busy call .waiting i =>
      if i < channels then
        if s.stopSems = 0 then s
        else { s with stopSems := s.stopSems - 1, caller := .busy call .waiting (i + 1) }
      else s.finish R channels call

/-- A worker goes to another place. -/
def move (s : Pool σ F threads) (w : Fin threads) (next : Worker) : Pool σ F threads :=
  { s with worker := Function.update s.worker w next }

/-- A step of a worker. -/
def workerStep (s : Pool σ F threads) (w : Fin threads) : Pool σ F threads :=
  match s.worker w with
  | .waiting =>
      if s.startSems = 0 then s else { s.move w .locking with startSems := s.startSems - 1 }
  | .locking => if s.taskMutex = none then { s.move w .checking with taskMutex := some w } else s
  | .checking => s.move w (if s.tasks = [] then .failed else .taking)
  | .taking => s.move w (.popping (s.tasks.headD 0))
  | .popping taskId => { s.move w (.unlocking taskId) with tasks := s.tasks.tail }
  | .unlocking taskId => { s.move w (.cancelling taskId) with taskMutex := none }
  | .cancelling taskId =>
      { s.move w .posting with
        handle := s.handle.cancelChannel E speaker taskId
        log := s.log ++ [s.handle.task speaker taskId] }
  | .posting => { s.move w .posted with stopSems := s.stopSems + 1 }
  | .posted => s.move w .waiting
  | .failed => s

/-- The next event. -/
def step (s : Pool σ F threads) : Event F threads → Pool σ F threads
  | .call op => s.call R channels speaker op
  | .caller => s.callerStep R channels
  | .worker w => s.workerStep E speaker w

end Steps

end Pool

/-! ## What the threads have in their hands -/

namespace Worker

/-- A permit, and a task in the list is this worker's. -/
def reserved : Worker → ℕ
  | locking | checking | taking | popping _ => 1
  | _ => 0

/-- A task that is neither in the list nor cancelled. -/
def owned : Worker → Multiset ℕ
  | unlocking taskId | cancelling taskId => {taskId}
  | _ => 0

/-- A task that is cancelled and not posted. -/
def cancelled : Worker → ℕ
  | posting => 1
  | _ => 0

/-- The mutex. -/
def critical : Worker → Bool
  | checking | taking | popping _ | unlocking _ => true
  | _ => false

/-- The steps of a worker until it waits again. -/
def left : Worker → ℕ
  | waiting | failed => 0
  | locking => 8
  | checking => 7
  | taking => 6
  | popping _ => 5
  | unlocking _ => 4
  | cancelling _ => 3
  | posting => 2
  | posted => 1

/-- The channel a worker has taken, until it is cancelled. -/
def holds : Worker → Option ℕ
  | popping taskId | unlocking taskId | cancelling taskId => some taskId
  | _ => none

end Worker

namespace Caller

/-- The channels `0`, …, that have been put into the list. -/
def pushed (channels : ℕ) : Caller F → ℕ
  | idle => 0
  | busy _ .pushing i => i
  | busy .. => channels

/-- The tasks in the list for which there is no permit yet. -/
def unposted (channels : ℕ) : Caller F → ℕ
  | busy _ .pushing i => i
  | busy _ .posting i => channels - i
  | _ => 0

/-- The finished tasks that the caller has been told of. -/
def taken : Caller F → ℕ
  | busy _ .waiting i => i
  | _ => 0

/-- The index of the loop. -/
def index : Caller F → ℕ
  | idle => 0
  | busy _ _ i => i

/-- The channels that have not been put into the list. -/
def unpushed (channels : ℕ) : Caller F → ℕ
  | busy _ .pushing i => channels - i
  | _ => 0

/-- The steps of the caller until it returns. -/
def left (channels : ℕ) : Caller F → ℕ
  | idle => 0
  | busy _ .pushing i => 3 * channels + 3 - i
  | busy _ .posting i => 2 * channels + 2 - i
  | busy _ .waiting i => channels + 1 - i

end Caller

namespace Pool

/-! ## The invariant -/

/-- The tasks, the permits and the posts. -/
structure Counts (channels : ℕ) (s : Pool σ F threads) : Prop where
  index_le : s.caller.index ≤ channels
  tasks_length : s.tasks.length =
    s.startSems + total Worker.reserved s.worker + s.caller.unposted channels
  partition : (s.tasks : Multiset ℕ) + total Worker.owned s.worker + (s.log.map Task.channel : List ℕ) =
    Multiset.range (s.caller.pushed channels)
  posts : s.stopSems + total Worker.cancelled s.worker + s.caller.taken = s.log.length

/-- The mutex and the head of the list. -/
structure Locked (s : Pool σ F threads) : Prop where
  owner : ∀ w, (s.worker w).critical = true ↔ s.taskMutex = some w
  head : ∀ w taskId, s.worker w = .popping taskId → ∃ rest, s.tasks = taskId :: rest
  passed : ∀ w, s.worker w ≠ .failed

/-- The data of the current call: what was cancelled so far was cancelled on its blocks. -/
structure Current (R : FloatOps F) (E : Speex σ F) (channels speaker : ℕ) (before : AecHandle σ F)
    (s : Pool σ F threads) (call : Call F) : Prop where
  long : ¬ call.length < frameSample * channels
  heard : before.silent R speaker = false
  scale : call.scale = (before.prepare R channels speaker call.mixSamples).2
  handle : s.handle = (s.log.map Task.channel).foldl (AecHandle.cancelChannel E speaker)
    (before.prepare R channels speaker call.mixSamples).1
  log : s.log = (s.log.map Task.channel).map
    ((before.prepare R channels speaker call.mixSamples).1.task speaker)

/-- The calls that have returned. -/
def ops (s : Pool σ F threads) : List (Op F) := s.returned.map Prod.fst

/-- A result is that of the channels one after the other, up to the order in which they were cancelled. -/
structure Agrees (result expected : Result F) : Prop where
  code : result.code = expected.code
  outSamples : result.outSamples = expected.outSamples
  tasks : result.tasks.Perm expected.tasks

/-- The calls that have returned, and the current one. -/
structure Data (R : FloatOps F) (E : Speex σ F) (channels speaker : ℕ) (start : AecHandle σ F)
    (s : Pool σ F threads) : Prop where
  idle : s.caller = .idle → s.handle = (sequential R E channels speaker start s.ops).1
  busy : ∀ call phase i, s.caller = .busy call phase i →
    s.Current R E channels speaker (sequential R E channels speaker start s.ops).1 call
  returned : List.Forall₂ (fun done expected ↦ Agrees done.2 expected) s.returned
    (sequential R E channels speaker start s.ops).2

section Counts

variable {channels : ℕ} {s : Pool σ F threads}

/-- No more tasks than were pushed. -/
theorem Counts.card (h : s.Counts channels) :
    s.tasks.length + (total Worker.owned s.worker).card + s.log.length =
      s.caller.pushed channels := by
  have hcard := congrArg Multiset.card h.partition
  rwa [Multiset.card_add, Multiset.card_add, Multiset.coe_card, Multiset.coe_card, List.length_map,
    Multiset.card_range] at hcard

/-- What is left when nothing is in the loops: nothing. -/
structure Quiet (s : Pool σ F threads) : Prop where
  tasks : s.tasks = []
  startSems : s.startSems = 0
  stopSems : s.stopSems = 0
  owned : total Worker.owned s.worker = 0
  reserved : total Worker.reserved s.worker = 0
  cancelled : total Worker.cancelled s.worker = 0

theorem Counts.quiet (h : s.Counts channels)
    (hlog : s.log.length = s.caller.pushed channels) (htaken : s.caller.taken = s.log.length) :
    s.Quiet := by
  have hcard := h.card
  have htasks := h.tasks_length
  have hposts := h.posts
  have howned : (total Worker.owned s.worker).card = 0 := by omega
  exact ⟨List.length_eq_zero_iff.mp (by omega), by omega, by omega, Multiset.card_eq_zero.mp howned,
    by omega, by omega⟩

/-- Between two calls. -/
theorem Counts.log_of_idle (h : s.Counts channels) (hidle : s.caller = .idle) : s.log = [] := by
  have hcard := h.card
  rw [hidle] at hcard
  exact List.length_eq_zero_iff.mp (Nat.eq_zero_of_add_eq_zero_left hcard)

theorem Counts.quiet_of_idle (h : s.Counts channels) (hidle : s.caller = .idle) : s.Quiet := by
  have hlog := h.log_of_idle hidle
  apply h.quiet
  · rw [hlog, hidle]
    rfl
  · rw [hlog, hidle]
    rfl

/-- When the caller has been told of all channels. -/
theorem Counts.log_of_done (h : s.Counts channels) {call : Call F}
    (hdone : s.caller = .busy call .waiting channels) :
    s.Quiet ∧ (s.log.map Task.channel).Perm (List.range channels) := by
  have hcard := h.card
  have hposts := h.posts
  have hpushed : s.caller.pushed channels = channels := by rw [hdone]; rfl
  have htaken : s.caller.taken = channels := by rw [hdone]; rfl
  have hlog : s.log.length = channels := by omega
  have hquiet := h.quiet (by rw [hlog, hpushed]) (by rw [hlog, htaken])
  have hpartition := h.partition
  rw [hquiet.tasks, hquiet.owned, hpushed, Multiset.coe_nil, zero_add, zero_add] at hpartition
  exact ⟨hquiet, Multiset.coe_eq_coe.mp hpartition⟩

end Counts

/-! ## A step of a worker -/

section WorkerStep

variable {channels speaker : ℕ} {s : Pool σ F threads} {w : Fin threads} {next : Worker}

/-- A move keeps the counts if they balance for this worker. -/
theorem Counts.balance {s' : Pool σ F threads} (h : s.Counts channels)
    (hworker : s'.worker = Function.update s.worker w next) (hcaller : s'.caller = s.caller)
    (hpermits : s'.tasks.length + (s.startSems + (s.worker w).reserved) =
      s.tasks.length + (s'.startSems + next.reserved))
    (htasks : (s'.tasks : Multiset ℕ) + next.owned + (s'.log.map Task.channel : List ℕ) =
      s.tasks + (s.worker w).owned + (s.log.map Task.channel : List ℕ))
    (hposts : s'.stopSems + next.cancelled + s.log.length =
      s.stopSems + (s.worker w).cancelled + s'.log.length) :
    s'.Counts channels where
  index_le := by
    rw [hcaller]
    exact h.index_le
  tasks_length := by
    have hreserved := total_update Worker.reserved s.worker w next
    have hbefore := h.tasks_length
    rw [hworker, hcaller]
    omega
  partition := by
    have howned := total_update Worker.owned s.worker w next
    rw [hworker, hcaller]
    apply add_right_cancel (b := (s.worker w).owned)
    calc
      (s'.tasks : Multiset ℕ) + total Worker.owned (Function.update s.worker w next) +
          (s'.log.map Task.channel : List ℕ) + (s.worker w).owned =
          s'.tasks + (s'.log.map Task.channel : List ℕ) +
            ((s.worker w).owned + total Worker.owned (Function.update s.worker w next)) := by
        abel
      _ = s'.tasks + next.owned + (s'.log.map Task.channel : List ℕ) +
            total Worker.owned s.worker := by
        rw [howned]
        abel
      _ = s.tasks + total Worker.owned s.worker + (s.log.map Task.channel : List ℕ) +
            (s.worker w).owned := by
        rw [htasks]
        abel
      _ = Multiset.range (s.caller.pushed channels) + (s.worker w).owned := by rw [h.partition]
  posts := by
    have hcancelled := total_update Worker.cancelled s.worker w next
    have hbefore := h.posts
    rw [hworker, hcaller]
    omega

/-- A move with the same things in hand. -/
theorem Counts.move {s' : Pool σ F threads} (h : s.Counts channels)
    (hworker : s'.worker = Function.update s.worker w next) (hcaller : s'.caller = s.caller)
    (htasks : s'.tasks = s.tasks) (hstart : s'.startSems = s.startSems)
    (hstop : s'.stopSems = s.stopSems) (hlog : s'.log = s.log)
    (hhands : next.reserved = (s.worker w).reserved ∧ next.owned = (s.worker w).owned ∧
      next.cancelled = (s.worker w).cancelled) :
    s'.Counts channels :=
  h.balance hworker hcaller (by rw [htasks, hstart, hhands.1]) (by rw [htasks, hlog, hhands.2.1])
    (by rw [hstop, hlog, hhands.2.2])

/-- The mutex and the head of the list after a move. -/
theorem Locked.move {s' : Pool σ F threads} (h : s.Locked)
    (hworker : s'.worker = Function.update s.worker w next)
    (hmutex : next.critical = true ↔ s'.taskMutex = some w)
    (hothers : ∀ v, v ≠ w → (s'.taskMutex = some v ↔ s.taskMutex = some v))
    (htasks : s'.tasks = s.tasks ∨ (s.worker w).critical = true)
    (hhead : ∀ taskId, next = .popping taskId → ∃ rest, s'.tasks = taskId :: rest)
    (hpassed : next ≠ .failed) : s'.Locked where
  owner := by
    intro v
    rw [hworker]
    by_cases hv : v = w
    · rw [hv, Function.update_self]
      exact hmutex
    · rw [Function.update_of_ne hv, hothers v hv]
      exact h.owner v
  head := by
    intro v taskId
    rw [hworker]
    by_cases hv : v = w
    · rw [hv, Function.update_self]
      exact hhead taskId
    · rw [Function.update_of_ne hv]
      intro hpopping
      obtain hsame | hcritical := htasks
      · rw [hsame]
        exact h.head v taskId hpopping
      · -- two workers do not have the mutex at once
        have howner := (h.owner v).mp (by rw [hpopping]; rfl)
        rw [(h.owner w).mp hcritical] at howner
        exact absurd (Option.some.inj howner).symm hv
  passed := by
    intro v
    rw [hworker]
    by_cases hv : v = w
    · rw [hv, Function.update_self]
      exact hpassed
    · rw [Function.update_of_ne hv]
      exact h.passed v

/-- A worker that has a permit finds a task. -/
theorem Counts.tasks_ne_nil (h : s.Counts channels) (hw : (s.worker w).reserved = 1) :
    s.tasks ≠ [] := by
  intro hnil
  have htasks := h.tasks_length
  have hle := le_total Worker.reserved s.worker w
  rw [hnil, List.length_nil] at htasks
  omega

theorem Counts.workerStep (h : s.Counts channels) (hlocked : s.Locked) (E : Speex σ F) :
    (s.workerStep E speaker w).Counts channels := by
  unfold Pool.workerStep
  cases hw : s.worker w with
  | waiting =>
      dsimp only
      split_ifs with hsem
      · exact h
      · refine h.balance rfl rfl ?_ ?_ ?_
        · rw [hw]
          change s.tasks.length + (s.startSems + 0) = s.tasks.length + (s.startSems - 1 + 1)
          omega
        · rw [hw]
          rfl
        · rw [hw]
          rfl
  | locking =>
      dsimp only
      split_ifs
      · exact h.move rfl rfl rfl rfl rfl rfl (by rw [hw]; exact ⟨rfl, rfl, rfl⟩)
      · exact h
  | checking =>
      have htasks := h.tasks_ne_nil (w := w) (by rw [hw]; rfl)
      dsimp only
      rw [if_neg htasks]
      exact h.move rfl rfl rfl rfl rfl rfl (by rw [hw]; exact ⟨rfl, rfl, rfl⟩)
  | taking => exact h.move rfl rfl rfl rfl rfl rfl (by rw [hw]; exact ⟨rfl, rfl, rfl⟩)
  | popping taskId =>
      obtain ⟨rest, hrest⟩ := hlocked.head w taskId hw
      refine h.balance rfl rfl ?_ ?_ ?_
      · rw [hw]
        change s.tasks.tail.length + (s.startSems + 1) = s.tasks.length + (s.startSems + 0)
        rw [hrest, List.tail_cons, List.length_cons]
        omega
      · rw [hw]
        change (s.tasks.tail : Multiset ℕ) + {taskId} + (s.log.map Task.channel : List ℕ) =
          s.tasks + 0 + (s.log.map Task.channel : List ℕ)
        rw [hrest, List.tail_cons, add_zero, ← Multiset.cons_coe, ← Multiset.singleton_add,
          add_comm ({taskId} : Multiset ℕ)]
      · rw [hw]
        rfl
  | unlocking taskId => exact h.move rfl rfl rfl rfl rfl rfl (by rw [hw]; exact ⟨rfl, rfl, rfl⟩)
  | cancelling taskId =>
      refine h.balance rfl rfl ?_ ?_ ?_
      · rw [hw]
        rfl
      · rw [hw]
        change (s.tasks : Multiset ℕ) + 0 +
          ((s.log ++ [s.handle.task speaker taskId]).map Task.channel : List ℕ) =
            s.tasks + {taskId} + (s.log.map Task.channel : List ℕ)
        rw [List.map_append, ← Multiset.coe_add, add_zero, add_assoc,
          add_comm ({taskId} : Multiset ℕ)]
        rfl
      · rw [hw]
        change s.stopSems + 1 + s.log.length =
          s.stopSems + 0 + (s.log ++ [s.handle.task speaker taskId]).length
        rw [List.length_append, List.length_singleton]
        omega
  | posting =>
      refine h.balance rfl rfl ?_ ?_ ?_
      · rw [hw]
        rfl
      · rw [hw]
        rfl
      · rw [hw]
        change s.stopSems + 1 + 0 + s.log.length = s.stopSems + 1 + s.log.length
        omega
  | posted => exact h.move rfl rfl rfl rfl rfl rfl (by rw [hw]; exact ⟨rfl, rfl, rfl⟩)
  | failed => exact h

theorem Locked.workerStep (h : s.Locked) (hcounts : s.Counts channels) (E : Speex σ F) :
    (s.workerStep E speaker w).Locked := by
  have howner : (s.worker w).critical = true ↔ s.taskMutex = some w := h.owner w
  unfold Pool.workerStep
  cases hw : s.worker w with
  | waiting =>
      rw [hw] at howner
      dsimp only
      split_ifs
      · exact h
      · exact h.move rfl howner (fun _ _ ↦ Iff.rfl) (.inl rfl) (fun _ ↦ nofun) nofun
  | locking =>
      dsimp only
      split_ifs with hfree
      · refine h.move rfl ⟨fun _ ↦ rfl, fun _ ↦ rfl⟩ (fun v hv ↦ ?_) (.inl rfl) (fun _ ↦ nofun) nofun
        rw [hfree]
        exact ⟨fun hw ↦ absurd (Option.some.inj hw).symm hv, nofun⟩
      · exact h
  | checking =>
      rw [hw] at howner
      have htasks := hcounts.tasks_ne_nil (w := w) (by rw [hw]; rfl)
      dsimp only
      rw [if_neg htasks]
      exact h.move rfl howner (fun _ _ ↦ Iff.rfl) (.inl rfl) (fun _ ↦ nofun) nofun
  | taking =>
      rw [hw] at howner
      have htasks := hcounts.tasks_ne_nil (w := w) (by rw [hw]; rfl)
      refine h.move rfl howner (fun _ _ ↦ Iff.rfl) (.inl rfl) (fun taskId htask ↦ ?_) nofun
      obtain ⟨first, rest, hrest⟩ := List.exists_cons_of_ne_nil htasks
      rw [Worker.popping.injEq, hrest, List.headD_cons] at htask
      exact ⟨rest, by rw [← htask]; exact hrest⟩
  | popping taskId =>
      rw [hw] at howner
      exact h.move rfl howner (fun _ _ ↦ Iff.rfl) (.inr (by rw [hw]; rfl)) (fun _ ↦ nofun) nofun
  | unlocking taskId =>
      rw [hw] at howner
      have hmine := howner.mp rfl
      refine h.move rfl ⟨nofun, nofun⟩ (fun v hv ↦ ?_) (.inl rfl) (fun _ ↦ nofun) nofun
      rw [hmine]
      exact ⟨nofun, fun hw ↦ absurd (Option.some.inj hw).symm hv⟩
  | cancelling taskId =>
      rw [hw] at howner
      exact h.move rfl howner (fun _ _ ↦ Iff.rfl) (.inl rfl) (fun _ ↦ nofun) nofun
  | posting =>
      rw [hw] at howner
      exact h.move rfl howner (fun _ _ ↦ Iff.rfl) (.inl rfl) (fun _ ↦ nofun) nofun
  | posted =>
      rw [hw] at howner
      exact h.move rfl howner (fun _ _ ↦ Iff.rfl) (.inl rfl) (fun _ ↦ nofun) nofun
  | failed => exact absurd hw (h.passed w)

/-- A worker cancels a channel of the current call. -/
theorem Current.cancel {R : FloatOps F} {E : Speex σ F} {before : AecHandle σ F} {call : Call F}
    (h : s.Current R E channels speaker before call) (taskId : ℕ) :
    ({ s.move w .posting with
        handle := s.handle.cancelChannel E speaker taskId
        log := s.log ++ [s.handle.task speaker taskId] } : Pool σ F threads).Current
      R E channels speaker before call := by
  have hchannels : (s.log ++ [s.handle.task speaker taskId]).map Task.channel =
      s.log.map Task.channel ++ [taskId] := by
    rw [List.map_append]
    rfl
  have htask : s.handle.task speaker taskId =
      (before.prepare R channels speaker call.mixSamples).1.task speaker taskId := by
    rw [h.handle, AecHandle.task_foldl]
  refine ⟨h.long, h.heard, h.scale, ?_, ?_⟩
  · rw [hchannels, List.foldl_append, ← h.handle]
    rfl
  · rw [hchannels, List.map_append, ← h.log, htask]
    rfl

/-- The current call does not depend on the places of the threads. -/
theorem Current.congr {R : FloatOps F} {E : Speex σ F} {before : AecHandle σ F} {call : Call F}
    {s' : Pool σ F threads} (h : s.Current R E channels speaker before call)
    (hhandle : s'.handle = s.handle) (hlog : s'.log = s.log) :
    s'.Current R E channels speaker before call where
  long := h.long
  heard := h.heard
  scale := h.scale
  handle := by
    rw [hhandle, hlog]
    exact h.handle
  log := by
    rw [hlog]
    exact h.log

/-- The data does not depend on the places of the workers. -/
theorem Data.congr {R : FloatOps F} {E : Speex σ F} {start : AecHandle σ F}
    {s' : Pool σ F threads} (h : s.Data R E channels speaker start) (hhandle : s'.handle = s.handle)
    (hcaller : s'.caller = s.caller) (hlog : s'.log = s.log) (hreturned : s'.returned = s.returned) :
    s'.Data R E channels speaker start := by
  have hops : s'.ops = s.ops := by rw [ops, ops, hreturned]
  refine ⟨fun hidle ↦ ?_, fun call phase i hbusy ↦ ?_, ?_⟩
  · rw [hhandle, hops]
    exact h.idle (hcaller ▸ hidle)
  · rw [hops]
    exact (h.busy call phase i (hcaller ▸ hbusy)).congr hhandle hlog
  · rw [hops, hreturned]
    exact h.returned

theorem Data.workerStep {R : FloatOps F} {E : Speex σ F} {start : AecHandle σ F}
    (h : s.Data R E channels speaker start) (hcounts : s.Counts channels) :
    (s.workerStep E speaker w).Data R E channels speaker start := by
  unfold Pool.workerStep
  cases hw : s.worker w with
  | waiting =>
      dsimp only
      split_ifs
      · exact h
      · exact h.congr rfl rfl rfl rfl
  | locking =>
      dsimp only
      split_ifs
      · exact h.congr rfl rfl rfl rfl
      · exact h
  | checking => exact h.congr rfl rfl rfl rfl
  | taking => exact h.congr rfl rfl rfl rfl
  | popping taskId => exact h.congr rfl rfl rfl rfl
  | unlocking taskId => exact h.congr rfl rfl rfl rfl
  | cancelling taskId =>
      refine ⟨fun hidle ↦ ?_, fun call phase i hbusy ↦ (h.busy call phase i hbusy).cancel taskId,
        h.returned⟩
      -- between two calls no worker has a task
      have howned := total_update Worker.owned s.worker w .waiting
      rw [(hcounts.quiet_of_idle hidle).owned, hw] at howned
      exact absurd howned (by simp [Worker.owned])
  | posting => exact h.congr rfl rfl rfl rfl
  | posted => exact h.congr rfl rfl rfl rfl
  | failed => exact h

end WorkerStep

/-! ## A step of the caller -/

section CallerStep

variable {R : FloatOps F} {E : Speex σ F} {channels speaker : ℕ} {start : AecHandle σ F}
  {s : Pool σ F threads}

theorem Counts.callerStep (h : s.Counts channels) : (s.callerStep R channels).Counts channels := by
  have hindex := h.index_le
  have htasks := h.tasks_length
  have hpartition := h.partition
  have hposts := h.posts
  unfold Pool.callerStep
  cases hcaller : s.caller with
  | idle => exact h
  | busy call phase i =>
      rw [hcaller] at hindex htasks hpartition hposts
      change i ≤ channels at hindex
      cases phase with
      | pushing =>
          change s.tasks.length = s.startSems + total Worker.reserved s.worker + i at htasks
          dsimp only
          split_ifs with hi
          · refine ⟨hi, ?_, ?_, hposts⟩
            · change (s.tasks ++ [i]).length = s.startSems + total Worker.reserved s.worker + (i + 1)
              rw [List.length_append, List.length_singleton, htasks, Nat.add_assoc]
            · change ((s.tasks ++ [i] : List ℕ) : Multiset ℕ) + total Worker.owned s.worker +
                (s.log.map Task.channel : List ℕ) = Multiset.range (i + 1)
              have hrange : (s.tasks : Multiset ℕ) + total Worker.owned s.worker +
                  (s.log.map Task.channel : List ℕ) = Multiset.range i := hpartition
              rw [Multiset.range_succ, ← Multiset.singleton_add, ← Multiset.coe_add,
                ← Multiset.coe_singleton, ← hrange]
              abel
          · obtain rfl : i = channels := Nat.le_antisymm hindex (Nat.le_of_not_lt hi)
            exact ⟨Nat.zero_le _, htasks, hpartition, hposts⟩
      | posting =>
          change s.tasks.length = s.startSems + total Worker.reserved s.worker + (channels - i) at htasks
          dsimp only
          split_ifs with hi
          · refine ⟨hi, ?_, hpartition, hposts⟩
            change s.tasks.length =
              s.startSems + 1 + total Worker.reserved s.worker + (channels - (i + 1))
            omega
          · obtain rfl : i = channels := Nat.le_antisymm hindex (Nat.le_of_not_lt hi)
            rw [Nat.sub_self] at htasks
            exact ⟨Nat.zero_le _, htasks, hpartition, hposts⟩
      | waiting =>
          change s.stopSems + total Worker.cancelled s.worker + i = s.log.length at hposts
          dsimp only
          split_ifs with hi hsem
          · exact h
          · refine ⟨hi, htasks, hpartition, ?_⟩
            change s.stopSems - 1 + total Worker.cancelled s.worker + (i + 1) = s.log.length
            omega
          · obtain rfl : i = channels := Nat.le_antisymm hindex (Nat.le_of_not_lt hi)
            obtain ⟨hquiet, -⟩ := h.log_of_done hcaller
            refine ⟨Nat.zero_le _, ?_, ?_, ?_⟩
            · exact htasks
            · change (s.tasks : Multiset ℕ) + total Worker.owned s.worker + (([] : List ℕ) : Multiset ℕ) =
                Multiset.range 0
              rw [hquiet.tasks, hquiet.owned]
              rfl
            · change s.stopSems + total Worker.cancelled s.worker + 0 = 0
              rw [hquiet.stopSems, hquiet.cancelled]

/-- The caller puts tasks behind those that are there. -/
theorem Locked.callerStep (h : s.Locked) : (s.callerStep R channels).Locked := by
  have hsame : (s.callerStep R channels).worker = s.worker ∧
      (s.callerStep R channels).taskMutex = s.taskMutex ∧
      ∃ more, (s.callerStep R channels).tasks = s.tasks ++ more := by
    unfold Pool.callerStep
    cases s.caller with
    | idle => exact ⟨rfl, rfl, [], (List.append_nil _).symm⟩
    | busy call phase i =>
        cases phase with
        | pushing =>
            dsimp only
            split_ifs
            · exact ⟨rfl, rfl, [i], rfl⟩
            · exact ⟨rfl, rfl, [], (List.append_nil _).symm⟩
        | posting =>
            dsimp only
            split_ifs <;> exact ⟨rfl, rfl, [], (List.append_nil _).symm⟩
        | waiting =>
            dsimp only
            split_ifs <;> exact ⟨rfl, rfl, [], (List.append_nil _).symm⟩
  obtain ⟨hworker, hmutex, more, htasks⟩ := hsame
  refine ⟨fun w ↦ ?_, fun w taskId hpopping ↦ ?_, fun w ↦ ?_⟩
  · rw [hworker, hmutex]
    exact h.owner w
  · rw [hworker] at hpopping
    obtain ⟨rest, hrest⟩ := h.head w taskId hpopping
    exact ⟨rest ++ more, by rw [htasks, hrest, List.cons_append]⟩
  · rw [hworker]
    exact h.passed w

/-- The end of a call: it returns what the channels give one after the other. -/
theorem Data.finish {call : Call F} (h : s.Data R E channels speaker start)
    (hcurrent : s.Current R E channels speaker (sequential R E channels speaker start s.ops).1 call)
    (hperm : (s.log.map Task.channel).Perm (List.range channels)) :
    (s.finish R channels call).Data R E channels speaker start := by
  set before := (sequential R E channels speaker start s.ops).1 with hbefore
  have hops : (s.finish R channels call).ops = s.ops ++ [.process call.mixSamples call.length] :=
    List.map_append
  have hhandle : s.handle = (List.range channels).foldl (AecHandle.cancelChannel E speaker)
      (before.prepare R channels speaker call.mixSamples).1 := by
    rw [hcurrent.handle]
    exact AecHandle.foldl_cancelChannel_perm hperm _
  have hrun : (Op.process call.mixSamples call.length).run R E channels speaker before =
      (s.handle, ⟨0, s.handle.deliver R channels call.scale, (List.range channels).map
        ((before.prepare R channels speaker call.mixSamples).1.task speaker)⟩) := by
    rw [Op.run, AecHandle.process, if_neg hcurrent.long, hcurrent.heard, hcurrent.scale, hhandle]
    rfl
  refine ⟨fun _ ↦ ?_, fun _ _ _ hbusy ↦ ?_, ?_⟩
  · rw [hops, sequential_concat, ← hbefore, hrun]
    rfl
  · exact absurd hbusy (by simp [Pool.finish])
  · rw [hops, sequential_concat, ← hbefore, hrun]
    apply List.rel_append h.returned
    refine .cons ⟨rfl, rfl, ?_⟩ .nil
    change s.log.Perm _
    rw [hcurrent.log]
    exact hperm.map _

/-- The caller goes on in its loops. -/
theorem Data.advance {s' : Pool σ F threads} {call : Call F} {phase later : Phase} {i j : ℕ}
    (h : s.Data R E channels speaker start) (hcaller : s.caller = .busy call phase i)
    (hnext : s'.caller = .busy call later j) (hhandle : s'.handle = s.handle) (hlog : s'.log = s.log)
    (hreturned : s'.returned = s.returned) : s'.Data R E channels speaker start := by
  have hops : s'.ops = s.ops := by rw [ops, ops, hreturned]
  refine ⟨fun hidle ↦ ?_, fun call' phase' i' hbusy ↦ ?_, ?_⟩
  · rw [hnext] at hidle
    exact absurd hidle (by simp)
  · rw [hnext, Caller.busy.injEq] at hbusy
    rw [hops, ← hbusy.1]
    exact (h.busy call phase i hcaller).congr hhandle hlog
  · rw [hops, hreturned]
    exact h.returned

theorem Data.callerStep (h : s.Data R E channels speaker start) (hcounts : s.Counts channels) :
    (s.callerStep R channels).Data R E channels speaker start := by
  unfold Pool.callerStep
  cases hcaller : s.caller with
  | idle => exact h
  | busy call phase i =>
      cases phase with
      | pushing =>
          dsimp only
          split_ifs <;> exact h.advance hcaller rfl rfl rfl rfl
      | posting =>
          dsimp only
          split_ifs <;> exact h.advance hcaller rfl rfl rfl rfl
      | waiting =>
          dsimp only
          split_ifs with hi
          · exact h
          · exact h.advance hcaller rfl rfl rfl rfl
          · have hindex := hcounts.index_le
            rw [hcaller] at hindex
            obtain rfl : i = channels := Nat.le_antisymm hindex (Nat.le_of_not_lt hi)
            exact h.finish (h.busy call .waiting i hcaller) (hcounts.log_of_done hcaller).2

end CallerStep

/-! ## A call -/

section Calls

variable {R : FloatOps F} {E : Speex σ F} {channels speaker : ℕ} {start : AecHandle σ F}
  {s : Pool σ F threads}

/-- Between two calls a pool may get other data. -/
theorem Counts.reply (h : s.Counts channels) (op : Op F) (result : AecHandle σ F × Result F) :
    (s.reply op result).Counts channels :=
  ⟨h.index_le, h.tasks_length, h.partition, h.posts⟩

theorem Locked.reply (h : s.Locked) (op : Op F) (result : AecHandle σ F × Result F) :
    (s.reply op result).Locked :=
  ⟨h.owner, h.head, h.passed⟩

/-- A call that returns at once returns what the calls one after the other do. -/
theorem Data.reply (h : s.Data R E channels speaker start) (hidle : s.caller = .idle) {op : Op F}
    {result : AecHandle σ F × Result F} (hrun : op.run R E channels speaker s.handle = result) :
    (s.reply op result).Data R E channels speaker start := by
  have hops : (s.reply op result).ops = s.ops ++ [op] := List.map_append
  refine ⟨fun _ ↦ ?_, fun _ _ _ hbusy ↦ ?_, ?_⟩
  · rw [hops, sequential_concat, ← h.idle hidle, hrun]
    rfl
  · exact absurd (hidle.symm.trans hbusy) (by simp)
  · rw [hops, sequential_concat, ← h.idle hidle, hrun]
    exact List.rel_append h.returned (.cons ⟨rfl, rfl, .refl _⟩ .nil)

/-- The loops begin with nothing done. -/
theorem Counts.enter (h : s.Counts channels) (hidle : s.caller = .idle) (mixSamples : ℕ → F)
    (length : ℤ) : (s.enter R channels speaker mixSamples length).Counts channels := by
  have htasks := h.tasks_length
  have hpartition := h.partition
  have hposts := h.posts
  rw [hidle] at htasks hpartition hposts
  unfold Pool.enter
  split_ifs
  · exact h.reply _ _
  · exact h.reply _ _
  · exact ⟨Nat.zero_le _, htasks, hpartition, hposts⟩

theorem Locked.enter (h : s.Locked) (mixSamples : ℕ → F) (length : ℤ) :
    (s.enter R channels speaker mixSamples length).Locked := by
  unfold Pool.enter
  split_ifs
  · exact h.reply _ _
  · exact h.reply _ _
  · exact ⟨h.owner, h.head, h.passed⟩

theorem Data.enter (h : s.Data R E channels speaker start) (hcounts : s.Counts channels)
    (hidle : s.caller = .idle) (mixSamples : ℕ → F) (length : ℤ) :
    (s.enter R channels speaker mixSamples length).Data R E channels speaker start := by
  unfold Pool.enter
  split_ifs with hshort hsilent
  · apply h.reply hidle
    rw [Op.run, AecHandle.process, if_pos hshort]
  · apply h.reply hidle
    rw [Op.run, AecHandle.process, if_neg hshort, if_pos hsilent]
  · have hlog := hcounts.log_of_idle hidle
    refine ⟨nofun, fun call phase i hbusy ↦ ?_, h.returned⟩
    have hcurrent : ({ s with
        handle := (s.handle.prepare R channels speaker mixSamples).1
        caller := .busy ⟨mixSamples, length, (s.handle.prepare R channels speaker mixSamples).2⟩
          .pushing 0 } : Pool σ F threads).Current R E channels speaker s.handle
        ⟨mixSamples, length, (s.handle.prepare R channels speaker mixSamples).2⟩ := by
      refine ⟨hshort, Bool.eq_false_of_not_eq_true hsilent, rfl, ?_, ?_⟩
      · rw [hlog]
        rfl
      · rw [hlog]
        rfl
    rw [Caller.busy.injEq] at hbusy
    rw [← hbusy.1]
    rw [h.idle hidle] at hcurrent ⊢
    exact hcurrent

end Calls

/-! ## Runs -/

section Runs

variable {R : FloatOps F} {E : Speex σ F} {channels speaker : ℕ} {start : AecHandle σ F}
  {s : Pool σ F threads}

/-- What holds at every moment. -/
structure Inv (R : FloatOps F) (E : Speex σ F) (channels speaker : ℕ) (start : AecHandle σ F)
    (s : Pool σ F threads) : Prop where
  counts : s.Counts channels
  locked : s.Locked
  data : s.Data R E channels speaker start

theorem init_inv : (init start : Pool σ F threads).Inv R E channels speaker start where
  counts := by
    have hreserved : total Worker.reserved (init start : Pool σ F threads).worker = 0 :=
      total_eq_zero fun _ ↦ rfl
    have howned : total Worker.owned (init start : Pool σ F threads).worker = 0 :=
      total_eq_zero fun _ ↦ rfl
    have hcancelled : total Worker.cancelled (init start : Pool σ F threads).worker = 0 :=
      total_eq_zero fun _ ↦ rfl
    refine ⟨Nat.zero_le _, ?_, ?_, ?_⟩
    · rw [hreserved]
      rfl
    · rw [howned]
      rfl
    · rw [hcancelled]
      rfl
  locked := ⟨fun _ ↦ ⟨nofun, nofun⟩, fun _ _ ↦ nofun, fun _ ↦ nofun⟩
  data := ⟨fun _ ↦ rfl, nofun, .nil⟩

theorem Inv.call (h : s.Inv R E channels speaker start) (op : Op F) :
    (s.call R channels speaker op).Inv R E channels speaker start := by
  unfold Pool.call
  cases hcaller : s.caller with
  | busy call phase i => exact h
  | idle =>
      cases op with
      | bufferFarend refSamples length =>
          exact ⟨h.counts.reply _ _, h.locked.reply _ _, h.data.reply hcaller rfl⟩
      | process mixSamples length =>
          exact ⟨h.counts.enter hcaller _ _, h.locked.enter _ _,
            h.data.enter h.counts hcaller _ _⟩

/-- **Every step keeps the invariant.** -/
theorem Inv.step (h : s.Inv R E channels speaker start) (event : Event F threads) :
    (s.step R E channels speaker event).Inv R E channels speaker start := by
  cases event with
  | call op => exact h.call op
  | caller =>
      exact ⟨h.counts.callerStep, h.locked.callerStep, h.data.callerStep h.counts⟩
  | worker w =>
      exact ⟨h.counts.workerStep h.locked E, h.locked.workerStep h.counts E,
        h.data.workerStep h.counts⟩

theorem run_inv (events : List (Event F threads)) :
    (run (step R E channels speaker) (init start) events).Inv R E channels speaker start :=
  run_keeps (fun _ event h ↦ h.step event) init_inv events

/-- A channel that a worker has taken is its own, or the next one in the list. -/
theorem holds_cases {w : Fin threads} {t : ℕ} (hholds : (s.worker w).holds = some t) :
    t ∈ (s.worker w).owned ∨ s.worker w = .popping t := by
  cases hw : s.worker w with
  | popping taskId =>
      rw [hw, Worker.holds, Option.some_inj] at hholds
      exact .inr (by rw [hholds])
  | unlocking taskId =>
      rw [hw, Worker.holds, Option.some_inj] at hholds
      exact .inl (Multiset.mem_singleton.mpr hholds.symm)
  | cancelling taskId =>
      rw [hw, Worker.holds, Option.some_inj] at hholds
      exact .inl (Multiset.mem_singleton.mpr hholds.symm)
  | _ =>
      rw [hw] at hholds
      exact absurd hholds (by simp [Worker.holds])

/-- **No two workers have the same channel.** -/
theorem Inv.holds_inj (h : s.Inv R E channels speaker start) {w w' : Fin threads} {t : ℕ}
    (hw : (s.worker w).holds = some t) (hw' : (s.worker w').holds = some t) : w = w' := by
  have hnodup : ((s.tasks : Multiset ℕ) + total Worker.owned s.worker +
      (s.log.map Task.channel : List ℕ)).Nodup := by
    rw [h.counts.partition]
    exact Multiset.nodup_range _
  rw [Multiset.nodup_add, Multiset.nodup_add] at hnodup
  obtain ⟨⟨-, howned, hlist⟩, -, -⟩ := hnodup
  -- the head of the list is nobody's own
  have hapart : ∀ {v v' : Fin threads}, t ∈ (s.worker v).owned → s.worker v' ≠ .popping t := by
    intro v v' hmem hpopping
    obtain ⟨rest, hrest⟩ := h.locked.head v' t hpopping
    have hle : t ∈ total Worker.owned s.worker := mem_total hmem
    apply Multiset.disjoint_left.mp hlist _ hle
    rw [hrest]
    exact List.mem_cons_self
  obtain hmem | hpopping := holds_cases hw
  · obtain hmem' | hpopping' := holds_cases hw'
    · exact eq_of_mem_total howned hmem hmem'
    · exact absurd hpopping' (hapart hmem)
  · obtain hmem' | hpopping' := holds_cases hw'
    · exact absurd hpopping (hapart hmem')
    · have howner := (h.locked.owner w).mp (by rw [hpopping]; rfl)
      rw [(h.locked.owner w').mp (by rw [hpopping']; rfl)] at howner
      exact (Option.some.inj howner).symm

end Runs

/-! ## A call returns -/

section Progress

variable {R : FloatOps F} {E : Speex σ F} {channels speaker : ℕ} {start : AecHandle σ F}
  {s : Pool σ F threads} {w : Fin threads}

/-- The steps until the current call has returned and the workers wait again. -/
def work (channels : ℕ) (s : Pool σ F threads) : ℕ :=
  s.caller.left channels +
    9 * (s.startSems + s.caller.unposted channels + s.caller.unpushed channels) +
    total Worker.left s.worker

theorem work_move {s' : Pool σ F threads} {next : Worker}
    (hworker : s'.worker = Function.update s.worker w next) (hcaller : s'.caller = s.caller)
    (hleft : 9 * s'.startSems + next.left + 1 = 9 * s.startSems + (s.worker w).left) :
    s'.work channels + 1 = s.work channels := by
  have htotal := total_update Worker.left s.worker w next
  rw [work, work, hworker, hcaller]
  omega

/-- A worker waits for a permit, or for the mutex. -/
def Blocked (s : Pool σ F threads) (w : Fin threads) : Prop :=
  (s.worker w = .waiting ∧ s.startSems = 0) ∨ (s.worker w = .locking ∧ s.taskMutex ≠ none)

/-- A worker that is not blocked does one of the steps that are left. -/
theorem workerStep_work (h : s.Inv R E channels speaker start) (w : Fin threads) :
    (s.Blocked w ∧ s.workerStep E speaker w = s) ∨
      (s.workerStep E speaker w).work channels + 1 = s.work channels := by
  unfold Pool.workerStep
  cases hw : s.worker w with
  | waiting =>
      dsimp only
      split_ifs with hsem
      · exact .inl ⟨.inl ⟨hw, hsem⟩, rfl⟩
      · refine .inr (work_move rfl rfl ?_)
        rw [hw]
        change 9 * (s.startSems - 1) + 8 + 1 = 9 * s.startSems + 0
        omega
  | locking =>
      dsimp only
      split_ifs with hfree
      · exact .inr (work_move rfl rfl (by rw [hw]; rfl))
      · exact .inl ⟨.inr ⟨hw, hfree⟩, rfl⟩
  | checking =>
      have htasks := h.counts.tasks_ne_nil (w := w) (by rw [hw]; rfl)
      dsimp only
      rw [if_neg htasks]
      exact .inr (work_move rfl rfl (by rw [hw]; rfl))
  | failed => exact absurd hw (h.locked.passed w)
  | _ => exact .inr (work_move rfl rfl (by rw [hw]; rfl))

/-- A caller that is not blocked does one of the steps that are left. -/
theorem callerStep_work (h : s.Counts channels) :
    (s.caller = .idle ∨ s.stopSems = 0 ∧ ∃ call i, s.caller = .busy call .waiting i ∧ i < channels) ∧
        s.callerStep R channels = s ∨
      (s.callerStep R channels).work channels + 1 = s.work channels := by
  have hindex := h.index_le
  unfold Pool.callerStep
  cases hcaller : s.caller with
  | idle => exact .inl ⟨.inl rfl, rfl⟩
  | busy call phase i =>
      rw [hcaller] at hindex
      change i ≤ channels at hindex
      cases phase with
      | pushing =>
          right
          rw [work, work, hcaller]
          dsimp only
          split_ifs <;> simp only [Caller.left, Caller.unposted, Caller.unpushed] <;> omega
      | posting =>
          right
          rw [work, work, hcaller]
          dsimp only
          split_ifs <;> simp only [Caller.left, Caller.unposted, Caller.unpushed] <;> omega
      | waiting =>
          dsimp only
          split_ifs with hi hsem
          · exact .inl ⟨.inr ⟨hsem, call, i, rfl, hi⟩, rfl⟩
          · right
            rw [work, work, hcaller]
            simp only [Caller.left, Caller.unposted, Caller.unpushed]
            omega
          · right
            rw [work, work, hcaller]
            simp only [Caller.left, Caller.unposted, Caller.unpushed, Pool.finish]
            omega

/-- If every worker is blocked, they all wait for permits. -/
theorem Inv.waiting_of_blocked (h : s.Inv R E channels speaker start) (hblocked : ∀ w, s.Blocked w)
    (w : Fin threads) : s.worker w = .waiting ∧ s.startSems = 0 := by
  obtain hwaiting | ⟨-, hmutex⟩ := hblocked w
  · exact hwaiting
  · -- a blocked worker does not have the mutex
    obtain ⟨v, hv⟩ := Option.ne_none_iff_exists'.mp hmutex
    have hcritical := (h.locked.owner v).mpr hv
    obtain ⟨hv, -⟩ | ⟨hv, -⟩ := hblocked v
    · rw [hv] at hcritical
      exact absurd hcritical Bool.false_ne_true
    · rw [hv] at hcritical
      exact absurd hcritical Bool.false_ne_true

/-- **A call never gets stuck.**  While one is under way, the caller or a worker can do one of the steps
that are left. -/
theorem progress (h : s.Inv R E channels speaker start) (hthreads : 0 < threads)
    (hbusy : s.caller ≠ .idle) :
    (s.callerStep R channels).work channels + 1 = s.work channels ∨
      ∃ w, (s.workerStep E speaker w).work channels + 1 = s.work channels := by
  by_contra hstuck
  rw [not_or, not_exists] at hstuck
  have hblocked : ∀ w, s.Blocked w := fun w ↦
    ((workerStep_work h w).resolve_right (hstuck.2 w)).1
  have hwaiting := h.waiting_of_blocked hblocked
  obtain ⟨hidle | ⟨hstop, call, i, hcaller, hi⟩, -⟩ :=
    (callerStep_work h.counts).resolve_right hstuck.1
  · exact hbusy hidle
  have hsem := (hwaiting ⟨0, hthreads⟩).2
  have hreserved : total Worker.reserved s.worker = 0 := total_eq_zero fun w ↦ by rw [(hwaiting w).1]; rfl
  have howned : total Worker.owned s.worker = 0 := total_eq_zero fun w ↦ by rw [(hwaiting w).1]; rfl
  have hcancelled : total Worker.cancelled s.worker = 0 :=
    total_eq_zero fun w ↦ by rw [(hwaiting w).1]; rfl
  have htasks := h.counts.tasks_length
  have hcard := h.counts.card
  have hposts := h.counts.posts
  rw [hcaller] at htasks hcard hposts
  rw [hsem, hreserved] at htasks
  rw [howned, htasks, Multiset.card_zero] at hcard
  rw [hstop, hcancelled] at hposts
  simp only [Caller.unposted, Caller.pushed, Caller.taken] at hcard hposts
  omega

end Progress

/-- **The pool is correct.**  In every run, whatever the order of the steps: a call that has returned gave
what the channels give one after the other, and cancelled the same channels on the same blocks; no two
workers have the same channel; the assertion has not failed; and between two calls the list is empty
and the semaphores are zero. -/
theorem pool_correct (R : FloatOps F) (E : Speex σ F) (channels speaker : ℕ) (start : AecHandle σ F)
    (events : List (Event F threads)) :
    let s := run (step R E channels speaker) (init start) events
    List.Forall₂ (fun done expected ↦ Agrees done.2 expected) s.returned
        (sequential R E channels speaker start s.ops).2 ∧
      (∀ w w' t, (s.worker w).holds = some t → (s.worker w').holds = some t → w = w') ∧
      (∀ w, s.worker w ≠ .failed) ∧
      (s.caller = .idle → s.tasks = [] ∧ s.startSems = 0 ∧ s.stopSems = 0) := by
  intro s
  have hinv : s.Inv R E channels speaker start := run_inv events
  refine ⟨hinv.data.returned, fun w w' t ↦ hinv.holds_inj, hinv.locked.passed, fun hidle ↦ ?_⟩
  have hquiet := hinv.counts.quiet_of_idle hidle
  exact ⟨hquiet.tasks, hquiet.startSems, hquiet.stopSems⟩

end Pool

end Vsys.Ssp
