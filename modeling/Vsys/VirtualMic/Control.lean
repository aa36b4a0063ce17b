import Vsys.VirtualMic.Queues
import Mathlib.Data.List.Chain

/-!
# The map of tracks and the control messages

The map should hold exactly the started tracks, and the sender should be told `STATE_ENABLE` and
`STATE_DISABLE` in turns.  A read means only to look its track up, but `map_tracks[type]` enters a
track that is not there, and a stop sends `STATE_DISABLE` also when nothing was started.
`coherent_exact` says that these two are all that goes wrong.
-/

namespace Vsys.VirtualMic

open Vsys.Stream Vsys.Trace

variable {Client : Type*}

/-! ## Which tracks are started -/

theorem started_concat_iff {log : List (Act Client)} {act : Act Client} {type : TrackType} :
    Started (log ++ [act]) type ↔ act = .start type ∨ Started log type ∧ act ≠ .stop type :=
  since_concat_iff

theorem queuesOf_concat (log : List (Act Client)) (act : Act Client) :
    queuesOf (log ++ [act]) = queueStep (queuesOf log) act :=
  run_append ..

/-- A track has a queue exactly while it is started. -/
theorem queuesOf_ne_none_iff (log : List (Act Client)) (type : TrackType) :
    queuesOf log type ≠ none ↔ Started log type := by
  induction log using List.reverseRecOn with
  | nil => exact iff_of_false (fun h ↦ h rfl) not_since_nil
  | append_singleton log act ih =>
      rw [queuesOf_concat, started_concat_iff, ← ih]
      cases act with
      | start other =>
          by_cases hother : type = other
          · subst hother
            simp [queueStep]
          · simp [queueStep, hother, Ne.symm hother]
      | stop other =>
          by_cases hother : type = other
          · subst hother
            simp [queueStep]
          · simp [queueStep, hother, Ne.symm hother]
      | read client other size =>
          by_cases hother : type = other
          · subst hother
            simp [queueStep]
          · simp [queueStep, hother]
      | deliver buf => simp [queueStep]

/-! ## What is sent -/

/-- Messages that alternate, the last one `STATE_ENABLE` exactly if `on`. -/
structure Alternating (sent : List OpType) (on : Prop) : Prop where
  chain : sent.IsChain (· ≠ ·)
  only : ∀ op ∈ sent, op = .stateEnable ∨ op = .stateDisable
  last : sent.getLast? = some .stateEnable ↔ on

theorem alternating_nil {on : Prop} (hon : ¬ on) : Alternating [] on where
  chain := List.isChain_nil
  only := by simp
  last := iff_of_false (by simp) hon

theorem Alternating.congr {sent : List OpType} {on on' : Prop} (h : Alternating sent on)
    (hiff : on ↔ on') : Alternating sent on' where
  chain := h.chain
  only := h.only
  last := h.last.trans hiff

/-- The last message while nothing is on. -/
theorem Alternating.last_of_not {sent : List OpType} {on : Prop} (h : Alternating sent on)
    (hon : ¬ on) : sent = [] ∨ sent.getLast? = some .stateDisable := by
  cases hlast : sent.getLast? with
  | none => exact .inl (List.getLast?_eq_none_iff.mp hlast)
  | some op =>
      obtain rfl | rfl := h.only op (List.mem_of_getLast? hlast)
      · exact absurd (h.last.mp hlast) hon
      · exact .inr rfl

theorem isChain_concat_iff {sent : List OpType} {op : OpType} :
    (sent ++ [op]).IsChain (· ≠ ·) ↔ sent.IsChain (· ≠ ·) ∧ sent.getLast? ≠ some op := by
  rw [List.isChain_append]
  simp only [List.isChain_singleton, true_and, List.head?_cons, Option.mem_def, ne_eq]
  refine and_congr_right fun _ ↦ ⟨fun h hlast ↦ h op hlast op rfl rfl, ?_⟩
  rintro h x hx y hy rfl
  exact h (hx.trans hy.symm)

theorem Alternating.enable {sent : List OpType} {on on' : Prop} (h : Alternating sent on)
    (hon : ¬ on) (hon' : on') : Alternating (sent ++ [.stateEnable]) on' where
  chain := isChain_concat_iff.mpr ⟨h.chain, fun hlast ↦ hon (h.last.mp hlast)⟩
  only := by
    intro op hop
    obtain hop | hop := List.mem_append.mp hop
    · exact h.only op hop
    · exact .inl (List.mem_singleton.mp hop)
  last := iff_of_true (by simp) hon'

theorem Alternating.disable {sent : List OpType} {on on' : Prop} (h : Alternating sent on)
    (hon : on ∨ sent = []) (hon' : ¬ on') : Alternating (sent ++ [.stateDisable]) on' where
  chain := by
    refine isChain_concat_iff.mpr ⟨h.chain, fun hlast ↦ ?_⟩
    obtain hon | hnil := hon
    · rw [h.last.mpr hon] at hlast
      exact absurd hlast (by decide)
    · rw [hnil] at hlast
      exact absurd hlast (by decide)
  only := by
    intro op hop
    obtain hop | hop := List.mem_append.mp hop
    · exact h.only op hop
    · exact .inr (List.mem_singleton.mp hop)
  last := iff_of_false (by simp) hon'

/-! ## One region -/

namespace State

variable (s : State Client)

@[simp]
theorem tryEmplace_sent (type : TrackType) : (s.tryEmplace type).sent = s.sent := by
  rw [tryEmplace]
  split <;> rfl

@[simp]
theorem erase_sent (type : TrackType) : (s.erase type).sent = s.sent := by
  rw [erase]
  split <;> rfl

@[simp]
theorem push_sent (buf : Block) (type : TrackType) : (s.push buf type).sent = s.sent := by
  rw [push]
  repeat' split
  all_goals rfl

@[simp]
theorem deliver_sent (buf : Block) : (s.deliver buf).sent = s.sent := by
  rw [deliver]
  split <;> simp

@[simp]
theorem virtualMicRead_sent [DecidableEq Client] (client : Client) (type : TrackType) (size : ℕ) :
    (s.virtualMicRead client type size).sent = s.sent := by
  simp only [virtualMicRead]
  repeat' split
  all_goals rfl

end State

variable {s : State Client} {queues : Queues}

/-- A stop while nothing is started sends `STATE_DISABLE`. -/
theorem Represents.virtualMicStop_unstarted (h : Represents s queues) (type : TrackType)
    (hnone : ∀ other, queues other = none) :
    (s.virtualMicStop type).sent = s.sent ++ [.stateDisable] := by
  have hempty : (s.erase type).Empty := by
    refine (h.erase type).empty_iff.mpr fun other ↦ ?_
    by_cases heq : other = type
    · rw [heq, Function.update_self]
    · rw [Function.update_of_ne heq, hnone other]
  simp only [State.virtualMicStop, hempty, if_true]
  show (s.erase type).sent ++ _ = _
  rw [State.erase_sent]

variable [DecidableEq Client]

/-- A region that is not a stop of nothing keeps the messages alternating. -/
theorem step_alternating (h : Represents s queues) {act : Act Client}
    (hsent : Alternating s.sent (∃ type, queues type ≠ none))
    (hstop : ∀ type, act = .stop type → (∃ other, queues other ≠ none) ∨ s.sent = []) :
    Alternating (step s act).sent (∃ type, queueStep queues act type ≠ none) := by
  have hempty := h.empty_iff
  have hexists : ¬ s.Empty ↔ ∃ type, queues type ≠ none := by
    rw [hempty, not_forall]
  simp only [step, h.alive, Bool.false_eq_true, if_false]
  cases act with
  | start type =>
      have hon : ∃ other, queueStep queues (.start type : Act Client) other ≠ none :=
        ⟨type, by simp [queueStep]⟩
      simp only [State.virtualMicStart, State.tryEmplace_sent]
      split
      · rename_i hnone
        exact hsent.enable (fun hex ↦ hexists.mpr hex hnone) hon
      · rename_i hsome
        exact hsent.congr (iff_of_true (hexists.mp hsome) hon)
  | stop type =>
      have hafter := (h.erase type).empty_iff
      simp only [State.virtualMicStop]
      split
      · rename_i hnone
        have hoff : ¬ ∃ other, queueStep queues (.stop type : Act Client) other ≠ none := by
          rintro ⟨other, hother⟩
          exact hother (hafter.mp hnone other)
        show Alternating ((s.erase type).sent ++ [.stateDisable]) _
        rw [State.erase_sent]
        exact hsent.disable (hstop type rfl) hoff
      · rename_i hsome
        obtain ⟨other, hother⟩ := not_forall.mp (mt hafter.mpr hsome)
        have hbefore : ∃ other, queues other ≠ none := by
          refine ⟨other, fun hnone ↦ hother ?_⟩
          by_cases heq : other = type
          · rw [heq, Function.update_self]
          · rw [Function.update_of_ne heq, hnone]
        rw [State.erase_sent]
        exact hsent.congr (iff_of_true hbefore ⟨other, hother⟩)
  | deliver buf =>
      rw [State.deliver_sent]
      exact hsent.congr (exists_congr fun type ↦ by simp [queueStep])
  | read client type size =>
      rw [State.virtualMicRead_sent]
      refine hsent.congr (exists_congr fun other ↦ ?_)
      by_cases heq : other = type
      · subst heq
        simp [queueStep]
      · simp [queueStep, heq]

/-! ## Whole runs -/

/-- The map holds the started tracks, each with a manager of its own, and the messages alternate
with `STATE_ENABLE` the last one exactly while some track is started. -/
structure Coherent (log : List (Act Client)) : Prop where
  tracks : ∀ type, (server log).mapTracks type ≠ none ↔ Started log type
  managers : ∀ type track, (server log).mapTracks type = some track →
    ∃ address m, track.second = some address ∧ (server log).heap address = some m
  own : ∀ type other first first' address, (server log).mapTracks type = some ⟨first, some address⟩ →
    (server log).mapTracks other = some ⟨first', some address⟩ → type = other
  messages : Alternating (server log).sent (∃ type, Started log type)

/-- What a region must find: a read finds its track started, and a stop finds a started track
unless no message was sent yet. -/
def Proper (log : List (Act Client)) : Act Client → Prop
  | .read _ type _ => Started log type
  | .stop _ => (∃ type, Started log type) ∨ (server log).sent = []
  | _ => True

/-- What proper regions keep. -/
structure Sound (log : List (Act Client)) : Prop where
  represents : Represents (server log) (queuesOf log)
  messages : Alternating (server log).sent (∃ type, queuesOf log type ≠ none)

theorem server_concat (log : List (Act Client)) (act : Act Client) :
    server (log ++ [act]) = step (server log) act :=
  run_append ..

theorem sound_nil : Sound ([] : List (Act Client)) where
  represents := init_represents
  messages := alternating_nil (by simp [queuesOf])

theorem Sound.concat {log : List (Act Client)} {act : Act Client} (h : Sound log)
    (hact : Proper log act) : Sound (log ++ [act]) where
  represents := by
    rw [server_concat, queuesOf_concat]
    refine step_represents h.represents ?_
    rintro client type size rfl
    exact (queuesOf_ne_none_iff log type).mpr hact
  messages := by
    rw [server_concat, queuesOf_concat]
    refine step_alternating h.represents h.messages ?_
    rintro type rfl
    simp only [queuesOf_ne_none_iff]
    exact hact

theorem Sound.coherent {log : List (Act Client)} (h : Sound log) : Coherent log where
  tracks := by
    intro type
    rw [h.represents.mapTracks_ne_none_iff, queuesOf_ne_none_iff]
  managers := by
    intro type track hentry
    have hsome : queuesOf log type ≠ none :=
      (h.represents.mapTracks_ne_none_iff type).mp (by simp [hentry])
    obtain ⟨queue, hqueue⟩ := Option.ne_none_iff_exists'.mp hsome
    have htrack := h.represents.track type
    rw [hqueue] at htrack
    obtain ⟨address, m, held, hentry', hlive, -⟩ := htrack
    obtain rfl := Option.some.inj (hentry.symm.trans hentry')
    exact ⟨address, m, rfl, hlive⟩
  own := h.represents.own
  messages := by
    have hiff : (∃ type, queuesOf log type ≠ none) ↔ ∃ type, Started log type :=
      exists_congr (queuesOf_ne_none_iff log)
    exact h.messages.congr hiff

/-- A read of a track that is not started enters it into the map. -/
theorem Represents.virtualMicRead_unstarted (h : Represents s queues) (client : Client)
    {type : TrackType} (hnone : queues type = none) (size : ℕ) :
    (s.virtualMicRead client type size).mapTracks type = some ⟨[], none⟩ := by
  have htrack := h.track type
  rw [hnone] at htrack
  have hentry : s.mapTracks type = none := htrack
  simp only [State.virtualMicRead, hentry, Option.getD_none]
  exact Function.update_self ..

/-- A region that is not proper breaks the coherence. -/
theorem Sound.not_coherent {log : List (Act Client)} {act : Act Client} (h : Sound log)
    (hact : ¬ Proper log act) : ¬ Coherent (log ++ [act]) := by
  intro hgood
  cases act with
  | start type => exact hact trivial
  | deliver buf => exact hact trivial
  | read client type size =>
      have hnot : ¬ Started log type := hact
      have hnone : queuesOf log type = none :=
        not_not.mp fun hne ↦ hnot ((queuesOf_ne_none_iff log type).mp hne)
      have hentry := h.represents.virtualMicRead_unstarted client hnone size
      have hmap : (server (log ++ [.read client type size])).mapTracks type = some ⟨[], none⟩ := by
        rw [server_concat, step, h.represents.alive]
        exact hentry
      have hstarted := (hgood.tracks type).mp (by simp [hmap])
      obtain heq | ⟨hstarted, -⟩ := started_concat_iff.mp hstarted
      · exact absurd heq (by simp)
      · exact hnot hstarted
  | stop type =>
      obtain ⟨hnot, hsome⟩ := not_or.mp hact
      have hnone : ∀ other, queuesOf log other = none := fun other ↦
        not_not.mp fun hne ↦ hnot ⟨other, (queuesOf_ne_none_iff log other).mp hne⟩
      have hsent := h.represents.virtualMicStop_unstarted type hnone
      have hmessages := hgood.messages.chain
      have hchain : ((server log).sent ++ [OpType.stateDisable]).IsChain (· ≠ ·) := by
        rw [← hsent]
        rw [server_concat, step, h.represents.alive] at hmessages
        exact hmessages
      have hoff : ¬ ∃ other, queuesOf log other ≠ none := by
        rintro ⟨other, hne⟩
        exact hne (hnone other)
      obtain hnil | hlast := h.messages.last_of_not hoff
      · exact hsome hnil
      · exact (isChain_concat_iff.mp hchain).2 hlast

/-- **Coherence of the map and the messages.** It holds after every region of a run exactly if
every read finds its track started and every stop finds something started, a stop before the first
message apart. -/
theorem coherent_exact (log : List (Act Client)) :
    (∀ first, first <+: log → Coherent first) ↔ Guarded Proper log :=
  forall_isPrefix_iff_guarded Sound Coherent sound_nil (fun _ _ h ↦ h.concat)
    (fun _ _ h ↦ h.not_coherent) (fun _ ↦ Sound.coherent) log

/-- A track is read before it is started: the start then sends nothing and makes no manager, and
the first block that arrives is pushed through a null pointer. -/
theorem read_before_start :
    ¬ Coherent ([.read () .default bufferSize] : List (Act Unit)) ∧
      (server ([.read () .default bufferSize, .start .default] : List (Act Unit))).sent = [] ∧
      (server ([.read () .default bufferSize, .start .default,
        .deliver (Vector.replicate bufferSize 0)] : List (Act Unit))).crashed = true := by
  refine ⟨fun h ↦ ?_, by decide, by decide⟩
  have hstarted := (h.tracks .default).mp (by decide)
  exact absurd hstarted (by unfold Started; decide)

end Vsys.VirtualMic
