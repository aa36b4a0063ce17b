import Mathlib.Data.Int.Notation
import Vsys.Openvoice.Siren

/-!
# The session of `VoiceService`

`session_id` is read and written by the event thread, by the response thread and by
`network_state_change`.  Only `clear` takes `session_mutex`; every other read and every write is a
step of its own here, so that the threads may come between a test of `session_id` and the call that
uses it, and between `start_voice` and the assignment of what it returned.

The history records the calls to the speech engine and the calls of `clear`.  `Legal` is the rule
for the calls that use an id: it is the one of the latest `start_voice`, it has not been ended,
cancelled or cleared since, and the engine is prepared.
-/

namespace Vsys.Openvoice

open Vsys.Trace

/-- The events of the siren, with the flags `onEvent` looks at. -/
inductive SirenEvent
  | wakePre
  | wakeCmd
  | vadStart
  | vadData (hasVoice : Bool)
  | vadEnd
  | sleep
  | vadCancel
  | voicePrint (hasVt : Bool)
  deriving DecidableEq, Repr

/-- The types of a speech result. -/
inductive ResultType
  | start
  | inter
  | asrFinish
  | finish
  | cancelled
  | error
  deriving DecidableEq, Repr

/-- A speech result: `err` is zero for `SPEECH_SUCCESS`, and `activation` is the text found under
this name in `extra`. -/
structure SpeechResult where
  id : ℤ
  type : ResultType
  err : ℤ
  activation : Option (List Char)
  deriving DecidableEq, Repr

/-- The lambda of `onResponse`. -/
def arbitration (activation : List Char) : Bool :=
  activation = ['f', 'a', 'k', 'e'] || activation = ['r', 'e', 'j', 'e', 'c', 't']

/-- The calls that use an id. -/
inductive Use
  | putVoice
  | endVoice
  | cancel
  deriving DecidableEq, Repr

/-- What the history records. -/
inductive Action
  | prepare
  | release
  | startVoice (id : ℤ)
  | use (use : Use) (id : ℤ)
  | clear (id : ℤ)
  deriving DecidableEq, Repr

/-! ## The rule for the calls -/

/-- After this action the id is not to be used any more. -/
def Action.Closes (id : ℤ) : Action → Prop
  | .use .endVoice other | .use .cancel other => other = id
  | .clear other => other < 0 ∨ other = id
  | .startVoice _ => True
  | _ => False

instance (id : ℤ) : DecidablePred (Action.Closes id)
  | .use .putVoice _ | .prepare | .release => inferInstanceAs (Decidable False)
  | .use .endVoice other | .use .cancel other => inferInstanceAs (Decidable (other = id))
  | .clear other => inferInstanceAs (Decidable (other < 0 ∨ other = id))
  | .startVoice _ => inferInstanceAs (Decidable True)

/-- The id is the one of the latest `start_voice` and has not been ended, cancelled or cleared. -/
def Open (id : ℤ) (log : List Action) : Prop :=
  Since (· = Action.startVoice id) (Action.Closes id) log

/-- The engine is prepared. -/
def Prepared (log : List Action) : Prop :=
  Since (· = Action.prepare) (· = Action.release) log

instance (id : ℤ) (log : List Action) : Decidable (Open id log) :=
  inferInstanceAs (Decidable (Since _ _ _))

instance (log : List Action) : Decidable (Prepared log) :=
  inferInstanceAs (Decidable (Since _ _ _))

/-- Every call that uses an id finds it open and the engine prepared. -/
def Legal (log : List Action) : Prop :=
  Guarded (fun before action ↦
    ∀ use id, action = .use use id → Open id before ∧ Prepared before) log

/-! ## The threads -/

/-- Where the event thread stands. -/
inductive EventPc
  /-- Before it takes an event. -/
  | waiting
  /-- In `vad_start`, before it reads `mCurrentSpeechState`. -/
  | vadStart
  /-- Before `start_voice`. -/
  | startVoice
  /-- Before `session_id` is assigned. -/
  | store (id : ℤ)
  /-- The test of `session_id` was passed; before it is read for the call. -/
  | read (use : Use)
  /-- Before the call. -/
  | call (use : Use) (id : ℤ)
  /-- Before `clear()`. -/
  | clear
  /-- After the test of `VAD_CANCEL` or its call. -/
  | cancelDone
  deriving DecidableEq, Repr

/-- Where the event thread stands after a call. -/
def Use.next : Use → EventPc
  | .putVoice => .waiting
  | .endVoice => .clear
  | .cancel => .cancelDone

/-- Where the response thread stands. -/
inductive ResponsePc
  /-- Before `poll`. -/
  | polling
  /-- Before `session_id` is compared with the id of an `ASR_FINISH`. -/
  | asrFinish (sr : SpeechResult)
  /-- Before `asr_finished` is set. -/
  | finished (sr : SpeechResult)
  /-- At an `ERROR`. -/
  | error (sr : SpeechResult)
  /-- Before the last line of the loop. -/
  | clear (sr : SpeechResult)
  deriving DecidableEq, Repr

/-- Where the call of `network_state_change` that holds `speech_mutex` stands. -/
inductive NetworkPc
  | outside
  /-- Before `prepare`. -/
  | preparing
  /-- Before `clear()`. -/
  | clearing
  /-- Before `mCurrentSpeechState` is set to `PREPARED`. -/
  | publishing
  /-- Before `release`. -/
  | releasing
  /-- Before `mCurrentSpeechState` is set to `RELEASED`. -/
  | retiring
  deriving DecidableEq, Repr

/-- The fields the threads share, and where the threads stand.  `prepared` is the state of the
speech engine itself, and `activation` belongs to the response thread. -/
structure Session where
  sessionId : ℤ
  mCurrentSpeechState : SpeechState
  cloudVadEnable : Bool
  asrFinished : Bool
  localSleep : Bool
  hasVt : Bool
  prepared : Bool
  activation : List Char
  event : EventPc
  response : ResponsePc
  network : NetworkPc
  log : List Action
  deriving DecidableEq, Repr

/-- Which thread goes on, and what it is given. -/
inductive Move
  /-- The event thread takes an event. -/
  | event (event : SirenEvent)
  /-- The event thread goes on. -/
  | advance
  /-- The event thread calls `start_voice`, which returns `id`. -/
  | startVoice (id : ℤ)
  /-- The response thread polls a result. -/
  | result (sr : SpeechResult)
  /-- The response thread goes on. -/
  | respond
  /-- `network_state_change` is called. -/
  | networkStateChange (connected : Bool)
  /-- It goes on; `prepare` reads the configuration and ends like this. -/
  | network (prepareOk cloudVadEnable : Bool)
  deriving DecidableEq, Repr

namespace Session

/-- After the constructor. -/
def new : Session where
  sessionId := -1
  mCurrentSpeechState := .unknown
  cloudVadEnable := false
  asrFinished := false
  localSleep := false
  hasVt := false
  prepared := false
  activation := []
  event := .waiting
  response := .polling
  network := .outside
  log := []

/-- `clear`, whole under `session_mutex`. -/
def clear (s : Session) (id : ℤ) : Session :=
  { s with
    sessionId := if id < 0 ∨ s.sessionId = id then -1 else s.sessionId
    log := s.log ++ [.clear id] }

/-- The test of an event that leads to a call with `session_id`. -/
def uses (s : Session) : SirenEvent → Option Use
  | .vadData hasVoice => if 0 < s.sessionId ∧ hasVoice then some .putVoice else none
  | .vadEnd => if !s.cloudVadEnable ∧ 0 < s.sessionId then some .endVoice else none
  | .vadCancel =>
      if 0 < s.sessionId ∧ (!s.asrFinished || s.localSleep) then some .cancel else none
  | _ => none

/-- The `switch` of `onEvent`, up to the first step that others can come before. -/
def onEvent (s : Session) (event : SirenEvent) : Session :=
  match s.uses event with
  | some use => { s with event := .read use }
  | none =>
      match event with
      | .vadStart => if s.sessionId < 0 then { s with event := .vadStart } else s
      | .vadEnd => if s.cloudVadEnable then s else { s with event := .clear }
      | .sleep => { s with localSleep := true }
      | .vadCancel => { s with event := .cancelDone }
      | .voicePrint hasVt => if hasVt then { s with hasVt := true } else s
      | .wakePre | .wakeCmd | .vadData _ => s

/-- The next step of the event thread, other than `start_voice`. -/
def advance (s : Session) : Session :=
  match s.event with
  | .waiting | .startVoice => s
  | .vadStart =>
      if s.mCurrentSpeechState = .prepared then { s with hasVt := false, event := .startVoice }
      else { s with event := .store (-1) }
  | .store id => { s with sessionId := id, event := .waiting }
  | .read use => { s with event := .call use s.sessionId }
  | .call use id => { s with event := use.next, log := s.log ++ [.use use id] }
  | .clear => { s.clear (-1) with event := .waiting }
  | .cancelDone =>
      { s with asrFinished := false, event := if s.cloudVadEnable then .waiting else .clear }

/-- `start_voice` returns a positive id that it has not returned before. -/
def startVoice (s : Session) (id : ℤ) : Session :=
  if s.event = .startVoice ∧ 0 < id ∧ .startVoice id ∉ s.log then
    { s with event := .store id, log := s.log ++ [.startVoice id] }
  else s

/-- `activation` with a new result. -/
def nextActivation (s : Session) (sr : SpeechResult) : List Char :=
  match sr.type with
  | .start => []
  | .inter | .finish => sr.activation.getD s.activation
  | .asrFinish | .cancelled | .error => s.activation

/-- The loop of `onResponse` from `poll` to the first step that others can come before. -/
def onResponse (s : Session) (sr : SpeechResult) : Session :=
  let activation := s.nextActivation sr
  let asrFinished := if sr.type = .start then false else s.asrFinished
  let t := { s with activation := activation, asrFinished := asrFinished }
  if arbitration activation then { t with response := .clear sr }
  else
    match sr.type with
    | .asrFinish => { t with response := .asrFinish sr }
    | .cancelled => { t with localSleep := false, response := .clear sr }
    | .error => { t with response := if sr.err ≠ 0 then .error sr else .clear sr }
    | .start | .inter | .finish => { t with response := .clear sr }

variable (order : ResultType → ℕ)

/-- `sr.type >= SPEECH_RES_ASR_FINISH`. -/
def isFinal (sr : SpeechResult) : Bool := order .asrFinish ≤ order sr.type

/-- The next step of the response thread. -/
def respond (s : Session) : Session :=
  match s.response with
  | .polling => s
  | .asrFinish sr =>
      if s.sessionId = sr.id ∨ s.cloudVadEnable then { s with response := .finished sr }
      else { s with response := .clear sr }
  | .finished sr => { s with asrFinished := true, response := .clear sr }
  | .error sr =>
      { s with asrFinished := false, localSleep := false, activation := [], response := .clear sr }
  | .clear sr => { if isFinal order sr then s.clear sr.id else s with response := .polling }

/-- `network_state_change` up to its first call. -/
def networkStateChange (s : Session) (connected : Bool) : Session :=
  if s.network ≠ .outside then s
  else if connected ∧ s.mCurrentSpeechState ≠ .prepared then { s with network := .preparing }
  else if ¬ connected ∧ s.mCurrentSpeechState = .prepared then { s with network := .releasing }
  else s

/-- The next step of `network_state_change`. -/
def goOn (s : Session) (prepareOk cloudVadEnable : Bool) : Session :=
  match s.network with
  | .outside => s
  | .preparing =>
      let t := { s with cloudVadEnable := cloudVadEnable }
      if prepareOk then
        { t with prepared := true, network := .clearing, log := s.log ++ [.prepare] }
      else { t with network := .outside }
  | .clearing => { s.clear (-1) with network := .publishing }
  | .publishing => { s with mCurrentSpeechState := .prepared, network := .outside }
  | .releasing =>
      { s with prepared := false, network := .retiring, log := s.log ++ [.release] }
  | .retiring => { s with mCurrentSpeechState := .released, network := .outside }

/-- One step of one thread. -/
def step (s : Session) : Move → Session
  | .event event => if s.event = .waiting then s.onEvent event else s
  | .advance => s.advance
  | .startVoice id => s.startVoice id
  | .result sr => if s.response = .polling then s.onResponse sr else s
  | .respond => s.respond order
  | .networkStateChange connected => s.networkStateChange connected
  | .network prepareOk cloudVadEnable => s.goOn prepareOk cloudVadEnable

/-! ## Moves that do not interfere -/

/-- The event thread is about to use or to assign this id. -/
def Holds (s : Session) (id : ℤ) : Prop :=
  match s.event with
  | .store other => 0 < id ∧ id = other
  | .read _ => id = s.sessionId
  | .call _ other => id = other
  | _ => False

/-- A session is open, or being opened. -/
def Busy (s : Session) : Prop :=
  (0 < s.sessionId ∧ s.event ≠ .clear) ∨ s.event = .startVoice ∨ ∃ id, s.Holds id

/-- The move does not come between two steps that belong together: no event leads to a call for an
id that was cancelled and kept; `vad_start` does not look at `mCurrentSpeechState` between `release`
and `RELEASED`; no final result clears an id the event thread is about to use or to assign; and the
engine is not released while a session is open or being opened. -/
def Careful (s : Session) : Move → Prop
  | .event event => s.event = .waiting → s.uses event ≠ none →
      .use .cancel s.sessionId ∉ s.log
  | .advance => s.event = .vadStart → s.network ≠ .retiring
  | .respond => ∀ sr, s.response = .clear sr → isFinal order sr = true →
      ∀ id, s.Holds id → ¬ (sr.id < 0 ∨ sr.id = id)
  | .network _ _ => s.network = .releasing → ¬ s.Busy
  | _ => True

/-! ## Careful runs -/

/-- The event thread is in a `VAD_START` it has not ignored. -/
def Starting (s : Session) : Prop :=
  match s.event with
  | .vadStart | .startVoice | .store _ => True
  | _ => False

/-- What the engine and `mCurrentSpeechState` have to do with each other. -/
def Published (s : Session) : Prop :=
  match s.network with
  | .outside => s.mCurrentSpeechState = .prepared → s.prepared = true
  | .preparing => s.mCurrentSpeechState ≠ .prepared
  | .clearing | .publishing => s.prepared = true ∧ s.mCurrentSpeechState ≠ .prepared
  | .releasing => s.prepared = true
  | .retiring => True

/-- The invariant of careful runs: an id the event thread holds is open, an id in `session_id` is
open unless the event thread has closed it itself, and both only while the engine is prepared. -/
structure Inv (s : Session) : Prop where
  legal : Legal s.log
  engine : s.prepared = true → Prepared s.log
  holds : ∀ id, s.Holds id → Open id s.log
  session : 0 < s.sessionId →
    s.event = .clear ∨ Open s.sessionId s.log ∨ .use .cancel s.sessionId ∈ s.log
  starting : s.Starting → s.sessionId < 0
  busy : s.Busy → s.mCurrentSpeechState = .prepared ∧
    (s.network = .outside ∨ s.network = .releasing)
  published : s.Published

theorem inv_new : Inv new where
  legal := guarded_nil
  engine := fun h ↦ nomatch h
  holds := fun _ h ↦ h.elim
  session := fun h ↦ nomatch h
  starting := fun h ↦ h.elim
  busy := by simp [Busy, Holds, new]
  published := fun h ↦ nomatch h

theorem Inv.prepared_of_busy {s : Session} (h : Inv s) (hbusy : s.Busy) : s.prepared = true := by
  obtain ⟨hstate, hnetwork | hnetwork⟩ := h.busy hbusy
  · have hpublished := h.published
    rw [Published, hnetwork] at hpublished
    exact hpublished hstate
  · have hpublished := h.published
    rw [Published, hnetwork] at hpublished
    exact hpublished

/-- The parts of the state the invariant speaks about. -/
structure Same (s t : Session) : Prop where
  sessionId : t.sessionId = s.sessionId
  mCurrentSpeechState : t.mCurrentSpeechState = s.mCurrentSpeechState
  prepared : t.prepared = s.prepared
  event : t.event = s.event
  network : t.network = s.network
  log : t.log = s.log

theorem Inv.same {s t : Session} (h : Inv s) (hsame : Same s t) : Inv t := by
  obtain ⟨hid, hstate, hprepared, hevent, hnetwork, hlog⟩ := hsame
  have hholds : t.Holds = s.Holds := by
    funext id
    simp only [Holds, hevent, hid]
  have hbusy : t.Busy ↔ s.Busy := by simp only [Busy, hid, hevent, hholds]
  constructor
  · exact hlog ▸ h.legal
  · rw [hprepared, hlog]
    exact h.engine
  · rw [hholds, hlog]
    exact h.holds
  · rw [hid, hevent, hlog]
    exact h.session
  · simp only [Starting, hevent, hid]
    exact h.starting
  · rw [hbusy, hstate, hnetwork]
    exact h.busy
  · simp only [Published, hnetwork, hstate, hprepared]
    exact h.published

theorem legal_concat {log : List Action} {action : Action} (h : Legal log)
    (haction : ∀ use id, action ≠ .use use id) : Legal (log ++ [action]) :=
  Guarded.concat h fun use id heq ↦ absurd heq (haction use id)

/-- An action that does not close the id in `session_id`. -/
theorem Inv.session_concat {s : Session} (h : Inv s) {action : Action}
    (haction : ¬ action.Closes s.sessionId) (hpos : 0 < s.sessionId) :
    s.event = .clear ∨ Open s.sessionId (s.log ++ [action]) ∨
      .use .cancel s.sessionId ∈ s.log ++ [action] := by
  obtain hclear | hopen | hcancel := h.session hpos
  · exact .inl hclear
  · exact .inr (.inl (Since.concat hopen haction))
  · exact .inr (.inr (List.mem_append_left _ hcancel))

/-- The event thread goes to a place where it holds no id. -/
theorem Inv.goto {s : Session} (h : Inv s) {pc : EventPc} (hclear : s.event ≠ .clear)
    (hvoice : pc ≠ .startVoice) (hholds : ∀ id, ¬ { s with event := pc }.Holds id)
    (hstarting : { s with event := pc }.Starting → s.sessionId < 0) :
    Inv { s with event := pc } where
  legal := h.legal
  engine := h.engine
  holds := fun id hid ↦ (hholds id hid).elim
  session := fun hpos ↦ .inr ((h.session hpos).resolve_left hclear)
  starting := hstarting
  busy := by
    rintro (⟨hpos, -⟩ | hpc | ⟨id, hid⟩)
    · exact h.busy (.inl ⟨hpos, hclear⟩)
    · exact absurd hpc hvoice
    · exact (hholds id hid).elim
  published := h.published

/-! ### The event thread -/

theorem sessionId_pos_of_uses {s : Session} {event : SirenEvent} (h : s.uses event ≠ none) :
    0 < s.sessionId := by
  cases event <;> simp only [uses, ne_eq, ite_eq_right_iff, reduceCtorEq, imp_false, not_not,
    not_true_eq_false] at h
  · exact h.1
  · exact h.2
  · exact h.1

/-- An event whose test is passed: the event thread now holds `session_id`. -/
theorem Inv.read {s : Session} (h : Inv s) (hwaiting : s.event = .waiting)
    (hpos : 0 < s.sessionId) (hkept : .use .cancel s.sessionId ∉ s.log) (use : Use) :
    Inv { s with event := .read use } := by
  have hopen : Open s.sessionId s.log := by
    obtain hclear | hopen | hcancel := h.session hpos
    · rw [hwaiting] at hclear
      exact nomatch hclear
    · exact hopen
    · exact absurd hcancel hkept
  constructor
  · exact h.legal
  · exact h.engine
  · rintro id rfl
    exact hopen
  · exact fun _ ↦ .inr (.inl hopen)
  · exact fun hstarting ↦ hstarting.elim
  · exact fun _ ↦ h.busy (.inl ⟨hpos, by simp [hwaiting]⟩)
  · exact h.published

theorem Inv.onEvent {s : Session} (h : Inv s) {event : SirenEvent} (hwaiting : s.event = .waiting)
    (hcareful : s.uses event ≠ none → .use .cancel s.sessionId ∉ s.log) :
    Inv (s.onEvent event) := by
  have hclear : s.event ≠ .clear := by simp [hwaiting]
  unfold Session.onEvent
  cases huses : s.uses event with
  | some use =>
      have hsome : s.uses event ≠ none := by simp [huses]
      exact h.read hwaiting (sessionId_pos_of_uses hsome) (hcareful hsome) use
  | none =>
      cases event with
      | wakePre | wakeCmd | vadData hasVoice => exact h
      | vadStart =>
          dsimp only
          split_ifs with hneg
          · exact h.goto hclear (by simp) (fun id hid ↦ hid.elim) fun _ ↦ hneg
          · exact h
      | vadEnd =>
          dsimp only
          split_ifs
          · exact h
          · exact h.goto hclear (by simp) (fun id hid ↦ hid.elim) fun hstarting ↦ hstarting.elim
      | sleep => exact h.same ⟨rfl, rfl, rfl, rfl, rfl, rfl⟩
      | vadCancel =>
          exact h.goto hclear (by simp) (fun id hid ↦ hid.elim) fun hstarting ↦ hstarting.elim
      | voicePrint hasVt =>
          dsimp only
          split_ifs
          · exact h.same ⟨rfl, rfl, rfl, rfl, rfl, rfl⟩
          · exact h

/-- `vad_start` finds the engine prepared. -/
theorem Inv.vadStart {s : Session} (h : Inv s) (hevent : s.event = .vadStart)
    (hstate : s.mCurrentSpeechState = .prepared) (hretiring : s.network ≠ .retiring) :
    Inv { s with hasVt := false, event := .startVoice } := by
  have hneg : s.sessionId < 0 := h.starting (by simp [Starting, hevent])
  have hpublished := h.published
  constructor
  · exact h.legal
  · exact h.engine
  · exact fun id hid ↦ hid.elim
  · exact fun hpos ↦ absurd hpos (Int.lt_asymm hneg)
  · exact fun _ ↦ hneg
  · intro _
    refine ⟨hstate, ?_⟩
    rw [Published] at hpublished
    cases hnetwork : s.network <;> simp_all
  · exact h.published

theorem Inv.store {s : Session} (h : Inv s) {id : ℤ} (hevent : s.event = .store id) :
    Inv { s with sessionId := id, event := .waiting } := by
  have hholds : 0 < id → s.Holds id := fun hpos ↦ by
    rw [Holds, hevent]
    exact ⟨hpos, rfl⟩
  constructor
  · exact h.legal
  · exact h.engine
  · exact fun other hother ↦ hother.elim
  · exact fun hpos ↦ .inr (.inl (h.holds id (hholds hpos)))
  · exact fun hstarting ↦ hstarting.elim
  · rintro (⟨hpos, -⟩ | hevent | ⟨other, hother⟩)
    · exact h.busy (.inr (.inr ⟨id, hholds hpos⟩))
    · exact nomatch hevent
    · exact hother.elim
  · exact h.published

theorem Inv.fetch {s : Session} (h : Inv s) {use : Use} (hevent : s.event = .read use) :
    Inv { s with event := .call use s.sessionId } := by
  have hholds : s.Holds s.sessionId := by rw [Holds, hevent]
  constructor
  · exact h.legal
  · exact h.engine
  · rintro id rfl
    exact h.holds _ hholds
  · exact fun _ ↦ .inr (.inl (h.holds _ hholds))
  · exact fun hstarting ↦ hstarting.elim
  · exact fun _ ↦ h.busy (.inr (.inr ⟨_, hholds⟩))
  · exact h.published

/-- The call itself: the id is open, and stays so if it is only given voice. -/
theorem Inv.call {s : Session} (h : Inv s) {use : Use} {id : ℤ} (hevent : s.event = .call use id) :
    Inv { s with event := use.next, log := s.log ++ [.use use id] } := by
  have hholds : s.Holds id := by rw [Holds, hevent]
  have hbusy : s.Busy := .inr (.inr ⟨id, hholds⟩)
  have hprepared : Prepared s.log := h.engine (h.prepared_of_busy hbusy)
  constructor
  · refine Guarded.concat h.legal fun use' id' heq ↦ ?_
    obtain ⟨rfl, rfl⟩ := Action.use.inj heq
    exact ⟨h.holds id hholds, hprepared⟩
  · exact fun _ ↦ Since.concat hprepared (by simp)
  · intro other hother
    cases use <;> exact hother.elim
  · intro hpos
    have hclear : s.event ≠ .clear := by simp [hevent]
    cases use with
    | putVoice => exact .inr ((h.session_concat (by simp [Action.Closes]) hpos).resolve_left hclear)
    | endVoice => exact .inl rfl
    | cancel =>
        by_cases hid : id = s.sessionId
        · exact .inr (.inr (by simp [hid]))
        · have hother : ¬ (Action.use .cancel id).Closes s.sessionId := hid
          exact .inr ((h.session_concat hother hpos).resolve_left hclear)
  · intro hstarting
    cases use <;> exact hstarting.elim
  · exact fun _ ↦ h.busy hbusy
  · exact h.published

/-- A `clear` leaves no session, or the one that it does not concern. -/
theorem sessionId_clear (s : Session) (id : ℤ) :
    (s.clear id).sessionId = -1 ∨
      (s.clear id).sessionId = s.sessionId ∧ ¬ (id < 0 ∨ id = s.sessionId) := by
  by_cases hhit : id < 0 ∨ s.sessionId = id
  · exact .inl (if_pos hhit)
  · exact .inr ⟨if_neg hhit, fun hother ↦ hhit (hother.imp_right Eq.symm)⟩

theorem sessionId_clear_of_pos {s : Session} {id : ℤ} (hpos : 0 < (s.clear id).sessionId) :
    (s.clear id).sessionId = s.sessionId ∧ ¬ (id < 0 ∨ id = s.sessionId) := by
  obtain hnone | hkept := sessionId_clear s id
  · rw [hnone] at hpos
    exact absurd hpos (by decide)
  · exact hkept

/-- What the event thread holds behind a `clear` it has held before. -/
theorem holds_of_clear {s : Session} {id other : ℤ}
    (hfree : ∀ other, s.Holds other → ¬ (id < 0 ∨ id = other))
    (hother : (s.clear id).Holds other) : s.Holds other := by
  unfold Holds at hother ⊢
  have hevent : (s.clear id).event = s.event := rfl
  rw [hevent] at hother
  cases hpc : s.event with
  | read use =>
      have hown : s.Holds s.sessionId := by rw [Holds, hpc]
      have hkeep : (s.clear id).sessionId = s.sessionId :=
        if_neg fun hhit ↦ hfree _ hown (hhit.imp_right Eq.symm)
      simp only [hpc, hkeep] at hother
      exact hother
  | _ =>
      rw [hpc] at hother
      exact hother

/-- A `clear` that does not concern an id the event thread holds. -/
theorem Inv.clear {s : Session} (h : Inv s) {id : ℤ}
    (hfree : ∀ other, s.Holds other → ¬ (id < 0 ∨ id = other)) : Inv (s.clear id) := by
  constructor
  · exact legal_concat h.legal (by simp)
  · exact fun hprepared ↦ Since.concat (h.engine hprepared) (by simp)
  · intro other hother
    have hheld := holds_of_clear hfree hother
    exact Since.concat (h.holds other hheld) (hfree other hheld)
  · intro hpos
    obtain ⟨hkeep, hother⟩ := sessionId_clear_of_pos hpos
    rw [hkeep] at hpos ⊢
    exact h.session_concat hother hpos
  · intro hstarting
    have hneg : s.sessionId < 0 := h.starting hstarting
    obtain hnone | ⟨hkeep, -⟩ := sessionId_clear s id
    · rw [hnone]
      decide
    · rw [hkeep]
      exact hneg
  · rintro (⟨hpos, hevent⟩ | hevent | ⟨other, hother⟩)
    · rw [(sessionId_clear_of_pos hpos).1] at hpos
      exact h.busy (.inl ⟨hpos, hevent⟩)
    · exact h.busy (.inr (.inl hevent))
    · exact h.busy (.inr (.inr ⟨other, holds_of_clear hfree hother⟩))
  · exact h.published

theorem sessionId_clear_neg (s : Session) {id : ℤ} (hid : id < 0) : (s.clear id).sessionId = -1 :=
  if_pos (.inl hid)

/-- The event thread's own `clear()`. -/
theorem Inv.clearAll {s : Session} (h : Inv s) (hevent : s.event = .clear) :
    Inv { s.clear (-1) with event := .waiting } := by
  have hfree : ∀ id, ¬ s.Holds id := by simp [Holds, hevent]
  have hclear : Inv (s.clear (-1)) := h.clear fun id hid ↦ (hfree id hid).elim
  have hneg : ¬ 0 < (s.clear (-1)).sessionId := by
    rw [sessionId_clear_neg s (by decide)]
    decide
  constructor
  · exact hclear.legal
  · exact hclear.engine
  · exact fun id hid ↦ hid.elim
  · exact fun hpos ↦ (hneg hpos).elim
  · exact fun hstarting ↦ hstarting.elim
  · rintro (⟨hpos, -⟩ | hvoice | ⟨id, hid⟩)
    · exact (hneg hpos).elim
    · exact nomatch hvoice
    · exact hid.elim
  · exact hclear.published

theorem Inv.advance {s : Session} (h : Inv s)
    (hcareful : s.event = .vadStart → s.network ≠ .retiring) : Inv s.advance := by
  rw [Session.advance]
  cases hevent : s.event with
  | waiting | startVoice => exact h
  | vadStart =>
      dsimp only
      split_ifs with hstate
      · exact h.vadStart hevent hstate (hcareful hevent)
      · refine h.goto (by simp [hevent]) (by simp) ?_ fun _ ↦ h.starting (by simp [Starting, hevent])
        rintro id ⟨hpos, rfl⟩
        exact nomatch hpos
  | store id => exact h.store hevent
  | read use => exact h.fetch hevent
  | call use id => exact h.call hevent
  | clear => exact h.clearAll hevent
  | cancelDone =>
      have hgoto : Inv { s with event := if s.cloudVadEnable then .waiting else .clear } := by
        split_ifs
        · exact h.goto (by simp [hevent]) (by simp) (fun id hid ↦ hid.elim) fun hs ↦ hs.elim
        · exact h.goto (by simp [hevent]) (by simp) (fun id hid ↦ hid.elim) fun hs ↦ hs.elim
      exact hgoto.same ⟨rfl, rfl, rfl, rfl, rfl, rfl⟩

theorem Inv.startVoice {s : Session} (h : Inv s) (id : ℤ) : Inv (s.startVoice id) := by
  rw [Session.startVoice]
  split_ifs with hcond
  · obtain ⟨hevent, hpos, -⟩ := hcond
    have hneg : s.sessionId < 0 := h.starting (by simp [Starting, hevent])
    constructor
    · exact legal_concat h.legal (by simp)
    · exact fun hprepared ↦ Since.concat (h.engine hprepared) (by simp)
    · rintro other ⟨-, rfl⟩
      exact since_of_start rfl
    · exact fun hpos ↦ absurd hpos (Int.lt_asymm hneg)
    · exact fun _ ↦ hneg
    · exact fun _ ↦ h.busy (.inr (.inl hevent))
    · exact h.published
  · exact h

/-! ### The other threads -/

theorem same_onResponse (s : Session) (sr : SpeechResult) : Same s (s.onResponse sr) := by
  unfold Session.onResponse
  by_cases harbitration : arbitration (s.nextActivation sr) = true
  · rw [if_pos harbitration]
    exact ⟨rfl, rfl, rfl, rfl, rfl, rfl⟩
  · rw [if_neg harbitration]
    cases sr.type <;> exact ⟨rfl, rfl, rfl, rfl, rfl, rfl⟩

theorem Inv.respond {s : Session} (h : Inv s)
    (hcareful : ∀ sr, s.response = .clear sr → isFinal order sr = true →
      ∀ id, s.Holds id → ¬ (sr.id < 0 ∨ sr.id = id)) : Inv (s.respond order) := by
  rw [Session.respond]
  cases hresponse : s.response with
  | polling => exact h
  | asrFinish sr =>
      dsimp only
      split_ifs <;> exact h.same ⟨rfl, rfl, rfl, rfl, rfl, rfl⟩
  | finished sr | error sr => exact h.same ⟨rfl, rfl, rfl, rfl, rfl, rfl⟩
  | clear sr =>
      dsimp only
      split_ifs with hfinal
      · exact (h.clear (hcareful sr hresponse hfinal)).same ⟨rfl, rfl, rfl, rfl, rfl, rfl⟩
      · exact h.same ⟨rfl, rfl, rfl, rfl, rfl, rfl⟩

/-- `network_state_change` goes to another place; while a session is open it can only stay outside
or be about to release. -/
theorem Inv.gotoNetwork {s : Session} (h : Inv s) {pc : NetworkPc}
    (hbusy : s.Busy → pc = .outside ∨ pc = .releasing)
    (hpublished : { s with network := pc }.Published) : Inv { s with network := pc } where
  legal := h.legal
  engine := h.engine
  holds := h.holds
  session := h.session
  starting := h.starting
  busy := fun hb ↦ ⟨(h.busy hb).1, hbusy hb⟩
  published := hpublished

theorem Inv.networkStateChange {s : Session} (h : Inv s) (connected : Bool) :
    Inv (s.networkStateChange connected) := by
  have hpublished := h.published
  rw [Session.networkStateChange]
  split_ifs with houtside hconnect hdisconnect
  · exact h
  · exact h.gotoNetwork (fun hbusy ↦ absurd (h.busy hbusy).1 hconnect.2) hconnect.2
  · rw [Published, not_not.mp houtside] at hpublished
    exact h.gotoNetwork (fun _ ↦ .inr rfl) (hpublished hdisconnect.2)
  · exact h

/-- Nothing is open while the engine is being prepared or has just been released. -/
theorem Inv.not_busy {s : Session} (h : Inv s) (houtside : s.network ≠ .outside)
    (hreleasing : s.network ≠ .releasing) : ¬ s.Busy := fun hbusy ↦
  (h.busy hbusy).2.elim houtside hreleasing

theorem Inv.goOn {s : Session} (h : Inv s) (prepareOk cloudVadEnable : Bool)
    (hcareful : s.network = .releasing → ¬ s.Busy) : Inv (s.goOn prepareOk cloudVadEnable) := by
  have hpublished := h.published
  rw [Published] at hpublished
  rw [Session.goOn]
  cases hnetwork : s.network with
  | outside => exact h
  | preparing =>
      rw [hnetwork] at hpublished
      have hbusy := h.not_busy (by simp [hnetwork]) (by simp [hnetwork])
      dsimp only
      split_ifs
      · constructor
        · exact legal_concat h.legal (by simp)
        · exact fun _ ↦ since_of_start rfl
        · exact fun id hid ↦ (hbusy (.inr (.inr ⟨id, hid⟩))).elim
        · exact h.session_concat (by simp [Action.Closes])
        · exact h.starting
        · exact fun hb ↦ (hbusy hb).elim
        · exact ⟨rfl, hpublished⟩
      · refine (h.gotoNetwork (fun _ ↦ .inl rfl) ?_).same
          ⟨rfl, rfl, rfl, rfl, rfl, rfl⟩
        exact fun hprepared ↦ absurd hprepared hpublished
  | clearing =>
      rw [hnetwork] at hpublished
      have hbusy := h.not_busy (by simp [hnetwork]) (by simp [hnetwork])
      have hclear : Inv (s.clear (-1)) :=
        h.clear fun id hid ↦ (hbusy (.inr (.inr ⟨id, hid⟩))).elim
      have hfree : ¬ (s.clear (-1)).Busy :=
        hclear.not_busy (by simp [Session.clear, hnetwork]) (by simp [Session.clear, hnetwork])
      exact hclear.gotoNetwork (fun hb ↦ (hfree hb).elim) hpublished
  | publishing =>
      rw [hnetwork] at hpublished
      have hbusy := h.not_busy (by simp [hnetwork]) (by simp [hnetwork])
      exact ⟨h.legal, h.engine, h.holds, h.session, h.starting, fun hb ↦ (hbusy hb).elim,
        fun _ ↦ hpublished.1⟩
  | releasing =>
      have hbusy := hcareful hnetwork
      constructor
      · exact legal_concat h.legal (by simp)
      · exact fun hprepared ↦ nomatch hprepared
      · exact fun id hid ↦ (hbusy (.inr (.inr ⟨id, hid⟩))).elim
      · exact h.session_concat (by simp [Action.Closes])
      · exact h.starting
      · exact fun hb ↦ (hbusy hb).elim
      · trivial
  | retiring =>
      have hbusy := h.not_busy (by simp [hnetwork]) (by simp [hnetwork])
      exact ⟨h.legal, h.engine, h.holds, h.session, h.starting, fun hb ↦ (hbusy hb).elim,
        fun hprepared ↦ nomatch hprepared⟩

theorem Inv.step {s : Session} (h : Inv s) (move : Move) (hcareful : Careful order s move) :
    Inv (step order s move) := by
  cases move with
  | event event =>
      rw [Session.step]
      split_ifs with hwaiting
      · exact h.onEvent hwaiting (hcareful hwaiting)
      · exact h
  | advance => exact h.advance hcareful
  | startVoice id => exact h.startVoice id
  | result sr =>
      rw [Session.step]
      split_ifs
      · exact h.same (same_onResponse s sr)
      · exact h
  | respond => exact h.respond order hcareful
  | networkStateChange connected => exact h.networkStateChange connected
  | network prepareOk cloudVadEnable => exact h.goOn prepareOk cloudVadEnable hcareful

/-- **Careful runs use only open sessions.** In every state of a run whose moves are careful, every
call of `put_voice`, `end_voice` and `cancel` made so far was made with the id of the latest
`start_voice`, before that id was ended, cancelled or cleared, and while the engine was
prepared. -/
theorem legal_of_careful (moves : List Move)
    (hcareful : Along (step order) (Careful order) new moves) :
    Throughout (step order) (fun s ↦ Legal s.log) new moves := by
  intro first hfirst
  have hinv : Inv (run (step order) new first) :=
    run_invariant (fun s move h hok ↦ h.step order move hok) inv_new
      (along_of_isPrefix hfirst hcareful)
  exact hinv.legal

/-- The types in the order of the speech engine's header. -/
def headerOrder : ResultType → ℕ
  | .inter => 0
  | .start => 1
  | .asrFinish => 2
  | .finish => 3
  | .cancelled => 4
  | .error => 5

/-- The network comes up, and `VAD_START` opens a session. -/
def opening (cloudVadEnable : Bool) : List Move :=
  [.networkStateChange true, .network true cloudVadEnable, .network true cloudVadEnable,
    .network true cloudVadEnable, .event .vadStart, .advance, .startVoice 1, .advance]

/-- Voice is put and the session is ended, with nobody in between. -/
def undisturbed : List Move :=
  opening false ++
    [.event (.vadData true), .advance, .advance, .event .vadEnd, .advance, .advance, .advance]

theorem careful_undisturbed :
    Along (step headerOrder) (Careful headerOrder) new undisturbed := by
  refine ⟨trivial, ?_, ?_, ?_, fun _ h ↦ ?_, fun _ h ↦ ?_, trivial, ?_, fun _ _ h ↦ ?_, ?_, ?_,
    fun _ _ h ↦ ?_, ?_, ?_, ?_, trivial⟩
  case refine_4 => exact (h rfl).elim
  case refine_5 => exact nomatch h
  case refine_7 => revert h; decide
  case refine_10 => revert h; decide
  all_goals exact fun h ↦ nomatch h

theorem legal_undisturbed :
    Along (step headerOrder) (Careful headerOrder) new undisturbed ∧
      Throughout (step headerOrder) (fun s ↦ Legal s.log) new undisturbed :=
  ⟨careful_undisturbed, legal_of_careful headerOrder undisturbed careful_undisturbed⟩

/-- A final result comes between the test of `VAD_DATA` and its call. -/
def overtaken : List Move :=
  opening false ++
    [.event (.vadData true), .result ⟨1, .asrFinish, 0, none⟩, .respond, .respond, .respond,
      .advance, .advance]

theorem not_legal_overtaken :
    ¬ ∀ moves, Throughout (step headerOrder) (fun s ↦ Legal s.log) new moves := by
  intro h
  have hlegal := h overtaken overtaken (List.prefix_refl _)
  have hcall := hlegal [.prepare, .clear (-1), .startVoice 1, .clear 1] (.use .putVoice (-1)) []
    (by decide) .putVoice (-1) rfl
  exact absurd hcall.1 (by decide)

end Session

end Vsys.Openvoice
