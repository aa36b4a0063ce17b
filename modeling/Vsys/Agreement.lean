import Vsys.Activation.Session
import Vsys.R2ad.Session

/-!
# Agreement of the two front ends on wake results

Both front ends listen to the same wake-word engine and tell their client about every decided wake
word: with a command (`VOICE_EVENT_LOCAL_WAKE`, `r2ad_awake_cmd`) or without one
(`VOICE_EVENT_WAKE_NOCMD`, `r2ad_awake_nocmd`).  The engine may decide a word in the frame that
opens the detection or, when it waits for silence on the right, in a later one.

`decisions` is what a client should hear.  `r2mem2` reports exactly that.  `processfrm` asks for
`PRE` in the frame of the decision, so it reports the decisions that come at once and drops the
others.
-/

namespace Vsys.Agreement

open Vsys.Activation Vsys.Audio Vsys.R2ad Vsys.Trace Vsys.Vt

/-- One result of the wake-word engine, with the word it reports at `PRE`. -/
structure Heard where
  rt : VtResult
  word : WordInfo

/-- The word of the latest detection. -/
def Heard.latched (heard : Heard) (current : Option WordInfo) : Option WordInfo :=
  if heard.rt.pre then some heard.word else current

/-- The word is a wake word. -/
def isAwake (word : Option WordInfo) : Bool := decide (word.map WordInfo.wordType = some .awake)

/-- The decisions in one result: `false` without a command, `true` with one. -/
def decisionsOf (rt : VtResult) : List Bool :=
  (if rt.detNocmd then [false] else []) ++ if rt.detCmd then [true] else []

/-- The decided wake words of a stream, in order. -/
def decisions : Option WordInfo → List Heard → List Bool
  | _, [] => []
  | current, heard :: later =>
      (if isAwake (heard.latched current) then decisionsOf heard.rt else []) ++
        decisions (heard.latched current) later

/-- Those that come in the frame of their `PRE`. -/
def promptDecisions : Option WordInfo → List Heard → List Bool
  | _, [] => []
  | current, heard :: later =>
      (if heard.rt.pre && isAwake (heard.latched current) then decisionsOf heard.rt
        else []) ++
        promptDecisions (heard.latched current) later

/-- Every wake word is decided in the frame of its `PRE`. -/
def DecidedAtOnce : Option WordInfo → List Heard → Prop
  | _, [] => True
  | current, heard :: later =>
      (heard.rt.decided = true → isAwake (heard.latched current) = true → heard.rt.pre = true) ∧
        DecidedAtOnce (heard.latched current) later

instance DecidedAtOnce.decidable :
    ∀ (current : Option WordInfo) (stream : List Heard), Decidable (DecidedAtOnce current stream)
  | _, [] => inferInstanceAs (Decidable True)
  | current, heard :: later =>
      have := DecidedAtOnce.decidable (heard.latched current) later
      inferInstanceAs (Decidable (_ ∧ _))

theorem decisionsOf_eq_nil {rt : VtResult} (h : rt.decided = false) :
    decisionsOf rt = [] := by
  simp only [VtResult.decided, Bool.or_eq_false_iff] at h
  simp [decisionsOf, h]

theorem decisionsOf_ne_nil {rt : VtResult} (h : rt.decided = true) :
    decisionsOf rt ≠ [] := by
  simp only [VtResult.decided, Bool.or_eq_true] at h
  rcases h with h | h <;> simp [decisionsOf, h]

theorem promptDecisions_length_le (current : Option WordInfo) (stream : List Heard) :
    (promptDecisions current stream).length ≤ (decisions current stream).length := by
  induction stream generalizing current with
  | nil => exact le_rfl
  | cons heard later ih =>
      rw [promptDecisions, decisions, List.length_append, List.length_append]
      refine Nat.add_le_add ?_ (ih _)
      cases heard.rt.pre <;> cases isAwake (heard.latched current) <;> simp

/-- The prompt decisions are all of them exactly if every wake word is decided at once. -/
theorem promptDecisions_eq_iff (current : Option WordInfo) (stream : List Heard) :
    promptDecisions current stream = decisions current stream ↔ DecidedAtOnce current stream := by
  induction stream generalizing current with
  | nil => simp [promptDecisions, decisions, DecidedAtOnce]
  | cons heard later ih =>
      have hle := promptDecisions_length_le (heard.latched current) later
      rw [promptDecisions, decisions, DecidedAtOnce, ← ih]
      by_cases hawake : isAwake (heard.latched current) = true
      · by_cases hpre : heard.rt.pre = true
        · simp [hawake, hpre]
        · by_cases hdecided : heard.rt.decided = true
          · -- a late decision makes the left side shorter
            refine iff_of_false ?_ fun h ↦ hpre (h.1 hdecided hawake)
            intro heq
            have hpos := List.length_pos_of_ne_nil (decisionsOf_ne_nil hdecided)
            have hlength := congrArg List.length heq
            simp only [hpre, hawake, Bool.false_and, Bool.false_eq_true, ↓reduceIte,
              List.nil_append, List.length_append] at hlength
            omega
          · rw [Bool.not_eq_true] at hdecided
            simp [hawake, hdecided, decisionsOf_eq_nil hdecided]
      · rw [Bool.not_eq_true] at hawake
        simp [hawake]

/-! ## The activation library -/

/-- The wake result an event stands for, if any. -/
def VoiceEvent.wake? : VoiceEvent → Option Bool
  | .localWake => some true
  | .wakeNocmd => some false
  | _ => none

/-- The wake results the client of the activation library has heard. -/
def wakeEvents (s : VoiceActivation) : List Bool := s.events.filterMap VoiceEvent.wake?

section Activation

variable {E : Encoder Unit} (s : VoiceActivation)

theorem wakeEvents_send (event : VoiceEvent) :
    wakeEvents (s.send event) = wakeEvents s ++ (VoiceEvent.wake? event).toList := by
  unfold wakeEvents VoiceActivation.send
  cases h : VoiceEvent.wake? event <;> simp [h]

/-- A phase that reports no wake result and keeps the latched word. -/
structure Mute (s s' : VoiceActivation) : Prop where
  wakes : wakeEvents s' = wakeEvents s
  word : s'.wordInfo = s.wordInfo

theorem Mute.trans {s s' s'' : VoiceActivation} (h : Mute s s') (h' : Mute s' s'') : Mute s s'' :=
  ⟨h'.wakes.trans h.wakes, h'.word.trans h.word⟩

theorem mute_send {event : VoiceEvent} (hevent : VoiceEvent.wake? event = none) :
    Mute s (s.send event) := by
  refine ⟨?_, rfl⟩
  rw [wakeEvents_send, hevent, Option.toList_none, List.append_nil]

theorem wakeEvents_wake (input : FrameIn) : wakeEvents (s.wake E input) = wakeEvents s := by
  unfold VoiceActivation.wake VoiceActivation.resetAsr VoiceActivation.send
  dsimp only
  split_ifs <;> simp [wakeEvents, VoiceEvent.wake?]

theorem mute_voiceOn (awake : Bool) (vad : VadResult) : Mute s (s.voiceOn E awake vad) := by
  have hinfo : ∀ t : VoiceActivation, VoiceEvent.wake? t.getVtInfo = none := by
    intro t
    unfold VoiceActivation.getVtInfo
    split <;> rfl
  unfold VoiceActivation.voiceOn
  dsimp only
  split_ifs
  · refine Mute.trans ?_ (mute_send _ (hinfo _))
    refine Mute.trans ?_ (mute_send _ rfl)
    exact ⟨rfl, rfl⟩
  · exact ⟨rfl, rfl⟩
  · exact ⟨rfl, rfl⟩

theorem mute_voiceSession (flags : VoiceActivation.WakeFlags) (vad : VadResult) :
    Mute s (s.voiceSession E flags vad) := by
  have hopen : ∀ t : VoiceActivation, Mute t (t.openSession flags) := by
    intro t
    unfold VoiceActivation.openSession VoiceActivation.send VoiceActivation.setVadFrameNum
    dsimp only
    split_ifs <;> exact ⟨by simp [wakeEvents, VoiceEvent.wake?], rfl⟩
  have hcancel : ∀ t : VoiceActivation, Mute t t.cancelSession := by
    intro t
    unfold VoiceActivation.cancelSession VoiceActivation.send VoiceActivation.setVadFrameNum
    dsimp only
    split_ifs <;> exact ⟨by simp [wakeEvents, VoiceEvent.wake?], rfl⟩
  have hresume : ∀ t : VoiceActivation, Mute t t.resumeSession := by
    intro t
    unfold VoiceActivation.resumeSession VoiceActivation.send
    dsimp only
    split_ifs <;> exact ⟨by simp [wakeEvents, VoiceEvent.wake?], rfl⟩
  have hmore : ∀ (t : VoiceActivation) (bound : ℕ), Mute t (t.sendIfMore E bound) := by
    intro t bound
    unfold VoiceActivation.sendIfMore VoiceActivation.sendData VoiceActivation.send
    dsimp only
    split_ifs <;> exact ⟨by simp [wakeEvents, VoiceEvent.wake?], rfl⟩
  have hdata : ∀ t : VoiceActivation, Mute t (t.dataSession E flags.awakePre vad.off) := by
    intro t
    unfold VoiceActivation.dataSession
    dsimp only
    split_ifs
    · exact (hmore t 100).trans (hmore _ 0)
    · exact hmore t 0
    · exact hmore t 100
    · exact ⟨rfl, rfl⟩
    · exact ⟨rfl, rfl⟩
  have hcoded : Mute s { s with cod := s.cod.process vad.data } := ⟨rfl, rfl⟩
  unfold VoiceActivation.voiceSession
  dsimp only
  split_ifs
  · exact hcoded.trans ((hopen _).trans ((hcancel _).trans ((hresume _).trans (hdata _))))
  · exact hcoded.trans (hopen _)
  · exact ⟨rfl, rfl⟩

theorem mute_voiceOff (vad : VadResult) : Mute s (s.voiceOff vad) := by
  unfold VoiceActivation.voiceOff VoiceActivation.send
  dsimp only
  split_ifs <;> exact ⟨by simp [wakeEvents, VoiceEvent.wake?], rfl⟩

/-! ### The notification -/

theorem wakeEvents_sendIf (flag : Bool) (event : VoiceEvent) :
    wakeEvents (if flag then s.send event else s) =
      wakeEvents s ++ if flag then (VoiceEvent.wake? event).toList else [] := by
  cases flag with
  | false => exact (List.append_nil _).symm
  | true => exact wakeEvents_send s event

theorem wakeEvents_setVadFrameNum (frameNum : ℤ) :
    wakeEvents (s.setVadFrameNum frameNum) = wakeEvents s := rfl

theorem wakeEvents_patience (flag : Bool) (frameNum : ℤ) :
    wakeEvents (if flag then s.setVadFrameNum frameNum else s) = wakeEvents s := by
  cases flag <;> rfl

theorem wakeEvents_notify (flags : VoiceActivation.WakeFlags) :
    wakeEvents (s.notify flags) =
      wakeEvents s ++ (if flags.awakeNocmd then [false] else []) ++
        if flags.awakeCmd then [true] else [] := by
  have hnocmd : flags.nocmd = false → flags.awakeNocmd = false := by
    intro h
    simp only [VoiceActivation.WakeFlags.nocmd, Bool.or_eq_false_iff] at h
    exact h.1.1
  have hcmd : flags.cmd = false → flags.awakeCmd = false := by
    intro h
    simp only [VoiceActivation.WakeFlags.cmd, Bool.or_eq_false_iff] at h
    exact h.1.1
  unfold VoiceActivation.notify
  cases hno : flags.nocmd with
  | false =>
      cases hdo : flags.cmd with
      | false => simp [hnocmd hno, hcmd hdo]
      | true =>
          simp only [Bool.false_eq_true, ↓reduceIte, wakeEvents_sendIf, wakeEvents_setVadFrameNum]
          simp [hnocmd hno, VoiceEvent.wake?]
  | true =>
      cases hdo : flags.cmd with
      | false =>
          simp only [Bool.false_eq_true, ↓reduceIte, wakeEvents_patience, wakeEvents_sendIf]
          simp [hcmd hdo, VoiceEvent.wake?]
      | true =>
          simp only [↓reduceIte, wakeEvents_patience, wakeEvents_sendIf, wakeEvents_setVadFrameNum]
          simp [VoiceEvent.wake?]

theorem wordInfo_notify (flags : VoiceActivation.WakeFlags) :
    (s.notify flags).wordInfo = s.wordInfo := by
  have hsend : ∀ (t : VoiceActivation) (event : VoiceEvent),
      (t.send event).wordInfo = t.wordInfo := fun _ _ ↦ rfl
  have hpatience : ∀ (t : VoiceActivation) (frameNum : ℤ),
      (t.setVadFrameNum frameNum).wordInfo = t.wordInfo := fun _ _ ↦ rfl
  simp only [VoiceActivation.notify, apply_ite VoiceActivation.wordInfo, hsend, hpatience,
    ite_self]

/-- The frame of a result. -/
def Heard.frame (heard : Heard) (input : FrameIn) : FrameIn :=
  { input with vbvResult := heard.rt, detWord := heard.word }

/-- `processfrm` reports the decisions that come with their `PRE`, and latches the word. -/
theorem wakeEvents_processfrm (heard : Heard) (hcancel : heard.rt.cancel = false)
    (input : FrameIn) :
    wakeEvents (s.processfrm E (heard.frame input)) = wakeEvents s ++
        (if heard.rt.pre && isAwake (heard.latched s.wordInfo) then decisionsOf heard.rt
          else []) ∧
      (s.processfrm E (heard.frame input)).wordInfo = heard.latched s.wordInfo := by
  have hpre : VoiceActivation.awakePre (heard.frame input) = heard.rt.pre := by
    simp [VoiceActivation.awakePre, Heard.frame, hcancel]
  have hword : (s.wake E (heard.frame input)).wordInfo = heard.latched s.wordInfo := by
    unfold VoiceActivation.wake Heard.latched
    rw [hpre]
    split_ifs <;> rfl
  have hwake := wakeEvents_wake (E := E) s (heard.frame input)
  unfold VoiceActivation.processfrm
  dsimp only
  generalize s.wake E (heard.frame input) = woken at *
  have hflags : (woken.wakeFlags (heard.frame input)).awakeNocmd =
        (heard.rt.pre && heard.rt.detNocmd && isAwake (heard.latched s.wordInfo)) ∧
      (woken.wakeFlags (heard.frame input)).awakeCmd =
        (heard.rt.pre && heard.rt.detCmd && isAwake (heard.latched s.wordInfo)) := by
    simp only [VoiceActivation.wakeFlags, VoiceActivation.isWord, hpre, hword, isAwake]
    exact ⟨rfl, rfl⟩
  generalize woken.wakeFlags (heard.frame input) = flags at *
  generalize checkVoiceActivity _ woken.front _ flags.awake = out
  have hon := mute_voiceOn (E := E) { woken with front := out.1 } flags.awake out.2
  generalize VoiceActivation.voiceOn _ _ _ _ = on at *
  have hlater := (mute_voiceSession (E := E) (on.notify flags) flags out.2).trans
    (mute_voiceOff _ out.2)
  refine ⟨?_, ?_⟩
  · rw [hlater.wakes, wakeEvents_notify, hon.wakes, hflags.1, hflags.2, ← hwake,
      List.append_assoc]
    refine congrArg (wakeEvents woken ++ ·) ?_
    cases heard.rt.pre <;> cases isAwake (heard.latched s.wordInfo) <;> simp [decisionsOf]
  · rw [hlater.word, wordInfo_notify, hon.word]
    exact hword

end Activation

/-! ## The `r2ad3` front end -/

/-- The wake result a message stands for, if any. -/
def MsgId.wake? : MsgId → Option Bool
  | .awakeCmd => some true
  | .awakeNocmd => some false
  | _ => none

/-- The wake results among messages. -/
def wakeMsgs (msgs : List Msg) : List Bool := msgs.filterMap fun msg ↦ MsgId.wake? msg.msgId

theorem wakeMsgs_append (msgs later : List Msg) :
    wakeMsgs (msgs ++ later) = wakeMsgs msgs ++ wakeMsgs later :=
  List.filterMap_append ..

section R2ad

variable {σ : Type*} {E : Encoder σ} (s : Mem2 σ)

/-- A phase that sends no wake result and leaves the wake-word engine alone. -/
structure Silent (s s' : Mem2 σ) : Prop where
  wakes : wakeMsgs s'.msgLst = wakeMsgs s.msgLst
  vbv : s'.vbv = s.vbv
  firstFrm : s'.firstFrm = s.firstFrm

theorem Silent.trans {s s' s'' : Mem2 σ} (h : Silent s s') (h' : Silent s' s'') :
    Silent s s'' :=
  ⟨h'.wakes.trans h.wakes, h'.vbv.trans h.vbv, h'.firstFrm.trans h.firstFrm⟩

theorem silent_wake (input : Mem2In) : Silent s (s.wake E input) := by
  unfold Mem2.wake Mem2.resetAsr Mem2.addMsg
  dsimp only
  split_ifs <;> exact ⟨by simp [wakeMsgs, MsgId.wake?], rfl, rfl⟩

theorem silent_voiceOn (bAsr : Bool) (flags : Mem2.WakeFlags) (vad : VadResult) :
    Silent s (s.voiceOn E bAsr flags vad) := by
  unfold Mem2.voiceOn Mem2.addMsgSl Mem2.addMsg
  dsimp only
  split_ifs <;> exact ⟨by simp [wakeMsgs, MsgId.wake?], rfl, rfl⟩

theorem silent_voiceSession (bAsr : Bool) (flags : Mem2.WakeFlags) (checkSl : Bool)
    (vad : VadResult) : Silent s (s.voiceSession E bAsr flags checkSl vad) := by
  have hopen : ∀ t : Mem2 σ, Silent t (t.openSession flags checkSl) := by
    intro t
    unfold Mem2.openSession Mem2.addMsg
    dsimp only
    split_ifs <;> exact ⟨by simp [wakeMsgs, MsgId.wake?], rfl, rfl⟩
  have hcancel : ∀ t : Mem2 σ, Silent t (t.cancelSession bAsr) := by
    intro t
    unfold Mem2.cancelSession Mem2.addMsg
    dsimp only
    split_ifs <;> exact ⟨by simp [wakeMsgs, MsgId.wake?], rfl, rfl⟩
  have hresume : ∀ t : Mem2 σ, Silent t t.resumeSession := by
    intro t
    unfold Mem2.resumeSession Mem2.addMsg
    dsimp only
    split_ifs <;> exact ⟨by simp [wakeMsgs, MsgId.wake?], rfl, rfl⟩
  have hdata : ∀ t : Mem2 σ, Silent t (t.dataSession E flags.pre vad.off) := by
    intro t
    unfold Mem2.dataSession Mem2.addIfMore Mem2.addMsgWithAudio Mem2.addMsg
    dsimp only
    split_ifs <;> exact ⟨by simp [wakeMsgs, MsgId.wake?], rfl, rfl⟩
  have hcoded : Silent s { s with cod := s.cod.process vad.data } := ⟨rfl, rfl, rfl⟩
  unfold Mem2.voiceSession
  dsimp only
  split_ifs
  · exact hcoded.trans ((hopen _).trans ((hcancel _).trans ((hresume _).trans (hdata _))))
  · exact hcoded.trans (hopen _)
  · exact ⟨rfl, rfl, rfl⟩

theorem silent_voiceOff (vad : VadResult) : Silent s (s.voiceOff E vad) := by
  unfold Mem2.voiceOff Mem2.restorePatience Mem2.addMsgWithAudio Mem2.addMsg
  dsimp only
  split_ifs <;> exact ⟨by simp [wakeMsgs, MsgId.wake?], rfl, rfl⟩

theorem wakeMsgs_addMsgSlIf (flag : Bool) (msgId : MsgId) :
    wakeMsgs (if flag then s.addMsgSl msgId else s).msgLst =
      wakeMsgs s.msgLst ++ if flag then (MsgId.wake? msgId).toList else [] := by
  cases flag with
  | false => exact (List.append_nil _).symm
  | true =>
      refine (wakeMsgs_append _ _).trans (congrArg _ ?_)
      cases msgId <;> rfl

theorem wakeMsgs_restorePatience : wakeMsgs s.restorePatience.msgLst = wakeMsgs s.msgLst := rfl

theorem wakeMsgs_notify (flags : Mem2.WakeFlags) :
    wakeMsgs (s.notify flags).msgLst =
      wakeMsgs s.msgLst ++ (if flags.awakeNoCmd then [false] else []) ++
        if flags.awakeCmd then [true] else [] := by
  have hnoCmd : flags.noCmd = false → flags.awakeNoCmd = false := by
    intro h
    simp only [Mem2.WakeFlags.noCmd, Bool.or_eq_false_iff] at h
    exact h.1.1
  have hcmd : flags.cmd = false → flags.awakeCmd = false := by
    intro h
    simp only [Mem2.WakeFlags.cmd, Bool.or_eq_false_iff] at h
    exact h.1.1
  unfold Mem2.notify
  cases hno : flags.noCmd with
  | false =>
      cases hdo : flags.cmd with
      | false => simp [hnoCmd hno, hcmd hdo]
      | true =>
          simp only [Bool.false_eq_true, ↓reduceIte, wakeMsgs_restorePatience, wakeMsgs_addMsgSlIf]
          simp [hnoCmd hno, MsgId.wake?]
  | true =>
      cases hdo : flags.cmd with
      | false =>
          simp only [Bool.false_eq_true, ↓reduceIte, wakeMsgs_restorePatience, wakeMsgs_addMsgSlIf]
          simp [hcmd hdo, MsgId.wake?]
      | true =>
          simp only [↓reduceIte, wakeMsgs_restorePatience, wakeMsgs_addMsgSlIf]
          simp [MsgId.wake?]

theorem engine_notify (flags : Mem2.WakeFlags) :
    (s.notify flags).vbv = s.vbv ∧ (s.notify flags).firstFrm = s.firstFrm := by
  have hmsg : ∀ (t : Mem2 σ) (msgId : MsgId), (t.addMsgSl msgId).vbv = t.vbv ∧
      (t.addMsgSl msgId).firstFrm = t.firstFrm := fun _ _ ↦ ⟨rfl, rfl⟩
  have hpatience : ∀ t : Mem2 σ, t.restorePatience.vbv = t.vbv ∧
      t.restorePatience.firstFrm = t.firstFrm := fun _ ↦ ⟨rfl, rfl⟩
  constructor
  · simp only [Mem2.notify, apply_ite Mem2.vbv, hmsg, hpatience, ite_self]
  · simp only [Mem2.notify, apply_ite Mem2.firstFrm, hmsg, hpatience, ite_self]

/-- The block of a result: it holds audio, and the client asks for wake words. -/
def Heard.block (heard : Heard) (input : Mem2In) : Mem2In :=
  { input with vbvResult := heard.rt, detWord := heard.word, awakeFlag := 1,
               lenIn := input.lenIn + 1, lenMul := input.lenMul + 1 }

/-- `r2mem_vbv3` between two blocks: `m_bPre` is the protocol's monitor, and the word of an open
detection is the latched one. -/
structure Latched (opened : Bool) (current : Option WordInfo) (s : Mem2 σ) : Prop where
  pre : s.vbv.pre = opened
  word : opened = true → s.vbv.wordInfo = current
  first : s.firstFrm = true → s.vbv = {}

variable {s} {opened : Bool} {current : Option WordInfo}

/-- New engines are as fresh as the ones they replace. -/
theorem Latched.prepare (h : Latched opened current s) (heard : Heard) (input : Mem2In) :
    (s.prepare (heard.block input)).vbv.pre = opened ∧
      (opened = true → (s.prepare (heard.block input)).vbv.wordInfo = current) ∧
      (s.prepare (heard.block input)).firstFrm = false ∧
      (s.prepare (heard.block input)).msgLst = s.msgLst := by
  obtain ⟨hpre, hword, hfirst⟩ := h
  have hlen : (heard.block input).lenMul > 0 := Nat.succ_pos _
  unfold Mem2.prepare
  dsimp only
  cases hf : s.firstFrm with
  | false => split_ifs <;> simp_all
  | true =>
      have hvbv : s.vbv = {} := hfirst hf
      split_ifs <;> simp_all

/-- A decision belongs to an open detection, so its word is the latched one. -/
theorem decisions_of_wakeFlags {detected : Mem2 σ} {heard : Heard}
    (hfollows : heard.rt.Follows opened) (input : Mem2In)
    (hlatched : (opened || heard.rt.pre) = true →
      detected.vbv.wordInfo = heard.latched current) :
    (if (detected.wakeFlags (heard.block input)).awakeNoCmd then [false] else []) ++
      (if (detected.wakeFlags (heard.block input)).awakeCmd then [true] else []) =
        if isAwake (heard.latched current) then decisionsOf heard.rt else [] := by
  have hrt : (heard.block input).vbvResult = heard.rt := rfl
  cases hdecided : heard.rt.decided with
  | false =>
      rw [decisionsOf_eq_nil hdecided]
      simp only [VtResult.decided, Bool.or_eq_false_iff] at hdecided
      simp [Mem2.wakeFlags, hrt, hdecided]
  | true =>
      have hawake : detected.isWord .awake = isAwake (heard.latched current) := by
        rw [Mem2.isWord, hlatched (hfollows.decided_open hdecided), isAwake]
      simp only [Mem2.wakeFlags, hawake, Heard.block, decide_true, Bool.true_and]
      cases isAwake (heard.latched current) <;> simp [decisionsOf]

/-- `ProcessData` reports every decision on a wake word, and `r2mem_vbv3` latches the word. -/
theorem Latched.processBlock (h : Latched opened current s) {heard : Heard}
    (hfollows : heard.rt.Follows opened) (input : Mem2In) :
    wakeMsgs (s.processBlock E (heard.block input)).msgLst = wakeMsgs s.msgLst ++
        (if isAwake (heard.latched current) then decisionsOf heard.rt else []) ∧
      Latched (heard.rt.next opened) (heard.latched current)
        (s.processBlock E (heard.block input)) := by
  obtain ⟨hpre, hword, hfirst, hmsgs⟩ := h.prepare heard input
  unfold Mem2.processBlock
  dsimp only
  generalize s.prepare (heard.block input) = prepared at *
  obtain ⟨hnext, -⟩ := prepared.vbv.process_of_follows (hpre ▸ hfollows) heard.word
    (heard.block input).detInfo
  have hinfo := prepared.vbv.process_wordInfo heard.rt heard.word (heard.block input).detInfo
  have hdetect : (prepared.detect (heard.block input)).vbv =
      prepared.vbv.process heard.rt heard.word (heard.block input).detInfo := rfl
  have hdetmsgs : (prepared.detect (heard.block input)).msgLst = prepared.msgLst := rfl
  have hdetfirst : (prepared.detect (heard.block input)).firstFrm = prepared.firstFrm := rfl
  generalize prepared.detect (heard.block input) = detected at *
  have hlatched : (opened || heard.rt.pre) = true →
      detected.vbv.wordInfo = heard.latched current := by
    intro hopen
    rw [hdetect, hinfo, hpre, Heard.latched]
    cases hp : heard.rt.pre with
    | true => rfl
    | false =>
        rw [hp, Bool.or_false] at hopen
        simp [hopen, hword hopen]
  have hflags := decisions_of_wakeFlags hfollows input hlatched
  generalize detected.wakeFlags (heard.block input) = flags at *
  have hwake : Silent detected (detected.wake E (heard.block input)) := silent_wake ..
  generalize detected.wake E (heard.block input) = woken at *
  generalize woken.vad2.process _ _ flags.pre = out
  have hvad : Silent woken { woken with vad2 := out.1 } := ⟨rfl, rfl, rfl⟩
  have hbefore := hwake.trans (hvad.trans (silent_voiceOn (E := E) _
    (decide ((heard.block input).asrFlag = 1)) flags out.2))
  generalize Mem2.voiceOn E _ _ flags out.2 = started at *
  have hnotify := wakeMsgs_notify started flags
  obtain ⟨hvbv, hfirst'⟩ := engine_notify started flags
  have hafter := (silent_voiceSession (E := E) (started.notify flags)
    (decide ((heard.block input).asrFlag = 1)) flags (heard.block input).checkSl out.2).trans
    (silent_voiceOff (E := E) _ out.2)
  have hvbv' := hafter.vbv.trans (hvbv.trans (hbefore.vbv.trans hdetect))
  refine ⟨?_, ?_, ?_, ?_⟩
  · rw [hafter.wakes, hnotify, hbefore.wakes, hdetmsgs, hmsgs, List.append_assoc, hflags]
  · rw [hvbv', hnext, hpre]
  · intro hopen
    rw [hvbv', ← hdetect]
    apply hlatched
    simp only [VtResult.next, Bool.and_eq_true] at hopen
    exact hopen.1
  · intro hfirstTrue
    rw [hafter.firstFrm, hfirst', hbefore.firstFrm, hdetfirst, hfirst] at hfirstTrue
    cases hfirstTrue

theorem Latched.process {c : Client σ} (h : Latched opened current c.mem) {heard : Heard}
    (hfollows : heard.rt.Follows opened) (input : Mem2In) :
    wakeMsgs (c.step E (.process (heard.block input))).sent = wakeMsgs c.sent ++
        (if isAwake (heard.latched current) then decisionsOf heard.rt else []) ∧
      Latched (heard.rt.next opened) (heard.latched current)
        (c.step E (.process (heard.block input))).mem := by
  have hcleared : Latched opened current c.mem.clearMsgLst := ⟨h.pre, h.word, h.first⟩
  obtain ⟨hwakes, hlatched⟩ := hcleared.processBlock (E := E) hfollows input
  have hdata : c.mem.processData E (heard.block input) =
      c.mem.clearMsgLst.processBlock E (heard.block input) := by
    unfold Mem2.processData
    exact if_neg (Nat.succ_ne_zero input.lenIn)
  simp only [Client.step, Mem2.getMsgLst, hdata]
  generalize c.mem.clearMsgLst.processBlock E (heard.block input) = m at *
  obtain ⟨flag, held, hform⟩ := Mem2.foldl_printMsgInfo_eq m.msgLst m
  refine ⟨?_, ?_⟩
  · rw [wakeMsgs_append, hwakes]
    rfl
  · rw [hform]
    exact ⟨hlatched.pre, hlatched.word, hlatched.first⟩

end R2ad

/-! ## Both front ends on one stream -/

/-- One result of the engine as both front ends meet it: the calls of `control` before the frame,
and whatever else goes into the frame and into the block. -/
structure Turn where
  heard : Heard
  actions : List Action
  frame : FrameIn
  block : Mem2In

/-- What happens to the activation library. -/
def Turn.activationOps (turn : Turn) : List VoiceActivation.Op :=
  turn.actions.map .control ++ [.frame (turn.heard.frame turn.frame)]

/-- What happens to `r2mem2`. -/
def Turn.r2adOp (turn : Turn) : Client.Op := .process (turn.heard.block turn.block)

/-- The wake results sent by the activation library. -/
def activationWakes (E : Encoder Unit) (vadEnable : Bool) (turns : List Turn) : List Bool :=
  wakeEvents (run (VoiceActivation.step E) (VoiceActivation.create E vadEnable)
    (turns.flatMap Turn.activationOps))

/-- The wake results sent by `r2mem2`. -/
def r2adWakes {σ : Type*} (E : Encoder σ) (turns : List Turn) : List Bool :=
  wakeMsgs (run (Client.step E) (Client.create E) (turns.map Turn.r2adOp)).sent

/-- `control` sends nothing and does not touch the word. -/
theorem wakeEvents_run_control (E : Encoder Unit) (actions : List Action) (s : VoiceActivation) :
    wakeEvents (run (VoiceActivation.step E) s (actions.map .control)) = wakeEvents s ∧
      (run (VoiceActivation.step E) s (actions.map .control)).wordInfo = s.wordInfo := by
  induction actions generalizing s with
  | nil => exact ⟨rfl, rfl⟩
  | cons action actions ih =>
      obtain ⟨hwakes, hword⟩ := ih (s.control action).1
      rw [List.map_cons, run_cons]
      refine ⟨hwakes.trans ?_, hword.trans ?_⟩ <;> cases action <;> rfl

/-- The activation library reports the prompt decisions. -/
theorem wakeEvents_run (E : Encoder Unit) (turns : List Turn) (s : VoiceActivation)
    (hcancel : ∀ turn ∈ turns, turn.heard.rt.cancel = false) :
    wakeEvents (run (VoiceActivation.step E) s (turns.flatMap Turn.activationOps)) =
      wakeEvents s ++ promptDecisions s.wordInfo (turns.map Turn.heard) := by
  induction turns generalizing s with
  | nil => simp [promptDecisions]
  | cons turn turns ih =>
      obtain ⟨hcontrol, hsame⟩ := wakeEvents_run_control E turn.actions s
      rw [List.flatMap_cons, run_append, Turn.activationOps, run_append]
      generalize run (VoiceActivation.step E) s (turn.actions.map .control) = waiting at *
      obtain ⟨hwakes, hword⟩ := wakeEvents_processfrm (E := E) waiting turn.heard
        (hcancel turn List.mem_cons_self) turn.frame
      rw [run_cons, run_nil, VoiceActivation.step,
        ih _ fun later hlater ↦ hcancel later (List.mem_cons_of_mem _ hlater),
        hwakes, hword, hsame, hcontrol, List.map_cons, promptDecisions, List.append_assoc]

/-- `r2mem2` reports the decisions. -/
theorem wakeMsgs_run {σ : Type*} (E : Encoder σ) (turns : List Turn) {c : Client σ}
    {opened : Bool} {current : Option WordInfo} (h : Latched opened current c.mem)
    (hprotocol : Protocol opened (turns.map fun turn ↦ turn.heard.rt)) :
    wakeMsgs (run (Client.step E) c (turns.map Turn.r2adOp)).sent =
      wakeMsgs c.sent ++ decisions current (turns.map Turn.heard) := by
  induction turns generalizing c opened current with
  | nil => simp [decisions]
  | cons turn turns ih =>
      obtain ⟨hwakes, hlatched⟩ := h.process (E := E) hprotocol.1 turn.block
      rw [List.map_cons, run_cons, Turn.r2adOp, ih hlatched hprotocol.2, hwakes, List.map_cons,
        decisions, List.append_assoc]

theorem cancel_of_protocol {opened : Bool} {rts : List VtResult} (h : Protocol opened rts) :
    ∀ rt ∈ rts, rt.cancel = false := by
  induction rts generalizing opened with
  | nil => simp
  | cons rt rts ih =>
      intro later hlater
      rcases List.mem_cons.mp hlater with rfl | hlater
      · exact h.1.no_cancel
      · exact ih h.2 later hlater

/-- **Agreement on wake results.** On every stream of results that follows the detection protocol
`r2mem2` reports each decided wake word exactly once, and the activation library does so if and
only if every wake word is decided in the frame of its `PRE`. -/
theorem wakes_of_protocol {σ : Type*} (E : Encoder Unit) (E' : Encoder σ) (vadEnable : Bool)
    (turns : List Turn) (hprotocol : Protocol false (turns.map fun turn ↦ turn.heard.rt)) :
    r2adWakes E' turns = decisions none (turns.map Turn.heard) ∧
      (activationWakes E vadEnable turns = decisions none (turns.map Turn.heard) ↔
        DecidedAtOnce none (turns.map Turn.heard)) := by
  refine ⟨wakeMsgs_run E' turns ⟨rfl, (nomatch ·), fun _ ↦ rfl⟩ hprotocol, ?_⟩
  have hcancel : ∀ turn ∈ turns, turn.heard.rt.cancel = false :=
    fun turn hturn ↦ cancel_of_protocol hprotocol _ (List.mem_map_of_mem hturn)
  have hrun : activationWakes E vadEnable turns =
      promptDecisions none (turns.map Turn.heard) :=
    wakeEvents_run E turns _ hcancel
  rw [hrun]
  exact promptDecisions_eq_iff none (turns.map Turn.heard)

/-- A turn in which the engine reports `rt` for a wake word. -/
def plainTurn (rt : VtResult) : Turn where
  heard := ⟨rt, VoiceActivation.plainFrame.detWord⟩
  actions := []
  frame := VoiceActivation.plainFrame
  block := Client.plainBlock

/-- A wake word decided at once, with a command: both front ends report it. -/
theorem wakes_of_protocol_prompt :
    Protocol false [{ pre := true, det := true, detCmd := true }] ∧
      r2adWakes (Encoder.pcm16 32768)
        [plainTurn { pre := true, det := true, detCmd := true }] = [true] ∧
      activationWakes (Encoder.pcm16 32768) true
        [plainTurn { pre := true, det := true, detCmd := true }] = [true] := by
  have hprotocol : Protocol false [{ pre := true, det := true, detCmd := true }] :=
    ⟨by decide, trivial⟩
  obtain ⟨hr2ad, hactivation⟩ := wakes_of_protocol (Encoder.pcm16 32768) (Encoder.pcm16 32768)
    true [plainTurn { pre := true, det := true, detCmd := true }] hprotocol
  exact ⟨hprotocol, hr2ad, hactivation.mpr (by decide)⟩

/-- A wake word decided one frame after its `PRE`: `r2mem2` reports it and the activation library
does not. -/
theorem not_activationWakes_late :
    Protocol false [{ pre := true, det := true }, { detCmd := true }] ∧
      r2adWakes (Encoder.pcm16 32768)
        [plainTurn { pre := true, det := true }, plainTurn { detCmd := true }] = [true] ∧
      activationWakes (Encoder.pcm16 32768) true
        [plainTurn { pre := true, det := true }, plainTurn { detCmd := true }] ≠ [true] :=
  ⟨⟨by decide, by decide, trivial⟩, by decide +kernel, by decide +kernel⟩

end Vsys.Agreement
