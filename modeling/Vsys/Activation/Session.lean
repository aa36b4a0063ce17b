import Vsys.Activation.Frame
import Vsys.Trace.Run

/-!
# Sessions of the activation library

With voice detection enabled, the `VAD_START`, `VAD_DATA`, `VAD_END` and `VAD_CANCEL` events of a
run should be sessions: a start, data, and an end or a cancel.  `SessionInv` ties the flags of the
machine to the verdict of the session monitor; every phase of `processfrm` keeps it except
`reset_asr`, which reports a cancel for a session that was canceled before.

`isSessionPrefix_run_iff` says that this is the only way a run can go wrong.
-/

namespace Vsys.Activation

open Vsys.Audio Vsys.Trace Vsys.Vt

namespace VoiceActivation

/-- The session events sent so far. -/
def sessionEvents (s : VoiceActivation) : List SessionEvent :=
  s.events.filterMap VoiceEvent.session?

/-- The session monitor's verdict on the events sent so far. -/
def verdict (s : VoiceActivation) : Option Bool := track s.sessionEvents

/-- The monitor only looks at the events. -/
theorem verdict_congr {s s' : VoiceActivation} (h : s.events = s'.events) :
    s.verdict = s'.verdict := by
  unfold verdict sessionEvents
  rw [h]

/-- A session event advances the monitor. -/
theorem verdict_send {s s' : VoiceActivation} (h : s'.events = s.events) {event : VoiceEvent}
    {e : SessionEvent} (he : event.session? = some e) :
    (s'.send event).verdict = advance s.verdict e := by
  unfold verdict sessionEvents send
  rw [h, List.filterMap_append, List.filterMap_cons_some he, List.filterMap_nil,
    track_append_singleton]

/-- Every other event leaves it alone. -/
theorem verdict_send_other {s : VoiceActivation} {event : VoiceEvent}
    (he : event.session? = none) : (s.send event).verdict = s.verdict := by
  unfold verdict sessionEvents send
  rw [List.filterMap_append, List.filterMap_cons_none he, List.filterMap_nil, List.append_nil]

/-- The invariant between the phases of a frame, with voice detection enabled. -/
structure SessionInv (s : VoiceActivation) : Prop where
  vadEnable : s.vadEnable = true
  verdict_eq : s.verdict = some (s.dataOutput && !s.canceled)
  output_on : s.dataOutput = true → s.vadFlag.on = true
  fresh : s.vadFlag.on = true → s.dataOutput = false → s.canceled = false
  paused : s.cod.paused = true → s.canceled = true
  assertsHeld : s.cod.assertsHeld = true

/-- A phase that keeps the invariant and touches neither `vad_flag` nor `has_vad`. -/
structure Keeps (s s' : VoiceActivation) : Prop where
  inv : SessionInv s'
  flag : s'.vadFlag.on = s.vadFlag.on
  vad : s'.front.hasVad = s.front.hasVad

section Phases

variable {E : Encoder Unit} {s : VoiceActivation}

theorem SessionInv.openSession (h : SessionInv s) (hon : s.vadFlag.on = true)
    (flags : WakeFlags) : Keeps s (s.openSession flags) := by
  have hsame : Keeps s s := ⟨h, rfl, rfl⟩
  obtain ⟨henable, hverdict, hout, hfresh, hpaused, hasserts⟩ := h
  unfold VoiceActivation.openSession
  by_cases hidle : s.dataOutput = true
  · simpa only [hidle, Bool.not_true, Bool.false_eq_true, ↓reduceIte] using hsame
  rw [Bool.not_eq_true] at hidle
  have hcanceled : s.canceled = false := hfresh hon hidle
  have hstart : advance s.verdict .start = some (true && !s.canceled) := by
    rw [hverdict, hidle, hcanceled]
    rfl
  simp only [hidle, henable, Bool.not_false, Bool.not_true, Bool.false_eq_true, ↓reduceIte]
  split_ifs with hword hcmd hasr
  · -- a command opens a session
    refine ⟨⟨rfl, ?_, fun _ ↦ hon, fun _ hout ↦ ?_, hpaused, hasserts⟩, rfl, rfl⟩
    · exact (verdict_send rfl rfl).trans hstart
    · cases hout
  · -- a word without command begins one that is canceled
    refine ⟨⟨rfl, ?_, fun _ ↦ hon, fun _ hout ↦ ?_, fun _ ↦ rfl, hasserts⟩, rfl, rfl⟩
    · rw [hidle] at hverdict
      exact hverdict
    · cases hout
  · -- speech while the client listens opens a session
    refine ⟨⟨rfl, ?_, fun _ ↦ hon, fun _ hout ↦ ?_, hpaused, hasserts⟩, rfl, rfl⟩
    · exact (verdict_send rfl rfl).trans hstart
    · cases hout
  · exact hsame

theorem SessionInv.cancelSession (h : SessionInv s) (hout : s.dataOutput = true) :
    Keeps s s.cancelSession ∧ s.cancelSession.dataOutput = true := by
  have hsame : Keeps s s ∧ s.dataOutput = true := ⟨⟨h, rfl, rfl⟩, hout⟩
  obtain ⟨henable, hverdict, honout, hfresh, hpaused, hasserts⟩ := h
  unfold VoiceActivation.cancelSession
  by_cases hcanceled : s.canceled = true
  · simpa only [hcanceled, Bool.not_true, Bool.false_eq_true, ↓reduceIte] using hsame
  rw [Bool.not_eq_true] at hcanceled
  have hcancel : advance s.verdict .cancel = some (s.dataOutput && !true) := by
    rw [hverdict, hout, hcanceled]
    rfl
  have hdone : ∀ s' : VoiceActivation, s' = { s with canceled := true } →
      Keeps s (({ s' with cod := s'.cod.pause } : VoiceActivation).send .vadCancel) ∧
        (({ s' with cod := s'.cod.pause } : VoiceActivation).send .vadCancel).dataOutput =
          true := by
    rintro s' rfl
    refine ⟨⟨⟨henable, ?_, honout, fun _ h ↦ ?_, fun _ ↦ rfl, hasserts⟩, rfl, rfl⟩, hout⟩
    · exact (verdict_send rfl rfl).trans hcancel
    · exact absurd (hout.symm.trans h) (by decide)
  simp only [hcanceled, henable, Bool.not_false, Bool.true_and, ↓reduceIte]
  split_ifs <;> first | exact hdone _ rfl | exact hsame | simp_all

theorem SessionInv.resumeSession (h : SessionInv s) (hout : s.dataOutput = true) :
    Keeps s s.resumeSession ∧ s.resumeSession.dataOutput = true := by
  have hsame : Keeps s s ∧ s.dataOutput = true := ⟨⟨h, rfl, rfl⟩, hout⟩
  obtain ⟨henable, hverdict, honout, hfresh, hpaused, hasserts⟩ := h
  unfold VoiceActivation.resumeSession
  split_ifs with hcanceled hresume
  · have hcanceled : s.canceled = true := by
      simp only [Bool.and_eq_true] at hcanceled
      exact hcanceled.1.2
    have hpaused : s.cod.paused = true := by
      simp only [Cod.isNeedResume, Bool.and_eq_true] at hresume
      exact hresume.1.1
    refine ⟨⟨⟨henable, ?_, honout, fun _ _ ↦ rfl, fun h ↦ ?_, ?_⟩, rfl, rfl⟩, hout⟩
    · refine (verdict_send rfl rfl).trans ?_
      change advance s.verdict .start = some (s.dataOutput && !false)
      rw [hverdict, hout, hcanceled]
      rfl
    · cases h
    · change (s.cod.assertsHeld && s.cod.paused) = true
      rw [hasserts, hpaused]
      rfl
  · exact hsame
  · exact hsame

/-- Fetching bytes from a running coder. -/
theorem SessionInv.sendIfMore (h : SessionInv s) (hout : s.dataOutput = true)
    (hcanceled : s.canceled = false) (bound : ℕ) :
    Keeps s (s.sendIfMore E bound) ∧ (s.sendIfMore E bound).dataOutput = true ∧
      (s.sendIfMore E bound).canceled = false := by
  obtain ⟨henable, hverdict, honout, hfresh, hpaused, hasserts⟩ := h
  have hrunning : s.cod.paused = false := by
    by_contra hp
    rw [Bool.not_eq_false] at hp
    exact absurd ((hpaused hp).symm.trans hcanceled) (by decide)
  have hdata : advance s.verdict .data = some (s.dataOutput && !s.canceled) := by
    rw [hverdict, hout, hcanceled]
    rfl
  unfold VoiceActivation.sendIfMore
  dsimp only
  split_ifs
  · refine ⟨⟨⟨henable, ?_, honout, hfresh, ?_, ?_⟩, rfl, rfl⟩, hout, hcanceled⟩
    · exact (verdict_send rfl rfl).trans hdata
    · intro hp
      simp [VoiceActivation.sendData, send, hrunning] at hp
    · simp [VoiceActivation.sendData, send, hrunning, hasserts]
  · refine ⟨⟨⟨henable, hverdict, honout, hfresh, ?_, ?_⟩, rfl, rfl⟩, hout, hcanceled⟩
    · simp [hrunning]
    · simp [hrunning, hasserts]

theorem Keeps.refl (h : SessionInv s) : Keeps s s := ⟨h, rfl, rfl⟩

theorem Keeps.trans {s' s'' : VoiceActivation} (h : Keeps s s') (h' : Keeps s' s'') :
    Keeps s s'' :=
  ⟨h'.inv, h'.flag.trans h.flag, h'.vad.trans h.vad⟩

theorem SessionInv.dataSession (h : SessionInv s) (hout : s.dataOutput = true)
    (awakePre vadOff : Bool) : Keeps s (s.dataSession E awakePre vadOff) := by
  unfold VoiceActivation.dataSession
  by_cases hcanceled : s.canceled = true
  · simpa only [hcanceled, Bool.not_true, Bool.false_eq_true, ↓reduceIte] using Keeps.refl h
  rw [Bool.not_eq_true] at hcanceled
  simp only [hcanceled, Bool.not_false, ↓reduceIte]
  have hfirst : ∃ t, t = (if !awakePre then s.sendIfMore E 100 else s) ∧ Keeps s t ∧
      t.dataOutput = true ∧ t.canceled = false := by
    refine ⟨_, rfl, ?_⟩
    split_ifs
    · exact h.sendIfMore hout hcanceled 100
    · exact ⟨Keeps.refl h, hout, hcanceled⟩
  obtain ⟨t, ht, hkeeps, hout', hcanceled'⟩ := hfirst
  rw [← ht]
  split_ifs
  · exact hkeeps.trans (hkeeps.inv.sendIfMore hout' hcanceled' 0).1
  · exact hkeeps

/-- More samples for the coder do not matter to the invariant. -/
theorem SessionInv.process (h : SessionInv s) (data : List ℚ) :
    Keeps s { s with cod := s.cod.process data } :=
  ⟨⟨h.vadEnable, h.verdict_eq, h.output_on, h.fresh, h.paused, h.assertsHeld⟩, rfl, rfl⟩

theorem SessionInv.voiceSession (h : SessionInv s) (flags : WakeFlags) (vad : VadResult) :
    Keeps s (s.voiceSession E flags vad) := by
  unfold VoiceActivation.voiceSession
  split_ifs with hon
  · have hprocess := h.process vad.data
    have hopen := hprocess.inv.openSession hon flags
    have hkeeps := hprocess.trans hopen
    dsimp only
    split_ifs with hout
    · obtain ⟨hcancel, hout'⟩ := hkeeps.inv.cancelSession hout
      obtain ⟨hresume, hout''⟩ := hcancel.inv.resumeSession hout'
      exact ((hkeeps.trans hcancel).trans hresume).trans
        (hresume.inv.dataSession hout'' flags.awakePre vad.off)
    · exact hkeeps
  · exact Keeps.refl h

/-- An event without a session meaning. -/
theorem SessionInv.send (h : SessionInv s) (event : VoiceEvent) (he : event.session? = none) :
    Keeps s (s.send event) :=
  ⟨⟨h.vadEnable, (verdict_send_other he).trans h.verdict_eq, h.output_on, h.fresh, h.paused,
    h.assertsHeld⟩, rfl, rfl⟩

theorem SessionInv.setVadFrameNum (h : SessionInv s) (frameNum : ℤ) :
    Keeps s (s.setVadFrameNum frameNum) :=
  ⟨⟨h.vadEnable, h.verdict_eq, h.output_on, h.fresh, h.paused, h.assertsHeld⟩, rfl, rfl⟩

/-- One of two phases. -/
theorem Keeps.ite {t u : VoiceActivation} (c : Prop) [Decidable c] (ht : Keeps s t)
    (hu : Keeps s u) : Keeps s (if c then t else u) := by
  split_ifs
  · exact ht
  · exact hu

/-- An event that is sent on a condition. -/
theorem Keeps.sendIf {t : VoiceActivation} (h : Keeps s t) (c : Bool) (event : VoiceEvent)
    (he : event.session? = none) : Keeps s (if c then t.send event else t) :=
  Keeps.ite _ (h.trans (h.inv.send event he)) h

theorem SessionInv.notify (h : SessionInv s) (flags : WakeFlags) : Keeps s (s.notify flags) := by
  have hpatience : ∀ {t : VoiceActivation} (frameNum : ℤ), Keeps s t →
      Keeps s (t.setVadFrameNum frameNum) :=
    fun frameNum ht ↦ ht.trans (ht.inv.setVadFrameNum frameNum)
  have hsends := (((Keeps.refl h).sendIf flags.sleepNocmd .localSleep rfl).sendIf
    flags.awakeNocmd .wakeNocmd rfl).sendIf flags.hotwordNocmd .hotword rfl
  have hnocmd := Keeps.ite (flags.nocmd = true) (Keeps.ite ((!flags.sleepNocmd) = true)
    (hpatience (if s.vadEnable = true then -1 else 2000) hsends) hsends) (Keeps.refl h)
  exact Keeps.ite (flags.cmd = true) ((hpatience _ hnocmd).sendIf flags.awakeCmd .localWake rfl)
    hnocmd

theorem getVtInfo_session (s : VoiceActivation) : s.getVtInfo.session? = none := by
  unfold getVtInfo
  split <;> rfl

/-- A voice start comes with no session open. -/
theorem SessionInv.voiceOn (h : SessionInv s) (awake : Bool) (vad : VadResult)
    (hfresh : vad.on = true → s.vadFlag.on = false) :
    SessionInv (s.voiceOn E awake vad) ∧
      (s.voiceOn E awake vad).vadFlag.on = (s.vadFlag.on || vad.on) ∧
      (s.voiceOn E awake vad).front.hasVad = s.front.hasVad := by
  unfold VoiceActivation.voiceOn
  by_cases hon : vad.on = true
  · have hclosed : s.dataOutput = false := by
      by_contra hout
      rw [Bool.not_eq_false] at hout
      exact absurd ((h.output_on hout).symm.trans (hfresh hon)) (by decide)
    have hverdict : s.verdict = some false := by
      rw [h.verdict_eq, hclosed]
      rfl
    have hbase : ∀ awaked needAsr, SessionInv { s with
        vadFlag := { on := vad.on, off := vad.off }, awaked := awaked, canceled := false,
        dataOutput := false, cod := s.cod.reset E, needAsr := needAsr } :=
      fun _ _ ↦ ⟨h.vadEnable, hverdict, (nomatch ·), fun _ _ ↦ rfl, (nomatch ·), h.assertsHeld⟩
    have hflag : vad.on = (s.vadFlag.on || vad.on) := by
      rw [hon, Bool.or_true]
    rw [if_pos hon]
    dsimp only
    cases awake with
    | false => exact ⟨hbase false s.needAsr, hflag, rfl⟩
    | true =>
        have hcoming := (hbase true true).send (.vadComing s.getSlInfo) rfl
        exact ⟨(hcoming.inv.send _ (getVtInfo_session _)).inv, hflag, rfl⟩
  · rw [if_neg hon]
    rw [Bool.not_eq_true] at hon
    exact ⟨h, by rw [hon, Bool.or_false], rfl⟩

/-- A voice stop closes the session. -/
theorem SessionInv.voiceOff (h : SessionInv s) (vad : VadResult) :
    SessionInv (s.voiceOff vad) ∧
      (s.voiceOff vad).vadFlag.on = (s.vadFlag.on && !vad.off) ∧
      (s.voiceOff vad).front.hasVad = s.front.hasVad := by
  obtain ⟨henable, hverdict, hout, hfresh, hpaused, hasserts⟩ := h
  unfold VoiceActivation.voiceOff
  by_cases hoff : vad.off = true
  · simp only [hoff, henable, Bool.true_and, Bool.not_true, Bool.and_false, ↓reduceIte]
    split_ifs with hopen
    · refine ⟨⟨rfl, ?_, (nomatch ·), (nomatch ·), hpaused, hasserts⟩, rfl, rfl⟩
      refine (verdict_congr rfl).trans ((verdict_send (s := s) rfl rfl).trans ?_)
      rw [hverdict, hopen]
      rfl
    · rw [Bool.not_eq_true] at hopen
      rw [hopen] at hverdict
      exact ⟨⟨rfl, hverdict, (nomatch ·), (nomatch ·), hpaused, hasserts⟩, rfl, rfl⟩
  · rw [if_neg hoff]
    rw [Bool.not_eq_true] at hoff
    exact ⟨⟨henable, hverdict, hout, hfresh, hpaused, hasserts⟩,
      by rw [hoff, Bool.not_false, Bool.and_true], rfl⟩

/-- What `reset_asr` leaves, with voice detection enabled. -/
structure IsReset (s s' : VoiceActivation) : Prop where
  vadEnable : s'.vadEnable = true
  dataOutput : s'.dataOutput = false
  canceled : s'.canceled = false
  flag : s'.vadFlag.on = false
  vad : s'.front.hasVad = false
  paused : s'.cod.paused = false
  assertsHeld : s'.cod.assertsHeld = s.cod.assertsHeld
  verdict : s'.verdict = if s.dataOutput then advance s.verdict .cancel else s.verdict

theorem isReset_resetAsr (henable : s.vadEnable = true) : IsReset s (resetAsr E s) := by
  let cleared : VoiceActivation :=
    { s with vadFlag := {}, awaked := false, canceled := false, needAsr := false,
             front := s.front.vadReset, cod := s.cod.reset E }
  cases hout : s.dataOutput with
  | false =>
      have hform : resetAsr E s = { cleared with dataOutput := false } := by
        simp [resetAsr, henable, hout, cleared]
      rw [hform]
      refine ⟨henable, rfl, rfl, rfl, rfl, rfl, rfl, ?_⟩
      rw [hout]
      rfl
  | true =>
      have hform : resetAsr E s = { cleared.send .vadCancel with dataOutput := false } := by
        simp [resetAsr, send, henable, hout, cleared]
      rw [hform]
      refine ⟨henable, rfl, rfl, rfl, rfl, rfl, rfl, ?_⟩
      rw [hout]
      have hsent : (cleared.send .vadCancel).verdict = advance s.verdict .cancel :=
        verdict_send rfl rfl
      exact hsent

/-- A wake word resets a machine whose session, if any, is still open. -/
theorem SessionInv.wake (h : SessionInv s) (hvad : s.vadFlag.on = s.front.hasVad)
    {input : FrameIn} (hok : ¬ (awakePre input = true ∧ s.dataOutput = true ∧ s.canceled = true)) :
    SessionInv (s.wake E input) ∧ (s.wake E input).vadFlag.on = (s.wake E input).front.hasVad := by
  unfold VoiceActivation.wake
  by_cases hpre : awakePre input = true
  · have hreset : IsReset s (resetAsr E s) := isReset_resetAsr h.vadEnable
    have hverdict : (resetAsr E s).verdict = some false := by
      rw [hreset.verdict, h.verdict_eq]
      cases hout : s.dataOutput with
      | false => rfl
      | true =>
          have hcanceled : s.canceled = false := by
            by_contra hc
            exact hok ⟨hpre, hout, (Bool.not_eq_false _).mp hc⟩
          rw [hcanceled]
          rfl
    rw [if_pos hpre]
    refine ⟨⟨hreset.vadEnable, ?_, ?_, ?_, ?_, ?_⟩, hreset.flag.trans hreset.vad.symm⟩
    · rw [hreset.dataOutput]
      exact hverdict
    · exact fun hout ↦ absurd (hreset.dataOutput.symm.trans hout) (by decide)
    · exact fun _ _ ↦ hreset.canceled
    · exact fun hp ↦ absurd (hreset.paused.symm.trans hp) (by decide)
    · exact hreset.assertsHeld.trans h.assertsHeld
  · rw [if_neg hpre]
    exact ⟨h, hvad⟩

/-- A wake word during a canceled session makes `reset_asr` cancel it again. -/
theorem SessionInv.verdict_wake (h : SessionInv s) {input : FrameIn}
    (hpre : awakePre input = true) (hout : s.dataOutput = true) (hcanceled : s.canceled = true) :
    (s.wake E input).verdict = none := by
  have hreset : IsReset s (resetAsr E s) := isReset_resetAsr h.vadEnable
  unfold VoiceActivation.wake
  rw [if_pos hpre]
  refine (verdict_congr rfl).trans (hreset.verdict.trans ?_)
  rw [h.verdict_eq, hout, hcanceled]
  rfl

end Phases

/-! ## Events are only ever added -/

section Extends

variable {E : Encoder Unit}

theorem events_sendIfMore (s : VoiceActivation) (bound : ℕ) :
    s.events <+: (s.sendIfMore E bound).events := by
  unfold sendIfMore sendData send
  dsimp only
  split_ifs <;> simp

theorem events_wake (s : VoiceActivation) (input : FrameIn) :
    s.events <+: (s.wake E input).events := by
  unfold wake resetAsr send
  dsimp only
  split_ifs <;> simp

theorem events_voiceOn (s : VoiceActivation) (awake : Bool) (vad : VadResult) :
    s.events <+: (s.voiceOn E awake vad).events := by
  unfold voiceOn send
  dsimp only
  split_ifs <;> simp

theorem events_ite {s t u : VoiceActivation} (c : Prop) [Decidable c] (ht : s.events <+: t.events)
    (hu : s.events <+: u.events) : s.events <+: (if c then t else u).events := by
  split_ifs
  · exact ht
  · exact hu

theorem events_sendIf {s t : VoiceActivation} (h : s.events <+: t.events) (c : Bool)
    (event : VoiceEvent) : s.events <+: (if c then t.send event else t).events :=
  events_ite _ (h.trans (List.prefix_append _ _)) h

theorem events_notify (s : VoiceActivation) (flags : WakeFlags) :
    s.events <+: (s.notify flags).events := by
  have hsends := events_sendIf (events_sendIf (events_sendIf (List.prefix_refl s.events)
    flags.sleepNocmd .localSleep) flags.awakeNocmd .wakeNocmd) flags.hotwordNocmd .hotword
  have hpatience : ∀ {t : VoiceActivation} (frameNum : ℤ), s.events <+: t.events →
      s.events <+: (t.setVadFrameNum frameNum).events := fun _ ht ↦ ht
  have hnocmd := events_ite (flags.nocmd = true) (events_ite ((!flags.sleepNocmd) = true)
    (hpatience (if s.vadEnable then -1 else 2000) hsends) hsends) (List.prefix_refl s.events)
  exact events_ite (flags.cmd = true)
    (events_sendIf (hpatience (if s.vadEnable then -1 else 2000) hnocmd) flags.awakeCmd .localWake)
    hnocmd

theorem events_voiceSession (s : VoiceActivation) (flags : WakeFlags) (vad : VadResult) :
    s.events <+: (s.voiceSession E flags vad).events := by
  have hopen : ∀ t : VoiceActivation, t.events <+: (t.openSession flags).events := by
    intro t
    unfold openSession send setVadFrameNum
    dsimp only
    split_ifs <;> simp
  have hcancel : ∀ t : VoiceActivation, t.events <+: t.cancelSession.events := by
    intro t
    unfold cancelSession send setVadFrameNum
    dsimp only
    split_ifs <;> simp
  have hresume : ∀ t : VoiceActivation, t.events <+: t.resumeSession.events := by
    intro t
    unfold resumeSession send
    dsimp only
    split_ifs <;> simp
  have hdata : ∀ t : VoiceActivation,
      t.events <+: (t.dataSession E flags.awakePre vad.off).events := by
    intro t
    unfold dataSession
    dsimp only
    split_ifs
    · exact (events_sendIfMore t 100).trans (events_sendIfMore _ 0)
    · exact events_sendIfMore t 0
    · exact events_sendIfMore t 100
    · exact List.prefix_refl _
    · exact List.prefix_refl _
  unfold voiceSession
  dsimp only
  split_ifs
  · exact (hopen { s with cod := s.cod.process vad.data }).trans
      ((hcancel _).trans ((hresume _).trans (hdata _)))
  · exact hopen { s with cod := s.cod.process vad.data }
  · exact List.prefix_refl _

theorem events_voiceOff (s : VoiceActivation) (vad : VadResult) :
    s.events <+: (s.voiceOff vad).events := by
  unfold voiceOff send
  dsimp only
  split_ifs <;> simp

theorem events_wake_processfrm (s : VoiceActivation) (input : FrameIn) :
    (s.wake E input).events <+: (s.processfrm E input).events := by
  unfold processfrm
  dsimp only
  generalize s.wake E input = woken
  generalize checkVoiceActivity input.vad woken.front (voiceInput input)
    (woken.wakeFlags input).awake = out
  exact (events_voiceOn { woken with front := out.1 } _ _).trans
    ((events_notify _ _).trans ((events_voiceSession _ _ _).trans (events_voiceOff _ _)))

/-- A bad verdict is final. -/
theorem verdict_none_of_prefix {s s' : VoiceActivation} (h : s.verdict = none)
    (hevents : s.events <+: s'.events) : s'.verdict = none := by
  obtain ⟨later, hlater⟩ := hevents
  unfold verdict sessionEvents at h ⊢
  rw [← hlater, List.filterMap_append]
  exact track_append_eq_none h _

end Extends

/-! ## Whole runs -/

/-- What happens to the machine: a frame, or a call of `control`. -/
inductive Op
  | frame (input : FrameIn)
  | control (action : Action)

variable (E : Encoder Unit)

/-- One operation. -/
def step (s : VoiceActivation) : Op → VoiceActivation
  | .frame input => s.processfrm E input
  | .control action => (s.control action).1

/-- The invariant between two operations. -/
structure RunInv (s : VoiceActivation) : Prop where
  session : SessionInv s
  vad : s.vadFlag.on = s.front.hasVad

/-- The wake word of a frame, if any, does not find a canceled session. -/
def CleanWake (s : VoiceActivation) : Op → Prop
  | .frame input => ¬ (awakePre input = true ∧ s.dataOutput = true ∧ s.canceled = true)
  | .control _ => True

instance (s : VoiceActivation) : ∀ op, Decidable (CleanWake s op)
  | .frame _ => inferInstanceAs (Decidable (¬ _))
  | .control _ => inferInstanceAs (Decidable True)

theorem runInv_create : RunInv (create E true) := by
  refine ⟨⟨rfl, rfl, ?_, ?_, ?_, rfl⟩, rfl⟩ <;> simp [create, Cod.create]

theorem RunInv.processfrm {s : VoiceActivation} (h : RunInv s) {input : FrameIn}
    (hok : CleanWake s (.frame input)) : RunInv (s.processfrm E input) := by
  obtain ⟨hwake, hvad⟩ := h.session.wake (E := E) h.vad hok
  unfold VoiceActivation.processfrm
  dsimp only
  generalize s.wake E input = woken at *
  generalize woken.wakeFlags input = flags
  have hedges := checkVoiceActivity_edges input.vad woken.front (voiceInput input) flags.awake
  generalize checkVoiceActivity input.vad woken.front (voiceInput input) flags.awake = out at *
  obtain ⟨front, vad⟩ := out
  have hfront : SessionInv { woken with front := front } :=
    ⟨hwake.vadEnable, hwake.verdict_eq, hwake.output_on, hwake.fresh, hwake.paused,
      hwake.assertsHeld⟩
  obtain ⟨hon, hflag, hfrontvad⟩ := hfront.voiceOn (E := E) flags.awake vad
    fun hstart ↦ hvad.trans (hedges.on_fresh hstart)
  have hnotify := hon.notify flags
  have hsession := hnotify.inv.voiceSession (E := E) flags vad
  obtain ⟨hoff, hoffflag, hoffvad⟩ := hsession.inv.voiceOff vad
  refine ⟨hoff, ?_⟩
  calc
    _ = ((woken.vadFlag.on || vad.on) && !vad.off) := by
      rw [hoffflag, hsession.flag, hnotify.flag, hflag]
    _ = ((woken.front.hasVad || vad.on) && !vad.off) := by rw [hvad]
    _ = front.hasVad := hedges.after_eq.symm
    _ = _ := by rw [hoffvad, hsession.vad, hnotify.vad, hfrontvad]

theorem RunInv.step {s : VoiceActivation} (h : RunInv s) (op : Op) (hok : CleanWake s op) :
    RunInv (s.step E op) := by
  cases op with
  | frame input => exact h.processfrm E hok
  | control action =>
      obtain ⟨⟨henable, hverdict, hout, hfresh, hpaused, hasserts⟩, hvad⟩ := h
      cases action <;> exact ⟨⟨henable, hverdict, hout, hfresh, hpaused, hasserts⟩, hvad⟩

theorem events_step (s : VoiceActivation) (op : Op) : s.events <+: (s.step E op).events := by
  cases op with
  | frame input => exact (events_wake s input).trans (events_wake_processfrm s input)
  | control action => cases action <;> exact List.prefix_refl _

/-- A wake word that finds a canceled session breaks the brackets. -/
theorem RunInv.verdict_step {s : VoiceActivation} (h : RunInv s) {op : Op}
    (hbad : ¬ CleanWake s op) : (s.step E op).verdict = none := by
  cases op with
  | frame input =>
      simp only [CleanWake, not_not] at hbad
      obtain ⟨hpre, hout, hcanceled⟩ := hbad
      exact verdict_none_of_prefix (h.session.verdict_wake hpre hout hcanceled)
        (events_wake_processfrm s input)
  | control action => exact absurd trivial hbad

/-- **Sessions of the activation library.** With voice detection enabled, the session events of a
run are well bracketed if and only if no frame of the run brings a wake word while a canceled
session is waiting for its voice to stop. -/
theorem isSessionPrefix_run_iff (ops : List Op) :
    IsSessionPrefix (run (step E) (create E true) ops).sessionEvents ↔
      Along (step E) CleanWake (create E true) ops := by
  have hgood : ∀ s : VoiceActivation, IsSessionPrefix s.sessionEvents ↔ s.verdict ≠ none :=
    fun s ↦ isSessionPrefix_iff s.sessionEvents
  refine run_exact RunInv (fun s ↦ IsSessionPrefix s.sessionEvents) ?_ ?_ ?_ ?_
    (runInv_create E) ops
  · exact fun s op h hok ↦ h.step E op hok
  · intro s op h hbad
    rw [hgood, not_not]
    exact h.verdict_step E hbad
  · intro s op h
    rw [hgood, not_not] at h ⊢
    exact verdict_none_of_prefix h (events_step E s op)
  · intro s h
    rw [hgood, h.session.verdict_eq]
    exact Option.some_ne_none _

/-- A frame with voice and without a wake word. -/
def plainFrame : FrameIn where
  vbvResult := .none
  detWord := ⟨.awake, [], [], 0, 0, false, false, false, false, false, 0, []⟩
  detInfo := {}
  formed := List.replicate frameSize 0
  formedReplay := List.replicate frameSize 0
  vad := fun _ ↦ .voice

/-- The client listens, speech starts a session, the client sleeps, the session is canceled, and a
wake word makes `reset_asr` cancel it a second time. -/
theorem not_isSessionPrefix_wake_after_cancel :
    ¬ IsSessionPrefix (run (step (encoder .pcm16)) (create (encoder .pcm16) true)
      [.control .awake, .frame plainFrame, .control .sleep, .frame plainFrame,
        .frame { plainFrame with vbvResult := { pre := true, det := true, detCmd := true } }]
      ).sessionEvents := by
  decide +kernel

end VoiceActivation

end Vsys.Activation
