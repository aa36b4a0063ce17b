import Vsys.R2ad.Mem2
import Vsys.Trace.Run

/-!
# Sessions of `r2mem2`

The session messages of `r2mem2` are well bracketed in every run of `ProcessData` calls, the
built-in checker never reports an error, and the coder is never asked for data while it is paused.
`SessionInv` ties the flags to the verdict of the session monitor; unlike the activation library,
`ResetAsr` tests `m_bCanceled` before it clears it, so every phase keeps the invariant.

`reset` drops an open session without telling the client.  Runs that also call `reset` stay well
bracketed as long as it finds no session open.
-/

namespace Vsys.R2ad

open Vsys.Audio Vsys.Trace Vsys.Vt

/-- The session events of a list of messages. -/
def sessionMsgs (msgs : List Msg) : List SessionEvent := msgs.filterMap fun msg ↦ msg.msgId.session?

namespace Mem2

variable {σ : Type*} {E : Encoder σ} {v : Option Bool} {s : Mem2 σ}

/-- The session monitor's verdict on the current messages, from the verdict `v` before them. -/
def verdict (v : Option Bool) (s : Mem2 σ) : Option Bool :=
  (sessionMsgs s.msgLst).foldl advance v

/-- A session message advances the monitor. -/
theorem verdict_addMsg {s s' : Mem2 σ} (h : s'.msgLst = s.msgLst) {msgId : MsgId}
    {msgData : MsgData} {e : SessionEvent} (he : msgId.session? = some e) :
    (s'.addMsg msgId msgData).verdict v = advance (s.verdict v) e := by
  unfold verdict sessionMsgs addMsg
  rw [h]
  simp [he]

/-- Every other message leaves it alone. -/
theorem verdict_addMsg_other {msgId : MsgId} (msgData : MsgData) (he : msgId.session? = none) :
    (s.addMsg msgId msgData).verdict v = s.verdict v := by
  unfold verdict sessionMsgs addMsg
  simp [he]

/-- The invariant between the phases of a call. -/
structure SessionInv (v : Option Bool) (s : Mem2 σ) : Prop where
  verdict_eq : s.verdict v = some (s.dataOutput && !s.canceled)
  output_on : s.dataOutput = true → s.vadStart = true
  fresh : s.vadStart = true → s.dataOutput = false → s.canceled = false
  paused : s.vadStart = true → s.cod.paused = true → s.canceled = true
  assertsHeld : s.cod.assertsHeld = true

/-- A phase that keeps the invariant and touches neither `m_bVadStart`, nor `m_iVadState`, nor the
message checker. -/
structure Keeps (v : Option Bool) (s s' : Mem2 σ) : Prop where
  inv : SessionInv v s'
  flag : s'.vadStart = s.vadStart
  vad : s'.vad2.vadState = s.vad2.vadState
  checkFlag : s'.asrMsgCheckFlag = s.asrMsgCheckFlag
  checkHeld : s'.checkHeld = s.checkHeld

theorem Keeps.refl (h : SessionInv v s) : Keeps v s s := ⟨h, rfl, rfl, rfl, rfl⟩

theorem Keeps.trans {s' s'' : Mem2 σ} (h : Keeps v s s') (h' : Keeps v s' s'') : Keeps v s s'' :=
  ⟨h'.inv, h'.flag.trans h.flag, h'.vad.trans h.vad, h'.checkFlag.trans h.checkFlag,
    h'.checkHeld.trans h.checkHeld⟩

/-- One of two phases. -/
theorem Keeps.ite {t u : Mem2 σ} (c : Prop) [Decidable c] (ht : Keeps v s t) (hu : Keeps v s u) :
    Keeps v s (if c then t else u) := by
  split_ifs
  · exact ht
  · exact hu

/-! ## The phases while voice is on -/

theorem SessionInv.openSession (h : SessionInv v s) (hon : s.vadStart = true) (flags : WakeFlags)
    (checkSl : Bool) : Keeps v s (s.openSession flags checkSl) := by
  have hsame : Keeps v s s := Keeps.refl h
  obtain ⟨hverdict, hout, hfresh, hpaused, hasserts⟩ := h
  unfold Mem2.openSession
  by_cases hidle : s.dataOutput = true
  · simpa only [hidle, Bool.not_true, Bool.false_eq_true, ↓reduceIte] using hsame
  rw [Bool.not_eq_true] at hidle
  have hcanceled : s.canceled = false := hfresh hon hidle
  have hstart : advance (s.verdict v) .start = some (true && !s.canceled) := by
    rw [hverdict, hidle, hcanceled]
    rfl
  have hopened : ∀ msgData : MsgData,
      Keeps v s (({ s with dataOutput := true } : Mem2 σ).addMsg .vadStart msgData) := by
    intro msgData
    refine ⟨⟨?_, fun _ ↦ hon, fun _ hout ↦ ?_, hpaused, hasserts⟩, rfl, rfl, rfl, rfl⟩
    · exact (verdict_addMsg rfl rfl).trans hstart
    · cases hout
  simp only [hidle, Bool.not_false, ↓reduceIte]
  split_ifs with hword hcmd hasr hsl
  · exact hopened _
  · -- a word without command begins a session that is canceled
    refine ⟨⟨?_, fun _ ↦ hon, fun _ hout ↦ ?_, fun _ _ ↦ rfl, hasserts⟩, rfl, rfl, rfl, rfl⟩
    · rw [hidle] at hverdict
      exact hverdict
    · cases hout
  · exact hopened _
  · exact hsame
  · exact hsame

theorem SessionInv.cancelSession (h : SessionInv v s) (hout : s.dataOutput = true) (bAsr : Bool) :
    Keeps v s (s.cancelSession bAsr) ∧ (s.cancelSession bAsr).dataOutput = true := by
  have hsame : Keeps v s s ∧ s.dataOutput = true := ⟨Keeps.refl h, hout⟩
  obtain ⟨hverdict, honout, hfresh, hpaused, hasserts⟩ := h
  unfold Mem2.cancelSession
  by_cases hcanceled : s.canceled = true
  · simpa only [hcanceled, Bool.not_true, Bool.false_eq_true, ↓reduceIte] using hsame
  rw [Bool.not_eq_true] at hcanceled
  have hcancel : advance (s.verdict v) .cancel = some (s.dataOutput && !true) := by
    rw [hverdict, hout, hcanceled]
    rfl
  have hdone : ∀ t : Mem2 σ, t = { s with canceled := true } →
      Keeps v s (({ t with cod := t.cod.pause } : Mem2 σ).addMsg .vadCancel) ∧
        (({ t with cod := t.cod.pause } : Mem2 σ).addMsg .vadCancel).dataOutput = true := by
    rintro t rfl
    refine ⟨⟨⟨?_, honout, fun _ h ↦ ?_, fun _ _ ↦ rfl, hasserts⟩, rfl, rfl, rfl, rfl⟩, hout⟩
    · exact (verdict_addMsg rfl rfl).trans hcancel
    · exact absurd (hout.symm.trans h) (by decide)
  simp only [hcanceled, Bool.not_false, ↓reduceIte]
  split_ifs <;> first | exact hdone _ rfl | exact hsame | simp_all

theorem SessionInv.resumeSession (h : SessionInv v s) (hout : s.dataOutput = true) :
    Keeps v s s.resumeSession ∧ s.resumeSession.dataOutput = true := by
  have hsame : Keeps v s s ∧ s.dataOutput = true := ⟨Keeps.refl h, hout⟩
  obtain ⟨hverdict, honout, hfresh, hpaused, hasserts⟩ := h
  unfold Mem2.resumeSession
  split_ifs with hcanceled hresume
  · have hcanceled : s.canceled = true := by
      simp only [Bool.and_eq_true] at hcanceled
      exact hcanceled.1
    have hpaused : s.cod.paused = true := by
      simp only [Cod.isNeedResume, Bool.and_eq_true] at hresume
      exact hresume.1.1
    refine ⟨⟨⟨?_, honout, fun _ _ ↦ rfl, fun _ h ↦ ?_, ?_⟩, rfl, rfl, rfl, rfl⟩, hout⟩
    · refine (verdict_addMsg rfl rfl).trans ?_
      change advance (s.verdict v) .start = some (s.dataOutput && !false)
      rw [hverdict, hout, hcanceled]
      rfl
    · cases h
    · change (s.cod.assertsHeld && s.cod.paused) = true
      rw [hasserts, hpaused]
      rfl
  · exact hsame
  · exact hsame

/-- Fetching bytes from a running coder. -/
theorem SessionInv.addIfMore (h : SessionInv v s) (hout : s.dataOutput = true)
    (hcanceled : s.canceled = false) (bound : ℕ) :
    Keeps v s (s.addIfMore E bound) ∧ (s.addIfMore E bound).dataOutput = true ∧
      (s.addIfMore E bound).canceled = false := by
  obtain ⟨hverdict, honout, hfresh, hpaused, hasserts⟩ := h
  have hrunning : s.cod.paused = false := by
    by_contra hp
    rw [Bool.not_eq_false] at hp
    exact absurd ((hpaused (honout hout) hp).symm.trans hcanceled) (by decide)
  have hdata : advance (s.verdict v) .data = some (s.dataOutput && !s.canceled) := by
    rw [hverdict, hout, hcanceled]
    rfl
  unfold Mem2.addIfMore
  dsimp only
  split_ifs
  · refine ⟨⟨⟨?_, honout, hfresh, ?_, ?_⟩, rfl, rfl, rfl, rfl⟩, hout, hcanceled⟩
    · exact (verdict_addMsg rfl rfl).trans hdata
    · intro _ hp
      simp [Mem2.addMsgWithAudio, addMsg, hrunning] at hp
    · simp [Mem2.addMsgWithAudio, addMsg, hrunning, hasserts]
  · refine ⟨⟨⟨hverdict, honout, hfresh, ?_, ?_⟩, rfl, rfl, rfl, rfl⟩, hout, hcanceled⟩
    · simp [hrunning]
    · simp [hrunning, hasserts]

theorem SessionInv.dataSession (h : SessionInv v s) (hout : s.dataOutput = true)
    (pre vadOff : Bool) : Keeps v s (s.dataSession E pre vadOff) := by
  unfold Mem2.dataSession
  by_cases hcanceled : s.canceled = true
  · simpa only [hcanceled, Bool.not_true, Bool.false_eq_true, ↓reduceIte] using Keeps.refl h
  rw [Bool.not_eq_true] at hcanceled
  simp only [hcanceled, Bool.not_false, ↓reduceIte]
  have hfirst : ∃ t, t = (if !pre then s.addIfMore E 100 else s) ∧ Keeps v s t ∧
      t.dataOutput = true ∧ t.canceled = false := by
    refine ⟨_, rfl, ?_⟩
    split_ifs
    · exact h.addIfMore hout hcanceled 100
    · exact ⟨Keeps.refl h, hout, hcanceled⟩
  obtain ⟨t, ht, hkeeps, hout', hcanceled'⟩ := hfirst
  rw [← ht]
  split_ifs
  · exact hkeeps.trans (hkeeps.inv.addIfMore hout' hcanceled' 0).1
  · exact hkeeps

theorem SessionInv.voiceSession (h : SessionInv v s) (bAsr : Bool) (flags : WakeFlags)
    (checkSl : Bool) (vad : VadResult) :
    Keeps v s (s.voiceSession E bAsr flags checkSl vad) := by
  unfold Mem2.voiceSession
  split_ifs with hon
  · have hprocess : Keeps v s { s with cod := s.cod.process vad.data } :=
      ⟨⟨h.verdict_eq, h.output_on, h.fresh, h.paused, h.assertsHeld⟩, rfl, rfl, rfl, rfl⟩
    have hkeeps := hprocess.trans (hprocess.inv.openSession hon flags checkSl)
    dsimp only
    split_ifs with hout
    · obtain ⟨hcancel, hout'⟩ := hkeeps.inv.cancelSession hout bAsr
      obtain ⟨hresume, hout''⟩ := hcancel.inv.resumeSession hout'
      exact ((hkeeps.trans hcancel).trans hresume).trans
        (hresume.inv.dataSession hout'' flags.pre vad.off)
    · exact hkeeps
  · exact Keeps.refl h

/-! ## The other phases -/

/-- A message without a session meaning. -/
theorem SessionInv.addMsg (h : SessionInv v s) (msgId : MsgId) (msgData : MsgData)
    (he : msgId.session? = none) : Keeps v s (s.addMsg msgId msgData) :=
  ⟨⟨(verdict_addMsg_other msgData he).trans h.verdict_eq, h.output_on, h.fresh, h.paused,
    h.assertsHeld⟩, rfl, rfl, rfl, rfl⟩

theorem Keeps.addMsgIf {t : Mem2 σ} (h : Keeps v s t) (c : Bool) (msgId : MsgId)
    (he : msgId.session? = none) : Keeps v s (if c then t.addMsgSl msgId else t) :=
  Keeps.ite _ (h.trans (h.inv.addMsg msgId _ he)) h

theorem SessionInv.restorePatience (h : SessionInv v s) : Keeps v s s.restorePatience :=
  ⟨⟨h.verdict_eq, h.output_on, h.fresh, h.paused, h.assertsHeld⟩, rfl,
    Vad2.setVadEndParam_vadState _ _, rfl, rfl⟩

theorem SessionInv.notify (h : SessionInv v s) (flags : WakeFlags) :
    Keeps v s (s.notify flags) := by
  have hpatience : ∀ {t : Mem2 σ}, Keeps v s t → Keeps v s t.restorePatience :=
    fun ht ↦ ht.trans ht.inv.restorePatience
  have hsends := (((Keeps.refl h).addMsgIf flags.sleepNoCmd .sleep rfl).addMsgIf
    flags.awakeNoCmd .awakeNocmd rfl).addMsgIf flags.hotwordNoCmd .hotword rfl
  have hnocmd := Keeps.ite (flags.noCmd = true) (hpatience hsends) (Keeps.refl h)
  exact Keeps.ite (flags.cmd = true) (hpatience (hnocmd.addMsgIf flags.awakeCmd .awakeCmd rfl))
    hnocmd

/-- A voice start comes with no session open. -/
theorem SessionInv.voiceOn (h : SessionInv v s) (bAsr : Bool) (flags : WakeFlags)
    (vad : VadResult) (hfresh : vad.on = true → s.vadStart = false) :
    SessionInv v (s.voiceOn E bAsr flags vad) ∧
      (s.voiceOn E bAsr flags vad).vadStart = (s.vadStart || vad.on) ∧
      (s.voiceOn E bAsr flags vad).vad2.vadState = s.vad2.vadState ∧
      (s.voiceOn E bAsr flags vad).asrMsgCheckFlag = s.asrMsgCheckFlag ∧
      (s.voiceOn E bAsr flags vad).checkHeld = s.checkHeld := by
  unfold Mem2.voiceOn
  by_cases hon : vad.on = true
  · have hclosed : s.dataOutput = false := by
      by_contra hout
      rw [Bool.not_eq_false] at hout
      exact absurd ((h.output_on hout).symm.trans (hfresh hon)) (by decide)
    have hverdict : s.verdict v = some false := by
      rw [h.verdict_eq, hclosed]
      rfl
    have hbase : ∀ awake, SessionInv v { s with
        asr := bAsr, vadStart := true, dataOutput := false, canceled := false, awake := awake,
        cod := s.cod.reset E } :=
      fun _ ↦ ⟨hverdict, (nomatch ·), fun _ _ ↦ rfl, fun _ ↦ (nomatch ·), h.assertsHeld⟩
    have hflag : true = (s.vadStart || vad.on) := by
      rw [hon, Bool.or_true]
    rw [if_pos hon]
    dsimp only
    cases flags.awakePre with
    | false => exact ⟨hbase false, hflag, rfl, rfl, rfl⟩
    | true =>
        obtain ⟨hverdict', hout, hfresh', hpaused, hasserts⟩ :=
          ((hbase true).addMsg .awakePre s.slData rfl).inv
        exact ⟨⟨hverdict', hout, hfresh', hpaused, hasserts⟩, hflag, rfl, rfl, rfl⟩
  · rw [if_neg hon]
    rw [Bool.not_eq_true] at hon
    exact ⟨h, by rw [hon, Bool.or_false], rfl, rfl, rfl⟩

/-- The end message of a voice stop, if a session is open. -/
theorem SessionInv.addVadEnd (h : SessionInv v s) :
    ∃ u, u = (if s.dataOutput && !s.canceled then s.addMsg .vadEnd else s) ∧
      u.verdict v = some false ∧ u.cod = s.cod ∧ u.vad2 = s.vad2 ∧
      u.asrMsgCheckFlag = s.asrMsgCheckFlag ∧ u.checkHeld = s.checkHeld := by
  have hverdict := h.verdict_eq
  refine ⟨_, rfl, ?_⟩
  split_ifs with hopen
  · refine ⟨(verdict_addMsg rfl rfl).trans ?_, rfl, rfl, rfl, rfl⟩
    rw [hverdict, hopen]
    rfl
  · rw [Bool.not_eq_true] at hopen
    rw [hopen] at hverdict
    exact ⟨hverdict, rfl, rfl, rfl, rfl⟩

/-- The debug audio of a wake word at a voice stop. -/
theorem addDebugAudio_frame (hverdict : s.verdict v = some false)
    (hasserts : s.cod.assertsHeld = true) :
    ∃ w, w = (if s.awake then
        ({ s with cod := s.cod.pause.resume } : Mem2 σ).addMsgWithAudio E .debugAudio else s) ∧
      w.verdict v = some false ∧ w.cod.assertsHeld = true ∧ w.vad2 = s.vad2 ∧
      w.asrMsgCheckFlag = s.asrMsgCheckFlag ∧ w.checkHeld = s.checkHeld := by
  refine ⟨_, rfl, ?_⟩
  split_ifs
  · refine ⟨(verdict_addMsg_other _ rfl).trans hverdict, ?_, rfl, rfl, rfl⟩
    simp [addMsgWithAudio, Mem2.addMsg, hasserts]
  · exact ⟨hverdict, hasserts, rfl, rfl, rfl⟩

/-- A voice stop closes the session. -/
theorem SessionInv.voiceOff (h : SessionInv v s) (vad : VadResult) :
    SessionInv v (s.voiceOff E vad) ∧
      (s.voiceOff E vad).vadStart = (s.vadStart && !vad.off) ∧
      (s.voiceOff E vad).vad2.vadState = s.vad2.vadState ∧
      (s.voiceOff E vad).asrMsgCheckFlag = s.asrMsgCheckFlag ∧
      (s.voiceOff E vad).checkHeld = s.checkHeld := by
  unfold Mem2.voiceOff
  by_cases hoff : vad.off = true
  · rw [if_pos hoff]
    have hpatience := h.restorePatience
    generalize s.restorePatience = t at *
    obtain ⟨u, hu, huverdict, hucod, huvad, huflag, huheld⟩ := hpatience.inv.addVadEnd
    have hasserts : u.cod.assertsHeld = true := by
      rw [hucod]
      exact hpatience.inv.assertsHeld
    obtain ⟨w, hw, hwverdict, hwasserts, hwvad, hwflag, hwheld⟩ :=
      addDebugAudio_frame (E := E) huverdict hasserts
    dsimp only
    rw [← hu, ← hw]
    refine ⟨⟨hwverdict, (nomatch ·), (nomatch ·), (nomatch ·), hwasserts⟩, ?_, ?_, ?_, ?_⟩
    · rw [hoff, Bool.not_true, Bool.and_false]
    · exact (congrArg Vad2.vadState (hwvad.trans huvad)).trans hpatience.vad
    · exact (hwflag.trans huflag).trans hpatience.checkFlag
    · exact (hwheld.trans huheld).trans hpatience.checkHeld
  · rw [if_neg hoff]
    rw [Bool.not_eq_true] at hoff
    exact ⟨h, by rw [hoff, Bool.not_false, Bool.and_true], rfl, rfl, rfl⟩

/-- A wake word cancels an open session and resets the machine. -/
theorem SessionInv.wake (h : SessionInv v s) (hvad : s.vadStart = s.vad2.vadState)
    (input : Mem2In) :
    SessionInv v (s.wake E input) ∧ (s.wake E input).vadStart = (s.wake E input).vad2.vadState ∧
      (s.wake E input).asrMsgCheckFlag = s.asrMsgCheckFlag ∧
      (s.wake E input).checkHeld = s.checkHeld := by
  unfold Mem2.wake
  split_ifs with hpre
  · have hcancel : ∃ t, t = (if s.dataOutput && !s.canceled then s.addMsg .vadCancel else s) ∧
        t.verdict v = some false ∧ t.cod = s.cod ∧ t.asrMsgCheckFlag = s.asrMsgCheckFlag ∧
        t.checkHeld = s.checkHeld := by
      refine ⟨_, rfl, ?_⟩
      have hverdict := h.verdict_eq
      split_ifs with hopen
      · refine ⟨(verdict_addMsg rfl rfl).trans ?_, rfl, rfl, rfl⟩
        rw [hverdict, hopen]
        rfl
      · rw [Bool.not_eq_true] at hopen
        rw [hopen] at hverdict
        exact ⟨hverdict, rfl, rfl, rfl⟩
    obtain ⟨t, ht, htverdict, htcod, htflag, htheld⟩ := hcancel
    unfold resetAsr
    dsimp only
    rw [← ht]
    refine ⟨⟨htverdict, (nomatch ·), (nomatch ·), (nomatch ·), ?_⟩, rfl, htflag, htheld⟩
    change t.cod.assertsHeld = true
    rw [htcod]
    exact h.assertsHeld
  · exact ⟨h, hvad, rfl, rfl⟩

/-! ## One call -/

/-- The invariant between two calls. -/
structure CallInv (v : Option Bool) (s : Mem2 σ) : Prop where
  session : SessionInv v s
  vad : s.vadStart = s.vad2.vadState

theorem CallInv.processBlock (h : CallInv v s) (input : Mem2In) :
    CallInv v (s.processBlock E input) ∧
      (s.processBlock E input).asrMsgCheckFlag = s.asrMsgCheckFlag ∧
      (s.processBlock E input).checkHeld = s.checkHeld := by
  obtain ⟨⟨hverdict, hout, hfresh, hpaused, hasserts⟩, hvad⟩ := h
  -- the flag, the microphones and the engine's result do not touch the invariant
  have hdetect : ∃ t, t = (s.prepare input).detect input ∧ CallInv v t ∧
      t.asrMsgCheckFlag = s.asrMsgCheckFlag ∧ t.checkHeld = s.checkHeld := by
    refine ⟨_, rfl, ?_⟩
    unfold prepare detect
    dsimp only
    split_ifs <;> exact ⟨⟨⟨hverdict, hout, hfresh, hpaused, hasserts⟩, hvad⟩, rfl, rfl⟩
  obtain ⟨t, ht, ⟨htinv, htvad⟩, htflag, htheld⟩ := hdetect
  unfold Mem2.processBlock
  dsimp only
  rw [← ht]
  generalize t.wakeFlags input = flags
  obtain ⟨hwake, hwvad, hwflag, hwheld⟩ := htinv.wake (E := E) htvad input
  generalize t.wake E input = woken at *
  have hedges := Vad2.process_edges input.vad woken.vad2 (voiceInput input) flags.pre
  generalize woken.vad2.process input.vad (voiceInput input) flags.pre = out at *
  obtain ⟨vad2, vad⟩ := out
  have hvad2 : SessionInv v { woken with vad2 := vad2 } :=
    ⟨hwake.verdict_eq, hwake.output_on, hwake.fresh, hwake.paused, hwake.assertsHeld⟩
  obtain ⟨hon, honflag, honvad, honcheck, honheld⟩ :=
    hvad2.voiceOn (E := E) (decide (input.asrFlag = 1)) flags vad
      fun hstart ↦ hwvad.trans (hedges.on_fresh hstart)
  have hnotify := hon.notify flags
  have hsession := hnotify.inv.voiceSession (E := E) (decide (input.asrFlag = 1)) flags
    input.checkSl vad
  obtain ⟨hoff, hoffflag, hoffvad, hoffcheck, hoffheld⟩ := hsession.inv.voiceOff (E := E) vad
  refine ⟨⟨hoff, ?_⟩, ?_, ?_⟩
  · calc
      _ = ((woken.vadStart || vad.on) && !vad.off) := by
        rw [hoffflag, hsession.flag, hnotify.flag, honflag]
      _ = ((woken.vad2.vadState || vad.on) && !vad.off) := by rw [hwvad]
      _ = vad2.vadState := hedges.after_eq.symm
      _ = _ := by rw [hoffvad, hsession.vad, hnotify.vad, honvad]
  · rw [hoffcheck, hsession.checkFlag, hnotify.checkFlag, honcheck]
    exact hwflag.trans htflag
  · rw [hoffheld, hsession.checkHeld, hnotify.checkHeld, honheld]
    exact hwheld.trans htheld

/-- The checker touches nothing but its own flag. -/
theorem foldl_printMsgInfo_eq (msgs : List Msg) (s : Mem2 σ) :
    ∃ flag held, msgs.foldl printMsgInfo s =
      { s with asrMsgCheckFlag := flag, checkHeld := held } := by
  induction msgs generalizing s with
  | nil => exact ⟨s.asrMsgCheckFlag, s.checkHeld, rfl⟩
  | cons msg msgs ih =>
      have hstep : ∃ flag held, s.printMsgInfo msg =
          { s with asrMsgCheckFlag := flag, checkHeld := held } := by
        unfold printMsgInfo
        split <;> exact ⟨_, _, rfl⟩
      obtain ⟨flag, held, hform⟩ := hstep
      rw [List.foldl_cons, hform]
      exact ih _

/-- The checker agrees with the session monitor as long as the monitor is content. -/
theorem foldl_printMsgInfo (msgs : List Msg) (s : Mem2 σ) {opened : Bool}
    (h : (sessionMsgs msgs).foldl advance (some s.asrMsgCheckFlag) = some opened) :
    (msgs.foldl printMsgInfo s).asrMsgCheckFlag = opened ∧
      (msgs.foldl printMsgInfo s).checkHeld = s.checkHeld := by
  induction msgs generalizing s with
  | nil => exact ⟨by simpa [sessionMsgs] using h, rfl⟩
  | cons msg msgs ih =>
      have hstep : (sessionMsgs msgs).foldl advance (some (s.printMsgInfo msg).asrMsgCheckFlag) =
          some opened ∧ (s.printMsgInfo msg).checkHeld = s.checkHeld := by
        obtain ⟨msgId, msgData⟩ := msg
        cases hflag : s.asrMsgCheckFlag <;> cases msgId <;>
          simp_all [sessionMsgs, MsgId.session?, printMsgInfo, advance, foldl_advance_none]
      obtain ⟨hnext, hheld⟩ := hstep
      obtain ⟨hflag', hheld'⟩ := ih _ hnext
      exact ⟨hflag', hheld'.trans hheld⟩

end Mem2

/-! ## Whole runs -/

/-- An object together with the messages its client has received. -/
structure Client (σ : Type*) where
  mem : Mem2 σ
  sent : List Msg

namespace Client

variable {σ : Type*} (E : Encoder σ)

/-- A client of a new object. -/
def create : Client σ := ⟨Mem2.create E, []⟩

/-- What the client does: pass on a block and fetch the messages, or reset the object. -/
inductive Op
  | process (input : Mem2In)
  | reset

/-- One operation. -/
def step (c : Client σ) : Op → Client σ
  | .process input =>
      let fetched := (c.mem.processData E input).getMsgLst
      ⟨fetched.1, c.sent ++ fetched.2⟩
  | .reset => ⟨c.mem.reset E, c.sent⟩

/-- The invariant between two operations: the machine's flags, the client's view of the session
and the built-in checker agree. -/
structure Inv (c : Client σ) : Prop where
  call : Mem2.CallInv (track (sessionMsgs c.sent)) c.mem.clearMsgLst
  checkFlag : c.mem.asrMsgCheckFlag = (c.mem.dataOutput && !c.mem.canceled)
  checkHeld : c.mem.checkHeld = true

/-- `reset` is called only while no session is open. -/
def QuietReset (c : Client σ) : Op → Prop
  | .process _ => True
  | .reset => (c.mem.dataOutput && !c.mem.canceled) = false

instance (c : Client σ) : ∀ op, Decidable (QuietReset c op)
  | .process _ => inferInstanceAs (Decidable True)
  | .reset => inferInstanceAs (Decidable (_ = _))

variable {E}

theorem inv_create : Inv (create E) := by
  refine ⟨⟨⟨rfl, ?_, ?_, ?_, rfl⟩, rfl⟩, rfl, rfl⟩ <;>
    simp [create, Mem2.create, Mem2.clearMsgLst]

theorem Inv.process {c : Client σ} (h : Inv c) (input : Mem2In) :
    Inv (c.step E (.process input)) := by
  obtain ⟨hcall, hflag, hheld⟩ := h
  have hdata : ∃ m, m = c.mem.processData E input ∧
      Mem2.CallInv (track (sessionMsgs c.sent)) m ∧
      m.asrMsgCheckFlag = c.mem.asrMsgCheckFlag ∧ m.checkHeld = c.mem.checkHeld := by
    refine ⟨_, rfl, ?_⟩
    unfold Mem2.processData
    dsimp only
    split_ifs
    · exact ⟨hcall, rfl, rfl⟩
    · exact hcall.processBlock input
  obtain ⟨m, hm, ⟨⟨hverdict, hout, hfresh, hpaused, hasserts⟩, hvad⟩, hmflag, hmheld⟩ := hdata
  have hbefore : track (sessionMsgs c.sent) = some m.asrMsgCheckFlag := by
    rw [hmflag, hflag]
    exact hcall.session.verdict_eq
  have hfold : (sessionMsgs m.msgLst).foldl advance (some m.asrMsgCheckFlag) =
      some (m.dataOutput && !m.canceled) := by
    rw [← hbefore]
    exact hverdict
  have hchecked := Mem2.foldl_printMsgInfo m.msgLst m hfold
  have hafter : track (sessionMsgs (c.sent ++ m.msgLst)) = some (m.dataOutput && !m.canceled) := by
    rw [← hverdict, track, sessionMsgs, List.filterMap_append, List.foldl_append]
    rfl
  obtain ⟨flag, held, hform⟩ := Mem2.foldl_printMsgInfo_eq m.msgLst m
  have hstep : c.step E (.process input) = ⟨m.msgLst.foldl Mem2.printMsgInfo m,
      c.sent ++ m.msgLst⟩ := by
    rw [hm]
    rfl
  rw [hstep]
  rw [hform] at hchecked ⊢
  exact ⟨⟨⟨hafter, hout, hfresh, hpaused, hasserts⟩, hvad⟩, hchecked.1,
    hchecked.2.trans (hmheld.trans hheld)⟩

/-- A reset that finds no open session. -/
theorem Inv.reset {c : Client σ} (h : Inv c) (hquiet : QuietReset c .reset) :
    Inv (c.step E .reset) := by
  obtain ⟨⟨⟨hverdict, -, -, -, hasserts⟩, -⟩, hflag, hheld⟩ := h
  have hclosed : (c.mem.dataOutput && !c.mem.canceled) = false := hquiet
  have hverdict' : Mem2.verdict (track (sessionMsgs c.sent)) c.mem.clearMsgLst = some false :=
    hverdict.trans (congrArg some hclosed)
  exact ⟨⟨⟨hverdict', (nomatch ·), (nomatch ·), (nomatch ·), hasserts⟩, rfl⟩,
    hflag.trans hclosed, hheld⟩

theorem Inv.step {c : Client σ} (h : Inv c) (op : Op) (hok : QuietReset c op) :
    Inv (c.step E op) := by
  cases op with
  | process input => exact h.process input
  | reset => exact h.reset hok

theorem Inv.isSessionPrefix {c : Client σ} (h : Inv c) :
    IsSessionPrefix (sessionMsgs c.sent) := by
  have hverdict : track (sessionMsgs c.sent) = _ := h.call.session.verdict_eq
  rw [isSessionPrefix_iff, hverdict]
  exact Option.some_ne_none _

theorem inv_run (ops : List Op) (hok : Along (step E) QuietReset (create E) ops) :
    Inv (run (step E) (create E) ops) :=
  run_invariant (fun _ op h hquiet ↦ h.step op hquiet) inv_create hok

variable (E)

/-- **Sessions of `r2mem2`.** In every run of `ProcessData` calls the session messages are well
bracketed, the message checker takes no `ERROR` branch, and no assertion of the coder fails. -/
theorem sessions_of_process (inputs : List Mem2In) :
    IsSessionPrefix (sessionMsgs (run (step E) (create E) (inputs.map .process)).sent) ∧
      (run (step E) (create E) (inputs.map .process)).mem.checkHeld = true ∧
      (run (step E) (create E) (inputs.map .process)).mem.cod.assertsHeld = true := by
  have hok : ∀ c : Client σ, Along (step E) QuietReset c (inputs.map .process) := by
    induction inputs with
    | nil => exact fun _ ↦ trivial
    | cons input inputs ih => exact fun c ↦ ⟨trivial, ih _⟩
  have hinv := inv_run (inputs.map .process) (hok (create E))
  exact ⟨hinv.isSessionPrefix, hinv.checkHeld, hinv.call.session.assertsHeld⟩

/-- **Runs with resets.** If every `reset` of a run finds no session open, the session messages
are well bracketed. -/
theorem sessions_of_quiet_reset (ops : List Op)
    (hok : Along (step E) QuietReset (create E) ops) :
    IsSessionPrefix (sessionMsgs (run (step E) (create E) ops).sent) :=
  (inv_run ops hok).isSessionPrefix

/-- A block with voice while the client listens, and without a wake word. -/
def plainBlock : Mem2In where
  lenIn := 640
  aecFlag := 0
  awakeFlag := 0
  sleepFlag := 0
  asrFlag := 1
  hotwordFlag := 0
  lenMul := frameSize
  micFixed := false
  vbvResult := .none
  detWord := ⟨.awake, [], [], 0, 0, false, false, false, false, false, 0, []⟩
  detInfo := {}
  formed := List.replicate frameSize 0
  formedReplay := []
  vad := fun _ ↦ .voice
  checkSl := true

/-- A reset between two blocks, before any session was opened. -/
theorem sessions_of_quiet_reset_plain :
    Along (step (Encoder.pcm16 32768)) QuietReset (create (Encoder.pcm16 32768))
        [.reset, .process plainBlock] ∧
      IsSessionPrefix (sessionMsgs (run (step (Encoder.pcm16 32768))
        (create (Encoder.pcm16 32768)) [.reset, .process plainBlock]).sent) := by
  have hok : Along (step (Encoder.pcm16 32768)) QuietReset (create (Encoder.pcm16 32768))
      [.reset, .process plainBlock] := ⟨rfl, trivial, trivial⟩
  exact ⟨hok, sessions_of_quiet_reset _ _ hok⟩

/-- Speech opens a session, `reset` forgets it, and speech opens another one. -/
theorem not_isSessionPrefix_reset :
    ¬ IsSessionPrefix (sessionMsgs (run (step (Encoder.pcm16 32768))
      (create (Encoder.pcm16 32768))
      [.process plainBlock, .reset, .process plainBlock]).sent) := by
  decide +kernel

end Client

end Vsys.R2ad
