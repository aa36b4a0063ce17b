import Vsys.Vt.Det

/-!
# What a detector can report

Seen from outside a detector is a small automaton.  It is idle until the score crosses the
threshold; the crossing frame runs all checks and either fails silently, decides at once, or
opens a detection whose decision comes a fixed number of frames later, or earlier when the voice
ends.  A finished detector reports nothing until it is reset.

`Moves` is that automaton over a number of frames, closed under composition, and
`processScore_reports` says that `ProcessScore` follows it.
-/

namespace Vsys.Vt

/-- How many frames after the crossing the decision is made. -/
def ZVtWord.wait (word : ZVtWord) : ℕ :=
  if word.rightSilCheck then (word.rightSilSkip + word.rightSilOffset - frmOffset).toNat else 0

/-- What the assertions ask of the settings of a word. -/
structure ZVtWord.Sound (word : ZVtWord) : Prop where
  leftSil : 0 < word.leftSilOffset
  rightSil : word.rightSilSkip + word.rightSilOffset ≥ frmOffset

/-- The settings `ParseWordTriPhoLst` fills in are sound. -/
theorem ZVtWord.sound_ofInfo (info : WordInfo) : (ofInfo info).Sound := by
  constructor <;> simp [ofInfo, frmOffset]

theorem ZVtWord.wait_ofInfo (info : WordInfo) :
    (ofInfo info).wait = if info.rightSilDet then 36 else 0 := rfl

/-- The callback's own assertion about the ranges it is asked for. -/
def SecSlCall.Valid (call : SecSlCall) : Prop :=
  call.frmStartSil > call.frmEndSil ∧ call.frmStartVt > call.frmEndVt

instance (call : SecSlCall) : Decidable call.Valid := inferInstanceAs (Decidable (_ ∧ _))

/-- Where a detector is; a pending one has `left` frames to go before the deciding frame. -/
inductive Phase
  | idle
  | pending (left : ℕ)
  | done
  deriving DecidableEq

/-- The result of a decision. -/
def decision (cmd : Bool) : VtResult := { detCmd := cmd, detNocmd := !cmd }

/-- The result of a detection that is opened. -/
def opening : VtResult := { pre := true, det := true }

/-- What a detector with a right silence of `wait` frames can do and report in `frames` frames. -/
inductive Moves (wait : ℕ) : ℕ → Phase → Phase → VtResult → Prop
  | idle (frames : ℕ) : Moves wait frames .idle .idle .none
  | failed (frames : ℕ) (det : Bool) : Moves wait frames .idle .done { det := det }
  | opened (frames : ℕ) {left : ℕ} (h : left < wait) :
      Moves wait frames .idle (.pending left) opening
  | decided (frames : ℕ) (cmd : Bool) : Moves wait frames .idle .done (opening ||| decision cmd)
  | waiting (frames left : ℕ) : Moves wait frames (.pending (left + frames)) (.pending left) .none
  | closed (frames left : ℕ) (cmd : Bool) : Moves wait frames (.pending left) .done (decision cmd)
  | done (frames : ℕ) : Moves wait frames .done .done .none

/-- Doing nothing. -/
theorem Moves.refl (wait : ℕ) : ∀ phase : Phase, Moves wait 0 phase phase .none
  | .idle => .idle 0
  | .pending left => .waiting 0 left
  | .done => .done 0

/-- One batch after another. -/
theorem Moves.trans {wait m n : ℕ} {p q r : Phase} {rt rt' : VtResult}
    (h : Moves wait m p q rt) (h' : Moves wait n q r rt') :
    Moves wait (m + n) p r (rt ||| rt') := by
  cases h with
  | idle =>
      rw [VtResult.none_or]
      cases h' with
      | idle => exact .idle _
      | failed det => exact .failed _ det
      | opened hleft => exact .opened _ hleft
      | decided cmd => exact .decided _ cmd
  | failed det =>
      cases h'
      rw [VtResult.or_none]
      exact .failed _ det
  | opened hleft =>
      cases h' with
      | waiting left => exact .opened _ (Nat.lt_of_le_of_lt (Nat.le_add_right _ _) hleft)
      | closed left cmd => exact .decided _ cmd
  | decided cmd =>
      cases h'
      rw [VtResult.or_none]
      exact .decided _ cmd
  | waiting left =>
      rw [VtResult.none_or]
      cases h' with
      | waiting left' =>
          rw [Nat.add_assoc, Nat.add_comm n m]
          exact .waiting (m + n) left'
      | closed _ cmd => exact .closed _ _ cmd
  | closed _ cmd =>
      cases h'
      rw [VtResult.or_none]
      exact .closed _ _ cmd
  | done =>
      cases h'
      exact .done _

namespace VtDet

/-- The fields of a detector in each phase. -/
def Place : Phase → VtDet → Prop
  | .idle, d => d.status = .ready ∧ d.frmIdBest = -1 ∧ d.frmIdEnergy = -1 ∧ 0 ≤ d.frmIdCur
  | .pending left, d => d.status = .process ∧ 0 ≤ d.frmIdBest ∧ d.frmIdBest < d.frmIdCur ∧
      d.frmIdLeftSil = d.frmIdBest ∧ d.frmIdCfCheck = d.frmIdBest ∧ d.frmIdEnergy ≤ d.frmIdBest ∧
      d.frmIdRightSil = d.frmIdCur + left ∧ left < d.vtWord.wait
  | .done, d => d.status = .finish

/-- A detector in a phase, with its assertions held so far. -/
structure At (phase : Phase) (d : VtDet) : Prop where
  sound : d.vtWord.Sound
  assertsHeld : d.assertsHeld = true
  place : Place phase d

/-- A stretch of `frames` frames that follows the automaton.  The callback is only ever called by
a detector that was idle. -/
structure Reports (frames : ℕ) (p : Phase) (d : VtDet) (q : Phase) (out : VtDet × VtResult) :
    Prop where
  phase : At q out.1
  moves : Moves d.vtWord.wait frames p q out.2
  word : out.1.vtWord = d.vtWord
  addr : out.1.addr = d.addr
  calls : ∃ more, out.1.calls = d.calls ++ more ∧ (∀ call ∈ more, call.Valid) ∧
    (more ≠ [] → p = .idle)

/-- Nothing happens. -/
theorem At.reports {phase : Phase} {d : VtDet} (h : At phase d) :
    Reports 0 phase d phase (d, .none) :=
  ⟨h, Moves.refl _ phase, rfl, rfl, [], by simp⟩

theorem Reports.trans {m n : ℕ} {p q r : Phase} {d : VtDet} {out : VtDet × VtResult}
    {out' : VtDet × VtResult} (h : Reports m p d q out) (h' : Reports n q out.1 r out') :
    Reports (m + n) p d r (out'.1, out.2 ||| out'.2) := by
  obtain ⟨more, hmore, hvalid, hidle⟩ := h.calls
  obtain ⟨more', hmore', hvalid', hidle'⟩ := h'.calls
  refine ⟨h'.phase, h.moves.trans (h.word ▸ h'.moves), h'.word.trans h.word,
    h'.addr.trans h.addr, more ++ more', ?_, ?_, ?_⟩
  · rw [hmore', hmore, List.append_assoc]
  · intro call hcall
    rcases List.mem_append.mp hcall with hcall | hcall
    · exact hvalid call hcall
    · exact hvalid' call hcall
  · -- a detector that is idle after some frames was idle before them
    intro hne
    by_cases hnil : more = []
    · have hq : q = .idle := hidle' fun hnil' ↦ hne (by simp [hnil, hnil'])
      have hmoves := h.moves
      rw [hq] at hmoves
      generalize out.2 = rt at hmoves
      cases hmoves
      rfl
    · exact hidle hnil

/-! ## One frame -/

section Frame

variable {d : VtDet} (input : FrmIn) (aec : Bool)

/-- A finished detector ignores every message. -/
theorem checkStatus_finish (h : d.status = .finish) (offset : ℤ) :
    d.checkStatus offset input aec = (d, .none) := by
  simp [checkStatus, runChecks, processMsgPre, processMsgBest, processMsgCfCheck, processMsgEnergy,
    processMsgLeftSil, processMsgRightSil, h]

/-- So does one that is ready. -/
theorem checkStatus_ready (h : d.status = .ready) (offset : ℤ) :
    d.checkStatus offset input aec = (d, .none) := by
  simp [checkStatus, runChecks, processMsgPre, processMsgBest, processMsgCfCheck, processMsgEnergy,
    processMsgLeftSil, processMsgRightSil, h]

theorem noCmd_eq_decision (d : VtDet) (aec : Bool) :
    d.noCmd aec = decision (d.vtWord.checkNoCmdChange aec) := by
  unfold noCmd decision
  split_ifs with h <;> simp [h]

/-- The deciding frame. -/
theorem processMsgRightSil_now (hstatus : d.status = .process)
    (hcur : d.frmIdCur = d.frmIdRightSil) :
    ∃ cmd, d.processMsgRightSil input aec = ({ d with status := .finish }, decision cmd) := by
  unfold processMsgRightSil
  rw [if_pos ⟨hstatus, hcur⟩, noCmd_eq_decision]
  dsimp only
  split_ifs
  · exact ⟨_, rfl⟩
  · exact ⟨true, rfl⟩
  · exact ⟨_, rfl⟩

/-- A pending detector waits or decides. -/
theorem At.checkStatus_pending {left : ℕ} (h : At (.pending left) d) (offset : ℤ) :
    (left ≠ 0 ∧ d.checkStatus offset input aec = (d, .none)) ∨
      ∃ cmd, d.checkStatus offset input aec = ({ d with status := .finish }, decision cmd) := by
  obtain ⟨hstatus, -, hcur, hleft, hcf, henergy, hright, -⟩ := h.place
  have hpre : d.processMsgPre offset input = d := if_neg (by omega)
  have hbest : d.processMsgBest = d := if_neg (by omega)
  have hcheck : d.processMsgCfCheck input = (d, .none) := if_neg (by omega)
  have hloud : d.processMsgEnergy input = d := if_neg (by omega)
  have hsil : d.processMsgLeftSil input aec = (d, .none) := if_neg (by omega)
  simp only [checkStatus, runChecks, hpre, hbest, hcheck, hloud, hsil, VtResult.none_or]
  by_cases hzero : left = 0
  · right
    obtain ⟨cmd, hnow⟩ := processMsgRightSil_now input aec hstatus
      (by rw [hright, hzero]; simp)
    exact ⟨cmd, by rw [hnow]⟩
  · left
    have hlater : d.processMsgRightSil input aec = (d, .none) := if_neg (by omega)
    exact ⟨hzero, by rw [hlater]⟩

/-- The callback is asked for a stretch of silence and a word, neither of them empty. -/
theorem valid_secSlCall (hstart : d.frmIdStart ≤ d.frmIdCur) (hsound : d.vtWord.Sound)
    (offset : ℤ) : (d.secSlCall offset).Valid := by
  have hleft := hsound.leftSil
  simp only [SecSlCall.Valid, secSlCall, frmOffset]
  omega

/-- `ProcessMsg_Pre` in the crossing frame. -/
theorem processMsgPre_now (hstatus : d.status = .process) (hbest : d.frmIdCur = d.frmIdBest)
    (offset : ℤ) :
    ∃ info, d.processMsgPre offset input =
      { d with
        calls := d.calls ++ if d.dsCb then [d.secSlCall offset] else []
        detInfo := info
        frmIdEnergy := if d.vtWord.leftSilCheck || d.vtWord.rightSilCheck then d.frmIdCur
          else d.frmIdEnergy
        frmIdLeftSil := d.frmIdCur
        frmIdCfCheck := d.frmIdCur } := by
  unfold processMsgPre
  rw [if_pos ⟨hstatus, hbest⟩]
  dsimp only
  cases hcb : d.dsCb with
  | false =>
      refine ⟨d.detInfo, ?_⟩
      split_ifs <;> simp_all
  | true =>
      refine ⟨{ d.detInfo with azimuth := input.azimuth, elevation := input.elevation }, ?_⟩
      split_ifs <;> simp_all

/-- `ProcessMsg_Best` in the crossing frame. -/
theorem processMsgBest_now (hstatus : d.status = .process) (hbest : d.frmIdCur = d.frmIdBest)
    (hsound : d.vtWord.Sound) :
    d.processMsgBest = { d with frmIdRightSil := d.frmIdCur + d.vtWord.wait } := by
  have hright := hsound.rightSil
  unfold processMsgBest ZVtWord.wait
  rw [if_pos ⟨hstatus, hbest⟩]
  split_ifs with hcheck
  · have hclamp : ¬ d.frmIdBest + d.vtWord.rightSilSkip + d.vtWord.rightSilOffset - frmOffset <
        d.frmIdBest := by omega
    simp only [check, hright, decide_true, Bool.and_true, hclamp, ↓reduceIte]
    congr 1
    omega
  · simp [hbest]

/-- `ProcessMsg_CfCheck` in the crossing frame. -/
theorem processMsgCfCheck_now (hstatus : d.status = .process)
    (hcf : d.frmIdCur = d.frmIdCfCheck) :
    d.processMsgCfCheck input = (d, { det := true }) ∨
      d.processMsgCfCheck input = ({ d with status := .finish }, .none) := by
  unfold processMsgCfCheck
  rw [if_pos ⟨hstatus, hcf⟩]
  dsimp only
  split_ifs <;> simp

/-- `ProcessMsg_Energy` in the crossing frame; a word without silence checks skips it. -/
theorem processMsgEnergy_now (hstatus : d.status = .process)
    (hloud : d.frmIdCur = d.frmIdEnergy →
      (d.vtWord.leftSilCheck || d.vtWord.rightSilCheck) = true) :
    ∃ info, d.processMsgEnergy input = { d with detInfo := info } ∨
      d.processMsgEnergy input = { d with detInfo := info, status := .finish } := by
  unfold processMsgEnergy
  by_cases hcur : d.frmIdCur = d.frmIdEnergy
  · refine ⟨{ d.detInfo with energy := input.vtEnergy }, ?_⟩
    rw [if_pos ⟨hstatus, hcur⟩]
    dsimp only [check]
    rw [hloud hcur, Bool.and_true]
    split_ifs <;> simp
  · exact ⟨d.detInfo, .inl (if_neg fun h ↦ hcur h.2)⟩

/-- `ProcessMsg_LeftSil` in the crossing frame. -/
theorem processMsgLeftSil_now (hstatus : d.status = .process)
    (hleft : d.frmIdCur = d.frmIdLeftSil) (henergy : d.frmIdEnergy ≤ d.frmIdLeftSil) :
    d.processMsgLeftSil input aec = (d, { pre := true }) ∨
      d.processMsgLeftSil input aec = ({ d with status := .finish }, .none) := by
  have hcheck : d.check (decide (d.frmIdLeftSil ≥ d.frmIdEnergy)) = d := by
    simp [check, henergy]
  unfold processMsgLeftSil
  rw [if_pos ⟨hstatus, hleft⟩]
  dsimp only
  rw [hcheck]
  split_ifs <;> simp

/-- The checks of the crossing frame fail, or a detection is opened and perhaps decided. -/
theorem runChecks_now (hstatus : d.status = .process) (hcf : d.frmIdCur = d.frmIdCfCheck)
    (hleft : d.frmIdCur = d.frmIdLeftSil) (henergy : d.frmIdEnergy ≤ d.frmIdLeftSil)
    (hloud : d.frmIdCur = d.frmIdEnergy →
      (d.vtWord.leftSilCheck || d.vtWord.rightSilCheck) = true) :
    ∃ info,
      (∃ det, d.runChecks input aec =
        ({ d with detInfo := info, status := .finish }, { det := det })) ∨
      (∃ cmd, d.runChecks input aec =
        ({ d with detInfo := info, status := .finish }, opening ||| decision cmd)) ∨
      (d.frmIdCur ≠ d.frmIdRightSil ∧
        d.runChecks input aec = ({ d with detInfo := info }, opening)) := by
  have hquiet : ∀ e : VtDet, e.status = .finish → e.processMsgEnergy input = e ∧
      e.processMsgLeftSil input aec = (e, .none) ∧
      e.processMsgRightSil input aec = (e, .none) := by
    intro e he
    simp [processMsgEnergy, processMsgLeftSil, processMsgRightSil, he]
  unfold runChecks
  rcases processMsgCfCheck_now input hstatus hcf with hcf' | hcf'
  · rw [hcf']
    obtain ⟨info, henergy' | henergy'⟩ := processMsgEnergy_now input hstatus hloud
    · refine ⟨info, ?_⟩
      simp only [henergy']
      have hsil := processMsgLeftSil_now (d := { d with detInfo := info }) input aec hstatus hleft
        henergy
      rcases hsil with hsil | hsil
      · rw [hsil]
        by_cases hnow : d.frmIdCur = d.frmIdRightSil
        · obtain ⟨cmd, hdecide⟩ := processMsgRightSil_now (d := { d with detInfo := info }) input
            aec hstatus hnow
          simp only [hdecide]
          exact .inr (.inl ⟨cmd, rfl⟩)
        · have hlater : ({ d with detInfo := info } : VtDet).processMsgRightSil input aec =
              ({ d with detInfo := info }, .none) := if_neg fun h ↦ hnow h.2
          simp only [hlater]
          exact .inr (.inr ⟨hnow, rfl⟩)
      · rw [hsil]
        obtain ⟨-, -, hright⟩ := hquiet { d with detInfo := info, status := .finish } rfl
        simp only [hright]
        exact .inl ⟨true, rfl⟩
    · refine ⟨info, .inl ⟨true, ?_⟩⟩
      obtain ⟨-, hleft', hright⟩ := hquiet { d with detInfo := info, status := .finish } rfl
      simp only [henergy', hleft', hright]
      rfl
  · rw [hcf']
    obtain ⟨henergy', hleft', hright⟩ := hquiet { d with status := .finish } rfl
    refine ⟨d.detInfo, .inl ⟨false, ?_⟩⟩
    simp only [henergy', hleft', hright]
    rfl

/-- If every check passes, the crossing frame opens a detection. -/
theorem runChecks_pass (hstatus : d.status = .process)
    (hcf : d.frmIdCur = d.frmIdCfCheck) (hleft : d.frmIdCur = d.frmIdLeftSil)
    (hlater : ¬ d.frmIdCur = d.frmIdRightSil)
    (hscore : input.cfScore > d.vtWord.classifyNnetShield) (hdirty : input.checkDirty = true)
    (henergy : ¬ input.vtEnergy < 300) (hsil : input.leftSilence = true) :
    (d.runChecks input aec).2 = opening := by
  have hcf' : d.processMsgCfCheck input = (d, { det := true }) := by
    simp [processMsgCfCheck, hstatus, hcf, hscore, hdirty]
  have hloud : ∃ asserts info, d.processMsgEnergy input =
      { d with assertsHeld := asserts, detInfo := info } := by
    unfold processMsgEnergy check
    split_ifs
    · exact ⟨_, _, rfl⟩
    · exact ⟨_, _, rfl⟩
  obtain ⟨asserts, info, hloud⟩ := hloud
  have hleft' : ∃ asserts', ({ d with assertsHeld := asserts, detInfo := info } :
      VtDet).processMsgLeftSil input aec =
        ({ d with assertsHeld := asserts', detInfo := info }, { pre := true }) := by
    unfold processMsgLeftSil check
    rw [if_pos ⟨hstatus, hleft⟩]
    dsimp only
    split_ifs
    · exact ⟨_, rfl⟩
    · exact ⟨_, rfl⟩
  obtain ⟨asserts', hleft'⟩ := hleft'
  have hright : ({ d with assertsHeld := asserts', detInfo := info } :
      VtDet).processMsgRightSil input aec =
        ({ d with assertsHeld := asserts', detInfo := info }, .none) := if_neg fun h ↦ hlater h.2
  simp only [runChecks, hcf', hloud, hleft', hright]
  rfl

/-- The crossing frame as a whole. -/
theorem checkStatus_now (hstatus : d.status = .process) (hbest : d.frmIdCur = d.frmIdBest)
    (hcur : 0 ≤ d.frmIdCur) (henergy : d.frmIdEnergy = -1) (hsound : d.vtWord.Sound)
    (offset : ℤ) :
    ∃ info energy, energy ≤ d.frmIdCur ∧ ∃ e : VtDet,
      e = { d with
        calls := d.calls ++ if d.dsCb then [d.secSlCall offset] else []
        detInfo := info
        frmIdEnergy := energy
        frmIdLeftSil := d.frmIdCur
        frmIdCfCheck := d.frmIdCur
        frmIdRightSil := d.frmIdCur + d.vtWord.wait } ∧
      ((∃ det, d.checkStatus offset input aec = ({ e with status := .finish }, { det := det })) ∨
        (∃ cmd, d.checkStatus offset input aec =
          ({ e with status := .finish }, opening ||| decision cmd)) ∨
        (d.vtWord.wait ≠ 0 ∧ d.checkStatus offset input aec = (e, opening))) := by
  obtain ⟨info, hpre⟩ := processMsgPre_now input hstatus hbest offset
  have hscheduled := processMsgBest_now (d := d.processMsgPre offset input)
    (by rw [hpre]; exact hstatus) (by rw [hpre]; exact hbest) (by rw [hpre]; exact hsound)
  rw [hpre] at hscheduled
  set energy := if d.vtWord.leftSilCheck || d.vtWord.rightSilCheck then d.frmIdCur
    else d.frmIdEnergy with henergyDef
  have hle : energy ≤ d.frmIdCur := by
    rw [henergyDef]
    split_ifs <;> omega
  have hloud : d.frmIdCur = energy →
      (d.vtWord.leftSilCheck || d.vtWord.rightSilCheck) = true := by
    intro hsame
    by_contra hno
    rw [henergyDef, if_neg hno] at hsame
    omega
  unfold checkStatus
  rw [hpre, hscheduled]
  obtain ⟨info', hchecks⟩ := runChecks_now (d := { d with
    calls := d.calls ++ if d.dsCb then [d.secSlCall offset] else []
    detInfo := info
    frmIdEnergy := energy
    frmIdLeftSil := d.frmIdCur
    frmIdCfCheck := d.frmIdCur
    frmIdRightSil := d.frmIdCur + d.vtWord.wait }) input aec hstatus rfl rfl hle hloud
  refine ⟨info', energy, hle, _, rfl, ?_⟩
  rcases hchecks with hfail | hdecided | ⟨hlater, hopen⟩
  · exact .inl hfail
  · exact .inr (.inl hdecided)
  · exact .inr (.inr ⟨fun hzero ↦ hlater (by simp [hzero]), hopen⟩)

/-- The crossing frame follows the automaton. -/
theorem crossing_reports (hstatus : d.status = .process) (hbest : d.frmIdCur = d.frmIdBest)
    (hcur : 0 ≤ d.frmIdCur) (henergy : d.frmIdEnergy = -1) (hstart : d.frmIdStart ≤ d.frmIdCur)
    (hsound : d.vtWord.Sound) (hasserts : d.assertsHeld = true) (offset : ℤ) :
    ∃ q, Reports 1 .idle d q
      ({ (d.checkStatus offset input aec).1 with
          frmIdCur := (d.checkStatus offset input aec).1.frmIdCur + 1 },
        (d.checkStatus offset input aec).2) := by
  have hvalid : ∀ call ∈ (if d.dsCb then [d.secSlCall offset] else []), call.Valid := by
    intro call hcall
    split_ifs at hcall
    · rw [List.mem_singleton.mp hcall]
      exact valid_secSlCall hstart hsound offset
    · cases hcall
  obtain ⟨info, energy, hle, e, rfl, hcase⟩ := checkStatus_now input aec hstatus hbest hcur henergy
    hsound offset
  rcases hcase with ⟨det, hout⟩ | ⟨cmd, hout⟩ | ⟨hwait, hout⟩
  · rw [hout]
    exact ⟨.done, ⟨hsound, hasserts, rfl⟩, .failed 1 det, rfl, rfl, _, rfl, hvalid, fun _ ↦ rfl⟩
  · rw [hout]
    exact ⟨.done, ⟨hsound, hasserts, rfl⟩, .decided 1 cmd, rfl, rfl, _, rfl, hvalid, fun _ ↦ rfl⟩
  · rw [hout]
    obtain ⟨rest, hrest⟩ := Nat.exists_eq_succ_of_ne_zero hwait
    have hlt : rest < d.vtWord.wait := by omega
    refine ⟨.pending rest, ⟨hsound, hasserts, hstatus, ?_, ?_, ?_, ?_, ?_, ?_, hlt⟩,
      .opened 1 hlt, rfl, rfl, _, rfl, hvalid, fun _ ↦ rfl⟩ <;> dsimp only <;> omega

/-- Every frame follows the automaton. -/
theorem At.processFrm {p : Phase} (h : At p d) (offset : ℤ) :
    ∃ q, Reports 1 p d q (d.processFrm offset input aec) := by
  obtain ⟨hsound, hasserts, hplace⟩ := h
  unfold VtDet.processFrm
  cases p with
  | idle =>
      obtain ⟨hstatus, hbest, henergy, hcur⟩ := hplace
      rw [if_pos ⟨hbest, .inr hstatus⟩]
      unfold updateFrmScore
      dsimp only
      split_ifs with hcross
      · obtain ⟨q, hphase, hmoves, hword, haddr, hcalls⟩ := crossing_reports (d := { d with
          candScoreLast := input.candScore, status := .process, frmIdPre := d.frmIdCur,
          frmIdBest30 := d.frmIdCur, frmIdBest := d.frmIdCur,
          frmIdStart := d.frmIdCur - input.bestLen }) input aec rfl rfl hcur henergy
          (by dsimp only; omega) hsound hasserts offset
        exact ⟨q, hphase, hmoves, hword, haddr, hcalls⟩
      · -- still below the threshold, or above it before
        rw [checkStatus_ready input aec (d := { d with candScoreLast := input.candScore }) hstatus]
        exact ⟨.idle, ⟨hsound, hasserts, hstatus, hbest, henergy, Int.le_add_one hcur⟩, .idle 1,
          rfl, rfl, [], by simp⟩
  | pending left =>
      have hpending : At (.pending left) d := ⟨hsound, hasserts, hplace⟩
      obtain ⟨hstatus, hbest, hcur, hleft, hcf, henergy, hright, hwait⟩ := hplace
      rw [if_neg (by omega)]
      dsimp only
      rcases hpending.checkStatus_pending input aec offset with ⟨hzero, hout⟩ | ⟨cmd, hout⟩
      · rw [hout]
        obtain ⟨rest, rfl⟩ := Nat.exists_eq_succ_of_ne_zero hzero
        have hwait' : rest < d.vtWord.wait := Nat.lt_of_succ_lt hwait
        refine ⟨.pending rest, ⟨hsound, hasserts, hstatus, hbest, ?_, hleft, hcf, henergy, ?_,
          hwait'⟩, .waiting 1 rest, rfl, rfl, [], by simp⟩ <;> dsimp only <;> omega
      · rw [hout]
        exact ⟨.done, ⟨hsound, hasserts, rfl⟩, .closed 1 left cmd, rfl, rfl, [], by simp⟩
  | done =>
      have hstatus : d.status = .finish := hplace
      rw [if_neg (by simp [hstatus])]
      dsimp only
      rw [checkStatus_finish input aec hstatus]
      exact ⟨.done, ⟨hsound, hasserts, hstatus⟩, .done 1, rfl, rfl, [], by simp⟩

end Frame

/-! ## A batch -/

theorem processFrms_cons (aec : Bool) (d : VtDet) (input : FrmIn) (inputs : List FrmIn) :
    VtDet.processFrms aec d (input :: inputs) =
      ((VtDet.processFrms aec (d.processFrm (inputs.length + 1) input aec).1 inputs).1,
        (d.processFrm (inputs.length + 1) input aec).2 |||
          (VtDet.processFrms aec (d.processFrm (inputs.length + 1) input aec).1 inputs).2) := by
  rw [VtDet.processFrms]

/-- The loop of `ProcessScore` follows the automaton. -/
theorem At.processFrms (aec : Bool) (inputs : List FrmIn) {p : Phase} {d : VtDet} (h : At p d) :
    ∃ q, Reports inputs.length p d q (processFrms aec d inputs) := by
  induction inputs generalizing p d with
  | nil => exact ⟨p, h.reports⟩
  | cons input inputs ih =>
      obtain ⟨q, hfirst⟩ := h.processFrm input aec (inputs.length + 1)
      obtain ⟨r, hrest⟩ := ih hfirst.phase
      refine ⟨r, ?_⟩
      rw [List.length_cons, Nat.add_comm, processFrms_cons]
      exact hfirst.trans hrest

/-- The end of the voice closes an open detection. -/
theorem At.processVadEnd (endIn : FrmIn) (aec : Bool) {p : Phase} {d : VtDet} (h : At p d) :
    ∃ q, Reports 0 p d q (d.processVadEnd endIn aec) := by
  obtain ⟨hsound, hasserts, hplace⟩ := h
  have hsame : At p d := ⟨hsound, hasserts, hplace⟩
  unfold VtDet.processVadEnd
  cases p with
  | idle =>
      rw [if_neg (by simp [hplace.1])]
      exact ⟨.idle, hsame.reports⟩
  | pending left =>
      obtain ⟨hstatus, hbest, -⟩ := hplace
      rw [if_pos hstatus, if_neg (by omega)]
      dsimp only
      split_ifs
      · rw [VtResult.none_or, noCmd_eq_decision]
        exact ⟨.done, ⟨hsound, hasserts, rfl⟩, .closed 0 left _, rfl, rfl, [], by simp⟩
      · exact ⟨.pending left, hsame.reports⟩
  | done =>
      have hstatus : d.status = .finish := hplace
      rw [if_neg (by simp [hstatus])]
      exact ⟨.done, hsame.reports⟩

/-- **A detector follows its automaton.** In every batch of score frames and with every outcome of
the checks. -/
theorem At.processScore {p : Phase} {d : VtDet} (h : At p d) (inputs : List FrmIn) (endIn : FrmIn)
    (vadEnd aec : Bool) :
    ∃ q, Reports inputs.length p { d with calls := [] } q
      (d.processScore inputs endIn vadEnd aec) := by
  have hclear : At p { d with calls := [] } := by
    refine ⟨h.sound, h.assertsHeld, ?_⟩
    cases p <;> exact h.place
  obtain ⟨q, hloop⟩ := hclear.processFrms aec inputs
  unfold VtDet.processScore
  dsimp only
  split_ifs
  · obtain ⟨r, hend⟩ := hloop.phase.processVadEnd endIn aec
    exact ⟨r, hloop.trans hend⟩
  · exact ⟨q, hloop⟩

/-- `Reset` makes a detector idle. -/
theorem At.reset {p : Phase} {d : VtDet} (h : At p d) : At .idle d.reset :=
  ⟨h.sound, h.assertsHeld, rfl, rfl, rfl, le_rfl⟩

/-- Exactly a finished detector asks for a reset. -/
theorem At.isNeedReset_iff {p : Phase} {d : VtDet} (h : At p d) :
    d.isNeedReset = true ↔ p = .done := by
  have hplace := h.place
  cases p with
  | idle => simp [isNeedReset, hplace.1]
  | pending left => simp [isNeedReset, hplace.1]
  | done =>
      have hstatus : d.status = .finish := hplace
      simp [isNeedReset, hstatus]

/-! ## The phase read off the fields -/

/-- The phase of a detector. -/
def phase (d : VtDet) : Phase :=
  match d.status with
  | .ready => .idle
  | .process => .pending (d.frmIdRightSil - d.frmIdCur).toNat
  | .finish => .done

theorem At.phase_eq {p : Phase} {d : VtDet} (h : At p d) : d.phase = p := by
  have hplace := h.place
  cases p with
  | idle => simp [VtDet.phase, hplace.1]
  | pending left =>
      obtain ⟨hstatus, -, -, -, -, -, hright, -⟩ := hplace
      simp [VtDet.phase, hstatus, hright]
  | done =>
      have hstatus : d.status = .finish := hplace
      simp [VtDet.phase, hstatus]

/-- A detector as `ZVtMem` keeps it. -/
def Valid (d : VtDet) : Prop := At d.phase d

theorem At.valid {p : Phase} {d : VtDet} (h : At p d) : d.Valid := by
  rw [Valid, h.phase_eq]
  exact h

/-- A new detector is idle. -/
theorem valid_new {word : ZVtWord} (hsound : word.Sound) (addr : ℕ) (dsCb : Bool) :
    ({ vtWord := word, addr := addr, dsCb := dsCb } : VtDet).Valid :=
  At.valid (p := .idle) ⟨hsound, rfl, rfl, rfl, rfl, le_rfl⟩

/-- What one batch does to a valid detector. -/
structure Batch (frames : ℕ) (d : VtDet) (out : VtDet × VtResult) : Prop where
  valid : out.1.Valid
  moves : Moves d.vtWord.wait frames d.phase out.1.phase out.2
  word : out.1.vtWord = d.vtWord
  addr : out.1.addr = d.addr
  calls_valid : ∀ call ∈ out.1.calls, call.Valid
  calls_idle : out.1.calls ≠ [] → d.phase = .idle

theorem Valid.processScore {d : VtDet} (h : d.Valid) (inputs : List FrmIn) (endIn : FrmIn)
    (vadEnd aec : Bool) :
    Batch inputs.length d (d.processScore inputs endIn vadEnd aec) := by
  obtain ⟨q, hphase, hmoves, hword, haddr, more, hcalls, hvalid, hidle⟩ :=
    At.processScore h inputs endIn vadEnd aec
  rw [List.nil_append] at hcalls
  refine ⟨hphase.valid, ?_, hword, haddr, ?_, ?_⟩
  · rw [hphase.phase_eq]
    exact hmoves
  · rw [hcalls]
    exact hvalid
  · rw [hcalls]
    exact hidle

/-- What `Detect` does to a detector before the batch. -/
theorem Valid.resetFinished {d : VtDet} (h : d.Valid) :
    (if d.isNeedReset then d.reset else d).Valid ∧
      (if d.isNeedReset then d.reset else d).phase =
        if d.phase = .done then .idle else d.phase := by
  by_cases hdone : d.phase = .done
  · rw [if_pos (h.isNeedReset_iff.mpr hdone), if_pos hdone]
    exact ⟨h.reset.valid, h.reset.phase_eq⟩
  · rw [if_neg fun hneed ↦ hdone (h.isNeedReset_iff.mp hneed), if_neg hdone]
    exact ⟨h, rfl⟩

end VtDet

end Vsys.Vt
