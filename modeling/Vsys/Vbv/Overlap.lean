import Mathlib.Tactic.Linarith
import Vsys.Vbv.Mem

/-!
# Overlapping detections

All detectors share one beam former and one buffer, and all of them run on every batch, also while
the detection of one is open.  A word with a check for silence on the right keeps its detection
open over later calls; if another word crosses its threshold meanwhile, its detector calls back,
finds the buffer in use, and the callback's assertion fails.

`callback_free_iff` says that this can happen for a word list exactly if it has two words and one
of them is checked for silence on the right.
-/

namespace Vsys.Vbv

open Vsys.Vt

namespace VbvMem

/-- The detectors are those of the word list, once they are built. -/
structure Built (words : List WordInfo) (m : VtMem) : Prop where
  ptrs : m.vtWordLst.map VtWordPtr.word = words.map ZVtWord.ofInfo
  dets : m.vtDetLst = [] ∨ m.vtDetLst.map VtDet.vtWord = words.map ZVtWord.ofInfo

theorem map_word_parseWordTriPhoLst (nextAddr : ℕ) (words : List WordInfo) :
    (VtMem.parseWordTriPhoLst nextAddr words).map VtWordPtr.word = words.map ZVtWord.ofInfo := by
  refine List.ext_getElem? fun i ↦ ?_
  rw [List.getElem?_map, List.getElem?_map, VtMem.parseWordTriPhoLst, List.getElem?_mapIdx,
    Option.map_map]
  rfl

theorem built_create (words : List WordInfo) : Built words (create words).vt := by
  refine ⟨?_, .inl (VtMem.setWords_detectors _ words).1⟩
  cases words with
  | nil => rfl
  | cons info words =>
      have hlength : (VtMem.parseWordTriPhoLst 0 (info :: words)).length =
        (info :: words).length := List.length_mapIdx
      refine Eq.trans ?_ (map_word_parseWordTriPhoLst 0 (info :: words))
      simp only [create, VtMem.setWords, VtMem.create, VtMem.delete, hlength]
      rfl

theorem Built.checkWordsChanged {words : List WordInfo} {m : VtMem} (h : Built words m) :
    Built words m.checkWordsChanged := by
  unfold VtMem.checkWordsChanged
  split_ifs
  · refine ⟨h.ptrs, .inr ?_⟩
    rw [List.map_map, ← h.ptrs]
    rfl
  · exact h

theorem ofWord_vtWord : VtMem.OfWord VtDet.vtWord := fun _ _ hword _ ↦ hword

theorem Built.detect {words : List WordInfo} {m : VtMem} (h : Built words m) (hinv : m.Inv)
    (input : DetectIn) : Built words (m.detect input).mem := by
  have hchecked := h.checkWordsChanged
  unfold VtMem.detect
  dsimp only
  split_ifs
  · exact hchecked
  · have hreset := hinv.checkWordsChanged.1.resetFinished.1
    have hwords := hreset.map_runBatch ofWord_vtWord input
    rw [VtMem.map_resetFinished ofWord_vtWord] at hwords
    refine ⟨hchecked.ptrs, ?_⟩
    rw [hwords, ← List.map_eq_nil_iff, hwords]
    rcases hchecked.dets with hnil | hdets
    · exact .inl (by rw [hnil]; rfl)
    · exact .inr hdets

/-- No two words, or no word that is checked for silence on the right. -/
def NoOverlap (words : List WordInfo) : Prop :=
  words.length ≤ 1 ∨ ∀ info ∈ words, info.rightSilDet = false

instance (words : List WordInfo) : Decidable (NoOverlap words) :=
  inferInstanceAs (Decidable (_ ∨ _))

/-- Under such a list nobody calls back while a detection is open. -/
theorem Built.calls_eq_nil {words : List WordInfo} {m : VtMem} (h : Built words m) (hinv : m.Inv)
    (hwords : NoOverlap words) (hopen : m.opened = true) (input : DetectIn) :
    (m.detect input).calls = [] := by
  rcases hwords with hone | hnone
  · by_contra hcalls
    obtain ⟨d, hd, hidle⟩ := hinv.idle_of_calls hcalls
    rw [← hinv.opened_resetFinished] at hopen
    obtain ⟨d', hd', left, -, hpending, -⟩ :=
      hinv.checkWordsChanged.1.resetFinished.1.pending_of_opened hopen
    -- there is only one detector, and it cannot be both idle and pending
    have hlength : m.checkWordsChanged.resetFinished.vtDetLst.length ≤ 1 := by
      rw [← List.length_map VtDet.vtWord, VtMem.map_resetFinished ofWord_vtWord]
      rcases h.checkWordsChanged.dets with hnil | hdets
      · simp [hnil]
      · rw [hdets, List.length_map]
        exact hone
    obtain ⟨only, honly⟩ := List.length_eq_one_iff.mp
      (Nat.le_antisymm hlength (List.length_pos_of_mem hd))
    rw [honly, List.mem_singleton] at hd hd'
    rw [hd] at hidle
    rw [hd', hidle] at hpending
    cases hpending
  · obtain ⟨d, hd, left, hleft, -, -⟩ := hinv.pending_of_opened hopen
    exfalso
    rcases h.dets with hnil | hdets
    · rw [hnil] at hd
      cases hd
    · have hword := List.mem_map_of_mem (f := VtDet.vtWord) hd
      rw [hdets] at hword
      obtain ⟨info, hinfo, hof⟩ := List.mem_map.mp hword
      rw [← hof, ZVtWord.wait_ofInfo, hnone info hinfo] at hleft
      exact Nat.not_lt_zero left hleft

theorem Built.vtProcess {words : List WordInfo} {s : VbvMem} (h : Built words s.vt) (hinv : Inv s)
    (input : VbvIn) : Built words (s.vtProcess input).1.vt := by
  unfold VbvMem.vtProcess
  split_ifs
  · exact h
  · exact h.detect hinv.vt _

/-- With such a list every run of `Process` goes through. -/
theorem Built.processes_ok {words : List WordInfo} (hwords : NoOverlap words) {s : VbvMem}
    (h : Built words s.vt) (hinv : Inv s) (inputs : List VbvIn) :
    ∃ s', s.processes inputs = .ok s' := by
  induction inputs generalizing s with
  | nil => exact ⟨s, rfl⟩
  | cons input inputs ih =>
      rcases hinv.process input with ⟨hworking, hcalls, -⟩ | ⟨-, out, hok, hafter, hvt⟩
      · exfalso
        apply hcalls
        unfold VbvMem.vtProcess
        split_ifs
        · rfl
        · exact h.calls_eq_nil hinv.vt hwords (hinv.working ▸ hworking) _
      · rw [processes, hok]
        exact ih (hvt ▸ h.vtProcess hinv input) hafter

/-! ## A run that overlaps -/

/-- A detector that the next crossing finds ready. -/
structure Primed (d : VtDet) : Prop where
  valid : d.Valid
  dsCb : d.dsCb = true
  idle : d.phase = .idle
  below : d.candScoreLast < d.vtWord.blockAvgScore

/-- A batch of one frame. -/
theorem processScore_singleton (d : VtDet) (input endIn : FrmIn) (aec : Bool) :
    d.processScore [input] endIn false aec =
      ({ d with calls := [] } : VtDet).processFrm 1 input aec := by
  simp [VtDet.processScore, VtDet.processFrms]

/-- A low score primes an idle detector and is not reported. -/
theorem primed_of_low {d : VtDet} (hvalid : d.Valid) (hcb : d.dsCb = true)
    (hidle : d.phase = .idle) (endIn : FrmIn) (aec : Bool) :
    Primed (d.processScore [scoreFrm d.vtWord false] endIn false aec).1 ∧
      (d.processScore [scoreFrm d.vtWord false] endIn false aec).2 = .none := by
  have hbatch := hvalid.processScore [scoreFrm d.vtWord false] endIn false aec
  have hplace : VtDet.Place .idle d := hidle ▸ hvalid.place
  obtain ⟨hstatus, hbest, -, -⟩ := hplace
  have hform : d.processScore [scoreFrm d.vtWord false] endIn false aec =
      ({ d with calls := [], candScoreLast := d.vtWord.blockAvgScore - 1,
                frmIdCur := d.frmIdCur + 1 }, .none) := by
    rw [processScore_singleton, VtDet.processFrm, if_pos ⟨hbest, .inr hstatus⟩]
    simp only [VtDet.updateFrmScore, scoreFrm, Bool.false_eq_true, ↓reduceIte]
    rw [if_neg fun h ↦ by linarith [h.2.2.2], VtDet.checkStatus_ready]
    exact hstatus
  rw [hform] at hbatch ⊢
  refine ⟨⟨hbatch.valid, hcb, ?_, ?_⟩, rfl⟩
  · simp [VtDet.phase, hstatus]
  · simp

/-- A primed detector in the frame of its crossing. -/
def crossed (d : VtDet) : VtDet :=
  { d with calls := [], candScoreLast := d.vtWord.blockAvgScore + 1, status := .process,
           frmIdPre := d.frmIdCur, frmIdBest30 := d.frmIdCur, frmIdBest := d.frmIdCur,
           frmIdStart := d.frmIdCur - 30 }

theorem Primed.processScore {d : VtDet} (h : Primed d) (endIn : FrmIn) (aec : Bool) :
    d.processScore [scoreFrm d.vtWord true] endIn false aec =
      let out := (crossed d).checkStatus 1 (scoreFrm d.vtWord true) aec
      ({ out.1 with frmIdCur := out.1.frmIdCur + 1 }, out.2) := by
  have hplace : VtDet.Place .idle d := h.idle ▸ h.valid.place
  obtain ⟨hstatus, hbest, -, -⟩ := hplace
  rw [processScore_singleton, VtDet.processFrm, if_pos ⟨hbest, .inr hstatus⟩]
  have hupdate : ({ d with calls := [] } : VtDet).updateFrmScore (scoreFrm d.vtWord true) =
      crossed d := by
    have hbelow := h.below
    unfold VtDet.updateFrmScore crossed
    simp only [scoreFrm, ↓reduceIte]
    rw [if_pos ⟨hstatus, by linarith, hbelow, by linarith⟩]
    rfl
  rw [hupdate]

/-- A crossing calls back. -/
theorem Primed.calls_ne_nil {d : VtDet} (h : Primed d) (endIn : FrmIn) (aec : Bool) :
    (d.processScore [scoreFrm d.vtWord true] endIn false aec).1.calls ≠ [] := by
  have hplace : VtDet.Place .idle d := h.idle ▸ h.valid.place
  obtain ⟨-, -, henergy, hcur⟩ := hplace
  obtain ⟨info, energy, -, e, rfl, hcase⟩ := VtDet.checkStatus_now (d := crossed d)
    (scoreFrm d.vtWord true) aec rfl rfl hcur henergy h.valid.sound 1
  rw [h.processScore]
  have hcb : (crossed d).dsCb = true := h.dsCb
  rcases hcase with ⟨det, hout⟩ | ⟨cmd, hout⟩ | ⟨-, hout⟩ <;> rw [hout] <;> simp [hcb]

/-- A crossing of a word checked for silence on the right opens a detection. -/
theorem Primed.opening {d : VtDet} (h : Primed d) (hwait : d.vtWord.wait ≠ 0) (endIn : FrmIn)
    (aec : Bool) : (d.processScore [scoreFrm d.vtWord true] endIn false aec).2 = Vt.opening := by
  have hsound : (crossed d).vtWord.Sound := h.valid.sound
  obtain ⟨info, hpre⟩ := VtDet.processMsgPre_now (d := crossed d) (scoreFrm d.vtWord true) rfl rfl 1
  have hscheduled := VtDet.processMsgBest_now (d := (crossed d).processMsgPre 1
    (scoreFrm d.vtWord true)) (by rw [hpre]; rfl) (by rw [hpre]; rfl) (by rw [hpre]; exact hsound)
  rw [hpre] at hscheduled
  have hlater : ¬ (crossed d).frmIdCur = (crossed d).frmIdCur + (crossed d).vtWord.wait := by
    have hcrossed : (crossed d).vtWord.wait = d.vtWord.wait := rfl
    omega
  rw [h.processScore, VtDet.checkStatus, hpre, hscheduled]
  refine VtDet.runChecks_pass _ aec rfl rfl rfl hlater ?_ rfl ?_ rfl
  · exact lt_add_one d.vtWord.classifyNnetShield
  · norm_num [scoreFrm]

/-- One frame for all detectors: the word `who` crosses its threshold, the others stay below. -/
def scoreFrms (words : List WordInfo) (who : Option ℕ) (k : ℕ) : FrmIn :=
  words[k]?.elim default fun info ↦ scoreFrm (.ofInfo info) (decide (who = some k))

/-- One batch of audio with one such frame. -/
def overlapIn (words : List WordInfo) (who : Option ℕ) : VbvIn where
  lenNs := batchSize
  aec := false
  vadEnd := false
  frms := [scoreFrms words who]
  endIn := fun _ ↦ default

/-- A detector for every word, all of them idle except perhaps `busy`. -/
structure Waiting (words : List WordInfo) (busy : Option ℕ) (m : VtMem) : Prop where
  inv : m.Inv
  noChange : m.needChangeWord = false
  length : m.vtDetLst.length = words.length
  idle : ∀ k info, busy ≠ some k → words[k]? = some info → ∃ d, m.vtDetLst[k]? = some d ∧
    d.vtWord = .ofInfo info ∧ d.Valid ∧ d.dsCb = true ∧ d.phase = .idle

/-- What a detector that is still idle does in such a batch. -/
theorem Waiting.getElem?_processAll {words : List WordInfo} {busy : Option ℕ} {m : VtMem}
    (h : Waiting words busy m) (who : Option ℕ) {s : VbvMem} {k : ℕ} {info : WordInfo}
    (hk : busy ≠ some k) (hinfo : words[k]? = some info) :
    ∃ d, m.vtDetLst[k]? = some d ∧ d.vtWord = .ofInfo info ∧ d.Valid ∧ d.dsCb = true ∧
      d.phase = .idle ∧
      (VtMem.processAll m.resetFinished.vtDetLst (s.detectIn (overlapIn words who)))[k]? =
        some (d.processScore [scoreFrm d.vtWord (decide (who = some k))] default false false) := by
  obtain ⟨d, hd, hword, hvalid, hcb, hidle⟩ := h.idle k info hk hinfo
  have hneed : d.isNeedReset = false := by
    rw [← Bool.not_eq_true]
    intro hreset
    have hdone := (VtDet.At.isNeedReset_iff hvalid).mp hreset
    rw [hidle] at hdone
    cases hdone
  refine ⟨d, hd, hword, hvalid, hcb, hidle, ?_⟩
  rw [VtMem.processAll, List.getElem?_mapIdx, VtMem.getElem?_resetFinished, hd]
  simp [hneed, detectIn, overlapIn, scoreFrms, hinfo, hword]

theorem wavLen_overlapIn (s : VbvMem) (words : List WordInfo) (who : Option ℕ) :
    ¬ (s.detectIn (overlapIn words who)).wavLen ≤ 0 := by
  have hbatch : batchSize ≤ s.lenTotal (overlapIn words who) := Nat.le_add_left _ _
  have hpos : 0 < s.lenTotal (overlapIn words who) / batchSize * batchSize :=
    Nat.mul_pos (Nat.div_pos hbatch (by decide)) (by decide)
  simp only [detectIn]
  omega

/-- The call itself. -/
theorem Waiting.vtProcess {words : List WordInfo} {busy : Option ℕ} {s : VbvMem}
    (h : Waiting words busy s.vt) (who : Option ℕ) :
    (s.vtProcess (overlapIn words who)).1.vt =
        (s.vt.resetFinished.runBatch (s.detectIn (overlapIn words who))).mem ∧
      (s.vtProcess (overlapIn words who)).2.2 =
        (s.vt.resetFinished.runBatch (s.detectIn (overlapIn words who))).calls := by
  have hkeep : s.vt.checkWordsChanged = s.vt := if_neg (by simp [h.noChange])
  have hlen : ¬ (overlapIn words who).lenNs = 0 := by simp [overlapIn, batchSize]
  rw [VbvMem.vtProcess, if_neg hlen, VtMem.detect, hkeep, if_neg (wavLen_overlapIn s words who)]
  exact ⟨rfl, rfl⟩

/-- The detector of a word is there and primed. -/
def PrimedAt (m : VtMem) (k : ℕ) (info : WordInfo) : Prop :=
  ∃ d, m.vtDetLst[k]? = some d ∧ d.vtWord = .ofInfo info ∧ Primed d

/-- A detector that stays below its threshold is primed afterwards and reports nothing. -/
theorem Waiting.low {words : List WordInfo} {busy : Option ℕ} {s : VbvMem}
    (h : Waiting words busy s.vt) (who : Option ℕ) {k : ℕ} {info : WordInfo}
    (hbusy : busy ≠ some k) (hwho : who ≠ some k) (hinfo : words[k]? = some info) :
    PrimedAt (s.vt.resetFinished.runBatch (s.detectIn (overlapIn words who))).mem k info ∧
      ∃ out, (VtMem.processAll s.vt.resetFinished.vtDetLst
        (s.detectIn (overlapIn words who)))[k]? = some out ∧ out.2 = .none := by
  obtain ⟨d, -, hword, hvalid, hcb, hidle, hout⟩ := h.getElem?_processAll who hbusy hinfo
  rw [decide_eq_false hwho] at hout
  obtain ⟨hprimed, hrt⟩ := primed_of_low hvalid hcb hidle default false
  refine ⟨⟨_, ?_, ?_, hprimed⟩, _, hout, hrt⟩
  · rw [VtMem.runBatch, List.getElem?_map, hout, Option.map_some]
  · rw [(hvalid.processScore _ default false false).word]
    exact hword

/-- A call made while no detector is selected goes through. -/
theorem Waiting.process {words : List WordInfo} {busy : Option ℕ} {s : VbvMem}
    (h : Waiting words busy s.vt) (hinv : Inv s) (hclosed : s.vt.curVtDetId = none)
    (who : Option ℕ) :
    ∃ out, s.process (overlapIn words who) = .ok out ∧ Inv out.1 ∧
      out.1.vt = (s.vt.resetFinished.runBatch (s.detectIn (overlapIn words who))).mem ∧
      out.1.vt.needChangeWord = false ∧ out.1.vt.vtDetLst.length = words.length := by
  have hfree : s.working = false := hinv.working.trans (VtMem.opened_of_cur_none hclosed)
  rcases hinv.process (overlapIn words who) with ⟨hbusy, -⟩ | ⟨-, out, hok, hafter, hvt⟩
  · exact absurd (hfree.symm.trans hbusy) (by decide)
  · rw [(h.vtProcess who).1] at hvt
    refine ⟨out, hok, hafter, hvt, by rw [hvt]; exact h.noChange, ?_⟩
    rw [hvt, ← h.length]
    simp [VtMem.runBatch, VtMem.processAll, VtMem.resetFinished]

/-- The index of a detector is the index of a word. -/
theorem Waiting.exists_info {words : List WordInfo} {busy : Option ℕ} {m : VtMem}
    (h : Waiting words busy m) {input : DetectIn} {out : VtDet × VtResult} {k : ℕ}
    (hout : (VtMem.processAll m.resetFinished.vtDetLst input)[k]? = some out) :
    ∃ info, words[k]? = some info := by
  obtain ⟨hk, -⟩ := List.getElem?_eq_some_iff.mp hout
  rw [VtMem.processAll, List.length_mapIdx, VtMem.resetFinished, List.length_map, h.length] at hk
  exact ⟨_, List.getElem?_eq_getElem hk⟩

/-- Nobody but the word that crosses its threshold reports anything. -/
theorem Waiting.quiet {words : List WordInfo} {s : VbvMem} (h : Waiting words none s.vt)
    (who : Option ℕ) {k : ℕ} {result : VtDet × VtResult} (hwho : who ≠ some k)
    (hresult : (VtMem.processAll s.vt.resetFinished.vtDetLst
      (s.detectIn (overlapIn words who)))[k]? = some result) : result.2 = .none := by
  obtain ⟨info, hinfo⟩ := h.exists_info hresult
  obtain ⟨-, out, hout, hquiet⟩ := h.low who nofun hwho hinfo
  rw [hresult, Option.some.injEq] at hout
  rw [hout, hquiet]

/-- Primed detectors are waiting. -/
theorem waiting_of_primed {words : List WordInfo} {busy : Option ℕ} {m : VtMem} (hinv : m.Inv)
    (hchange : m.needChangeWord = false) (hlength : m.vtDetLst.length = words.length)
    (hprimed : ∀ k info, busy ≠ some k → words[k]? = some info → PrimedAt m k info) :
    Waiting words busy m where
  inv := hinv
  noChange := hchange
  length := hlength
  idle := by
    intro k info hk hinfo
    obtain ⟨d, hd, hword, hready⟩ := hprimed k info hk hinfo
    exact ⟨d, hd, hword, hready.valid, hready.dsCb, hready.idle⟩

theorem cur_resetFinished {m : VtMem} (hclosed : m.curVtDetId = none) :
    m.resetFinished.curVtDetId = none := by
  simp [VtMem.resetFinished, hclosed]

/-- A first low frame primes every detector. -/
theorem Waiting.first {words : List WordInfo} {s : VbvMem} (h : Waiting words none s.vt)
    (hinv : Inv s) (hclosed : s.vt.curVtDetId = none) :
    ∃ out, s.process (overlapIn words none) = .ok out ∧ Inv out.1 ∧
      Waiting words none out.1.vt ∧ out.1.vt.curVtDetId = none ∧
      ∀ k info, words[k]? = some info → PrimedAt out.1.vt k info := by
  obtain ⟨out, hok, hafter, hvt, hchange, hlength⟩ := h.process hinv hclosed none
  have hprimed : ∀ k info, words[k]? = some info → PrimedAt out.1.vt k info := by
    intro k info hinfo
    rw [hvt]
    exact (h.low none (by simp) (by simp) hinfo).1
  have hwaiting : Waiting words none out.1.vt :=
    waiting_of_primed hafter.vt hchange hlength fun k info _ ↦ hprimed k info
  refine ⟨out, hok, hafter, hwaiting, ?_, hprimed⟩
  have hreset := cur_resetFinished hclosed
  have hnone : ((VtMem.processAll s.vt.resetFinished.vtDetLst
      (s.detectIn (overlapIn words none))).map Prod.snd).findIdx? VtResult.pre = none := by
    rw [List.findIdx?_eq_none_iff]
    intro rt hrt
    obtain ⟨result, hresult, rfl⟩ := List.mem_map.mp hrt
    obtain ⟨k, hk⟩ := List.mem_iff_getElem?.mp hresult
    rw [h.quiet none nofun hk]
    rfl
  rw [hvt]
  simp only [VtMem.runBatch, hreset, hnone]
  rfl

/-- Then one of them opens a detection that stays open. -/
theorem Waiting.second {words : List WordInfo} {s : VbvMem} (h : Waiting words none s.vt)
    (hinv : Inv s) (hclosed : s.vt.curVtDetId = none) {i : ℕ} {info : WordInfo}
    (hinfo : words[i]? = some info) (hprimed : PrimedAt s.vt i info)
    (hright : info.rightSilDet = true) :
    ∃ out, s.process (overlapIn words (some i)) = .ok out ∧ Inv out.1 ∧
      out.1.working = true ∧ Waiting words (some i) out.1.vt ∧
      ∀ k info, i ≠ k → words[k]? = some info → PrimedAt out.1.vt k info := by
  obtain ⟨out, hok, hafter, hvt, hchange, hlength⟩ := h.process hinv hclosed (some i)
  have hrest : ∀ k info, i ≠ k → words[k]? = some info → PrimedAt out.1.vt k info := by
    intro k info hk hinfo
    rw [hvt]
    exact (h.low (some i) (by simp) (by simpa using hk) hinfo).1
  have hwaiting : Waiting words (some i) out.1.vt :=
    waiting_of_primed hafter.vt hchange hlength fun k info hk ↦ hrest k info (by simpa using hk)
  refine ⟨out, hok, hafter, ?_, hwaiting, hrest⟩
  obtain ⟨d, hd, hword, hready⟩ := hprimed
  obtain ⟨d', hd', -, -, -, -, hresult⟩ := h.getElem?_processAll (s := s) (some i) (by simp) hinfo
  rw [hd, Option.some.injEq] at hd'
  rw [← hd', decide_eq_true rfl] at hresult
  have hwait : d.vtWord.wait ≠ 0 := by
    rw [hword, ZVtWord.wait_ofInfo, hright]
    decide
  have hopening := hready.opening hwait default false
  have hmoves := (hready.valid.processScore [scoreFrm d.vtWord true] default false false).moves
  rw [hopening] at hmoves
  obtain ⟨left, hleft⟩ := hmoves.pending_of_opening
  generalize d.processScore [scoreFrm d.vtWord true] default false false = result at *
  -- the others report nothing, so this detector is the one that is selected
  have hfind : ((VtMem.processAll s.vt.resetFinished.vtDetLst
      (s.detectIn (overlapIn words (some i)))).map Prod.snd).findIdx? VtResult.pre = some i := by
    obtain ⟨hi, hget⟩ := List.getElem?_eq_some_iff.mp hresult
    rw [List.findIdx?_eq_some_iff_getElem]
    refine ⟨by rwa [List.length_map], ?_, ?_⟩
    · rw [List.getElem_map, hget, hopening]
      rfl
    · intro k hk
      rw [List.getElem_map, h.quiet (some i) (by simpa using hk.ne')
        (List.getElem?_eq_getElem (hk.trans hi))]
      decide
  obtain ⟨hcur, hd', -⟩ :=
    VtMem.selected_runBatch (by rw [cur_resetFinished hclosed]; exact hfind) hresult
  have hphase := VtMem.curPhase_of_selected hcur hd'
  rw [← hvt, hleft] at hphase
  rw [hafter.working]
  exact VtMem.opened_of_curPhase hphase

/-- And another one calls back. -/
theorem Waiting.third {words : List WordInfo} {i : ℕ} {s : VbvMem}
    (h : Waiting words (some i) s.vt) (hinv : Inv s) (hworking : s.working = true) {j : ℕ}
    {info : WordInfo} (hj : i ≠ j) (hinfo : words[j]? = some info)
    (hprimed : PrimedAt s.vt j info) :
    s.process (overlapIn words (some j)) = .error .secSlWorking := by
  rcases hinv.process (overlapIn words (some j)) with ⟨-, -, herror⟩ | ⟨hcalls, -⟩
  · exact herror
  · exfalso
    obtain ⟨d, hd, hword, hready⟩ := hprimed
    obtain ⟨d', hd', -, -, -, -, hresult⟩ := h.getElem?_processAll (s := s) (some j)
      (by simpa using hj) hinfo
    rw [hd, Option.some.injEq] at hd'
    rw [← hd', decide_eq_true rfl] at hresult
    have hnil := hcalls hworking
    rw [(h.vtProcess (some j)).2, VtMem.runBatch, List.flatMap_eq_nil_iff] at hnil
    refine hready.calls_ne_nil default false (hnil _ ?_)
    exact List.mem_map_of_mem (List.mem_of_getElem? hresult)

/-- The object of a word list once its detectors are built. -/
def built (words : List WordInfo) : VbvMem :=
  { create words with vt := (create words).vt.checkWordsChanged }

theorem inv_built (words : List WordInfo) : Inv (built words) := by
  obtain ⟨hinv, hphase⟩ := (inv_create words).vt.checkWordsChanged
  refine ⟨hinv, (inv_create words).working.trans ?_⟩
  rw [built, VtMem.opened, VtMem.opened, hphase]

/-- The first call builds them. -/
theorem process_create (words : List WordInfo) (input : VbvIn) (hlen : input.lenNs ≠ 0) :
    (create words).process input = (built words).process input := by
  have hidem : ∀ m : VtMem, m.checkWordsChanged.checkWordsChanged = m.checkWordsChanged := by
    intro m
    unfold VtMem.checkWordsChanged
    split_ifs <;> simp_all
  have hdetect : ∀ (m : VtMem) (input : DetectIn), m.checkWordsChanged.detect input =
      m.detect input := by
    intro m input
    rw [VtMem.detect, hidem, VtMem.detect]
  have hvt : (create words).vtProcess input = (built words).vtProcess input := by
    rw [VbvMem.vtProcess, VbvMem.vtProcess, if_neg hlen, if_neg hlen, built, hdetect]
    rfl
  rw [VbvMem.process, VbvMem.process, hvt]

theorem waiting_built {words : List WordInfo} (hwords : words ≠ []) :
    Waiting words none (built words).vt ∧ (built words).vt.curVtDetId = none := by
  have hpos : words.length > 0 := List.length_pos_iff.mpr hwords
  have hlength : (VtMem.parseWordTriPhoLst 0 words).length = words.length := List.length_mapIdx
  have hvt : (built words).vt.vtDetLst = (VtMem.parseWordTriPhoLst 0 words).map fun ptr ↦
      { vtWord := ptr.word, addr := ptr.addr, dsCb := true } := by
    simp [built, create, VtMem.setWords, VtMem.create, VtMem.delete, VtMem.checkWordsChanged,
      hlength, hpos]
  have hrest : (built words).vt.needChangeWord = false ∧ (built words).vt.curVtDetId = none := by
    simp [built, create, VtMem.setWords, VtMem.create, VtMem.delete, VtMem.checkWordsChanged,
      hlength, hpos]
  refine ⟨⟨(inv_built words).vt, hrest.1, ?_, ?_⟩, hrest.2⟩
  · rw [hvt, List.length_map, hlength]
  · intro k info _ hinfo
    rw [hvt, List.getElem?_map, VtMem.parseWordTriPhoLst, List.getElem?_mapIdx, hinfo]
    exact ⟨_, rfl, rfl, VtDet.valid_new (ZVtWord.sound_ofInfo info) _ _, rfl, rfl⟩

/-- A word list with an overlap has a run in which the callback's assertion fails. -/
theorem exists_overlap {words : List WordInfo} (h : ¬ NoOverlap words) :
    ∃ inputs, (create words).processes inputs = .error .secSlWorking := by
  simp only [NoOverlap, not_or, not_le, not_forall] at h
  obtain ⟨htwo, info, hmem, hright⟩ := h
  rw [Bool.not_eq_false] at hright
  obtain ⟨i, hi⟩ := List.mem_iff_getElem?.mp hmem
  -- some other word
  obtain ⟨j, hj, other, hother⟩ : ∃ j, i ≠ j ∧ ∃ other, words[j]? = some other := by
    by_cases hzero : i = 0
    · exact ⟨1, by omega, _, List.getElem?_eq_getElem htwo⟩
    · exact ⟨0, hzero, _, List.getElem?_eq_getElem (Nat.zero_lt_of_lt htwo)⟩
  have hne : words ≠ [] := List.ne_nil_of_mem hmem
  obtain ⟨hwaiting, hclosed⟩ := waiting_built hne
  obtain ⟨first, hfirst, hinv, hwaiting, hclosed, hprimed⟩ :=
    hwaiting.first (inv_built words) hclosed
  obtain ⟨second, hsecond, hinv', hworking, hwaiting', hprimed'⟩ :=
    hwaiting.second hinv hclosed hi (hprimed i info hi) hright
  have hthird := hwaiting'.third hinv' hworking hj hother (hprimed' j other hj hother)
  refine ⟨[overlapIn words none, overlapIn words (some i), overlapIn words (some j)], ?_⟩
  rw [processes, process_create words _ (by simp [overlapIn, batchSize]), hfirst]
  change processes first.1 _ = _
  rw [processes, hsecond]
  change processes second.1 _ = _
  rw [processes, hthird]
  rfl

/-- **No callback during an open detection.** The callback's assertion holds in every run of
`Process` over a word list if and only if the list has at most one word or none of its words is
checked for silence on the right. -/
theorem callback_free_iff (words : List WordInfo) :
    (∀ inputs, (create words).processes inputs ≠ .error .secSlWorking) ↔
      words.length ≤ 1 ∨ ∀ info ∈ words, info.rightSilDet = false := by
  constructor
  · intro hfree
    by_contra hwords
    obtain ⟨inputs, hinputs⟩ := exists_overlap hwords
    exact hfree inputs hinputs
  · intro hwords inputs
    obtain ⟨s, hok⟩ := (built_create words).processes_ok hwords (inv_create words) inputs
    rw [hok]
    exact (nomatch ·)

/-- A wake word checked for silence on the right, and a second one that is not. -/
def twoWords : List WordInfo :=
  [⟨.awake, "ruoqi".toList, [], 4, 2, true, true, false, false, false, 0, []⟩,
    ⟨.hotword, "kaideng".toList, [], 4, 2, true, false, false, false, false, 0, []⟩]

/-- The second word crosses its threshold one frame after the first one. -/
theorem not_callback_free_twoWords :
    (create twoWords).processes
      [overlapIn twoWords none, overlapIn twoWords (some 0), overlapIn twoWords (some 1)] =
        .error .secSlWorking := by
  decide +kernel

end VbvMem

end Vsys.Vbv
