import Vsys.R2ad.Vbv3
import Vsys.Vt.Mem
import Vsys.Vt.Phase

/-!
# `Detect` follows the detection protocol

Several detectors run side by side, and any of them can open, fail or close a detection in any
batch.  `Detect` reports the bits of the selected one only.  It selects the first detector that
reports `PRE`, and lets go of it in the call after it has finished; so a detection is open exactly
while the selected detector is pending.  `Inv` says so, and the automaton of the single detector
does the rest.
-/

namespace Vsys.Vt

/-- A detection is open in this phase. -/
def Phase.isPending : Phase → Bool
  | .pending _ => true
  | _ => false

/-- What a selected detector reports follows the protocol. -/
theorem Moves.follows {wait frames : ℕ} {p q : Phase} {rt : VtResult}
    (h : Moves wait frames p q rt) (hpre : p = .idle → rt.pre = true) :
    rt.Follows p.isPending ∧ rt.next p.isPending = q.isPending := by
  cases h with
  | idle => exact absurd (hpre rfl) (by decide)
  | failed det => exact absurd (hpre rfl) (by simp)
  | opened hleft => exact ⟨by decide, rfl⟩
  | decided cmd => cases cmd <;> exact ⟨by decide, rfl⟩
  | waiting left => exact ⟨VtResult.follows_none _, VtResult.next_none _⟩
  | closed left cmd =>
      have hpending : (Phase.pending left).isPending = true := rfl
      rw [hpending]
      cases cmd <;> exact ⟨by decide, rfl⟩
  | done => exact ⟨VtResult.follows_none _, VtResult.next_none _⟩

/-- A detector that reports `PRE` was idle and is not any more. -/
theorem Moves.idle_of_pre {wait frames : ℕ} {p q : Phase} {rt : VtResult}
    (h : Moves wait frames p q rt) (hpre : rt.pre = true) : p = .idle ∧ q ≠ .idle := by
  cases h with
  | opened | decided => simp
  | idle | failed | waiting | closed | done =>
      simp [VtResult.none, decision] at hpre

/-- A detector that reports no more than an opening is left pending. -/
theorem Moves.pending_of_opening {wait frames : ℕ} {p q : Phase}
    (h : Moves wait frames p q opening) : ∃ left, q = .pending left := by
  generalize hrt : opening = rt at h
  cases h with
  | opened => exact ⟨_, rfl⟩
  | decided cmd => cases cmd <;> exact absurd hrt (by decide)
  | idle | waiting | done => exact absurd hrt (by decide)
  | failed det => cases det <;> exact absurd hrt (by decide)
  | closed left cmd => cases cmd <;> exact absurd hrt (by decide)

/-- A pending detector does not become idle again within a batch. -/
theorem Moves.ne_idle {wait frames left : ℕ} {q : Phase} {rt : VtResult}
    (h : Moves wait frames (.pending left) q rt) : q ≠ .idle := by
  cases h <;> simp

namespace VtMem

/-- The phase of the selected detector. -/
def curPhase (m : VtMem) : Option Phase :=
  (m.curVtDetId.bind fun i ↦ m.vtDetLst[i]?).map VtDet.phase

/-- A detection is open. -/
def opened (m : VtMem) : Bool := m.curPhase.any Phase.isPending

/-- The invariant of the engine. -/
structure Inv (m : VtMem) : Prop where
  detWords : ∀ d ∈ m.vtDetLst, ∃ info, d.vtWord = .ofInfo info
  dets : ∀ d ∈ m.vtDetLst, d.Valid
  cur : ∀ i, m.curVtDetId = some i → ∃ d, m.vtDetLst[i]? = some d ∧ d.phase ≠ .idle

theorem opened_of_curPhase {m : VtMem} {p : Phase} (h : m.curPhase = some p) :
    m.opened = p.isPending := by
  rw [opened, h]
  rfl

theorem opened_of_cur_none {m : VtMem} (h : m.curVtDetId = none) : m.opened = false := by
  simp [opened, curPhase, h]

theorem inv_create (dsCb : Bool) : Inv (create dsCb) :=
  ⟨by simp [create], by simp [create], by simp [create]⟩

/-- `SetWords` touches neither the detectors nor the selection. -/
theorem setWords_detectors (m : VtMem) (words : List WordInfo) :
    (m.setWords words).1.vtDetLst = m.vtDetLst ∧
      (m.setWords words).1.curVtDetId = m.curVtDetId := by
  unfold VtMem.setWords delete
  dsimp only
  split_ifs <;> exact ⟨rfl, rfl⟩

theorem Inv.setWords {m : VtMem} (h : Inv m) (words : List WordInfo) :
    Inv (m.setWords words).1 := by
  unfold VtMem.setWords delete
  dsimp only
  split_ifs <;> exact ⟨h.detWords, h.dets, h.cur⟩

theorem Inv.checkWordsChanged {m : VtMem} (h : Inv m) :
    Inv m.checkWordsChanged ∧ m.checkWordsChanged.curPhase = m.curPhase := by
  unfold VtMem.checkWordsChanged
  split_ifs with hchange
  · refine ⟨⟨?_, ?_, by simp⟩, by simp [curPhase, hchange.1]⟩
    · intro d hd
      obtain ⟨ptr, hptr, rfl⟩ := List.mem_map.mp hd
      exact ⟨ptr.info, rfl⟩
    · intro d hd
      obtain ⟨ptr, hptr, rfl⟩ := List.mem_map.mp hd
      exact VtDet.valid_new (ZVtWord.sound_ofInfo ptr.info) _ _
  · exact ⟨h, rfl⟩

theorem getElem?_resetFinished (m : VtMem) (i : ℕ) :
    m.resetFinished.vtDetLst[i]? =
      m.vtDetLst[i]?.map fun d ↦ if d.isNeedReset then d.reset else d :=
  List.getElem?_map ..

/-- The selection survives exactly if the selected detector is pending. -/
theorem Inv.cur_resetFinished {m : VtMem} (h : Inv m) {i : ℕ} (hcur : m.curVtDetId = some i)
    {d : VtDet} (hd : m.vtDetLst[i]? = some d) :
    m.resetFinished.curVtDetId = if d.phase = .done then none else some i := by
  have hneed := (h.dets d (List.mem_of_getElem? hd)).isNeedReset_iff
  by_cases hdone : d.phase = .done
  · rw [if_pos hdone]
    simp [VtMem.resetFinished, hcur, hd, Option.filter, hneed.mpr hdone]
  · have hnot : d.isNeedReset = false := by
      rw [← Bool.not_eq_true]
      exact fun hreset ↦ hdone (hneed.mp hreset)
    rw [if_neg hdone]
    simp [VtMem.resetFinished, hcur, hd, Option.filter, hnot]

/-- After the reset of the finished detectors the selected one, if any, is pending. -/
theorem Inv.resetFinished {m : VtMem} (h : Inv m) :
    Inv m.resetFinished ∧
      m.resetFinished.curPhase = m.curPhase.filter fun phase ↦ decide (phase ≠ .done) := by
  have hdets : ∀ d ∈ m.resetFinished.vtDetLst, (∃ info, d.vtWord = .ofInfo info) ∧ d.Valid := by
    intro d hd
    obtain ⟨old, hold, rfl⟩ := List.mem_map.mp hd
    refine ⟨?_, (h.dets old hold).resetFinished.1⟩
    obtain ⟨info, hinfo⟩ := h.detWords old hold
    refine ⟨info, ?_⟩
    split_ifs <;> exact hinfo
  cases hcur : m.curVtDetId with
  | none =>
      have hcur' : m.resetFinished.curVtDetId = none := by
        simp [VtMem.resetFinished, hcur]
      exact ⟨⟨fun d hd ↦ (hdets d hd).1, fun d hd ↦ (hdets d hd).2, by simp [hcur']⟩,
        by simp [curPhase, hcur, hcur']⟩
  | some i =>
      obtain ⟨d, hd, hidle⟩ := h.cur i hcur
      have hcur' := h.cur_resetFinished hcur hd
      obtain ⟨-, hphase⟩ := (h.dets d (List.mem_of_getElem? hd)).resetFinished
      refine ⟨⟨fun d hd ↦ (hdets d hd).1, fun d hd ↦ (hdets d hd).2, ?_⟩, ?_⟩
      · intro j hj
        rw [hcur'] at hj
        split_ifs at hj with hdone
        cases hj
        refine ⟨_, by rw [getElem?_resetFinished, hd, Option.map_some], ?_⟩
        rw [hphase, if_neg hdone]
        exact hidle
      · by_cases hdone : d.phase = .done
        · rw [if_pos hdone] at hcur'
          simp [curPhase, hcur, hcur', hd, hdone, Option.filter]
        · rw [if_neg hdone] at hcur' hphase
          simp [curPhase, hcur, hcur', hd, hdone, Option.filter, getElem?_resetFinished, hphase]

/-- Every detector goes through the batch. -/
theorem Inv.processAll {m : VtMem} (h : Inv m) (input : DetectIn) {i : ℕ} {d : VtDet}
    (hd : m.vtDetLst[i]? = some d) :
    ∃ out, (VtMem.processAll m.vtDetLst input)[i]? = some out ∧
      d.Batch input.frms.length out := by
  have hbatch := (h.dets d (List.mem_of_getElem? hd)).processScore (input.frms.map (· i))
    (input.endIn i) input.vadEnd input.aec
  rw [List.length_map] at hbatch
  exact ⟨_, by rw [VtMem.processAll, List.getElem?_mapIdx, hd, Option.map_some], hbatch⟩

/-- `f` sees nothing of a detector but its word. -/
def OfWord {α : Type*} (f : VtDet → α) : Prop :=
  ∀ d d' : VtDet, d'.vtWord = d.vtWord → d'.addr = d.addr → f d' = f d

/-- Resetting a detector leaves it with its word. -/
theorem map_resetFinished {α : Type*} {f : VtDet → α} (hf : OfWord f) (m : VtMem) :
    m.resetFinished.vtDetLst.map f = m.vtDetLst.map f := by
  rw [VtMem.resetFinished, List.map_map]
  refine List.map_congr_left fun d _ ↦ ?_
  rw [Function.comp_apply]
  split_ifs
  · exact hf d d.reset rfl rfl
  · rfl

/-- So does a batch. -/
theorem Inv.map_runBatch {α : Type*} {f : VtDet → α} (hf : OfWord f) {m : VtMem} (h : Inv m)
    (input : DetectIn) : (m.runBatch input).mem.vtDetLst.map f = m.vtDetLst.map f := by
  refine List.ext_getElem? fun i ↦ ?_
  rw [List.getElem?_map, List.getElem?_map, VtMem.runBatch, List.getElem?_map]
  cases hd : m.vtDetLst[i]? with
  | none =>
      rw [VtMem.processAll, List.getElem?_mapIdx, hd]
      rfl
  | some d =>
      obtain ⟨out, hout, hbatch⟩ := h.processAll input hd
      rw [hout, Option.map_some, Option.map_some, Option.map_some,
        hf d out.1 hbatch.word hbatch.addr]

/-- And every result comes from one of them. -/
theorem Inv.of_mem_processAll {m : VtMem} (h : Inv m) (input : DetectIn) {out : VtDet × VtResult}
    (hout : out ∈ VtMem.processAll m.vtDetLst input) :
    ∃ d ∈ m.vtDetLst, d.Batch input.frms.length out := by
  obtain ⟨i, hi, rfl⟩ := List.mem_mapIdx.mp hout
  have hbatch := (h.dets _ (List.getElem_mem hi)).processScore (input.frms.map (· i))
    (input.endIn i) input.vadEnd input.aec
  rw [List.length_map] at hbatch
  exact ⟨_, List.getElem_mem hi, hbatch⟩

/-- What one call of `Detect` reports: nothing, the opening of a detection, or the progress of an
open one. -/
inductive Detected (m : VtMem) (frames : ℕ) (out : DetectOut) : Prop
  | quiet (hclosed : m.opened = false) (hrt : out.rt = .none) (hafter : out.mem.opened = false)
  | fresh {wait : ℕ} {q : Phase} (hclosed : m.opened = false) (hpre : out.rt.pre = true)
      (hmoves : Moves wait frames .idle q out.rt) (hafter : out.mem.curPhase = some q)
  | kept {wait left : ℕ} {q : Phase} (hopen : m.curPhase = some (.pending left))
      (hmoves : Moves wait frames (.pending left) q out.rt) (hafter : out.mem.curPhase = some q)

/-- What a batch leaves when a detector is selected. -/
theorem selected_runBatch {m : VtMem} {input : DetectIn} {i : ℕ} {out : VtDet × VtResult}
    (hcur : (m.curVtDetId.orElse fun _ ↦
      ((VtMem.processAll m.vtDetLst input).map Prod.snd).findIdx? VtResult.pre) = some i)
    (hout : (VtMem.processAll m.vtDetLst input)[i]? = some out) :
    (m.runBatch input).mem.curVtDetId = some i ∧
      (m.runBatch input).mem.vtDetLst[i]? = some out.1 ∧ (m.runBatch input).rt = out.2 := by
  refine ⟨hcur, ?_, ?_⟩
  · simp [VtMem.runBatch, hout]
  · simp only [VtMem.runBatch, hcur]
    simp [hout]

theorem curPhase_of_selected {m : VtMem} {i : ℕ} {d : VtDet} (hcur : m.curVtDetId = some i)
    (hd : m.vtDetLst[i]? = some d) : m.curPhase = some d.phase := by
  rw [curPhase, hcur, Option.bind_some, hd, Option.map_some]

/-- A batch keeps the words and the detectors, so only the selected detector has to be looked at. -/
theorem Inv.runBatch_of_cur {m : VtMem} (h : Inv m) {input : DetectIn}
    (hcur : ∀ i, (m.runBatch input).mem.curVtDetId = some i →
      ∃ d, (m.runBatch input).mem.vtDetLst[i]? = some d ∧ d.phase ≠ .idle) :
    Inv (m.runBatch input).mem := by
  have hdets : ∀ d ∈ (m.runBatch input).mem.vtDetLst,
      (∃ info, d.vtWord = .ofInfo info) ∧ d.Valid := by
    intro d hd
    obtain ⟨out, hout, rfl⟩ := List.mem_map.mp hd
    obtain ⟨old, hold, hbatch⟩ := h.of_mem_processAll input hout
    exact ⟨hbatch.word ▸ h.detWords old hold, hbatch.valid⟩
  exact ⟨fun d hd ↦ (hdets d hd).1, fun d hd ↦ (hdets d hd).2, hcur⟩

theorem Inv.runBatch_of_selected {m : VtMem} (h : Inv m) {input : DetectIn} {i : ℕ} {d : VtDet}
    (hcur : (m.runBatch input).mem.curVtDetId = some i)
    (hd : (m.runBatch input).mem.vtDetLst[i]? = some d) (hidle : d.phase ≠ .idle) :
    Inv (m.runBatch input).mem := by
  apply h.runBatch_of_cur
  intro j hj
  rw [hcur, Option.some_inj] at hj
  exact ⟨d, hj ▸ hd, hidle⟩

/-- The batch of a call of `Detect`. -/
theorem Inv.runBatch {m : VtMem} (h : Inv m)
    (hpending : ∀ p, m.curPhase = some p → ∃ left, p = .pending left) (input : DetectIn) :
    Inv (m.runBatch input).mem ∧ Detected m input.frms.length (m.runBatch input) := by
  cases hcur : m.curVtDetId with
  | some i =>
      obtain ⟨d, hd, -⟩ := h.cur i hcur
      have hphase := curPhase_of_selected hcur hd
      obtain ⟨left, hleft⟩ := hpending _ hphase
      obtain ⟨out, hout, hbatch⟩ := h.processAll input hd
      have hmoves := hbatch.moves
      rw [hleft] at hmoves hphase
      obtain ⟨hcur', hd', hrt⟩ := selected_runBatch (by rw [hcur]; rfl) hout
      exact ⟨h.runBatch_of_selected hcur' hd' hmoves.ne_idle,
        .kept hphase (hrt ▸ hmoves) (curPhase_of_selected hcur' hd')⟩
  | none =>
      have hclosed : m.opened = false := opened_of_cur_none hcur
      cases hfind : ((VtMem.processAll m.vtDetLst input).map Prod.snd).findIdx? VtResult.pre with
      | none =>
          have hcur' : (m.runBatch input).mem.curVtDetId = none := by
            simp only [VtMem.runBatch, hcur, hfind]
            rfl
          refine ⟨h.runBatch_of_cur (by simp [hcur']), .quiet hclosed ?_ (opened_of_cur_none hcur')⟩
          simp only [VtMem.runBatch, hcur, hfind]
          rfl
      | some i =>
          obtain ⟨hi, hpre, -⟩ := List.findIdx?_eq_some_iff_getElem.mp hfind
          rw [List.length_map] at hi
          rw [List.getElem_map] at hpre
          have hout := List.getElem?_eq_getElem hi
          obtain ⟨d, -, hbatch⟩ := h.of_mem_processAll input (List.getElem_mem hi)
          generalize (VtMem.processAll m.vtDetLst input)[i] = out at *
          obtain ⟨hidle, hleaves⟩ := hbatch.moves.idle_of_pre hpre
          have hmoves := hbatch.moves
          rw [hidle] at hmoves
          obtain ⟨hcur', hd', hrt⟩ := selected_runBatch (by rw [hcur]; exact hfind) hout
          exact ⟨h.runBatch_of_selected hcur' hd' hleaves,
            .fresh hclosed (hrt ▸ hpre) (hrt ▸ hmoves) (curPhase_of_selected hcur' hd')⟩

theorem Inv.curPhase_ne_idle {m : VtMem} (h : Inv m) {p : Phase} (hp : m.curPhase = some p) :
    p ≠ .idle := by
  cases hcur : m.curVtDetId with
  | none => simp [curPhase, hcur] at hp
  | some i =>
      obtain ⟨d, hd, hidle⟩ := h.cur i hcur
      rw [curPhase_of_selected hcur hd, Option.some_inj] at hp
      exact hp ▸ hidle

/-- The outcome of a call only depends on the state before it through the selected detector. -/
theorem Detected.congr {m m' : VtMem} {frames : ℕ} {out : DetectOut}
    (hphase : m'.curPhase = m.curPhase.filter fun phase ↦ decide (phase ≠ .done))
    (h : Detected m' frames out) : Detected m frames out := by
  have hopened : m'.opened = m.opened := by
    rw [opened, opened, hphase]
    rcases m.curPhase with _ | _ | left | _ <;> rfl
  cases h with
  | quiet hclosed hrt hafter => exact .quiet (hopened ▸ hclosed) hrt hafter
  | fresh hclosed hpre hmoves hafter => exact .fresh (hopened ▸ hclosed) hpre hmoves hafter
  | kept hopen hmoves hafter =>
      rw [hphase, Option.filter_eq_some_iff] at hopen
      exact .kept hopen.1 hmoves hafter

/-- **One call of `Detect`.** It keeps the invariant, and reports nothing, the opening of a
detection, or the progress of the open one. -/
theorem Inv.detect {m : VtMem} (h : Inv m) (input : DetectIn) :
    Inv (m.detect input).mem ∧ Detected m input.frames (m.detect input) := by
  obtain ⟨hinv, hphase⟩ := h.checkWordsChanged
  unfold VtMem.detect DetectIn.frames
  dsimp only
  split_ifs with hlen
  · refine ⟨hinv, ?_⟩
    cases hp : m.curPhase with
    | none =>
        have hclosed : m.opened = false := by simp [opened, hp]
        have hafter : m.checkWordsChanged.opened = false := by
          rw [opened, hphase]
          exact hclosed
        exact .quiet hclosed rfl hafter
    | some p =>
        cases p with
        | idle => exact absurd rfl (h.curPhase_ne_idle hp)
        | pending left => exact .kept hp (Moves.refl 0 _) (hphase.trans hp)
        | done =>
            have hclosed : m.opened = false := opened_of_curPhase hp
            have hafter : m.checkWordsChanged.opened = false := by
              rw [opened, hphase]
              exact hclosed
            exact .quiet hclosed rfl hafter
  · obtain ⟨hreset, hfilter⟩ := hinv.resetFinished
    rw [hphase] at hfilter
    have hpending : ∀ p, m.checkWordsChanged.resetFinished.curPhase = some p →
        ∃ left, p = .pending left := by
      intro p hp
      have hidle := hreset.curPhase_ne_idle hp
      rw [hfilter, Option.filter_eq_some_iff] at hp
      cases p with
      | idle => exact absurd rfl hidle
      | pending left => exact ⟨left, rfl⟩
      | done => simp at hp
    obtain ⟨hafter, hdetected⟩ := hreset.runBatch hpending input
    exact ⟨hafter, hdetected.congr hfilter⟩

/-- The callback is only asked for ranges that pass its assertion. -/
theorem Inv.calls_detect {m : VtMem} (h : Inv m) (input : DetectIn) :
    ∀ call ∈ (m.detect input).calls, call.Valid := by
  unfold VtMem.detect
  dsimp only
  split_ifs
  · simp
  · intro call hcall
    obtain ⟨d, hd, hcall⟩ := List.mem_flatMap.mp hcall
    obtain ⟨out, hout, rfl⟩ := List.mem_map.mp hd
    obtain ⟨_, -, hbatch⟩ := h.checkWordsChanged.1.resetFinished.1.of_mem_processAll input hout
    exact hbatch.calls_valid call hcall

/-- The result of a call follows the protocol. -/
theorem Detected.follows {m : VtMem} {frames : ℕ} {out : DetectOut} (h : Detected m frames out) :
    out.rt.Follows m.opened ∧ out.rt.next m.opened = out.mem.opened := by
  cases h with
  | quiet hclosed hrt hafter =>
      rw [hclosed, hrt, hafter]
      exact ⟨VtResult.follows_none _, VtResult.next_none _⟩
  | fresh hclosed hpre hmoves hafter =>
      rw [hclosed, opened_of_curPhase hafter]
      exact hmoves.follows fun _ ↦ hpre
  | kept hopen hmoves hafter =>
      rw [opened_of_curPhase hopen, opened_of_curPhase hafter]
      exact hmoves.follows (nomatch ·)

/-! ## Successive calls -/

/-- From any state that satisfies the invariant the results follow the protocol. -/
theorem Inv.protocol_results {m : VtMem} (h : Inv m) (inputs : List DetectIn) :
    Protocol m.opened (m.results inputs) := by
  induction inputs generalizing m with
  | nil => trivial
  | cons input inputs ih =>
      obtain ⟨hinv, hdetected⟩ := h.detect input
      obtain ⟨hfollows, hnext⟩ := hdetected.follows
      refine ⟨hfollows, ?_⟩
      rw [hnext]
      exact ih hinv

theorem Inv.afterDetects {m : VtMem} (h : Inv m) (inputs : List DetectIn) :
    Inv (m.afterDetects inputs) := by
  induction inputs generalizing m with
  | nil => exact h
  | cons input inputs ih => exact ih (h.detect input).1

/-- An open detection is decided before as many frames have come as are left to it. -/
theorem Inv.decided_of_frames {m : VtMem} (h : Inv m) {left : ℕ}
    (hopen : m.curPhase = some (.pending left)) {inputs : List DetectIn}
    (hframes : left < (inputs.map DetectIn.frames).sum) :
    ∃ rt ∈ m.results inputs, rt.decided = true := by
  induction inputs generalizing m left with
  | nil => simp at hframes
  | cons input inputs ih =>
      obtain ⟨hinv, hdetected⟩ := h.detect input
      have hopened : m.opened = true := opened_of_curPhase hopen
      cases hdetected with
      | quiet hclosed => exact absurd (hclosed.symm.trans hopened) (by decide)
      | fresh hclosed => exact absurd (hclosed.symm.trans hopened) (by decide)
      | kept hopen' hmoves hafter =>
          rw [hopen', Option.some.injEq] at hopen
          rw [hopen] at hmoves
          generalize hrt : (m.detect input).rt = rt at hmoves
          cases hmoves with
          | waiting rest =>
              have hrest : rest < (inputs.map DetectIn.frames).sum := by
                simp only [List.map_cons, List.sum_cons] at hframes
                omega
              obtain ⟨rt, hmem, hdecided⟩ := ih hinv hafter hrest
              exact ⟨rt, List.mem_cons_of_mem _ hmem, hdecided⟩
          | closed _ cmd =>
              refine ⟨decision cmd, ?_, by cases cmd <;> rfl⟩
              rw [results, hrt]
              exact List.mem_cons_self

/-- An open detection has a pending detector. -/
theorem Inv.pending_of_opened {m : VtMem} (h : Inv m) (hopen : m.opened = true) :
    ∃ d ∈ m.vtDetLst, ∃ left < d.vtWord.wait, d.phase = .pending left ∧
      m.curPhase = some (.pending left) := by
  obtain ⟨p, hp, hpending⟩ := (Option.any_eq_true _ _).mp hopen
  cases p with
  | idle => cases hpending
  | done => cases hpending
  | pending left =>
      obtain ⟨d, hd, hphase⟩ := Option.map_eq_some_iff.mp hp
      obtain ⟨i, -, hi⟩ := Option.bind_eq_some_iff.mp hd
      have hvalid := h.dets d (List.mem_of_getElem? hi)
      rw [VtDet.Valid, hphase] at hvalid
      obtain ⟨-, -, -, -, -, -, -, hwait⟩ := hvalid.place
      exact ⟨d, List.mem_of_getElem? hi, left, hwait, hphase, hp⟩

/-- The frames left to an open detection. -/
theorem Inv.left_lt {m : VtMem} (h : Inv m) (hopen : m.opened = true) :
    ∃ left < 36, m.curPhase = some (.pending left) := by
  obtain ⟨d, hd, left, hleft, -, hphase⟩ := h.pending_of_opened hopen
  obtain ⟨info, hinfo⟩ := h.detWords d hd
  refine ⟨left, ?_, hphase⟩
  rw [hinfo, ZVtWord.wait_ofInfo] at hleft
  split_ifs at hleft
  · exact hleft
  · exact absurd hleft (Nat.not_lt_zero left)

/-- Only an idle detector calls back. -/
theorem Inv.idle_of_calls {m : VtMem} (h : Inv m) {input : DetectIn}
    (hcalls : (m.detect input).calls ≠ []) :
    ∃ d ∈ m.checkWordsChanged.resetFinished.vtDetLst, d.phase = .idle := by
  unfold VtMem.detect at hcalls
  dsimp only at hcalls
  split_ifs at hcalls
  · exact absurd rfl hcalls
  · obtain ⟨call, hcall⟩ := List.exists_mem_of_ne_nil _ hcalls
    obtain ⟨d, hd, hcall⟩ := List.mem_flatMap.mp hcall
    obtain ⟨out, hout, rfl⟩ := List.mem_map.mp hd
    obtain ⟨old, hold, hbatch⟩ :=
      h.checkWordsChanged.1.resetFinished.1.of_mem_processAll input hout
    exact ⟨old, hold, hbatch.calls_idle (List.ne_nil_of_mem hcall)⟩

/-- Getting ready for a batch neither opens nor closes a detection. -/
theorem Inv.opened_resetFinished {m : VtMem} (h : Inv m) :
    m.checkWordsChanged.resetFinished.opened = m.opened := by
  obtain ⟨hinv, hphase⟩ := h.checkWordsChanged
  obtain ⟨-, hfilter⟩ := hinv.resetFinished
  rw [opened, opened, hfilter, hphase]
  rcases m.curPhase with _ | _ | left | _ <;> rfl

end VtMem

end Vsys.Vt
