import Vsys.Activation.WordManager
import Vsys.Trace.Run
import Vsys.Vt.Mem

/-!
# Keeping the engine's word list in step

`VtWordManager` changes its own list first and then hands the whole of it to `ZVtMem::SetWords`.
The engine ignores an empty list, answers 0 whenever a change is pending, whatever the list it was
given, and the manager does not undo its change when the engine answers with an error.

`contract_iff` finds the one call that shows this: removing the last word.
-/

namespace Vsys.Activation

open Vsys.Trace Vsys.Vt

/-- The manager and the engine it feeds.  `spinning` says that a call of `remove_vt_word` is caught
in its loop, where it holds `vt_mutex`. -/
structure WordService where
  wordInfos : List WordInfo
  spinning : Bool
  vt : VtMem

namespace WordService

/-- What the clients and the audio thread do. -/
inductive Op
  | addVtWord (word : VtWord)
  | removeVtWord (word : List Char)
  | detect (input : DetectIn)

/-- `sync_vt_word`, through `VoiceActivation::sync_vt_word` and `r2_vbv_setwords`. -/
def syncVtWord (s : WordService) : WordService × ℤ :=
  ({ s with vt := (s.vt.setWords s.wordInfos).1 },
    if (s.vt.setWords s.wordInfos).2 = 0 then 0 else -1)

/-- What a call leaves: after 0 the two lists are equal, after any other value both are as they
were. -/
def Kept (s : WordService) (out : WordService × Option ℤ) : Prop :=
  ∀ ret, out.2 = some ret →
    if ret = 0 then out.1.vt.getWords = out.1.wordInfos
    else out.1.wordInfos = s.wordInfos ∧ out.1.vt.getWords = s.vt.getWords

section Calls

variable (findPhoneme : List Char → List Char) (model : AcousticModel)

/-- `add_vt_word`; `none` when the call does not return. -/
def addVtWord (s : WordService) (word : VtWord) : WordService × Option ℤ :=
  if !VtWordManager.isValidVtType word.type then (s, some (-1))
  else if s.spinning then (s, none)
  else if VtWordManager.hasVtWord s.wordInfos word.wordUtf8 then (s, some (-1))
  else
    match VtWordManager.vtWordFormation findPhoneme model word with
    | none => (s, some (-1))
    | some info =>
        let out := syncVtWord { s with wordInfos := s.wordInfos ++ [info] }
        (out.1, some out.2)

/-- `remove_vt_word`; `none` when the call does not return. -/
def removeVtWord (s : WordService) (word : List Char) : WordService × Option ℤ :=
  if s.spinning then (s, none)
  else
    match VtWordManager.eraseWord word s.wordInfos with
    | none => ({ s with spinning := true }, none)
    | some (_, false) => (s, some (-1))
    | some (wordInfos, true) =>
        let out := syncVtWord { s with wordInfos := wordInfos }
        (out.1, some out.2)

/-- The state after one operation, with the return value of a call of the manager. -/
def perform (s : WordService) : Op → WordService × Option ℤ
  | .addVtWord word => addVtWord findPhoneme model s word
  | .removeVtWord word => removeVtWord s word
  | .detect input => ({ s with vt := (s.vt.detect input).mem }, none)

/-- One operation. -/
def step (s : WordService) (op : Op) : WordService := (perform findPhoneme model s op).1

/-- The operation leaves what its return value promises. -/
def Contract (s : WordService) (op : Op) : Prop := Kept s (perform findPhoneme model s op)

end Calls

/-- The operation is not the removal of the last word. -/
def KeepsOne (s : WordService) : Op → Prop
  | .removeVtWord word =>
      s.spinning = false → ∀ info, s.wordInfos = [info] → word ≠ info.contentUtf8
  | _ => True

/-- The word `enter_vbv` gives to the engine, without telling the manager. -/
def ruoqi (nnetPathRuoqi : List Char) : WordInfo where
  wordType := .awake
  contentUtf8 := "若琪".toList
  contentPhone := "r|l|r_B|l_B|# w o4|o4_E|## q|q_B|# i2|i2_E|##".toList
  blockAvgScore := 21 / 5
  blockMinScore := 27 / 10
  leftSilDet := true
  rightSilDet := false
  remoteAsrCheckWithAec := true
  remoteAsrCheckWithNoAec := true
  localClassifyCheck := true
  classifyShield := -3 / 10
  localClassifyNnetPath := nnetPathRuoqi

/-- The state after `init`. -/
def start (dsCb : Bool) (nnetPathRuoqi : List Char) : WordService where
  wordInfos := []
  spinning := false
  vt := ((VtMem.create dsCb).setWords [ruoqi nnetPathRuoqi]).1

/-! ## The engine's side -/

theorem getWords_setWords (m : VtMem) {words : List WordInfo} (hwords : words ≠ []) :
    (m.setWords words).1.getWords = words := by
  rw [VtMem.setWords_of_ne_nil m hwords]
  rfl

theorem setWords_ret (m : VtMem) {words : List WordInfo} (hwords : words ≠ []) :
    (m.setWords words).2 = 0 := by
  have hneed : (m.setWords words).1.needChangeWord = true := by
    rw [VtMem.setWords_of_ne_nil m hwords]
  exact if_pos hneed

theorem getWords_detect (m : VtMem) (input : DetectIn) :
    (m.detect input).mem.getWords = m.getWords := by
  have hchecked : m.checkWordsChanged.wordLst = m.wordLst := by
    unfold VtMem.checkWordsChanged
    split_ifs <;> rfl
  unfold VtMem.detect
  split_ifs
  · exact hchecked
  · exact hchecked

/-! ## One call -/

theorem kept_refused (s : WordService) : Kept s (s, some (-1)) := by
  rintro ret ⟨⟩
  exact ⟨rfl, rfl⟩

theorem kept_none (s after : WordService) : Kept s (after, none) :=
  fun _ h ↦ nomatch h

/-- A list that is not empty reaches the engine. -/
theorem kept_syncVtWord (s : WordService) {wordInfos : List WordInfo} (hinfos : wordInfos ≠ []) :
    Kept s ((syncVtWord { s with wordInfos := wordInfos }).1,
      some (syncVtWord { s with wordInfos := wordInfos }).2) := by
  rintro ret ⟨⟩
  have hret : (syncVtWord { s with wordInfos := wordInfos }).2 = 0 :=
    if_pos (setWords_ret s.vt hinfos)
  rw [if_pos hret]
  exact getWords_setWords s.vt hinfos

/-- An empty one does not, and the manager's words are gone all the same: whether the engine
answers 0 depends on whether an older change is still pending. -/
theorem not_kept_syncVtWord_nil (s : WordService) (hengine : s.vt.getWords ≠ [])
    (hinfos : s.wordInfos ≠ []) :
    ¬ Kept s ((syncVtWord { s with wordInfos := [] }).1,
      some (syncVtWord { s with wordInfos := [] }).2) := by
  intro hkept
  have hafter := hkept _ rfl
  split_ifs at hafter
  · exact hengine hafter
  · exact hinfos hafter.1.symm

variable (findPhoneme : List Char → List Char) (model : AcousticModel)

theorem kept_addVtWord (s : WordService) (word : VtWord) :
    Kept s (addVtWord findPhoneme model s word) := by
  unfold addVtWord
  split_ifs
  · exact kept_refused s
  · exact kept_none s s
  · exact kept_refused s
  · cases VtWordManager.vtWordFormation findPhoneme model word with
    | none => exact kept_refused s
    | some info => exact kept_syncVtWord s (List.append_ne_nil_of_right_ne_nil _ (by simp))

/-- A word that heads the list is taken off it. -/
theorem removeVtWord_head (s : WordService) (hspinning : s.spinning = false) {info : WordInfo}
    {rest : List WordInfo} (hinfos : s.wordInfos = info :: rest) :
    removeVtWord s info.contentUtf8 =
      ((syncVtWord { s with wordInfos := rest }).1,
        some (syncVtWord { s with wordInfos := rest }).2) := by
  simp only [removeVtWord, hspinning, hinfos, VtWordManager.eraseWord_cons, Bool.false_eq_true,
    ↓reduceIte]

/-- Any other word of a list that is not empty starts a loop without end. -/
theorem removeVtWord_of_ne (s : WordService) (hspinning : s.spinning = false) {info : WordInfo}
    {rest : List WordInfo} (hinfos : s.wordInfos = info :: rest) {word : List Char}
    (hne : word ≠ info.contentUtf8) :
    removeVtWord s word = ({ s with spinning := true }, none) := by
  simp only [removeVtWord, hspinning, hinfos, VtWordManager.eraseWord_cons, hne,
    Bool.false_eq_true, ↓reduceIte]

theorem kept_removeVtWord_iff (s : WordService) (hengine : s.vt.getWords ≠ []) (word : List Char) :
    Kept s (removeVtWord s word) ↔ KeepsOne s (.removeVtWord word) := by
  cases hspinning : s.spinning with
  | true =>
      refine iff_of_true ?_ fun h ↦ (nomatch hspinning.symm.trans h)
      rw [removeVtWord, if_pos hspinning]
      exact kept_none s s
  | false =>
      cases hinfos : s.wordInfos with
      | nil =>
          refine iff_of_true ?_ fun _ info h ↦ (nomatch hinfos.symm.trans h)
          rw [removeVtWord, hinfos, hspinning]
          exact kept_refused s
      | cons info rest =>
          by_cases hword : word = info.contentUtf8
          · subst hword
            rw [removeVtWord_head s hspinning hinfos]
            by_cases hrest : rest = []
            · subst hrest
              refine iff_of_false (not_kept_syncVtWord_nil s hengine ?_) fun h ↦ ?_
              · exact hinfos ▸ List.cons_ne_nil info []
              · exact h hspinning info hinfos rfl
            · refine iff_of_true (kept_syncVtWord s hrest) fun _ last hlast ↦ ?_
              exact absurd (List.cons.inj (hinfos.symm.trans hlast)).2 hrest
          · refine iff_of_true ?_ fun _ last hlast ↦ ?_
            · rw [removeVtWord_of_ne s hspinning hinfos hword]
              exact kept_none s _
            · exact (List.cons.inj (hinfos.symm.trans hlast)).1 ▸ hword

/-- The contract of one operation. -/
theorem contract_iff (s : WordService) (hengine : s.vt.getWords ≠ []) (op : Op) :
    Contract findPhoneme model s op ↔ KeepsOne s op := by
  cases op with
  | addVtWord word => exact iff_of_true (kept_addVtWord findPhoneme model s word) trivial
  | removeVtWord word => exact kept_removeVtWord_iff s hengine word
  | detect input => exact iff_of_true (kept_none s _) trivial

/-! ## Runs -/

theorem getWords_syncVtWord (s : WordService) (hengine : s.vt.getWords ≠ []) :
    (syncVtWord s).1.vt.getWords ≠ [] := by
  by_cases hinfos : s.wordInfos = []
  · have hsame : (syncVtWord s).1.vt = (s.vt.setWords []).1 := by rw [← hinfos]; rfl
    rw [hsame]
    exact hengine
  · exact (getWords_setWords s.vt hinfos).symm ▸ hinfos

/-- The engine never loses its words. -/
theorem getWords_step (s : WordService) (op : Op) (hengine : s.vt.getWords ≠ []) :
    (step findPhoneme model s op).vt.getWords ≠ [] := by
  cases op with
  | addVtWord word =>
      change (addVtWord findPhoneme model s word).1.vt.getWords ≠ []
      unfold addVtWord
      split_ifs
      · exact hengine
      · exact hengine
      · exact hengine
      · cases VtWordManager.vtWordFormation findPhoneme model word with
        | none => exact hengine
        | some info => exact getWords_syncVtWord _ hengine
  | removeVtWord word =>
      change (removeVtWord s word).1.vt.getWords ≠ []
      unfold removeVtWord
      split_ifs
      · exact hengine
      · rcases VtWordManager.eraseWord word s.wordInfos with _ | ⟨wordInfos, _ | _⟩
        · exact hengine
        · exact hengine
        · exact getWords_syncVtWord _ hengine
  | detect input => exact (getWords_detect s.vt input).symm ▸ hengine

/-- **Agreement of the two lists.** Every call of a run leaves what its return value promises
exactly when no call removes the last word. -/
theorem contract_along_iff (dsCb : Bool) (nnetPathRuoqi : List Char) (ops : List Op) :
    Along (step findPhoneme model) (Contract findPhoneme model) (start dsCb nnetPathRuoqi) ops ↔
      Along (step findPhoneme model) KeepsOne (start dsCb nnetPathRuoqi) ops := by
  refine along_congr (fun s : WordService ↦ s.vt.getWords ≠ []) ?_ ?_ ?_ ops
  · exact fun s op ↦ getWords_step findPhoneme model s op
  · exact fun s op hengine ↦ contract_iff findPhoneme model s hengine op
  · exact List.cons_ne_nil _ _

/-- A word given with its phones. -/
def outsideWord : VtWord where
  phone := "n i3".toList
  nnetPath := []
  wordUtf8 := "ni".toList
  mask := 1
  blockAvgScore := 0
  blockMinScore := 0
  classifyShield := 0
  leftSilDet := false
  rightSilDet := false
  remoteAsrCheckWithAec := false
  remoteAsrCheckWithoutAec := false
  type := .awake

/-- The audio of a frame with nothing in it. -/
def silentCall : DetectIn where
  wavLen := 160
  aec := false
  vadEnd := false
  frms := []
  endIn := default

/-- Removing the word just added returns 0 and leaves it in the engine; one frame later the same
call returns -1 and takes the word off the manager's list all the same. -/
theorem not_contract_remove_last :
    ¬ Along (step (fun _ ↦ []) .ctc) (Contract (fun _ ↦ []) .ctc) (start true [])
        [.addVtWord outsideWord, .removeVtWord outsideWord.wordUtf8] ∧
      ¬ Along (step (fun _ ↦ []) .ctc) (Contract (fun _ ↦ []) .ctc) (start true [])
        [.addVtWord outsideWord, .detect silentCall, .removeVtWord outsideWord.wordUtf8] := by
  constructor
  · intro h
    have hremove := h.2.1 0 rfl
    exact absurd hremove (List.cons_ne_nil _ _)
  · intro h
    have hremove := h.2.2.1 (-1) rfl
    exact absurd hremove.1 (List.cons_ne_nil _ _).symm

/-! ## What `remove_vt_word` removes -/

/-- What a removal is for: the loop ends; the first entry with the word goes and the others keep
their order, or the answer is −1 and nothing changes. -/
def RemovesFirst (s : WordService) (word : List Char) : Prop :=
  (∃ fuel, (VtWordManager.removeLoop word fuel s.wordInfos).isSome = true) ∧
  (word ∈ s.wordInfos.map WordInfo.contentUtf8 →
    (removeVtWord s word).1.wordInfos =
        s.wordInfos.eraseP (fun info ↦ decide (word = info.contentUtf8)) ∧
      (removeVtWord s word).2.isSome = true) ∧
  (word ∉ s.wordInfos.map WordInfo.contentUtf8 →
    (removeVtWord s word).1.wordInfos = s.wordInfos ∧ (removeVtWord s word).2 = some (-1))

/-- **The loop looks at the first entry only.**  With the lock free, `remove_vt_word` does what it is
for exactly if the list is empty or its first entry is the word. -/
theorem removesFirst_iff (wordInfos : List WordInfo) (vt : VtMem) (word : List Char) :
    RemovesFirst { wordInfos := wordInfos, spinning := false, vt := vt } word ↔
      ∀ info ∈ wordInfos.head?, word = info.contentUtf8 := by
  cases wordInfos with
  | nil =>
      have hnone : word ∉ ([] : List WordInfo).map WordInfo.contentUtf8 := List.not_mem_nil
      refine iff_of_true ⟨⟨1, rfl⟩, fun h ↦ absurd h hnone, fun _ ↦ ⟨rfl, rfl⟩⟩ ?_
      exact fun _ h ↦ nomatch h
  | cons info infos =>
      simp only [List.head?_cons, Option.mem_some_iff, forall_eq']
      constructor
      · rintro ⟨⟨fuel, hends⟩, -⟩
        by_contra hne
        rw [VtWordManager.removeLoop_of_ne hne] at hends
        exact nomatch hends
      · rintro rfl
        have hremoved := removeVtWord_head { wordInfos := info :: infos, spinning := false, vt := vt }
          rfl rfl
        refine ⟨⟨1, ?_⟩, fun _ ↦ ?_, fun h ↦ absurd List.mem_cons_self h⟩
        · rw [VtWordManager.removeLoop, if_pos rfl]
          rfl
        · rw [hremoved]
          refine ⟨(List.eraseP_cons_of_pos ?_).symm, rfl⟩
          exact decide_eq_true rfl

/-- A word that the list does not have is looked for without end. -/
theorem not_removesFirst_absent :
    ¬ ∀ (wordInfos : List WordInfo) (vt : VtMem) (word : List Char),
      RemovesFirst { wordInfos := wordInfos, spinning := false, vt := vt } word := by
  intro h
  have hfirst := (h [ruoqi []] (VtMem.create true) "x".toList).1
  obtain ⟨fuel, hends⟩ := hfirst
  have hne : "x".toList ≠ (ruoqi []).contentUtf8 := by decide
  rw [VtWordManager.removeLoop_of_ne hne] at hends
  exact nomatch hends

end WordService

end Vsys.Activation
