import Mathlib.Data.Nat.Bitwise
import Mathlib.Data.List.InsertIdx
import Mathlib.Data.List.Nodup
import Mathlib.Tactic.Ring
import Vsys.Activation.WordSync

/-!
# Words that are given back

`get_vt_words` makes a `vt_word_t` of every stored word.  Its masks start as what is in the memory
that `new` hands out, and at most one bit is set in them; the phones, which are longer than the
pinyin of the client, go back into the field of the pinyin.

So a word that is given back and added again need not come to what was stored
(`getVtWords_givesBack_iff`).
-/

namespace Vsys.Activation

open Vsys.Trace Vsys.Vt

/-- `strlen`. -/
def strlen (s : List Char) : ℕ := (s.map Char.utf8Size).sum

/-- The strings fit the arrays of `vt_word_t`. -/
structure VtWord.InFields (word : VtWord) : Prop where
  phone : strlen word.phone < 256
  nnetPath : strlen word.nnetPath < 256
  wordUtf8 : strlen word.wordUtf8 < 128

instance (word : VtWord) : Decidable word.InFields :=
  decidable_of_iff
    (strlen word.phone < 256 ∧ strlen word.nnetPath < 256 ∧ strlen word.wordUtf8 < 128)
    ⟨fun h ↦ ⟨h.1, h.2.1, h.2.2⟩, fun h ↦ ⟨h.phone, h.nnetPath, h.wordUtf8⟩⟩

namespace VtWordManager

/-- One turn of the loop of `get_vt_words`; `mask` is what is in the memory. -/
def getVtWord (mask : ℕ) (info : WordInfo) : VtWord where
  phone := info.contentPhone
  nnetPath := info.localClassifyNnetPath
  wordUtf8 := info.contentUtf8
  mask := if info.localClassifyCheck then mask ||| 2 ^ VtWordMask.localClassifyCheck.bit else mask
  blockAvgScore := info.blockAvgScore
  blockMinScore := info.blockMinScore
  classifyShield := info.classifyShield
  leftSilDet := info.leftSilDet
  rightSilDet := info.rightSilDet
  remoteAsrCheckWithAec := info.remoteAsrCheckWithAec
  remoteAsrCheckWithoutAec := info.remoteAsrCheckWithNoAec
  type := info.wordType

/-- `get_vt_words`; `none` when a string is written over the end of its array. -/
def getVtWords (masks : ℕ → ℕ) (infos : List WordInfo) : Option (List VtWord) :=
  let words := infos.mapIdx fun i info ↦ getVtWord (masks i) info
  if ∀ word ∈ words, word.InFields then some words else none

end VtWordManager

open VtWordManager

/-! ## What is to hold -/

/-- The word is what is stored. -/
structure Returned (word : VtWord) (info : WordInfo) : Prop where
  type : word.type = info.wordType
  wordUtf8 : word.wordUtf8 = info.contentUtf8
  phone : word.phone = info.contentPhone
  blockAvgScore : word.blockAvgScore = info.blockAvgScore
  blockMinScore : word.blockMinScore = info.blockMinScore
  leftSilDet : word.leftSilDet = info.leftSilDet
  rightSilDet : word.rightSilDet = info.rightSilDet
  withAec : word.remoteAsrCheckWithAec = info.remoteAsrCheckWithAec
  withoutAec : word.remoteAsrCheckWithoutAec = info.remoteAsrCheckWithNoAec
  classifyShield : word.classifyShield = info.classifyShield
  nnetPath : word.nnetPath = info.localClassifyNnetPath
  mask : word.has .localClassifyCheck = info.localClassifyCheck

namespace WordService

section GivesBack

variable (findPhoneme : List Char → List Char) (model : AcousticModel)

/-- A word that is added again is stored as it was. -/
def ReAdds (s : WordService) (i : ℕ) (word : VtWord) (info : WordInfo) : Prop :=
  (addVtWord findPhoneme model { s with wordInfos := s.wordInfos.eraseIdx i } word).1.wordInfos =
    s.wordInfos.eraseIdx i ++ [info]

/-- The words are given back as they are stored, and may be added again. -/
def GivesBack (s : WordService) (masks : ℕ → ℕ) : Prop :=
  ∃ words, getVtWords masks s.wordInfos = some words ∧ words.length = s.wordInfos.length ∧
    ∀ i word info, words[i]? = some word → s.wordInfos[i]? = some info →
      Returned word info ∧ ReAdds findPhoneme model s i word info

/-- A call that succeeds, of a word whose strings fit their arrays. -/
def Succeeds (s : WordService) (op : Op) : Prop :=
  (perform findPhoneme model s op).2 = some 0 ∧
    match op with
    | .addVtWord word => word.InFields
    | _ => True

/-- The memory and the stored word are such that the word comes to itself again: the phones fit, and
what the mask leaves open is the default. -/
structure Restores (mask : ℕ) (info : WordInfo) : Prop where
  field : strlen info.contentPhone < 256
  check : mask.testBit VtWordMask.localClassifyCheck.bit → info.localClassifyCheck = true
  phone : mask.testBit VtWordMask.useOutsidePhone.bit ∨
    pinyin2phoneme findPhoneme model info.contentPhone = some info.contentPhone
  blockAvgScore : mask.testBit VtWordMask.blockAvgScore.bit ∨
    info.blockAvgScore = atLeast (16 / 5) (getScoreParam (21 / 5)
      (getWordSize (mask.testBit VtWordMask.useOutsidePhone.bit) info.contentPhone))
  blockMinScore : mask.testBit VtWordMask.blockMinScore.bit ∨
    info.blockMinScore = atLeast (17 / 10) (getScoreParam (27 / 10)
      (getWordSize (mask.testBit VtWordMask.useOutsidePhone.bit) info.contentPhone))
  leftSilDet : mask.testBit VtWordMask.leftSilDet.bit ∨ info.leftSilDet = true
  rightSilDet : mask.testBit VtWordMask.rightSilDet.bit ∨ info.rightSilDet = false
  withAec : mask.testBit VtWordMask.remoteCheckWithAec.bit ∨ info.remoteAsrCheckWithAec = true
  withNoAec : mask.testBit VtWordMask.remoteCheckWithNoAec.bit ∨
    info.remoteAsrCheckWithNoAec = true
  classifyShield : mask.testBit VtWordMask.classifyShield.bit ∨ info.classifyShield = -3 / 10

end GivesBack

/-! ## One word -/

/-- What holds of every stored word. -/
structure Stored (info : WordInfo) : Prop where
  type : isValidVtType info.wordType = true
  avg : 16 / 5 ≤ info.blockAvgScore
  min : 17 / 10 ≤ info.blockMinScore
  wordUtf8 : strlen info.contentUtf8 < 128
  nnetPath : strlen info.localClassifyNnetPath < 256

/-- The bits of a mask that is given back. -/
theorem has_getVtWord (mask : ℕ) (info : WordInfo) (bit : VtWordMask) :
    (getVtWord mask info).has bit =
      (mask.testBit bit.bit || (info.localClassifyCheck && bit = .localClassifyCheck)) := by
  rw [VtWord.has, getVtWord]
  cases hcheck : info.localClassifyCheck with
  | false => simp
  | true =>
      have hbit : (2 ^ VtWordMask.localClassifyCheck.bit).testBit bit.bit =
          decide (bit = .localClassifyCheck) := by
        cases bit <;> decide
      rw [if_pos rfl, Nat.testBit_or, hbit, Bool.true_and]

theorem has_getVtWord_of_ne (mask : ℕ) (info : WordInfo) {bit : VtWordMask}
    (hbit : bit ≠ .localClassifyCheck) : (getVtWord mask info).has bit = mask.testBit bit.bit := by
  rw [has_getVtWord, decide_eq_false hbit, Bool.and_false, Bool.or_false]

theorem orDefault_eq_iff {α : Type*} {word : VtWord} {bit : VtWordMask} {value default : α} :
    word.orDefault bit value default = value ↔ word.has bit = true ∨ value = default := by
  rw [VtWord.orDefault]
  split_ifs with hbit
  · exact iff_of_true rfl (.inl hbit)
  · exact ⟨fun h ↦ .inr h.symm, fun h ↦ (h.resolve_left hbit).symm⟩

theorem atLeast_of_le {bound score : ℚ} (h : bound ≤ score) : atLeast bound score = score :=
  if_neg (not_lt_of_ge h)

theorem atLeast_orDefault_eq_iff {word : VtWord} {bit : VtWordMask} {bound value default : ℚ}
    (h : bound ≤ value) :
    atLeast bound (word.orDefault bit value default) = value ↔
      word.has bit = true ∨ value = atLeast bound default := by
  rw [VtWord.orDefault]
  split_ifs with hbit
  · exact iff_of_true (atLeast_of_le h) (.inl hbit)
  · exact ⟨fun h ↦ .inr h.symm, fun h ↦ (h.resolve_left hbit).symm⟩

variable {findPhoneme : List Char → List Char} {model : AcousticModel}

/-- The phones of a word. -/
def phoneOf (findPhoneme : List Char → List Char) (model : AcousticModel) (word : VtWord) :
    Option (List Char) :=
  if !word.has .useOutsidePhone then pinyin2phoneme findPhoneme model word.phone
  else some word.phone

/-- What a word comes to, field by field. -/
theorem vtWordFormation_eq_some_iff {word : VtWord} {info : WordInfo} :
    vtWordFormation findPhoneme model word = some info ↔
      phoneOf findPhoneme model word = some info.contentPhone ∧
      word.type = info.wordType ∧ word.wordUtf8 = info.contentUtf8 ∧
      atLeast (16 / 5) (word.orDefault .blockAvgScore word.blockAvgScore
        (getScoreParam (21 / 5) (getWordSize (word.has .useOutsidePhone) word.phone))) =
          info.blockAvgScore ∧
      atLeast (17 / 10) (word.orDefault .blockMinScore word.blockMinScore
        (getScoreParam (27 / 10) (getWordSize (word.has .useOutsidePhone) word.phone))) =
          info.blockMinScore ∧
      word.orDefault .leftSilDet word.leftSilDet true = info.leftSilDet ∧
      word.orDefault .rightSilDet word.rightSilDet false = info.rightSilDet ∧
      word.orDefault .remoteCheckWithAec word.remoteAsrCheckWithAec true =
        info.remoteAsrCheckWithAec ∧
      word.orDefault .remoteCheckWithNoAec word.remoteAsrCheckWithoutAec true =
        info.remoteAsrCheckWithNoAec ∧
      word.has .localClassifyCheck = info.localClassifyCheck ∧
      word.orDefault .classifyShield word.classifyShield (-3 / 10) = info.classifyShield ∧
      word.nnetPath = info.localClassifyNnetPath := by
  rw [vtWordFormation, Option.map_eq_some_iff]
  constructor
  · rintro ⟨phone, hphone, rfl⟩
    exact ⟨hphone, rfl, rfl, rfl, rfl, rfl, rfl, rfl, rfl, rfl, rfl, rfl⟩
  · rintro ⟨hphone, hfields⟩
    refine ⟨info.contentPhone, hphone, ?_⟩
    cases info
    simp only [WordInfo.mk.injEq, true_and]
    exact hfields

/-- What is stored keeps the bounds of the scores. -/
theorem stored_of_vtWordFormation {word : VtWord} {info : WordInfo}
    (h : vtWordFormation findPhoneme model word = some info)
    (htype : isValidVtType word.type = true) (hfields : word.InFields) : Stored info := by
  obtain ⟨-, htype', hutf8, havg, hmin, -, -, -, -, -, -, hnnet⟩ := vtWordFormation_eq_some_iff.1 h
  have hatLeast : ∀ bound score : ℚ, bound ≤ atLeast bound score := by
    intro bound score
    rw [atLeast]
    split_ifs with hlt
    · exact le_rfl
    · exact not_lt.1 hlt
  refine ⟨htype' ▸ htype, ?_, ?_, hutf8 ▸ hfields.wordUtf8, hnnet ▸ hfields.nnetPath⟩
  · rw [← havg]
    exact hatLeast _ _
  · rw [← hmin]
    exact hatLeast _ _

theorem returned_getVtWord_iff (mask : ℕ) (info : WordInfo) :
    Returned (getVtWord mask info) info ↔
      (mask.testBit VtWordMask.localClassifyCheck.bit → info.localClassifyCheck = true) := by
  have hmask : (getVtWord mask info).has .localClassifyCheck = info.localClassifyCheck ↔
      (mask.testBit VtWordMask.localClassifyCheck.bit → info.localClassifyCheck = true) := by
    rw [has_getVtWord]
    cases mask.testBit VtWordMask.localClassifyCheck.bit <;> cases info.localClassifyCheck <;> decide
  rw [← hmask]
  exact ⟨Returned.mask, fun h ↦ ⟨rfl, rfl, rfl, rfl, rfl, rfl, rfl, rfl, rfl, rfl, rfl, h⟩⟩

theorem phoneOf_getVtWord_iff (mask : ℕ) (info : WordInfo) :
    phoneOf findPhoneme model (getVtWord mask info) = some info.contentPhone ↔
      mask.testBit VtWordMask.useOutsidePhone.bit ∨
        pinyin2phoneme findPhoneme model info.contentPhone = some info.contentPhone := by
  rw [phoneOf, has_getVtWord_of_ne mask info (by decide)]
  cases mask.testBit VtWordMask.useOutsidePhone.bit with
  | false => simp [getVtWord]
  | true => simp [getVtWord]

/-- A stored word comes to itself again exactly if the memory and the word allow it. -/
theorem vtWordFormation_getVtWord_iff {mask : ℕ} {info : WordInfo} (hstored : Stored info) :
    strlen info.contentPhone < 256 ∧ Returned (getVtWord mask info) info ∧
        vtWordFormation findPhoneme model (getVtWord mask info) = some info ↔
      Restores findPhoneme model mask info := by
  have houtside : (getVtWord mask info).has .useOutsidePhone =
      mask.testBit VtWordMask.useOutsidePhone.bit := has_getVtWord_of_ne mask info (by decide)
  have horDefault : ∀ {α : Type} {bit : VtWordMask} {value default : α}, bit ≠ .localClassifyCheck →
      ((getVtWord mask info).orDefault bit value default = value ↔
        mask.testBit bit.bit ∨ value = default) := by
    intro α bit value default hbit
    rw [orDefault_eq_iff, has_getVtWord_of_ne mask info hbit]
  have hscore : ∀ {bit : VtWordMask} {bound value default : ℚ}, bound ≤ value →
      bit ≠ .localClassifyCheck →
        (atLeast bound ((getVtWord mask info).orDefault bit value default) = value ↔
          mask.testBit bit.bit ∨ value = atLeast bound default) := by
    intro bit bound value default hle hbit
    rw [atLeast_orDefault_eq_iff hle, has_getVtWord_of_ne mask info hbit]
  rw [vtWordFormation_eq_some_iff, phoneOf_getVtWord_iff, houtside]
  constructor
  · rintro ⟨hfield, hreturned, hphone, -, -, havg, hmin, hleft, hright, haec, hnoaec, -, hshield, -⟩
    exact
      { field := hfield
        check := (returned_getVtWord_iff mask info).1 hreturned
        phone := hphone
        blockAvgScore := (hscore hstored.avg (by decide)).1 havg
        blockMinScore := (hscore hstored.min (by decide)).1 hmin
        leftSilDet := (horDefault (by decide)).1 hleft
        rightSilDet := (horDefault (by decide)).1 hright
        withAec := (horDefault (by decide)).1 haec
        withNoAec := (horDefault (by decide)).1 hnoaec
        classifyShield := (horDefault (by decide)).1 hshield }
  · intro h
    have hreturned := (returned_getVtWord_iff mask info).2 h.check
    exact ⟨h.field, hreturned, h.phone, rfl, rfl, (hscore hstored.avg (by decide)).2 h.blockAvgScore,
      (hscore hstored.min (by decide)).2 h.blockMinScore, (horDefault (by decide)).2 h.leftSilDet,
      (horDefault (by decide)).2 h.rightSilDet, (horDefault (by decide)).2 h.withAec,
      (horDefault (by decide)).2 h.withNoAec, hreturned.mask,
      (horDefault (by decide)).2 h.classifyShield, rfl⟩

/-! ## The list -/

/-- What holds of the list after calls that succeed. -/
structure Listed (s : WordService) : Prop where
  idle : s.spinning = false
  stored : ∀ info ∈ s.wordInfos, Stored info
  nodup : (s.wordInfos.map WordInfo.contentUtf8).Nodup

theorem not_mem_eraseIdx {α : Type*} {l : List α} (hl : l.Nodup) {i : ℕ} {a : α}
    (ha : l[i]? = some a) : a ∉ l.eraseIdx i := by
  obtain ⟨hi, rfl⟩ := List.getElem?_eq_some_iff.1 ha
  intro hmem
  obtain ⟨j, hj, hne, heq⟩ := List.mem_eraseIdx_iff_getElem.1 hmem
  exact hne ((hl.getElem_inj_iff).1 heq)

theorem reAdds_iff {s : WordService} (hs : Listed s) {i : ℕ} {word : VtWord} {info : WordInfo}
    (hinfo : s.wordInfos[i]? = some info) (hword : word.wordUtf8 = info.contentUtf8)
    (htype : word.type = info.wordType) :
    ReAdds findPhoneme model s i word info ↔ vtWordFormation findPhoneme model word = some info := by
  have hvalid : isValidVtType word.type = true :=
    htype ▸ (hs.stored info (List.mem_of_getElem? hinfo)).type
  have hnew : hasVtWord (s.wordInfos.eraseIdx i) word.wordUtf8 = false := by
    rw [Bool.eq_false_iff, ne_eq, hasVtWord_iff, hword, ← List.eraseIdx_map]
    apply not_mem_eraseIdx hs.nodup
    rw [List.getElem?_map, hinfo]
    rfl
  have hidle := hs.idle
  cases hformation : vtWordFormation findPhoneme model word with
  | none =>
      simp [ReAdds, addVtWord, hvalid, hnew, hidle, hformation]
  | some other =>
      simp [ReAdds, addVtWord, hvalid, hnew, hidle, hformation, syncVtWord]

theorem getVtWords_getElem? {masks : ℕ → ℕ} {infos : List WordInfo} {words : List VtWord}
    (h : getVtWords masks infos = some words) {i : ℕ} {info : WordInfo}
    (hinfo : infos[i]? = some info) :
    words[i]? = some (getVtWord (masks i) info) ∧ (getVtWord (masks i) info).InFields := by
  rw [getVtWords] at h
  split_ifs at h with hfields
  have hword : (infos.mapIdx fun i info ↦ getVtWord (masks i) info)[i]? =
      some (getVtWord (masks i) info) := by
    rw [List.getElem?_mapIdx, hinfo]
    rfl
  rw [← Option.some.inj h]
  exact ⟨hword, hfields _ (List.mem_of_getElem? hword)⟩

theorem getVtWords_of_inFields {masks : ℕ → ℕ} {infos : List WordInfo}
    (h : ∀ i info, infos[i]? = some info → (getVtWord (masks i) info).InFields) :
    getVtWords masks infos = some (infos.mapIdx fun i info ↦ getVtWord (masks i) info) := by
  apply if_pos
  intro word hword
  obtain ⟨i, hi, rfl⟩ := List.mem_mapIdx.1 hword
  exact h i _ (List.getElem?_eq_getElem hi)

/-- What is given back of a list is right exactly if every word comes to itself again. -/
theorem givesBack_iff {s : WordService} (hs : Listed s) (masks : ℕ → ℕ) :
    GivesBack findPhoneme model s masks ↔
      ∀ i info, s.wordInfos[i]? = some info → Restores findPhoneme model (masks i) info := by
  constructor
  · rintro ⟨words, hwords, -, hback⟩ i info hinfo
    obtain ⟨hword, hfields⟩ := getVtWords_getElem? hwords hinfo
    obtain ⟨hreturned, hadds⟩ := hback i _ info hword hinfo
    have hformation := (reAdds_iff hs hinfo rfl rfl).1 hadds
    have hstored := hs.stored info (List.mem_of_getElem? hinfo)
    exact (vtWordFormation_getVtWord_iff hstored).1 ⟨hfields.phone, hreturned, hformation⟩
  · intro h
    have hrestores : ∀ i info, s.wordInfos[i]? = some info →
        strlen info.contentPhone < 256 ∧ Returned (getVtWord (masks i) info) info ∧
          vtWordFormation findPhoneme model (getVtWord (masks i) info) = some info := by
      intro i info hinfo
      have hstored := hs.stored info (List.mem_of_getElem? hinfo)
      exact (vtWordFormation_getVtWord_iff hstored).2 (h i info hinfo)
    have hwords : getVtWords masks s.wordInfos =
        some (s.wordInfos.mapIdx fun i info ↦ getVtWord (masks i) info) := by
      apply getVtWords_of_inFields
      intro i info hinfo
      have hstored := hs.stored info (List.mem_of_getElem? hinfo)
      exact ⟨(hrestores i info hinfo).1, hstored.nnetPath, hstored.wordUtf8⟩
    refine ⟨_, hwords, List.length_mapIdx, fun i word info hword hinfo ↦ ?_⟩
    obtain rfl : getVtWord (masks i) info = word :=
      Option.some.inj ((getVtWords_getElem? hwords hinfo).1.symm.trans hword)
    obtain ⟨-, hreturned, hformation⟩ := hrestores i info hinfo
    exact ⟨hreturned, (reAdds_iff hs hinfo rfl rfl).2 hformation⟩

/-! ## Runs -/

theorem listed_start (dsCb : Bool) (nnetPathRuoqi : List Char) : Listed (start dsCb nnetPathRuoqi) where
  idle := rfl
  stored := List.forall_mem_nil _
  nodup := List.nodup_nil

/-- An add that succeeds puts a new word at the end. -/
theorem addVtWord_succeeds {s : WordService} {word : VtWord}
    (h : (addVtWord findPhoneme model s word).2 = some 0) :
    isValidVtType word.type = true ∧ s.spinning = false ∧
      hasVtWord s.wordInfos word.wordUtf8 = false ∧
        ∃ info, vtWordFormation findPhoneme model word = some info ∧
          (addVtWord findPhoneme model s word).1 =
            (syncVtWord { s with wordInfos := s.wordInfos ++ [info] }).1 := by
  have hrefused : some (-1 : ℤ) ≠ some 0 := by decide
  rw [addVtWord] at h ⊢
  split_ifs at h ⊢ with hvalid hspinning hnew
  · exact absurd h hrefused
  · exact absurd h hrefused
  · refine ⟨by simpa using hvalid, by simpa using hspinning, by simpa using hnew, ?_⟩
    cases hformation : vtWordFormation findPhoneme model word with
    | none =>
        rw [hformation] at h
        exact absurd h hrefused
    | some info => exact ⟨info, rfl, rfl⟩

/-- A removal that succeeds takes the first word off. -/
theorem removeVtWord_succeeds {s : WordService} {word : List Char}
    (h : (removeVtWord s word).2 = some 0) :
    s.spinning = false ∧ ∃ info rest, s.wordInfos = info :: rest ∧
      (removeVtWord s word).1 = (syncVtWord { s with wordInfos := rest }).1 := by
  rw [removeVtWord] at h ⊢
  split_ifs at h ⊢ with hspinning
  refine ⟨by simpa using hspinning, ?_⟩
  cases hinfos : s.wordInfos with
  | nil =>
      have hrefused : some (-1 : ℤ) ≠ some 0 := by decide
      rw [hinfos] at h
      exact absurd h hrefused
  | cons info rest =>
      rw [hinfos, eraseWord_cons] at h
      rw [eraseWord_cons]
      by_cases hword : word = info.contentUtf8
      · rw [if_pos hword]
        exact ⟨info, rest, rfl, rfl⟩
      · rw [if_neg hword] at h
        cases h

/-- A call that succeeds keeps what holds of the list. -/
theorem listed_step (s : WordService) (op : Op) (hs : Listed s)
    (hop : Succeeds findPhoneme model s op) : Listed (step findPhoneme model s op) := by
  obtain ⟨hret, hfields⟩ := hop
  cases op with
  | addVtWord word =>
      obtain ⟨hvalid, -, hnew, info, hformation, hafter⟩ := addVtWord_succeeds hret
      change Listed (addVtWord findPhoneme model s word).1
      rw [hafter]
      refine ⟨hs.idle, fun other hother ↦ ?_, ?_⟩
      · rcases List.mem_append.1 hother with hother | hother
        · exact hs.stored other hother
        · rw [List.mem_singleton.1 hother]
          exact stored_of_vtWordFormation hformation hvalid hfields
      · change ((s.wordInfos ++ [info]).map WordInfo.contentUtf8).Nodup
        have hfresh : info.contentUtf8 ∉ s.wordInfos.map WordInfo.contentUtf8 := by
          rw [contentUtf8_of_vtWordFormation hformation, ← hasVtWord_iff, hnew]
          exact Bool.false_ne_true
        rw [List.map_append, List.map_singleton, List.nodup_append]
        refine ⟨hs.nodup, List.nodup_singleton _, fun a ha b hb ↦ ?_⟩
        rw [List.mem_singleton.1 hb]
        exact fun heq ↦ hfresh (heq ▸ ha)
  | removeVtWord word =>
      obtain ⟨-, info, rest, hinfos, hafter⟩ := removeVtWord_succeeds hret
      change Listed (removeVtWord s word).1
      rw [hafter]
      have hstored := hs.stored
      have hnodup := hs.nodup
      rw [hinfos] at hstored hnodup
      exact ⟨hs.idle, fun other hother ↦ hstored other (List.mem_cons_of_mem _ hother),
        (List.nodup_cons.1 hnodup).2⟩
  | detect input => exact nomatch hret

/-- **Words that are given back.**  After calls that succeed, what `get_vt_words` gives back is what
is stored, and may be added again, exactly if the phones fit and what the masks leave open is the
default. -/
theorem getVtWords_givesBack_iff (dsCb : Bool) (nnetPathRuoqi : List Char) (ops : List Op)
    (hops : Along (step findPhoneme model) (Succeeds findPhoneme model)
      (start dsCb nnetPathRuoqi) ops) (masks : ℕ → ℕ) :
    GivesBack findPhoneme model
        (run (step findPhoneme model) (start dsCb nnetPathRuoqi) ops) masks ↔
      ∀ i info,
        (run (step findPhoneme model) (start dsCb nnetPathRuoqi) ops).wordInfos[i]? = some info →
          Restores findPhoneme model (masks i) info := by
  apply givesBack_iff
  exact run_invariant listed_step (listed_start dsCb nnetPathRuoqi) hops

/-- The list with the one word that is given with its phones. -/
def outsideService : WordService :=
  run (step (fun _ ↦ []) .ctc) (start true []) [.addVtWord outsideWord]

theorem outsideWord_along :
    Along (step (fun _ ↦ []) .ctc) (Succeeds (fun _ ↦ []) .ctc) (start true [])
      [.addVtWord outsideWord] :=
  ⟨⟨rfl, by decide⟩, trivial⟩

/-- In memory with all bits set but that of the local check, the word comes to itself again. -/
theorem outsideWord_givesBack : GivesBack (fun _ ↦ []) .ctc outsideService fun _ ↦ 383 := by
  refine (getVtWords_givesBack_iff true [] [.addVtWord outsideWord] outsideWord_along _).2 ?_
  intro i info hinfo
  cases i with
  | zero =>
      have hphone : info.contentPhone = outsideWord.phone := by
        rw [← Option.some.inj hinfo]
      exact
        { field := by rw [hphone]; decide
          check := fun h ↦ absurd h (by decide)
          phone := .inl (by decide)
          blockAvgScore := .inl (by decide)
          blockMinScore := .inl (by decide)
          leftSilDet := .inl (by decide)
          rightSilDet := .inl (by decide)
          withAec := .inl (by decide)
          withNoAec := .inl (by decide)
          classifyShield := .inl (by decide) }
  | succ i => exact nomatch hinfo

/-- In memory of zeros, the phones of the word are taken as pinyin. -/
theorem outsideWord_not_givesBack :
    ¬ GivesBack (fun _ ↦ []) .ctc outsideService fun _ ↦ 0 := by
  intro h
  have hlisted : Listed outsideService :=
    run_invariant listed_step (listed_start true []) outsideWord_along
  have hrestores := (givesBack_iff hlisted _).1 h 0 _ rfl
  rcases hrestores.phone with hbit | hphone
  · exact absurd hbit (by decide)
  · have hne : pinyin2phoneme (fun _ ↦ []) .ctc outsideWord.phone ≠ some outsideWord.phone := by
      decide
    exact hne hphone

end WordService

end Vsys.Activation
