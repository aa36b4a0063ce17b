import Vsys.Vt.Word

/-!
# `VtWordManager`

The word list of the activation library.  `vt_word_formation` turns a client's `vt_word_t` into the
`WordInfo` the engine takes: it spells pinyin out in phonemes and fills in what the mask leaves
open.  `has_vt_word` compares a word with the list, and the loop of `remove_vt_word` looks for the
entry to erase.

C strings are lists of characters; the phoneme table, which is read from a file, is a parameter
that answers with the empty string for an unknown syllable.
-/

namespace Vsys.Activation

open Vsys.Vt

/-- `AcousticModel`. -/
inductive AcousticModel
  | dnn
  | ctc
  deriving DecidableEq, Repr

/-- `vt_word_t`. -/
structure VtWord where
  phone : List Char
  nnetPath : List Char
  wordUtf8 : List Char
  mask : ℕ
  blockAvgScore : ℚ
  blockMinScore : ℚ
  classifyShield : ℚ
  leftSilDet : Bool
  rightSilDet : Bool
  remoteAsrCheckWithAec : Bool
  remoteAsrCheckWithoutAec : Bool
  type : WordType
  deriving DecidableEq

/-- `vt_word_mask`, by the position of the bit. -/
inductive VtWordMask
  | useOutsidePhone
  | blockAvgScore
  | blockMinScore
  | leftSilDet
  | rightSilDet
  | remoteCheckWithAec
  | remoteCheckWithNoAec
  | localClassifyCheck
  | classifyShield
  deriving DecidableEq, Repr

/-- The bit of a mask. -/
def VtWordMask.bit : VtWordMask → ℕ
  | useOutsidePhone => 0
  | blockAvgScore => 1
  | blockMinScore => 2
  | leftSilDet => 3
  | rightSilDet => 4
  | remoteCheckWithAec => 5
  | remoteCheckWithNoAec => 6
  | localClassifyCheck => 7
  | classifyShield => 8

namespace VtWord

/-- `(vt_word->mask & mask) != 0`. -/
def has (word : VtWord) (mask : VtWordMask) : Bool := word.mask.testBit mask.bit

/-- A field the client may leave to a default. -/
def orDefault {α : Type*} (word : VtWord) (mask : VtWordMask) (value default : α) : α :=
  if word.has mask then value else default

end VtWord

namespace VtWordManager

/-- `is_valid_vt_type`. -/
def isValidVtType : WordType → Bool
  | .awake | .sleep | .hotword => true
  | .other => false

/-- The loop of `pinyin2phoneme` for `MODEL_DNN`: `target` is the syllable read so far. -/
def pinyinLoop (findPhoneme : List Char → List Char) (target : List Char) (isFirst : Bool)
    (result : List Char) : List Char → Option (List Char)
  | [] => some result
  | c :: rest =>
      if !c.isAlphanum then none
      else if c.isDigit then
        let phone := findPhoneme (target ++ [c])
        if phone.isEmpty then none
        else
          pinyinLoop findPhoneme [] false (result ++ (if isFirst then [] else [' ']) ++ phone) rest
      else pinyinLoop findPhoneme (target ++ [c]) isFirst result rest

/-- `pinyin2phoneme`. -/
def pinyin2phoneme (findPhoneme : List Char → List Char) (model : AcousticModel)
    (pinyin : List Char) : Option (List Char) :=
  match model with
  | .dnn => pinyinLoop findPhoneme [] true [] pinyin
  | .ctc => some (pinyin.map fun c ↦ if c.isDigit then ' ' else c)

/-- `get_word_size`: the digits of a pinyin, and every `##`. -/
def getWordSize (isPinyin : Bool) : List Char → ℕ
  | [] => 0
  | c :: rest =>
      (if !isPinyin && c.isDigit then 1 else 0) +
        (if c = '#' ∧ rest.head? = some '#' then 1 else 0) + getWordSize isPinyin rest

/-- `get_score_param`: half a point less for every two words after the first two. -/
def getScoreParam (score : ℚ) (wordSize : ℕ) : ℚ := score - ((wordSize + 1) / 2 - 1 : ℕ) / 2

/-- `if(score < bound) score = bound`. -/
def atLeast (bound score : ℚ) : ℚ := if score < bound then bound else score

/-- `vt_word_formation`. -/
def vtWordFormation (findPhoneme : List Char → List Char) (model : AcousticModel)
    (word : VtWord) : Option WordInfo :=
  let outside := word.has .useOutsidePhone
  let wordSize := getWordSize outside word.phone
  let phone := if !outside then pinyin2phoneme findPhoneme model word.phone else some word.phone
  phone.map fun phone ↦
    { wordType := word.type
      contentUtf8 := word.wordUtf8
      contentPhone := phone
      blockAvgScore :=
        atLeast (16 / 5) (word.orDefault .blockAvgScore word.blockAvgScore
          (getScoreParam (21 / 5) wordSize))
      blockMinScore :=
        atLeast (17 / 10) (word.orDefault .blockMinScore word.blockMinScore
          (getScoreParam (27 / 10) wordSize))
      leftSilDet := word.orDefault .leftSilDet word.leftSilDet true
      rightSilDet := word.orDefault .rightSilDet word.rightSilDet false
      remoteAsrCheckWithAec :=
        word.orDefault .remoteCheckWithAec word.remoteAsrCheckWithAec true
      remoteAsrCheckWithNoAec :=
        word.orDefault .remoteCheckWithNoAec word.remoteAsrCheckWithoutAec true
      localClassifyCheck := word.has .localClassifyCheck
      classifyShield := word.orDefault .classifyShield word.classifyShield (-3 / 10)
      localClassifyNnetPath := word.nnetPath }

/-- The word of the new entry is the client's. -/
theorem contentUtf8_of_vtWordFormation {findPhoneme : List Char → List Char}
    {model : AcousticModel} {word : VtWord} {info : WordInfo}
    (h : vtWordFormation findPhoneme model word = some info) :
    info.contentUtf8 = word.wordUtf8 := by
  obtain ⟨phone, -, rfl⟩ := Option.map_eq_some_iff.mp h
  rfl

/-- `has_vt_word`. -/
def hasVtWord (infos : List WordInfo) (word : List Char) : Bool :=
  infos.any fun info ↦ decide (word = info.contentUtf8)

theorem hasVtWord_iff (infos : List WordInfo) (word : List Char) :
    hasVtWord infos word = true ↔ word ∈ infos.map WordInfo.contentUtf8 := by
  simp only [hasVtWord, List.any_eq_true, decide_eq_true_eq, List.mem_map]
  constructor
  · rintro ⟨info, hinfo, rfl⟩
    exact ⟨info, hinfo, rfl⟩
  · rintro ⟨info, hinfo, rfl⟩
    exact ⟨info, hinfo, rfl⟩

/-- The loop of `remove_vt_word`, for at most `fuel` turns; `none` while it has not ended.  The
iterator stands at the first entry and is never advanced. -/
def removeLoop (word : List Char) : ℕ → List WordInfo → Option (List WordInfo × Bool)
  | 0, _ => none
  | _ + 1, [] => some ([], false)
  | fuel + 1, info :: infos =>
      if word = info.contentUtf8 then some (infos, true) else removeLoop word fuel (info :: infos)

/-- What the loop ends with, `none` when it never ends. -/
def eraseWord (word : List Char) (infos : List WordInfo) : Option (List WordInfo × Bool) :=
  removeLoop word (infos.length + 1) infos

theorem removeLoop_of_ne {word : List Char} {info : WordInfo} (hne : word ≠ info.contentUtf8)
    (infos : List WordInfo) (fuel : ℕ) : removeLoop word fuel (info :: infos) = none := by
  induction fuel with
  | zero => rfl
  | succ fuel ih => rw [removeLoop, if_neg hne, ih]

/-- Only the first entry is ever looked at. -/
theorem eraseWord_cons (word : List Char) (info : WordInfo) (infos : List WordInfo) :
    eraseWord word (info :: infos) =
      if word = info.contentUtf8 then some (infos, true) else none := by
  split_ifs with hword
  · exact if_pos hword
  · exact removeLoop_of_ne hword infos _

/-- No number of turns brings the loop to another end. -/
theorem removeLoop_eq_eraseWord (word : List Char) (infos : List WordInfo) (fuel : ℕ) :
    removeLoop word (fuel + 1) infos = eraseWord word infos := by
  cases infos with
  | nil => rfl
  | cons info infos =>
      rw [eraseWord_cons]
      split_ifs with hword
      · exact if_pos hword
      · exact removeLoop_of_ne hword infos _

end VtWordManager

end Vsys.Activation
