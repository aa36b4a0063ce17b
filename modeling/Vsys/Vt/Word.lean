import Mathlib.Data.Rat.Defs

/-!
# Wake words and detection results

The data the wake-word engine exchanges with its callers: word types, the `WordInfo` record that
`SetWords` takes, the `WordDetInfo` record that describes a detection, and the
`R2_VT_WORD_*` bits a `Detect` call returns.  `ZVtWord` is the engine's own record of a word;
`ZVtWord.ofInfo` is what `ZVtSto::ParseWordTriPhoLst` fills in for one list entry, apart from the
phone graph, which no function of this layer reads.

C strings are lists of characters and float settings are rationals.
-/

namespace Vsys.Vt

/-- `WordType`. -/
inductive WordType
  | awake
  | sleep
  | hotword
  | other
  deriving DecidableEq, Repr

/-- `WordInfo`: one entry of the list given to `SetWords`. -/
structure WordInfo where
  wordType : WordType
  contentUtf8 : List Char
  contentPhone : List Char
  blockAvgScore : ℚ
  blockMinScore : ℚ
  leftSilDet : Bool
  rightSilDet : Bool
  remoteAsrCheckWithAec : Bool
  remoteAsrCheckWithNoAec : Bool
  localClassifyCheck : Bool
  classifyShield : ℚ
  localClassifyNnetPath : List Char
  deriving DecidableEq

/-- `WordDetInfo`: position, energy and direction of a detected word. -/
structure WordDetInfo where
  wordPosStart : ℤ := 0
  wordPosEnd : ℤ := 0
  energy : ℚ := 0
  azimuth : ℚ := 0
  elevation : ℚ := 0
  deriving DecidableEq

/-- The `R2_VT_WORD_*` bits of a detection result. -/
@[ext] structure VtResult where
  pre : Bool := false
  det : Bool := false
  cancel : Bool := false
  detCmd : Bool := false
  detNocmd : Bool := false
  deriving DecidableEq, Repr

namespace VtResult

/-- No bit set. -/
def none : VtResult := {}

/-- `rt |= other`. -/
def union (rt other : VtResult) : VtResult where
  pre := rt.pre || other.pre
  det := rt.det || other.det
  cancel := rt.cancel || other.cancel
  detCmd := rt.detCmd || other.detCmd
  detNocmd := rt.detNocmd || other.detNocmd

instance : OrOp VtResult := ⟨union⟩

@[simp] theorem or_pre (rt other : VtResult) : (rt ||| other).pre = (rt.pre || other.pre) := rfl

@[simp] theorem or_det (rt other : VtResult) : (rt ||| other).det = (rt.det || other.det) := rfl

@[simp] theorem or_cancel (rt other : VtResult) :
    (rt ||| other).cancel = (rt.cancel || other.cancel) := rfl

@[simp] theorem or_detCmd (rt other : VtResult) :
    (rt ||| other).detCmd = (rt.detCmd || other.detCmd) := rfl

@[simp] theorem or_detNocmd (rt other : VtResult) :
    (rt ||| other).detNocmd = (rt.detNocmd || other.detNocmd) := rfl

@[simp] theorem or_none (rt : VtResult) : rt ||| none = rt := by
  ext <;> simp [none]

@[simp] theorem none_or (rt : VtResult) : none ||| rt = rt := by
  ext <;> simp [none]

/-- One of the two decision bits is set. -/
def decided (rt : VtResult) : Bool := rt.detCmd || rt.detNocmd

end VtResult

/-- `ZVtWord`: the engine's record of a word. -/
structure ZVtWord where
  wordType : WordType
  wordContent : List Char
  blockMinFrmLen : ℕ := 3
  blockMaxFrmLen : ℕ := 30
  blockAvgScore : ℚ
  blockMinScore : ℚ
  leftSilCheck : Bool
  leftSilOffset : ℤ := 50
  leftSilSkip : ℤ := 10
  leftSilShield : ℚ := 1 / 2
  rightSilCheck : Bool
  rightSilOffset : ℤ := 35
  rightSilSkip : ℤ := 10
  rightSilShield : ℚ := 3 / 10
  classifyCheck : Bool
  classifyNnetShield : ℚ
  classifyNnetPath : List Char
  remoteAsrCheckWithAec : Bool
  remoteAsrCheckWithNoAec : Bool
  deriving DecidableEq

namespace ZVtWord

/-- The record `ParseWordTriPhoLst` builds for one list entry. -/
def ofInfo (info : WordInfo) : ZVtWord where
  wordType := info.wordType
  wordContent := info.contentUtf8
  blockAvgScore := info.blockAvgScore
  blockMinScore := info.blockMinScore
  leftSilCheck := info.leftSilDet
  rightSilCheck := info.rightSilDet
  classifyCheck := info.localClassifyCheck
  classifyNnetShield := info.classifyShield
  classifyNnetPath := info.localClassifyNnetPath
  remoteAsrCheckWithAec := info.remoteAsrCheckWithAec
  remoteAsrCheckWithNoAec := info.remoteAsrCheckWithNoAec

/-- `CheckNoCmdChange`: a word checked remotely is reported as a command. -/
def checkNoCmdChange (word : ZVtWord) (aec : Bool) : Bool :=
  if aec && word.remoteAsrCheckWithAec then true
  else if !aec && word.remoteAsrCheckWithNoAec then true
  else false

end ZVtWord

end Vsys.Vt
