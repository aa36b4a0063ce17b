import Vsys.Vt.Det

/-!
# `ZVtMem`

The wake-word engine: a list of words and one detector per word.  `SetWords` replaces the word
tables at once; the detectors are rebuilt by the next `Detect` that finds no detection selected.
`Detect` runs every detector over the new score frames and reports the result of the selected one
only.

`ZVtWord` objects live on the heap.  The model gives each one an address that is never used again
and keeps the objects that are still allocated in `heap`, so that a detector whose word has been
deleted can be told from one whose word is still there.
-/

namespace Vsys.Vt

/-- A `ZVtWord*`: the address of the object and the list entry it was created for. -/
structure VtWordPtr where
  addr : ℕ
  info : WordInfo
  deriving DecidableEq

/-- The object as it was created; it is never written to afterwards. -/
def VtWordPtr.word (ptr : VtWordPtr) : ZVtWord := .ofInfo ptr.info

/-- The state of a `ZVtMem` object.  `curVtDetId` is `none` for `-1`. -/
structure VtMem where
  wordLst : List WordInfo
  vtWordLst : List VtWordPtr
  needChangeWord : Bool
  dsCb : Bool
  vtDetLst : List VtDet
  curVtDetId : Option ℕ
  heap : List VtWordPtr
  nextAddr : ℕ
  assertsHeld : Bool
  deriving DecidableEq

/-- What goes into one call of `Detect`: the length of the audio, the two flags, and for every
score frame the answers of the engines to each detector. -/
structure DetectIn where
  wavLen : ℤ
  aec : Bool
  vadEnd : Bool
  frms : List (ℕ → FrmIn)
  endIn : ℕ → FrmIn

/-- The score frames a call of `Detect` looks at. -/
def DetectIn.frames (input : DetectIn) : ℕ := if input.wavLen ≤ 0 then 0 else input.frms.length

/-- What comes out of one call of `Detect`, with the callback calls made during it. -/
structure DetectOut where
  mem : VtMem
  rt : VtResult
  calls : List SecSlCall

namespace VtMem

/-- The constructor; `dsCb` says whether a second-localisation callback is installed. -/
def create (dsCb : Bool) : VtMem where
  wordLst := []
  vtWordLst := []
  needChangeWord := false
  dsCb := dsCb
  vtDetLst := []
  curVtDetId := none
  heap := []
  nextAddr := 0
  assertsHeld := true

/-- `ZVtSto::ParseWordTriPhoLst`: one new object for every entry. -/
def parseWordTriPhoLst (nextAddr : ℕ) (words : List WordInfo) : List VtWordPtr :=
  words.mapIdx fun i info ↦ ⟨nextAddr + i, info⟩

/-- `Z_SAFE_DEL` of the objects behind pointers. -/
def delete (m : VtMem) (words : List VtWordPtr) : VtMem :=
  { m with heap := m.heap.filter fun ptr ↦ ptr.addr ∉ words.map VtWordPtr.addr }

/-- `SetWords`. -/
def setWords (m : VtMem) (words : List WordInfo) : VtMem × ℤ :=
  let m :=
    if words.length > 0 then
      let vtWords := parseWordTriPhoLst m.nextAddr words
      let m := { m with heap := m.heap ++ vtWords, nextAddr := m.nextAddr + vtWords.length }
      if vtWords.length = words.length then
        { m.delete m.vtWordLst with needChangeWord := true, wordLst := words, vtWordLst := vtWords }
      else m.delete vtWords
    else m
  (m, if m.needChangeWord then 0 else 1)

/-- A list that is not empty replaces the old one. -/
theorem setWords_of_ne_nil (m : VtMem) {words : List WordInfo} (hwords : words ≠ []) :
    (m.setWords words).1 =
      { m with
        heap := (m.heap ++ parseWordTriPhoLst m.nextAddr words).filter fun ptr ↦
          ptr.addr ∉ m.vtWordLst.map VtWordPtr.addr
        nextAddr := m.nextAddr + words.length
        needChangeWord := true
        wordLst := words
        vtWordLst := parseWordTriPhoLst m.nextAddr words } := by
  have hlength : (parseWordTriPhoLst m.nextAddr words).length = words.length := List.length_mapIdx
  simp only [setWords, List.length_pos_iff.mpr hwords, hlength, delete, ↓reduceIte]

/-- An empty one does not. -/
theorem setWords_nil (m : VtMem) : (m.setWords []).1 = m := rfl

/-- `GetWords`. -/
def getWords (m : VtMem) : List WordInfo := m.wordLst

/-- `CheckWordsChanged`. -/
def checkWordsChanged (m : VtMem) : VtMem :=
  if m.curVtDetId = none ∧ m.needChangeWord then
    { m with
      assertsHeld := m.assertsHeld && decide (m.wordLst.length > 0)
      needChangeWord := false
      vtDetLst := m.vtWordLst.map fun ptr ↦ { vtWord := ptr.word, addr := ptr.addr, dsCb := m.dsCb }
      curVtDetId := none }
  else m

/-- `Reset`. -/
def reset (m : VtMem) : VtMem :=
  { m with curVtDetId := none, vtDetLst := m.vtDetLst.map VtDet.reset }

/-- Forget a selected detector that has finished, and reset every finished one. -/
def resetFinished (m : VtMem) : VtMem :=
  { m with
    curVtDetId := m.curVtDetId.filter fun i ↦ !(m.vtDetLst[i]?.any VtDet.isNeedReset)
    vtDetLst := m.vtDetLst.map fun d ↦ if d.isNeedReset then d.reset else d }

/-- `ProcessScore` of every detector. -/
def processAll (dets : List VtDet) (input : DetectIn) : List (VtDet × VtResult) :=
  dets.mapIdx fun i d ↦
    d.processScore (input.frms.map (· i)) (input.endIn i) input.vadEnd input.aec

/-- The part of `Detect` that runs the detectors, selects one and reports its result. -/
def runBatch (m : VtMem) (input : DetectIn) : DetectOut :=
  let outs := processAll m.vtDetLst input
  let rts := outs.map Prod.snd
  let cur := m.curVtDetId.orElse fun _ ↦ rts.findIdx? VtResult.pre
  let m := { m with vtDetLst := outs.map Prod.fst, curVtDetId := cur }
  ⟨m, (cur.bind fun i ↦ rts[i]?).getD .none, m.vtDetLst.flatMap VtDet.calls⟩

/-- `Detect`. -/
def detect (m : VtMem) (input : DetectIn) : DetectOut :=
  let m := m.checkWordsChanged
  if input.wavLen ≤ 0 then ⟨m, .none, []⟩ else m.resetFinished.runBatch input

/-- `GetDetWordInfo`: `none` when it returns 1; an entry out of range is `none` inside. -/
def getDetWordInfo (m : VtMem) (offset : ℤ) : Option (Option WordInfo × Option WordDetInfo) :=
  m.curVtDetId.map fun i ↦ (m.wordLst[i]?, m.vtDetLst[i]?.map fun d ↦ d.getDetWordInfo offset)

/-! ## Successive calls -/

/-- The engine after some calls of `Detect`. -/
def afterDetects : VtMem → List DetectIn → VtMem
  | m, [] => m
  | m, input :: inputs => afterDetects (m.detect input).mem inputs

/-- The results of some calls of `Detect`. -/
def results : VtMem → List DetectIn → List VtResult
  | _, [] => []
  | m, input :: inputs => (m.detect input).rt :: results (m.detect input).mem inputs

end VtMem

end Vsys.Vt
