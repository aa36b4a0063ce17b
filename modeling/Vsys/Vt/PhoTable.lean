import Mathlib.Data.List.GetD
import Mathlib.Tactic.Linarith
import Mathlib.Tactic.Ring
import Vsys.Vt.Phones
import Vsys.Vt.Word

/-!
# `ZPhoTable`

The phone table of the engine, and its two parsers for the phone string of a word.

A name is turned into its number by `operator[]` of a map, which answers 0 for a name that is not
there (and enters it with that answer, so that a later question is answered in the same way).  The
names of a triphone thus always lead to an entry of `m_pTriPho2FixPho`, be they known or not.
`ParseWordMonoPhoLst` leaves out the triphones whose entry is −1, `ParseWordTriPhoLst` asserts that
there is none.

A string that contains a `+` goes to the second parser, all others to the first.
-/

namespace Vsys.Vt

/-- The name of a monophone. -/
abbrev PhoName := List Char

/-- Three names: the phone itself stands between those of its context. -/
abbrev Triphone := PhoName × PhoName × PhoName

/-- `ZPhoTable`.  The numbers of phones, of fixed triphones and of triphones are the lengths of the
lists; `ZPhoNode` is a function of the state's number. -/
structure ZPhoTable where
  monPhoLst : List PhoName
  monPho2Id : PhoName → Option ℤ
  fixPhoState : List (Fin 3 → ℤ)
  triPho2FixPho : List ℤ

namespace ZPhoTable

section Code

variable (t : ZPhoTable)

/-- `m_iMonPhoNum`. -/
def monPhoNum : ℕ := t.monPhoLst.length

/-- `m_MonPho2Id[name]`. -/
def monId (name : PhoName) : ℤ := (t.monPho2Id name).getD 0

/-- `GetTriPhoId` of three names. -/
def getTriPhoId (tri : Triphone) : ℤ :=
  t.monPhoNum * t.monPhoNum * t.monId tri.1 + t.monPhoNum * t.monId tri.2.1 + t.monId tri.2.2

/-- `m_pTriPho2FixPho[GetTriPhoId(...)]`. -/
def fixTriPhoId (tri : Triphone) : ℤ := t.triPho2FixPho.getD (t.getTriPhoId tri).toNat (-1)

/-- `m_pFixPhoState[iFixTriPhoId]`. -/
def fixNode (iFixTriPhoId : ℤ) : Fin 3 → ℤ := t.fixPhoState.getD iFixTriPhoId.toNat fun _ ↦ 0

end Code

end ZPhoTable

/-- A table as the loaders make it. -/
structure PhoTable extends ZPhoTable where
  nonempty : monPhoLst ≠ []
  total_eq : triPho2FixPho.length = monPhoLst.length * monPhoLst.length * monPhoLst.length
  entries : ∀ entry ∈ triPho2FixPho, -1 ≤ entry ∧ entry < fixPhoState.length
  known : ∀ name ∈ monPhoLst, ∃ i : ℕ, monPho2Id name = some (i : ℤ) ∧ monPhoLst[i]? = some name
  unknown : ∀ name, name ∉ monPhoLst → monPho2Id name = none ∨ monPho2Id name = some 0

namespace PhoTable

variable (t : PhoTable)

theorem monPhoNum_pos : 0 < t.monPhoNum := List.length_pos_of_ne_nil t.nonempty

/-- Every name has a number, be it known or not. -/
theorem monId_bounds (name : PhoName) : 0 ≤ t.monId name ∧ t.monId name < t.monPhoNum := by
  have hpos := t.monPhoNum_pos
  by_cases hname : name ∈ t.monPhoLst
  · obtain ⟨i, hid, hi⟩ := t.known name hname
    have hlt : i < t.monPhoNum := (List.getElem?_eq_some_iff.mp hi).1
    rw [ZPhoTable.monId, hid, Option.getD_some]
    omega
  · have hzero : t.monId name = 0 := by
      obtain hid | hid := t.unknown name hname <;> rw [ZPhoTable.monId, hid] <;> rfl
    omega

/-- The entry of a triphone is read within the array. -/
theorem getTriPhoId_bounds (tri : Triphone) :
    0 ≤ t.getTriPhoId tri ∧ (t.getTriPhoId tri).toNat < t.triPho2FixPho.length := by
  obtain ⟨hpre, hpre'⟩ := t.monId_bounds tri.1
  obtain ⟨hcur, hcur'⟩ := t.monId_bounds tri.2.1
  obtain ⟨hnext, hnext'⟩ := t.monId_bounds tri.2.2
  have hnonneg : 0 ≤ t.getTriPhoId tri := by
    unfold ZPhoTable.getTriPhoId
    positivity
  have hlt : t.getTriPhoId tri < t.monPhoNum * t.monPhoNum * t.monPhoNum := by
    unfold ZPhoTable.getTriPhoId
    nlinarith
  refine ⟨hnonneg, ?_⟩
  rw [t.total_eq]
  zify
  rwa [Int.toNat_of_nonneg hnonneg]

/-- The entry is −1 or the number of a fixed triphone. -/
theorem fixTriPhoId_bounds (tri : Triphone) :
    -1 ≤ t.fixTriPhoId tri ∧ t.fixTriPhoId tri < t.fixPhoState.length := by
  have hlt := (t.getTriPhoId_bounds tri).2
  rw [ZPhoTable.fixTriPhoId, List.getD_eq_getElem _ _ hlt]
  exact t.entries _ (List.getElem_mem hlt)

end PhoTable

/-! ## The parsers -/

/-- The pieces that `strtok_r` cuts a string into. -/
def strtok (delimiters s : List Char) : List (List Char) :=
  (s.splitOnP fun c ↦ decide (c ∈ delimiters)).filter fun piece ↦ decide (piece ≠ [])

/-- What the engine does not survive: a failed assertion, or a read out of bounds, after which
nothing is known. -/
inductive ParseFault
  | assertion
  | outOfBounds
  deriving DecidableEq

/-- A phone of a word: the triphones that it stands for, and its mark. -/
structure PhoPos where
  triphones : List Triphone
  mark : PhoMark

/-- A token of the first parser: the alternatives, and the mark. -/
structure MonoTok where
  names : List PhoName
  mark : PhoMark

/-- An alternative, or a mark; the last mark counts. -/
def monoStep (acc : MonoTok) (monoPho : List Char) : MonoTok :=
  if monoPho = "#".toList then { acc with mark := .block }
  else if monoPho = "##".toList then { acc with mark := .blockSil }
  else { acc with names := acc.names ++ [monoPho] }

/-- A token of the first parser. -/
def monoTok (monoPhoLst : List Char) : MonoTok :=
  (strtok "|".toList monoPhoLst).foldl monoStep ⟨[], .none⟩

/-- The tokens of the first parser. -/
def monoToks (wordMonoPhoLst : List Char) : List MonoTok :=
  (strtok " \r\t\n".toList wordMonoPhoLst).map monoTok

/-- `SilLst`. -/
def silLst : List PhoName := ["sil".toList, "<eps>".toList]

/-- The names that may stand on the other side of a phone's end. -/
def withSil (mark : PhoMark) (names : List PhoName) : List PhoName :=
  if mark = .blockSil then names ++ silLst else names

/-- The triphones of the three loops. -/
def triphones (pre cur next : List PhoName) : List Triphone :=
  pre.flatMap fun l ↦ cur.flatMap fun m ↦ next.map fun n ↦ (l, m, n)

/-- The phones of the first parser, with `pre` before them and `right` behind. -/
def monoPositions (right : List PhoName) : List PhoName → List MonoTok → List PhoPos
  | _, [] => []
  | pre, cur :: rest =>
      let next := withSil cur.mark ((rest.head?.map MonoTok.names).getD right)
      ⟨triphones pre cur.names next, cur.mark⟩ ::
        monoPositions right (withSil cur.mark cur.names) rest

/-- `FixTriPhoLst`, without repetitions. -/
def addFix (fixTriPhoLst : List ℤ) (iFixTriPhoId : ℤ) : List ℤ :=
  if -1 < iFixTriPhoId then
    if iFixTriPhoId ∈ fixTriPhoLst then fixTriPhoLst else fixTriPhoLst ++ [iFixTriPhoId]
  else fixTriPhoLst

/-- A token of the second parser: the names of the triphones, and whether there is a `#`. -/
structure TriTok where
  names : List (List Char)
  flag : Bool

/-- A token of the second parser. -/
def triTok (triPhoLst : List Char) : TriTok where
  names := (strtok "|".toList triPhoLst).filter fun triPho ↦ decide (triPho ≠ "#".toList)
  flag := (strtok "|".toList triPhoLst).any fun triPho ↦ decide (triPho = "#".toList)

/-- The tokens of the second parser. -/
def triToks (wordTriPhoLst : List Char) : List TriTok :=
  (strtok ";".toList wordTriPhoLst).map triTok

/-- `GetTriPhoId` of a name: the three pieces.  With a single piece it answers −1, and the array is
read before its beginning. -/
def triPieces (triPhoneName : List Char) : Except ParseFault Triphone :=
  match strtok "-+".toList triPhoneName with
  | [_] => .error .outOfBounds
  | [l, m, n] => .ok (l, m, n)
  | _ => .error .assertion

namespace ZPhoTable

section Code

variable (t : ZPhoTable)

/-- A phone of the first parser. -/
def monoPho (pos : PhoPos) : Pho where
  nodes := ((pos.triphones.map t.fixTriPhoId).foldl addFix []).map t.fixNode
  mark := pos.mark

/-- The phones that `ParseWordMonoPhoLst` sees in a string. -/
def monoWord (wordMonoPhoLst : List Char) (rightSil : Bool) : List PhoPos :=
  monoPositions (if rightSil then t.monPhoLst else silLst) silLst (monoToks wordMonoPhoLst)

/-- `ParseWordMonoPhoLst`, before the flags are set. -/
def parseWordMonoPhoLst (wordMonoPhoLst : List Char) (rightSil : Bool) : List Pho :=
  (t.monoWord wordMonoPhoLst rightSil).map t.monoPho

/-- A triphone of the second parser: its node. -/
def triNode (triPhoneName : List Char) : Except ParseFault (Fin 3 → ℤ) := do
  let tri ← triPieces triPhoneName
  if t.fixTriPhoId tri = -1 then .error .assertion else .ok (t.fixNode (t.fixTriPhoId tri))

/-- A phone of the second parser. -/
def triPho (tok : TriTok) : Except ParseFault Pho := do
  let nodes ← tok.names.mapM t.triNode
  .ok ⟨nodes, if tok.flag then .block else .none⟩

/-- `ParseWordTriPhoLst`, before the flags are set. -/
def parseWordTriPhoLst (wordTriPhoLst : List Char) : Except ParseFault (List Pho) :=
  (triToks wordTriPhoLst).mapM t.triPho

/-- The phones of an entry of the word list. -/
def parseWordInfo (info : WordInfo) : Except ParseFault (List Pho) :=
  if '+' ∈ info.contentPhone then t.parseWordTriPhoLst info.contentPhone
  else .ok (t.parseWordMonoPhoLst info.contentPhone (decide (info.wordType ≠ .sleep)))

end Code

end ZPhoTable

end Vsys.Vt
