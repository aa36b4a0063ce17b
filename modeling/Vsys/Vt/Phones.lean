import Mathlib.Data.Fintype.Basic
import Mathlib.Data.List.Basic
import Mathlib.Data.List.Induction
import Mathlib.Data.Nat.Notation
import Mathlib.Tactic.FinCases

/-!
# The states of a word

A word is a list of phones in which some are marked as the end of a block.  The two parsers of
`ZPhoTable` set the flags of the phones in the same way, and `SetPhoBatchLst` makes three states of
every phone.  `Linear` is what the states of a word come to if its last phone ends a block: a chain,
in which a block begins behind the end of every block.
-/

namespace Vsys.Vt

/-- `#` ends a block, and `##` one with silence behind it (in `ParseWordMonoPhoLst` only). -/
inductive PhoMark
  | none
  | block
  | blockSil
  deriving DecidableEq

/-- A phone of a parsed word: the state ids of every triphone it stands for, and its mark. -/
structure Pho where
  nodes : List (Fin 3 → ℤ)
  mark : PhoMark

/-- The bits of `iPhoFlag`. -/
structure PhoFlag where
  wordBegin : Bool := false
  wordEnd : Bool := false
  blockBegin : Bool := false
  blockEnd : Bool := false
  enableSil : Bool := false
  deriving DecidableEq

/-- `ZPhoBatch`. -/
structure ZPhoBatch where
  phoFlag : PhoFlag
  phoList : List (Fin 3 → ℤ)

/-- A round of the parsers: the phones so far and `iStart`. -/
def parsePho (acc : List ZPhoBatch × ℕ) (pho : Pho) : List ZPhoBatch × ℕ :=
  let rst := acc.1 ++ [⟨{}, pho.nodes⟩]
  if pho.mark = .none then (rst, acc.2)
  else
    let begun := rst.modify acc.2 fun b ↦ { b with phoFlag := { b.phoFlag with blockBegin := true } }
    let ended := begun.modify acc.1.length fun b ↦
      { b with
        phoFlag :=
          { b.phoFlag with
            blockEnd := true
            enableSil := b.phoFlag.enableSil || decide (pho.mark = .blockSil) } }
    (ended, rst.length)

/-- The result of the parsers. -/
def parseWord (phones : List Pho) : List ZPhoBatch :=
  let rst := (phones.foldl parsePho ([], 0)).1
  let begun := rst.modify 0 fun b ↦ { b with phoFlag := { b.phoFlag with wordBegin := true } }
  begun.modify (rst.length - 1) fun b ↦ { b with phoFlag := { b.phoFlag with wordEnd := true } }

/-- `ZVtState`. -/
structure ZVtState where
  wordBegin : Bool
  wordEnd : Bool
  blockBegin : Bool
  blockEnd : Bool
  curStateLst : List ℤ
  preStateLst : List ℕ

/-- The ids are collected without repetitions. -/
def addStateId (cur : List ℤ) (stateid : ℤ) : List ℤ :=
  if stateid ∈ cur then cur else cur ++ [stateid]

/-- `pCurStateLst`. -/
def curStates (b : ZPhoBatch) (k : Fin 3) : List ℤ :=
  let cur := (b.phoList.map fun node ↦ node k).foldl addStateId []
  if k = 2 ∧ b.phoFlag.enableSil = true then [1, 2, 3, 4, 5].foldl addStateId cur else cur

/-- The state `k` of a phone; `last` is `LastSubTriPhoStateidLst`. -/
def vtState (b : ZPhoBatch) (k : Fin 3) (iStateId : ℕ) (last : List ℕ) : ZVtState where
  wordBegin := decide (k = 0) && b.phoFlag.wordBegin
  wordEnd := decide (k = 2) && b.phoFlag.wordEnd
  blockBegin := decide (k = 0) && b.phoFlag.blockBegin
  blockEnd := decide (k = 2) && b.phoFlag.blockEnd
  curStateLst := curStates b k
  preStateLst := if k = 0 then iStateId :: last else [iStateId, iStateId - 1]

/-- A round of `SetPhoBatchLst`: the states so far and `CurSubTriPhoStateidLst`. -/
def addPho (acc : List ZVtState × List ℕ) (b : ZPhoBatch) : List ZVtState × List ℕ :=
  let iStateId := acc.1.length
  (acc.1 ++ [vtState b 0 iStateId acc.2, vtState b 1 (iStateId + 1) acc.2,
    vtState b 2 (iStateId + 2) acc.2], [iStateId + 2])

/-- `SetPhoBatchLst`. -/
def setPhoBatchLst (phoBatchLst : List ZPhoBatch) : List ZVtState :=
  (phoBatchLst.foldl addPho ([], [])).1

/-- `m_iBlockNum`. -/
def blockNum (states : List ZVtState) : ℕ := states.countP ZVtState.blockEnd

/-- The block of a state: the number of blocks that end before it. -/
def blockOf (states : List ZVtState) (state : ℕ) : ℕ := (states.take state).countP ZVtState.blockEnd

/-- A chain of states in which a block begins behind the end of every block. -/
structure Linear (states : List ZVtState) : Prop where
  length_pos : 0 < states.length
  preStateLst_eq : ∀ s state, states[s]? = some state →
    state.preStateLst = if s = 0 then [0] else [s, s - 1]
  wordBegin_iff : ∀ s state, states[s]? = some state → (state.wordBegin = true ↔ s = 0)
  wordEnd_iff : ∀ s state, states[s]? = some state →
    (state.wordEnd = true ↔ s + 1 = states.length)
  blockBegin_zero : ∀ state, states[0]? = some state → state.blockBegin = true
  blockBegin_succ : ∀ s older newer, states[s]? = some older → states[s + 1]? = some newer →
    newer.blockBegin = older.blockEnd
  blockEnd_last : ∀ state, states[states.length - 1]? = some state → state.blockEnd = true

/-! ## The flags of the phones -/

/-- The phone ends a block. -/
def closes (phones : List Pho) (i : ℕ) : Bool :=
  (phones[i]?).any fun pho ↦ decide (pho.mark ≠ .none)

/-- The phones while they are parsed: the blocks before `iStart` are marked. -/
structure Parsing (phones : List Pho) (rst : List ZPhoBatch) (iStart : ℕ) : Prop where
  length_eq : rst.length = phones.length
  iStart_le : iStart ≤ phones.length
  iStart_zero_or : iStart = 0 ∨ closes phones (iStart - 1) = true
  open_after : ∀ i, iStart ≤ i → closes phones i = false
  flags : ∀ i b, rst[i]? = some b →
    b.phoFlag.wordBegin = false ∧ b.phoFlag.wordEnd = false ∧
      b.phoFlag.blockEnd = closes phones i ∧
      (b.phoFlag.blockBegin = true ↔ i < iStart ∧ (i = 0 ∨ closes phones (i - 1) = true))

theorem closes_append_left {phones more : List Pho} {i : ℕ} (hi : i < phones.length) :
    closes (phones ++ more) i = closes phones i := by
  rw [closes, closes, List.getElem?_append_left hi]

theorem closes_concat (phones : List Pho) (pho : Pho) :
    closes (phones ++ [pho]) phones.length = decide (pho.mark ≠ .none) := by
  rw [closes, List.getElem?_concat_length]
  rfl

theorem closes_of_le {phones : List Pho} {i : ℕ} (hi : phones.length ≤ i) :
    closes phones i = false := by
  rw [closes, List.getElem?_eq_none hi]
  rfl

theorem parsing_nil : Parsing [] [] 0 where
  length_eq := rfl
  iStart_le := Nat.le_refl 0
  iStart_zero_or := .inl rfl
  open_after := fun i _ ↦ closes_of_le (Nat.zero_le i)
  flags := fun i b hb ↦ by simp at hb

/-- An entry of a list with one more at its end is an old one or the new one. -/
theorem getElem?_concat_eq_some {α : Type*} {old : List α} {new b : α} {i : ℕ}
    (h : (old ++ [new])[i]? = some b) :
    (i < old.length ∧ old[i]? = some b) ∨ (i = old.length ∧ b = new) := by
  obtain hlt | rfl | hlt := Nat.lt_trichotomy i old.length
  · rw [List.getElem?_append_left hlt] at h
    exact .inl ⟨hlt, h⟩
  · rw [List.getElem?_concat_length, Option.some_inj] at h
    exact .inr ⟨rfl, h.symm⟩
  · rw [List.getElem?_eq_none (by simp; omega)] at h
    cases h

/-- No phone behind `iStart` begins a block. -/
theorem Parsing.le_iStart {phones : List Pho} {rst : List ZPhoBatch} {iStart : ℕ}
    (h : Parsing phones rst iStart) {i : ℕ} (hi : i = 0 ∨ closes phones (i - 1) = true) :
    i ≤ iStart := by
  by_contra hafter
  obtain rfl | hclosed := hi
  · omega
  · rw [h.open_after (i - 1) (by omega)] at hclosed
    exact absurd hclosed Bool.false_ne_true

/-- A phone inside a block. -/
theorem Parsing.inside {phones : List Pho} {rst : List ZPhoBatch} {iStart : ℕ}
    (h : Parsing phones rst iStart) {pho : Pho} (hmark : pho.mark = .none) :
    Parsing (phones ++ [pho]) (rst ++ [⟨{}, pho.nodes⟩]) iStart := by
  obtain ⟨hlength, hle, hzero, hopen, hflags⟩ := h
  have hlast : closes (phones ++ [pho]) phones.length = false := by
    rw [closes_concat, hmark]
    rfl
  refine ⟨by simp [hlength], by simp; omega, ?_, fun i hi ↦ ?_, fun i b hb ↦ ?_⟩
  · obtain hzero | hclosed := hzero
    · exact .inl hzero
    · by_cases hstart : iStart = 0
      · exact .inl hstart
      · exact .inr (by rw [closes_append_left (by omega), hclosed])
  · obtain hlt | rfl | hlt := Nat.lt_trichotomy i phones.length
    · rw [closes_append_left hlt, hopen i hi]
    · exact hlast
    · exact closes_of_le (by simp; omega)
  · obtain ⟨hlt, hold⟩ | ⟨rfl, rfl⟩ := getElem?_concat_eq_some hb
    · rw [closes_append_left (by omega), closes_append_left (by omega)]
      exact hflags i b hold
    · rw [hlength, hlast]
      refine ⟨rfl, rfl, rfl, fun hfalse ↦ absurd hfalse Bool.false_ne_true, fun hin ↦ ?_⟩
      omega

/-- A phone at the end of a block. -/
theorem Parsing.ending {phones : List Pho} {rst : List ZPhoBatch} {iStart : ℕ}
    (h : Parsing phones rst iStart) {pho : Pho} (hmark : pho.mark ≠ .none) :
    Parsing (phones ++ [pho]) (parsePho (rst, iStart) pho).1 (rst.length + 1) := by
  have hlength := h.length_eq
  have hle := h.iStart_le
  have hlast : closes (phones ++ [pho]) phones.length = true := by
    rw [closes_concat]
    exact decide_eq_true hmark
  -- a phone up to the new one begins a block if there is one that ends right before it
  have hbefore : ∀ i ≤ phones.length,
      (i = 0 ∨ closes (phones ++ [pho]) (i - 1) = true) ↔ (i = 0 ∨ closes phones (i - 1) = true) := by
    intro i hi
    refine or_congr_right' fun hpos ↦ ?_
    rw [closes_append_left (by omega)]
  rw [parsePho, if_neg hmark]
  dsimp only
  refine ⟨by simp [hlength], by simp [hlength], ?_, fun i hi ↦ ?_, fun i b hb ↦ ?_⟩
  · exact .inr (by rw [Nat.add_sub_cancel, hlength, hlast])
  · exact closes_of_le (by simp; omega)
  · rw [List.getElem?_modify, List.getElem?_modify] at hb
    simp only [Option.map_eq_map, Option.map_map, Option.map_eq_some_iff, Function.comp_apply] at hb
    obtain ⟨c, hc, rfl⟩ := hb
    obtain ⟨hlt, hold⟩ | ⟨rfl, rfl⟩ := getElem?_concat_eq_some hc
    · obtain ⟨hbegin, hend, hblockEnd, hblockBegin⟩ := h.flags i c hold
      rw [closes_append_left (by omega), hbefore i (by omega), if_neg (by omega)]
      by_cases hstart : iStart = i
      · rw [if_pos hstart]
        exact ⟨hbegin, hend, hblockEnd, fun _ ↦ ⟨by omega, hstart ▸ h.iStart_zero_or⟩, fun _ ↦ rfl⟩
      · rw [if_neg hstart]
        refine ⟨hbegin, hend, hblockEnd, fun htrue ↦ ?_, fun hin ↦ ?_⟩
        · exact ⟨by omega, (hblockBegin.mp htrue).2⟩
        · have hi := h.le_iStart hin.2
          exact hblockBegin.mpr ⟨by omega, hin.2⟩
    · rw [hlength, hlast, hbefore _ (Nat.le_refl _), if_pos rfl]
      by_cases hstart : iStart = phones.length
      · rw [if_pos hstart]
        exact ⟨rfl, rfl, rfl, fun _ ↦ ⟨by omega, hstart ▸ h.iStart_zero_or⟩, fun _ ↦ rfl⟩
      · rw [if_neg hstart]
        refine ⟨rfl, rfl, rfl, fun hfalse ↦ absurd hfalse Bool.false_ne_true, fun hin ↦ ?_⟩
        have hi := h.le_iStart hin.2
        omega

theorem parsing_foldl (phones : List Pho) :
    Parsing phones (phones.foldl parsePho ([], 0)).1 (phones.foldl parsePho ([], 0)).2 := by
  induction phones using List.reverseRecOn with
  | nil => exact parsing_nil
  | append_singleton phones pho ih =>
      rw [List.foldl_concat]
      by_cases hmark : pho.mark = .none
      · rw [parsePho, if_pos hmark]
        exact ih.inside hmark
      · have hstart : (parsePho (phones.foldl parsePho ([], 0)) pho).2 =
            (phones.foldl parsePho ([], 0)).1.length + 1 := by
          rw [parsePho, if_neg hmark]
          simp
        rw [hstart]
        exact ih.ending hmark

theorem length_parseWord (phones : List Pho) : (parseWord phones).length = phones.length := by
  have hlength := (parsing_foldl phones).length_eq
  unfold parseWord
  dsimp only
  rw [List.length_modify, List.length_modify, hlength]

/-- The phones before `iStart` are those up to the last one that ends a block. -/
theorem Parsing.lt_iStart_iff {phones : List Pho} {rst : List ZPhoBatch} {iStart : ℕ}
    (h : Parsing phones rst iStart) {i : ℕ} :
    i < iStart ↔ ∃ j, i ≤ j ∧ closes phones j = true := by
  constructor
  · intro hi
    obtain hzero | hclosed := h.iStart_zero_or
    · omega
    · exact ⟨iStart - 1, by omega, hclosed⟩
  · rintro ⟨j, hij, hclosed⟩
    by_contra hafter
    rw [h.open_after j (by omega)] at hclosed
    exact absurd hclosed Bool.false_ne_true

/-- The flags of a phone. -/
theorem parseWord_flags {phones : List Pho} {i : ℕ} {b : ZPhoBatch}
    (hb : (parseWord phones)[i]? = some b) :
    (b.phoFlag.wordBegin = true ↔ i = 0) ∧ (b.phoFlag.wordEnd = true ↔ i + 1 = phones.length) ∧
      b.phoFlag.blockEnd = closes phones i ∧
      (b.phoFlag.blockBegin = true ↔
        (∃ j, i ≤ j ∧ closes phones j = true) ∧ (i = 0 ∨ closes phones (i - 1) = true)) := by
  have hparsing := parsing_foldl phones
  rw [← hparsing.lt_iStart_iff]
  obtain ⟨hlength, -, -, -, hflags⟩ := hparsing
  set rst := (phones.foldl parsePho ([], 0)).1
  set iStart := (phones.foldl parsePho ([], 0)).2
  have hword : parseWord phones = (rst.modify 0 fun b ↦
      { b with phoFlag := { b.phoFlag with wordBegin := true } }).modify (rst.length - 1) fun b ↦
        { b with phoFlag := { b.phoFlag with wordEnd := true } } := rfl
  rw [hword, List.getElem?_modify, List.getElem?_modify] at hb
  by_cases hi : i < rst.length
  · obtain ⟨c, hc⟩ : ∃ c, rst[i]? = some c := ⟨_, List.getElem?_eq_getElem hi⟩
    obtain ⟨hbegin, hend, hblockEnd, hblocks⟩ := hflags i c hc
    rw [hc] at hb
    simp only [Option.map_eq_map, Option.map_some, Option.some_inj] at hb
    subst hb
    by_cases hfirst : 0 = i
    · by_cases hfinal : rst.length - 1 = i
      · rw [if_pos hfinal, if_pos hfirst]
        exact ⟨iff_of_true rfl hfirst.symm, iff_of_true rfl (by omega), hblockEnd, hblocks⟩
      · rw [if_neg hfinal, if_pos hfirst]
        exact ⟨iff_of_true rfl hfirst.symm, iff_of_false (by simp [hend]) (by omega), hblockEnd,
          hblocks⟩
    · by_cases hfinal : rst.length - 1 = i
      · rw [if_pos hfinal, if_neg hfirst]
        exact ⟨iff_of_false (by simp [hbegin]) (by omega), iff_of_true rfl (by omega), hblockEnd,
          hblocks⟩
      · rw [if_neg hfinal, if_neg hfirst]
        exact ⟨iff_of_false (by simp [hbegin]) (by omega), iff_of_false (by simp [hend]) (by omega),
          hblockEnd, hblocks⟩
  · rw [List.getElem?_eq_none (by omega)] at hb
    cases hb

/-- The flags of a word whose last phone ends a block. -/
structure Flagged (phones : List Pho) (batches : List ZPhoBatch) : Prop where
  length_eq : batches.length = phones.length
  flags : ∀ i b, batches[i]? = some b →
    (b.phoFlag.wordBegin = true ↔ i = 0) ∧ (b.phoFlag.wordEnd = true ↔ i + 1 = phones.length) ∧
      b.phoFlag.blockEnd = closes phones i ∧
      (b.phoFlag.blockBegin = true ↔ i = 0 ∨ closes phones (i - 1) = true)

theorem flagged_parseWord {phones : List Pho} (hlast : closes phones (phones.length - 1) = true) :
    Flagged phones (parseWord phones) := by
  have hlength := length_parseWord phones
  refine ⟨hlength, fun i b hb ↦ ?_⟩
  obtain ⟨hbegin, hend, hblockEnd, hblockBegin⟩ := parseWord_flags hb
  have hi := (List.getElem?_eq_some_iff.mp hb).1
  refine ⟨hbegin, hend, hblockEnd, hblockBegin.trans (and_iff_right ?_)⟩
  exact ⟨phones.length - 1, by omega, hlast⟩

/-! ## The chain of states -/

/-- `LastSubTriPhoStateidLst` for a phone. -/
def lastSub (i : ℕ) : List ℕ := if i = 0 then [] else [3 * i - 1]

/-- The states are those of the phones, three each. -/
theorem foldl_addPho (batches : List ZPhoBatch) :
    (batches.foldl addPho ([], [])).1.length = 3 * batches.length ∧
      (batches.foldl addPho ([], [])).2 = lastSub batches.length ∧
      ∀ (i : ℕ) (k : Fin 3) (b : ZPhoBatch), batches[i]? = some b →
        (batches.foldl addPho ([], [])).1[3 * i + k.val]? =
          some (vtState b k (3 * i + k.val) (lastSub i)) := by
  induction batches using List.reverseRecOn with
  | nil => exact ⟨rfl, rfl, fun i k b hb ↦ by simp at hb⟩
  | append_singleton batches new ih =>
      obtain ⟨hlength, hlast, hstates⟩ := ih
      rw [List.foldl_concat, addPho]
      refine ⟨by simp [hlength]; omega, ?_, fun i k b hb ↦ ?_⟩
      · rw [lastSub, if_neg (by simp), hlength, List.length_append, List.length_singleton]
        congr 1
      · obtain ⟨hi, hold⟩ | ⟨rfl, rfl⟩ := getElem?_concat_eq_some hb
        · rw [List.getElem?_append_left (by omega)]
          exact hstates i k b hold
        · rw [List.getElem?_append_right (by omega), hlength, Nat.add_sub_cancel_left, hlast]
          fin_cases k <;> rfl

/-- A state is the one of its phone. -/
theorem setPhoBatchLst_eq {batches : List ZPhoBatch} {s : ℕ} {state : ZVtState}
    (hstate : (setPhoBatchLst batches)[s]? = some state) :
    ∃ (i : ℕ) (k : Fin 3) (b : ZPhoBatch), s = 3 * i + k.val ∧ batches[i]? = some b ∧
      state = vtState b k s (lastSub i) := by
  obtain ⟨hlength, -, hstates⟩ := foldl_addPho batches
  have hs : s < 3 * batches.length := by
    rw [← hlength]
    exact (List.getElem?_eq_some_iff.mp hstate).1
  obtain ⟨b, hb⟩ : ∃ b, batches[s / 3]? = some b := ⟨_, List.getElem?_eq_getElem (by omega)⟩
  have hindex : s = 3 * (s / 3) + (⟨s % 3, by omega⟩ : Fin 3).val := (Nat.div_add_mod s 3).symm
  have hclosed := hstates (s / 3) ⟨s % 3, by omega⟩ b hb
  rw [← hindex, ← setPhoBatchLst, hstate, Option.some_inj] at hclosed
  exact ⟨s / 3, ⟨s % 3, by omega⟩, b, hindex, hb, hclosed⟩

/-- A state goes on from itself and from the one before it. -/
theorem preStateLst_vtState (b : ZPhoBatch) {i s : ℕ} {k : Fin 3} (hs : s = 3 * i + k.val) :
    (vtState b k s (lastSub i)).preStateLst = if s = 0 then [0] else [s, s - 1] := by
  rw [vtState, lastSub]
  by_cases hk : k = 0
  · rw [hk, Fin.val_zero, Nat.add_zero] at hs
    obtain rfl | hi := Nat.eq_zero_or_pos i
    · rw [if_pos hk, if_pos rfl, if_pos hs, hs]
    · rw [if_pos hk, if_neg (by omega), if_neg (by omega), hs]
  · have hval : k.val ≠ 0 := fun hval ↦ hk (Fin.ext hval)
    rw [if_neg hk, if_neg (by omega)]

/-- A block begins behind the end of every block, and nowhere else but at the first state. -/
theorem Flagged.blockBegin_succ {phones : List Pho} {batches : List ZPhoBatch}
    (h : Flagged phones batches) {s : ℕ} {older newer : ZVtState}
    (holder : (setPhoBatchLst batches)[s]? = some older)
    (hnewer : (setPhoBatchLst batches)[s + 1]? = some newer) : newer.blockBegin = older.blockEnd := by
  obtain ⟨i, k, b, hs, hb, rfl⟩ := setPhoBatchLst_eq holder
  obtain ⟨i', k', b', hs', hb', rfl⟩ := setPhoBatchLst_eq hnewer
  have hk := k.isLt
  have hk' := k'.isLt
  by_cases hend : k = 2
  · have hval : k.val = 2 := by rw [hend]; rfl
    have hzero : k' = 0 := Fin.ext (by rw [Fin.val_zero]; omega)
    obtain rfl : i' = i + 1 := by omega
    have hbegin := (h.flags (i + 1) b' hb').2.2.2
    rw [Nat.add_sub_cancel, ← (h.flags i b hb).2.2.1] at hbegin
    simp only [vtState, hend, hzero, decide_true, Bool.true_and]
    rw [Bool.eq_iff_iff, hbegin]
    simp
  · have hval : k.val ≠ 2 := fun hval ↦ hend (Fin.ext hval)
    have hne : k' ≠ 0 := fun hzero ↦ by
      rw [hzero, Fin.val_zero] at hs'
      omega
    simp [vtState, hend, hne]

/-- **The states of a word whose last phone ends a block are a chain of blocks.** -/
theorem linear_setPhoBatchLst {phones : List Pho}
    (hlast : closes phones (phones.length - 1) = true) :
    Linear (setPhoBatchLst (parseWord phones)) := by
  have hflagged := flagged_parseWord hlast
  have hflags := hflagged.flags
  have hlength : (setPhoBatchLst (parseWord phones)).length = 3 * phones.length := by
    rw [setPhoBatchLst, (foldl_addPho _).1, hflagged.length_eq]
  have hpos : 0 < phones.length := by
    by_contra hzero
    rw [closes_of_le (by omega)] at hlast
    exact absurd hlast Bool.false_ne_true
  refine ⟨by omega, fun s state hstate ↦ ?_, fun s state hstate ↦ ?_, fun s state hstate ↦ ?_,
    fun state hstate ↦ ?_, fun s older newer ↦ hflagged.blockBegin_succ, fun state hstate ↦ ?_⟩
  · obtain ⟨i, k, b, hs, -, rfl⟩ := setPhoBatchLst_eq hstate
    exact preStateLst_vtState b hs
  · obtain ⟨i, k, b, hs, hb, rfl⟩ := setPhoBatchLst_eq hstate
    have hbegin := (hflags i b hb).1
    simp only [vtState, Bool.and_eq_true, decide_eq_true_eq, hbegin, Fin.ext_iff, Fin.val_zero]
    omega
  · obtain ⟨i, k, b, hs, hb, rfl⟩ := setPhoBatchLst_eq hstate
    have hend := (hflags i b hb).2.1
    have hk := k.isLt
    simp only [vtState, Bool.and_eq_true, decide_eq_true_eq, hend, Fin.ext_iff, Fin.val_two]
    omega
  · obtain ⟨i, k, b, hs, hb, rfl⟩ := setPhoBatchLst_eq hstate
    have hk : k = 0 := Fin.ext (by rw [Fin.val_zero]; omega)
    have hbegin := (hflags i b hb).2.2.2
    simp only [vtState, hk, decide_true, Bool.true_and, hbegin]
    exact .inl (by omega)
  · obtain ⟨i, k, b, hs, hb, rfl⟩ := setPhoBatchLst_eq hstate
    have hk' := k.isLt
    have hk : k = 2 := Fin.ext (by rw [Fin.val_two]; omega)
    have hi : i = phones.length - 1 := by
      rw [hk, Fin.val_two] at hs
      omega
    simp only [vtState, hk, decide_true, Bool.true_and]
    rw [(hflags i b hb).2.2.1, hi, hlast]

/-! ## The blocks -/

theorem blockOf_succ (states : List ZVtState) (s : ℕ) :
    blockOf states (s + 1) =
      blockOf states s + if (states[s]?).any ZVtState.blockEnd then 1 else 0 := by
  rw [blockOf, blockOf, List.take_add_one, List.countP_append]
  cases states[s]? with
  | none => rfl
  | some state =>
      cases hend : state.blockEnd with
      | false => simp [hend]
      | true => simp [hend]

/-- A state begins a block exactly if its block is not that of the state before. -/
theorem Linear.blockOf_succ_eq {states : List ZVtState} (h : Linear states) {s : ℕ}
    {newer : ZVtState} (hnewer : states[s + 1]? = some newer) :
    blockOf states (s + 1) = blockOf states s + if newer.blockBegin then 1 else 0 := by
  have hlt := (List.getElem?_eq_some_iff.mp hnewer).1
  obtain ⟨older, holder⟩ : ∃ older, states[s]? = some older :=
    ⟨_, List.getElem?_eq_getElem (by omega)⟩
  rw [blockOf_succ, holder, h.blockBegin_succ s older newer holder hnewer]
  rfl

theorem Linear.blockNum_eq {states : List ZVtState} (h : Linear states) :
    blockOf states (states.length - 1) + 1 = blockNum states := by
  have hpos := h.length_pos
  obtain ⟨last, hlast⟩ : ∃ last, states[states.length - 1]? = some last :=
    ⟨_, List.getElem?_eq_getElem (by omega)⟩
  have hsucc := blockOf_succ states (states.length - 1)
  rw [hlast, Nat.sub_add_cancel hpos] at hsucc
  rw [blockNum, ← List.take_length (l := states), ← blockOf, hsucc]
  simp [h.blockEnd_last last hlast]

end Vsys.Vt
