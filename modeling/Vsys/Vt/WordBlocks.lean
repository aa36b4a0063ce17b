import Mathlib.Data.Set.Card
import Vsys.Vt.WordStates

/-!
# The blocks of a word

The marks of a phone string cut its phones into blocks: maximal runs that end with a marked phone.
The parsers mark the beginning of a block only when they come to its end, so that the phones behind
the last mark belong to no block.  `wordShape` says that the flags, the number of blocks and the
states agree with the marks, for every string.
-/

namespace Vsys.Vt

/-- The marks of a phone string, one for each phone. -/
def wordMarks (info : WordInfo) : List PhoMark :=
  if '+' ∈ info.contentPhone then (triToks info.contentPhone).map fun tok ↦ (triPos tok).mark
  else (monoToks info.contentPhone).map MonoTok.mark

/-- The phone is marked. -/
def marked (marks : List PhoMark) (i : ℕ) : Bool :=
  (marks[i]?).any fun mark ↦ decide (mark ≠ .none)

/-- A maximal run of phones that ends with a marked one. -/
structure IsRun (marks : List PhoMark) (first last : ℕ) : Prop where
  le : first ≤ last
  marked_last : marked marks last = true
  inside : ∀ i, first ≤ i → i < last → marked marks i = false
  maximal : first = 0 ∨ marked marks (first - 1) = true

/-- A block by its flags: its first phone begins one, its last phone ends one, and there is no flag
between. -/
structure IsBlock (batches : List ZPhoBatch) (first last : ℕ) : Prop where
  le : first ≤ last
  begins : ∃ b, batches[first]? = some b ∧ b.phoFlag.blockBegin = true
  ends : ∃ b, batches[last]? = some b ∧ b.phoFlag.blockEnd = true
  no_end : ∀ i b, first ≤ i → i < last → batches[i]? = some b → b.phoFlag.blockEnd = false
  no_begin : ∀ i b, first < i → i ≤ last → batches[i]? = some b → b.phoFlag.blockBegin = false

/-- The block flags of a phone, `true` for a beginning. -/
def blockFlags (b : ZPhoBatch) : List Bool :=
  (if b.phoFlag.blockBegin then [true] else []) ++ (if b.phoFlag.blockEnd then [false] else [])

/-- The flags, the blocks and the states of a word, by its marks. -/
structure WordShape (marks : List PhoMark) (batches : List ZPhoBatch) (states : List ZVtState) :
    Prop where
  alternate : batches.flatMap blockFlags = (List.replicate (blockNum states) [true, false]).flatten
  isBlock_iff : ∀ first last, IsBlock batches first last ↔ IsRun marks first last
  covered : ∀ i j, i ≤ j → marked marks j = true →
    ∃! block : ℕ × ℕ, IsBlock batches block.1 block.2 ∧ block.1 ≤ i ∧ i ≤ block.2
  blockNum_eq : blockNum states = {block : ℕ × ℕ | IsBlock batches block.1 block.2}.ncard
  length_eq : states.length = 3 * batches.length
  preStateLst_eq : ∀ s state, states[s]? = some state →
    state.preStateLst = if s = 0 then [0] else [s, s - 1]
  flags_eq : ∀ (i : ℕ) (k : Fin 3) (b : ZPhoBatch) (state : ZVtState), batches[i]? = some b →
    states[3 * i + k.val]? = some state →
    state.blockBegin = (decide (k = 0) && b.phoFlag.blockBegin) ∧
      state.blockEnd = (decide (k = 2) && b.phoFlag.blockEnd)

/-! ## The marks of a string -/

theorem monoPositions_marks (right pre : List PhoName) (toks : List MonoTok) :
    (monoPositions right pre toks).map PhoPos.mark = toks.map MonoTok.mark := by
  induction toks generalizing pre with
  | nil => rfl
  | cons tok toks ih => rw [monoPositions, List.map_cons, List.map_cons, ih]

theorem wordPositions_marks (t : ZPhoTable) (info : WordInfo) :
    (t.wordPositions info).map PhoPos.mark = wordMarks info := by
  unfold ZPhoTable.wordPositions wordMarks
  split_ifs
  · rw [List.map_map]
    rfl
  · exact monoPositions_marks _ _ _

/-- The phones of a word carry the marks of its string, whatever the table. -/
theorem parseWordInfo_marks {t : PhoTable} {info : WordInfo} {phones : List Pho}
    (h : t.parseWordInfo info = .ok phones) : phones.map Pho.mark = wordMarks info := by
  have hcarries : List.Forall₂ (Carries t.toZPhoTable) (t.wordPositions info) phones := by
    unfold ZPhoTable.parseWordInfo at h
    unfold ZPhoTable.wordPositions
    split_ifs at h ⊢
    · obtain ⟨phones', hphones, -, hcarries⟩ | ⟨_, _, _, _, -, -, -, herror⟩ :=
        parseWordTriPhoLst_cases t info.contentPhone
      · obtain rfl : phones = phones' := Except.ok.inj (h.symm.trans hphones)
        exact hcarries
      · exact nomatch h.symm.trans herror
    · cases h
      exact carries_parseWordMonoPhoLst _ _ _
  rw [← wordPositions_marks t.toZPhoTable]
  clear h
  generalize t.wordPositions info = positions at hcarries
  induction hcarries with
  | nil => rfl
  | cons hcarry _ ih => rw [List.map_cons, List.map_cons, hcarry.1, ih]

theorem marked_map (phones : List Pho) (i : ℕ) :
    marked (phones.map Pho.mark) i = closes phones i := by
  rw [marked, closes, List.getElem?_map]
  cases phones[i]? <;> rfl

/-! ## Runs -/

section Runs

variable {marks : List PhoMark}

theorem marked_lt {i : ℕ} (h : marked marks i = true) : i < marks.length := by
  by_contra hle
  rw [marked, List.getElem?_eq_none (by omega)] at h
  exact nomatch h

/-- Runs that share a phone are the same. -/
theorem IsRun.unique {first last first' last' i : ℕ} (h : IsRun marks first last)
    (h' : IsRun marks first' last') (hi : first ≤ i ∧ i ≤ last) (hi' : first' ≤ i ∧ i ≤ last') :
    first = first' ∧ last = last' := by
  have hend {f l f' l' : ℕ} (h : IsRun marks f l) (h' : IsRun marks f' l') (hi : f ≤ i ∧ i ≤ l)
      (hi' : f' ≤ i ∧ i ≤ l') : l ≤ l' := by
    by_contra hlt
    have hinside := h.inside l' (by omega) (by omega)
    rw [h'.marked_last] at hinside
    exact nomatch hinside
  have hbegin {f l f' l' : ℕ} (h : IsRun marks f l) (h' : IsRun marks f' l') (hi : f ≤ i ∧ i ≤ l)
      (hi' : f' ≤ i ∧ i ≤ l') : f ≤ f' := by
    by_contra hlt
    obtain hzero | hmarked := h.maximal
    · omega
    · rw [h'.inside (f - 1) (by omega) (by omega)] at hmarked
      exact nomatch hmarked
  exact ⟨le_antisymm (hbegin h h' hi hi') (hbegin h' h hi' hi),
    le_antisymm (hend h h' hi hi') (hend h' h hi' hi)⟩

/-- Every phone up to a marked one lies in a run. -/
theorem exists_isRun {i j : ℕ} (hij : i ≤ j) (hj : marked marks j = true) :
    ∃ first last, IsRun marks first last ∧ first ≤ i ∧ i ≤ last := by
  -- the run ends at the first mark from the phone on
  have hexists : ∃ l, i ≤ l ∧ marked marks l = true := ⟨j, hij, hj⟩
  let last := Nat.find hexists
  obtain ⟨hle, hlast⟩ := Nat.find_spec hexists
  have hafter : ∀ l, i ≤ l → l < last → marked marks l = false := fun l hl hlt ↦ by
    by_contra hmarked
    exact Nat.find_min hexists hlt ⟨hl, Bool.eq_true_of_not_eq_false hmarked⟩
  -- and begins behind the last mark before it
  obtain ⟨first, hfirst, hstart, hbefore⟩ : ∃ first, first ≤ i ∧
      (first = 0 ∨ marked marks (first - 1) = true) ∧
      ∀ l, first ≤ l → l < i → marked marks l = false := by
    clear_value last
    clear hafter hle hlast hexists last hij hj
    induction i with
    | zero => exact ⟨0, le_rfl, .inl rfl, fun l _ hl ↦ absurd hl (Nat.not_lt_zero l)⟩
    | succ i ih =>
        cases hi : marked marks i with
        | true => exact ⟨i + 1, le_rfl, .inr hi, fun l hl hl' ↦ by omega⟩
        | false =>
            obtain ⟨first, hfirst, hstart, hbefore⟩ := ih
            refine ⟨first, by omega, hstart, fun l hl hl' ↦ ?_⟩
            obtain rfl | hlt := Nat.eq_or_lt_of_le (Nat.le_of_lt_succ hl')
            · exact hi
            · exact hbefore l hl hlt
  refine ⟨first, last, ⟨by omega, hlast, fun l hl hl' ↦ ?_, hstart⟩, hfirst, hle⟩
  by_cases hli : l < i
  · exact hbefore l hl hli
  · exact hafter l (by omega) hl'

/-- There are as many runs as marks. -/
theorem ncard_isRun (marks : List PhoMark) :
    {run : ℕ × ℕ | IsRun marks run.1 run.2}.ncard =
      marks.countP fun mark ↦ decide (mark ≠ .none) := by
  have hends : Prod.snd '' {run : ℕ × ℕ | IsRun marks run.1 run.2} =
      ((Finset.range marks.length).filter fun i ↦ marked marks i = true : Finset ℕ) := by
    ext l
    simp only [Set.mem_image, Set.mem_ofPred_eq, Prod.exists, exists_eq_right, Finset.coe_filter,
      Finset.mem_range]
    constructor
    · rintro ⟨first, hrun⟩
      exact ⟨marked_lt hrun.marked_last, hrun.marked_last⟩
    · rintro ⟨-, hmarked⟩
      obtain ⟨first, last, hrun, hfirst, hlast⟩ := exists_isRun le_rfl hmarked
      obtain rfl | hlt := Nat.eq_or_lt_of_le hlast
      · exact ⟨first, hrun⟩
      · rw [hrun.inside l hfirst hlt] at hmarked
        exact nomatch hmarked
  have hinj : Set.InjOn Prod.snd {run : ℕ × ℕ | IsRun marks run.1 run.2} := by
    rintro ⟨f, l⟩ h ⟨f', l'⟩ h' (rfl : l = l')
    have hsame := (IsRun.unique h h' ⟨h.le, le_rfl⟩ ⟨h'.le, le_rfl⟩).1
    exact Prod.ext hsame rfl
  have hcount (marks : List PhoMark) :
      ((Finset.range marks.length).filter fun i ↦ marked marks i = true).card =
        marks.countP fun mark ↦ decide (mark ≠ .none) := by
    induction marks using List.reverseRecOn with
    | nil => rfl
    | append_singleton marks mark ih =>
        have hold : ∀ i ∈ Finset.range marks.length,
            (marked (marks ++ [mark]) i = true ↔ marked marks i = true) := fun i hi ↦ by
          rw [marked, marked, List.getElem?_append_left (Finset.mem_range.mp hi)]
        have hnew : marked (marks ++ [mark]) marks.length = decide (mark ≠ .none) := by
          rw [marked, List.getElem?_concat_length]
          rfl
        rw [List.length_append, List.length_singleton, Finset.range_add_one, Finset.filter_insert,
          hnew, Finset.filter_congr hold, List.countP_append, ← ih, List.countP_singleton]
        split_ifs with hmark
        · rw [Finset.card_insert_of_notMem (by simp)]
        · rfl
  rw [← hinj.ncard_image, hends, Set.ncard_coe_finset, hcount]

end Runs

/-! ## The flags and the states -/

section Word

variable (phones : List Pho)

/-- A phone of the word, by its index. -/
theorem exists_batch {i : ℕ} (hi : i < phones.length) : ∃ b, (parseWord phones)[i]? = some b :=
  ⟨_, List.getElem?_eq_getElem (by rwa [length_parseWord])⟩

theorem isBlock_iff_isRun (first last : ℕ) :
    IsBlock (parseWord phones) first last ↔ IsRun (phones.map Pho.mark) first last := by
  have hlength : (phones.map Pho.mark).length = phones.length := List.length_map ..
  constructor
  · rintro ⟨hle, ⟨b, hb, hbegin⟩, ⟨e, he, hend⟩, hno, -⟩
    have hlt := (List.getElem?_eq_some_iff.mp he).1
    rw [length_parseWord] at hlt
    refine ⟨hle, ?_, fun i hi hi' ↦ ?_, ?_⟩
    · rw [marked_map, ← (parseWord_flags he).2.2.1, hend]
    · obtain ⟨c, hc⟩ := exists_batch phones (hi'.trans hlt)
      rw [marked_map, ← (parseWord_flags hc).2.2.1, hno i c hi hi' hc]
    · rw [marked_map]
      exact ((parseWord_flags hb).2.2.2.mp hbegin).2
  · rintro ⟨hle, hlast, hinside, hmaximal⟩
    have hlt := marked_lt hlast
    rw [hlength] at hlt
    simp only [marked_map] at hlast hinside hmaximal
    obtain ⟨b, hb⟩ := exists_batch phones (hle.trans_lt hlt)
    obtain ⟨e, he⟩ := exists_batch phones hlt
    refine ⟨hle, ⟨b, hb, ?_⟩, ⟨e, he, ?_⟩, fun i c hi hi' hc ↦ ?_, fun i c hi hi' hc ↦ ?_⟩
    · exact (parseWord_flags hb).2.2.2.mpr ⟨⟨last, hle, hlast⟩, hmaximal⟩
    · rw [(parseWord_flags he).2.2.1, hlast]
    · rw [(parseWord_flags hc).2.2.1, hinside i hi hi']
    · by_contra hbegin
      obtain hzero | hclosed :=
        ((parseWord_flags hc).2.2.2.mp (Bool.eq_true_of_not_eq_false hbegin)).2
      · omega
      · rw [hinside (i - 1) (by omega) (by omega)] at hclosed
        exact nomatch hclosed

/-- A block has begun before the phone, and its end is to come. -/
def OpenAt (m : ℕ) : Prop :=
  m ≠ 0 ∧ closes phones (m - 1) = false ∧ ∃ j, m ≤ j ∧ closes phones j = true

theorem openAt_succ_iff {m : ℕ} :
    OpenAt phones (m + 1) ↔ closes phones m = false ∧ ∃ j, m ≤ j ∧ closes phones j = true := by
  rw [OpenAt, Nat.add_sub_cancel]
  constructor
  · rintro ⟨-, hclosed, j, hj, hj'⟩
    exact ⟨hclosed, j, by omega, hj'⟩
  · rintro ⟨hclosed, j, hj, hj'⟩
    obtain rfl | hlt := Nat.eq_or_lt_of_le hj
    · rw [hclosed] at hj'
      exact nomatch hj'
    · exact ⟨Nat.succ_ne_zero m, hclosed, j, hlt, hj'⟩

/-- The flags of the first phones: whole blocks, and the beginning of the one that is open. -/
theorem flatMap_blockFlags_take {m : ℕ} (hm : m ≤ phones.length) :
    ∃ tail, ((parseWord phones).take m).flatMap blockFlags =
        (List.replicate (((parseWord phones).take m).countP fun b ↦ b.phoFlag.blockEnd)
          [true, false]).flatten ++ tail ∧
      (OpenAt phones m → tail = [true]) ∧ (¬ OpenAt phones m → tail = []) := by
  induction m with
  | zero => exact ⟨[], by simp, fun h ↦ absurd rfl h.1, fun _ ↦ rfl⟩
  | succ m ih =>
      obtain ⟨tail, htake, hopen, hshut⟩ := ih (by omega)
      obtain ⟨b, hb⟩ := exists_batch phones (Nat.lt_of_succ_le hm)
      obtain ⟨-, -, hend, hbegin⟩ := parseWord_flags hb
      rw [List.take_add_one, hb, Option.toList_some, List.flatMap_append, List.countP_append,
        htake, List.flatMap_singleton, List.countP_singleton, blockFlags, hend]
      by_cases hlater : ∃ j, m ≤ j ∧ closes phones j = true
      · -- a block is open behind the beginning of the phone, be it this one or an earlier
        have hbegun : tail ++ (if b.phoFlag.blockBegin = true then [true] else []) = [true] := by
          by_cases hstart : m = 0 ∨ closes phones (m - 1) = true
          · rw [if_pos (hbegin.mpr ⟨hlater, hstart⟩), hshut, List.nil_append]
            rintro ⟨hne, hclosed, -⟩
            rw [hstart.resolve_left hne] at hclosed
            exact nomatch hclosed
          · rw [if_neg fun h ↦ hstart (hbegin.mp h).2, List.append_nil]
            rw [not_or] at hstart
            exact hopen ⟨hstart.1, by simpa using hstart.2, hlater⟩
        rw [List.append_assoc, ← List.append_assoc tail, hbegun]
        cases hclosed : closes phones m with
        | true =>
            refine ⟨[], by simp [List.replicate_succ'], fun h ↦ ?_, fun _ ↦ rfl⟩
            rw [(openAt_succ_iff phones).mp h |>.1] at hclosed
            exact nomatch hclosed
        | false =>
            refine ⟨[true], by simp, fun _ ↦ rfl, fun h ↦ ?_⟩
            exact absurd ((openAt_succ_iff phones).mpr ⟨hclosed, hlater⟩) h
      · have hclosed : closes phones m = false := by
          by_contra h
          exact hlater ⟨m, le_rfl, Bool.eq_true_of_not_eq_false h⟩
        rw [hshut fun h ↦ hlater h.2.2, if_neg fun h ↦ hlater (hbegin.mp h).1, hclosed]
        refine ⟨[], by simp, fun h ↦ ?_, fun _ ↦ rfl⟩
        exact absurd ((openAt_succ_iff phones).mp h).2 hlater

theorem countP_blockEnd_parseWord :
    ((parseWord phones).countP fun b ↦ b.phoFlag.blockEnd) =
      (phones.map Pho.mark).countP fun mark ↦ decide (mark ≠ .none) := by
  have hsame : (parseWord phones).map (fun b ↦ b.phoFlag.blockEnd) =
      (phones.map Pho.mark).map fun mark ↦ decide (mark ≠ .none) := by
    apply List.ext_getElem?
    intro i
    rw [List.getElem?_map, List.getElem?_map, List.getElem?_map]
    by_cases hi : i < phones.length
    · obtain ⟨b, hb⟩ := exists_batch phones hi
      have hend := (parseWord_flags hb).2.2.1
      rw [closes, List.getElem?_eq_getElem hi] at hend
      rw [hb, List.getElem?_eq_getElem hi, Option.map_some, hend]
      rfl
    · rw [List.getElem?_eq_none (by rw [length_parseWord]; omega), List.getElem?_eq_none (by omega)]
      rfl
  calc
    _ = ((parseWord phones).map fun b ↦ b.phoFlag.blockEnd).countP id := by rw [List.countP_map]; rfl
    _ = ((phones.map Pho.mark).map fun mark ↦ decide (mark ≠ .none)).countP id := by rw [hsame]
    _ = _ := by rw [List.countP_map]; rfl

/-- A block ends in the third state of its last phone, so that `m_iBlockNum` counts the phones. -/
theorem blockNum_setPhoBatchLst (batches : List ZPhoBatch) :
    blockNum (setPhoBatchLst batches) = batches.countP fun b ↦ b.phoFlag.blockEnd := by
  unfold blockNum setPhoBatchLst
  induction batches using List.reverseRecOn with
  | nil => rfl
  | append_singleton batches b ih =>
      rw [List.foldl_concat, addPho, List.countP_append, ih, List.countP_append,
        List.countP_singleton]
      cases hend : b.phoFlag.blockEnd <;> simp [vtState, hend]

/-- The shape of a word, for any marks. -/
theorem wordShape_parseWord :
    WordShape (phones.map Pho.mark) (parseWord phones) (setPhoBatchLst (parseWord phones)) where
  alternate := by
    obtain ⟨tail, hflags, -, hshut⟩ := flatMap_blockFlags_take phones le_rfl
    have hclosed : ¬ OpenAt phones phones.length := by
      rintro ⟨-, -, j, hj, hj'⟩
      rw [closes_of_le hj] at hj'
      exact nomatch hj'
    rw [hshut hclosed, List.append_nil, ← length_parseWord phones, List.take_length] at hflags
    rw [blockNum_setPhoBatchLst, hflags]
  isBlock_iff := isBlock_iff_isRun phones
  covered := by
    intro i j hij hj
    simp only [isBlock_iff_isRun]
    obtain ⟨first, last, hrun, hin⟩ := exists_isRun hij hj
    refine ⟨(first, last), ⟨hrun, hin⟩, ?_⟩
    rintro ⟨first', last'⟩ ⟨hrun', hin'⟩
    obtain ⟨hfirst, hlast⟩ := hrun'.unique hrun hin' hin
    exact Prod.ext hfirst hlast
  blockNum_eq := by
    simp only [isBlock_iff_isRun]
    rw [ncard_isRun, blockNum_setPhoBatchLst, countP_blockEnd_parseWord]
  length_eq := (foldl_addPho _).1
  preStateLst_eq := by
    intro s state hstate
    obtain ⟨i, k, b, hs, -, rfl⟩ := setPhoBatchLst_eq hstate
    exact preStateLst_vtState b hs
  flags_eq := by
    intro i k b state hb hstate
    have hstate' := (foldl_addPho (parseWord phones)).2.2 i k b hb
    obtain rfl := Option.some_inj.mp (hstate.symm.trans hstate')
    exact ⟨rfl, rfl⟩

end Word

/-- **The shape of a word.**  For every table and every phone string that is parsed: beginnings and
ends of blocks alternate, the blocks are the maximal runs that end with a mark and hold every phone
up to the last of them, `m_iBlockNum` is their number, and the states are a chain of three for each
phone. -/
theorem wordShape_parseWordInfo (t : PhoTable) (info : WordInfo) (phones : List Pho)
    (h : t.parseWordInfo info = .ok phones) :
    WordShape (wordMarks info) (parseWord phones) (setPhoBatchLst (parseWord phones)) := by
  rw [← parseWordInfo_marks h]
  exact wordShape_parseWord phones

/-- A string with two blocks and a phone behind them. -/
theorem wordShape_parseWordInfo_small :
    let info := { unknownWord with contentPhone := "a a|# a|## a".toList }
    ∃ phones, smallTable.parseWordInfo info = .ok phones ∧
      WordShape [.none, .block, .blockSil, .none] (parseWord phones)
        (setPhoBatchLst (parseWord phones)) := by
  intro info
  have hmarks : wordMarks info = [.none, .block, .blockSil, .none] := by decide
  have hparse : smallTable.parseWordInfo info =
      .ok (smallTable.parseWordMonoPhoLst info.contentPhone true) := if_neg (by decide)
  refine ⟨_, hparse, ?_⟩
  rw [← hmarks]
  exact wordShape_parseWordInfo smallTable info _ hparse

end Vsys.Vt
