import Vsys.Vt.Dp
import Vsys.Vt.PhoTable

/-!
# The state ids of a word

What `SetWords` makes of a phone string: a graph whose states carry the ids of acoustic states, by
which `DynamicProgramming` indexes a row of scores.  Nothing is checked on the way but by the
assertions of the second parser.  `wordSafe_iff` says for which strings this is enough.
-/

namespace Vsys.Vt

/-- The length of the prior, which the first loop of `DynamicProgramming` takes for that of a row. -/
def priorNum : ℕ := 5191

theorem priorNum_pos : 0 < priorNum := Nat.zero_lt_succ _

/-- The places where the score of a state reads the row. -/
def stateReads (state : ZVtState) : List ℤ :=
  (state.curStateLst.headD 0 - 1) :: state.curStateLst.tail.map fun stateid ↦ stateid - 1

/-- The places where `DynamicProgramming` reads the row. -/
def frameReads (states : List ZVtState) : List ℤ :=
  (List.range priorNum).map (fun i : ℕ ↦ (i : ℤ)) ++ states.flatMap stateReads

theorem mem_frameReads {states : List ZVtState} {i : ℤ} :
    i ∈ frameReads states ↔ (0 ≤ i ∧ i < priorNum) ∨ ∃ state ∈ states, i ∈ stateReads state := by
  have hrange (n : ℕ) : i ∈ (List.range n).map (fun j : ℕ ↦ (j : ℤ)) ↔ 0 ≤ i ∧ i < n := by
    simp only [List.mem_map, List.mem_range]
    constructor
    · rintro ⟨j, hj, hi⟩
      omega
    · intro hi
      exact ⟨i.toNat, by omega, by omega⟩
  rw [frameReads, List.mem_append, hrange, List.mem_flatMap]

/-- The score of a state depends on nothing else. -/
theorem stateScore_congr {frame frame' : ℤ → ℚ} {state : ZVtState}
    (h : ∀ i ∈ stateReads state, frame i = frame' i) :
    stateScore frame state = stateScore frame' state := by
  rw [stateReads, List.forall_mem_cons] at h
  unfold stateScore
  rw [h.1]
  apply List.foldl_ext
  intro best stateid hid
  rw [h.2 _ (List.mem_map_of_mem hid)]

theorem exists_of_mem_stateReads {state : ZVtState} (hne : state.curStateLst ≠ []) {i : ℤ}
    (hi : i ∈ stateReads state) : ∃ id ∈ state.curStateLst, i = id - 1 := by
  obtain ⟨head, tail, hcur⟩ := List.exists_cons_of_ne_nil hne
  rw [stateReads, hcur, List.headD_cons, List.tail_cons] at hi
  rw [hcur]
  obtain rfl | hi := List.mem_cons.mp hi
  · exact ⟨head, List.mem_cons_self, rfl⟩
  · obtain ⟨id, hid, rfl⟩ := List.mem_map.mp hi
    exact ⟨id, List.mem_cons_of_mem head hid, rfl⟩

/-! ## The ids of a state -/

/-- A list that is built up by a step which enters the element it is given, or does not. -/
theorem mem_foldl_of_step {α : Type*} {step : List α → α → List α} {kept : α → Prop}
    (hstep : ∀ cur x e, e ∈ step cur x ↔ e ∈ cur ∨ e = x ∧ kept e) {e : α} (l cur : List α) :
    e ∈ l.foldl step cur ↔ e ∈ cur ∨ e ∈ l ∧ kept e := by
  induction l generalizing cur with
  | nil => simp
  | cons head l ih => rw [List.foldl_cons, ih, hstep, List.mem_cons, or_assoc, or_and_right]

theorem mem_foldl_addStateId {id : ℤ} (l cur : List ℤ) :
    id ∈ l.foldl addStateId cur ↔ id ∈ cur ∨ id ∈ l := by
  have hstep (cur : List ℤ) (x e : ℤ) : e ∈ addStateId cur x ↔ e ∈ cur ∨ e = x ∧ True := by
    rw [addStateId, and_true]
    split_ifs with hmem
    · exact (or_iff_left_of_imp fun he ↦ he ▸ hmem).symm
    · rw [List.mem_append, List.mem_singleton]
  rw [mem_foldl_of_step hstep, and_true]

theorem mem_curStates {id : ℤ} {b : ZPhoBatch} {k : Fin 3} :
    id ∈ curStates b k ↔
      (∃ node ∈ b.phoList, node k = id) ∨
        (k = 2 ∧ b.phoFlag.enableSil = true) ∧ 1 ≤ id ∧ id ≤ 5 := by
  have hsil : id ∈ ([1, 2, 3, 4, 5] : List ℤ) ↔ 1 ≤ id ∧ id ≤ 5 := by
    simp only [List.mem_cons, List.not_mem_nil, or_false]
    omega
  have hcur : id ∈ (b.phoList.map fun node ↦ node k).foldl addStateId [] ↔
      ∃ node ∈ b.phoList, node k = id := by
    rw [mem_foldl_addStateId, List.mem_map]
    simp
  unfold curStates
  dsimp only
  split_ifs with henable
  · rw [mem_foldl_addStateId, hcur, hsil]
    exact or_congr_right (and_iff_right henable).symm
  · rw [hcur]
    exact (or_iff_left fun h ↦ henable h.1).symm

/-- A phone after the parsing: the triphones are kept, and silence is enabled by one of the marks. -/
def Parsed (pho : Pho) (b : ZPhoBatch) : Prop :=
  b.phoList = pho.nodes ∧ b.phoFlag.enableSil = decide (pho.mark = .blockSil)

theorem foldl_parsePho_parsed (phones : List Pho) :
    ∀ (i : ℕ) (b : ZPhoBatch), (phones.foldl parsePho ([], 0)).1[i]? = some b →
      ∃ pho, phones[i]? = some pho ∧ Parsed pho b := by
  induction phones using List.reverseRecOn with
  | nil => exact fun i b hb ↦ by simp at hb
  | append_singleton phones pho ih =>
      have hlength := (parsing_foldl phones).length_eq
      -- a phone of the list with one more at its end, before any flag is set
      have hfresh : ∀ (i : ℕ) (c : ZPhoBatch),
          ((phones.foldl parsePho ([], 0)).1 ++ [⟨{}, pho.nodes⟩])[i]? = some c →
          (i < phones.length ∧ ∃ old, phones[i]? = some old ∧ Parsed old c) ∨
            (i = phones.length ∧ c = ⟨{}, pho.nodes⟩) := by
        intro i c hc
        obtain ⟨hlt, hold⟩ | ⟨hi, hc⟩ := getElem?_concat_eq_some hc
        · exact .inl ⟨hlength ▸ hlt, ih i c hold⟩
        · exact .inr ⟨hlength ▸ hi, hc⟩
      intro i b hb
      rw [List.foldl_concat, parsePho] at hb
      dsimp only at hb
      split_ifs at hb with hmark
      · obtain ⟨hlt, old, hold, hparsed⟩ | ⟨rfl, rfl⟩ := hfresh i b hb
        · exact ⟨old, by rw [List.getElem?_append_left hlt, hold], hparsed⟩
        · exact ⟨pho, List.getElem?_concat_length, rfl, by rw [hmark]; rfl⟩
      · rw [List.getElem?_modify, List.getElem?_modify] at hb
        simp only [Option.map_eq_map, Option.map_map, Option.map_eq_some_iff,
          Function.comp_apply] at hb
        obtain ⟨c, hc, rfl⟩ := hb
        obtain ⟨hlt, old, hold, hparsed⟩ | ⟨rfl, rfl⟩ := hfresh i c hc
        · refine ⟨old, by rw [List.getElem?_append_left hlt, hold], ?_⟩
          rw [if_neg (by omega)]
          split_ifs
          · exact hparsed
          · exact hparsed
        · refine ⟨pho, List.getElem?_concat_length, ?_⟩
          rw [if_pos hlength]
          split_ifs
          · exact ⟨rfl, rfl⟩
          · exact ⟨rfl, rfl⟩

theorem parseWord_parsed {phones : List Pho} {i : ℕ} {b : ZPhoBatch}
    (hb : (parseWord phones)[i]? = some b) : ∃ pho, phones[i]? = some pho ∧ Parsed pho b := by
  unfold parseWord at hb
  dsimp only at hb
  rw [List.getElem?_modify, List.getElem?_modify] at hb
  simp only [Option.map_eq_map, Option.map_map, Option.map_eq_some_iff, Function.comp_apply] at hb
  obtain ⟨c, hc, rfl⟩ := hb
  obtain ⟨pho, hpho, hparsed⟩ := foldl_parsePho_parsed phones i c hc
  refine ⟨pho, hpho, ?_⟩
  split_ifs
  · exact hparsed
  · exact hparsed
  · exact hparsed
  · exact hparsed

/-- The state `k` of a phone has the ids of its triphones, and those of silence at the end of a
block that asks for it. -/
def HasId (pho : Pho) (k : Fin 3) (id : ℤ) : Prop :=
  (∃ node ∈ pho.nodes, node k = id) ∨ (k = Fin.last 2 ∧ pho.mark = .blockSil) ∧ 1 ≤ id ∧ id ≤ 5

theorem mem_curStates_of_parsed {pho : Pho} {b : ZPhoBatch} (h : Parsed pho b) {k : Fin 3} {id : ℤ} :
    id ∈ curStates b k ↔ HasId pho k id := by
  rw [mem_curStates, h.1, h.2, decide_eq_true_eq]
  rfl

/-- Every state belongs to a phone. -/
theorem exists_pho {phones : List Pho} {s : ℕ} {state : ZVtState}
    (hstate : (setPhoBatchLst (parseWord phones))[s]? = some state) :
    ∃ (i : ℕ) (k : Fin 3) (pho : Pho), s = 3 * i + k.val ∧ phones[i]? = some pho ∧
      ∀ id, id ∈ state.curStateLst ↔ HasId pho k id := by
  obtain ⟨i, k, b, hs, hb, rfl⟩ := setPhoBatchLst_eq hstate
  obtain ⟨pho, hpho, hparsed⟩ := parseWord_parsed hb
  exact ⟨i, k, pho, hs, hpho, fun id ↦ mem_curStates_of_parsed hparsed⟩

/-- Every phone has its three states. -/
theorem exists_state {phones : List Pho} {i : ℕ} {pho : Pho} (hpho : phones[i]? = some pho)
    (k : Fin 3) :
    ∃ state, (setPhoBatchLst (parseWord phones))[3 * i + k.val]? = some state ∧
      ∀ id, id ∈ state.curStateLst ↔ HasId pho k id := by
  have hi : i < (parseWord phones).length := by
    rw [length_parseWord]
    exact (List.getElem?_eq_some_iff.mp hpho).1
  have hb := List.getElem?_eq_getElem hi
  obtain ⟨pho', hpho', hparsed⟩ := parseWord_parsed hb
  obtain rfl : pho' = pho := Option.some_inj.mp (hpho'.symm.trans hpho)
  exact ⟨_, (foldl_addPho (parseWord phones)).2.2 i k _ hb, fun id ↦ mem_curStates_of_parsed hparsed⟩

/-! ## Words that are safe -/

/-- A token of the second parser as a phone. -/
def triPos (tok : TriTok) : PhoPos where
  triphones := tok.names.filterMap fun name ↦ (triPieces name).toOption
  mark := if tok.flag then .block else .none

/-- The names of the triphones of a string, in the order in which the second parser looks them up. -/
def triNames (wordTriPhoLst : List Char) : List (List Char) :=
  (triToks wordTriPhoLst).flatMap TriTok.names

/-- The phones that an entry of the word list names. -/
def namedPhones (info : WordInfo) : List PhoName :=
  if '+' ∈ info.contentPhone then (triNames info.contentPhone).flatMap (strtok "-+".toList)
  else (monoToks info.contentPhone).flatMap MonoTok.names

namespace ZPhoTable

variable (t : ZPhoTable)

/-- The phones of an entry of the word list, with the triphones that each of them names. -/
def wordPositions (info : WordInfo) : List PhoPos :=
  if '+' ∈ info.contentPhone then (triToks info.contentPhone).map triPos
  else t.monoWord info.contentPhone (decide (info.wordType ≠ .sleep))

/-- All three names are in the table. -/
def KnownNames (tri : Triphone) : Prop :=
  tri.1 ∈ t.monPhoLst ∧ tri.2.1 ∈ t.monPhoLst ∧ tri.2.2 ∈ t.monPhoLst

/-- The id stands in the entry of a triphone that the phone names, and that the table knows; or it is
one of silence at the end of a block that asks for it. -/
def Backed (pos : PhoPos) (k : Fin 3) (id : ℤ) : Prop :=
  (∃ tri ∈ pos.triphones, t.KnownNames tri ∧ -1 < t.fixTriPhoId tri ∧
      t.fixNode (t.fixTriPhoId tri) k = id) ∨
    (k = Fin.last 2 ∧ pos.mark = .blockSil) ∧ 1 ≤ id ∧ id ≤ 5

/-- What the detector relies on: every state has an id, every id is backed by the string and lies in
the range of the network, and the row of scores is not read outside its bounds. -/
structure GraphOk (outputs : ℕ) (positions : List PhoPos) (states : List ZVtState) : Prop where
  curStateLst_ne : ∀ state ∈ states, state.curStateLst ≠ []
  backed : ∀ (i : ℕ) (k : Fin 3) (state : ZVtState), states[3 * i + k.val]? = some state →
    ∃ pos, positions[i]? = some pos ∧ ∀ id ∈ state.curStateLst, t.Backed pos k id
  ids : ∀ state ∈ states, ∀ id ∈ state.curStateLst, 1 ≤ id ∧ id ≤ outputs
  reads : ∀ i ∈ frameReads states, 0 ≤ i ∧ i < outputs

/-- A word that is accepted has a graph that the detector can rely on, names no unknown phone, and
yields a triphone of the table; and nothing is read out of bounds before it is rejected. -/
def WordSafe (outputs : ℕ) (info : WordInfo) : Prop :=
  match t.parseWordInfo info with
  | .ok phones =>
      t.GraphOk outputs (t.wordPositions info) (setPhoBatchLst (parseWord phones)) ∧
        (∀ name ∈ namedPhones info, name ∈ t.monPhoLst) ∧
        ∃ pos ∈ t.wordPositions info, ∃ tri ∈ pos.triphones,
          t.KnownNames tri ∧ -1 < t.fixTriPhoId tri
  | .error .assertion => True
  | .error .outOfBounds => False

/-- The name has three pieces, and there is an entry where they lead to. -/
def Found (name : List Char) : Prop :=
  ∃ tri, triPieces name = .ok tri ∧ t.fixTriPhoId tri ≠ -1

/-- The name has neither one nor three pieces, or there is no entry where they lead to. -/
def Refused (name : List Char) : Prop :=
  triPieces name = .error .assertion ∨ ∃ tri, triPieces name = .ok tri ∧ t.fixTriPhoId tri = -1

/-- The first triphone that is not found fails an assertion. -/
def Rejected (info : WordInfo) : Prop :=
  '+' ∈ info.contentPhone ∧ ∃ before name after,
    triNames info.contentPhone = before ++ name :: after ∧ (∀ n ∈ before, t.Found n) ∧ t.Refused name

/-- The phone has an entry; what is found in its entries is in range, and backed also where an
unknown name was looked up as the first phone of the table. -/
def PosOk (outputs : ℕ) (pos : PhoPos) : Prop :=
  (∃ tri ∈ pos.triphones, -1 < t.fixTriPhoId tri) ∧
    ∀ tri ∈ pos.triphones, -1 < t.fixTriPhoId tri → ∀ k,
      (1 ≤ t.fixNode (t.fixTriPhoId tri) k ∧ t.fixNode (t.fixTriPhoId tri) k ≤ outputs) ∧
        t.Backed pos k (t.fixNode (t.fixTriPhoId tri) k)

/-- The string has a phone, names known ones only, and all its phones are as they should be. -/
structure Sound (outputs : ℕ) (info : WordInfo) : Prop where
  found : '+' ∈ info.contentPhone → ∀ name ∈ triNames info.contentPhone, t.Found name
  outputs_ge : priorNum ≤ outputs
  known : ∀ name ∈ namedPhones info, name ∈ t.monPhoLst
  positions_ne : t.wordPositions info ≠ []
  posOk : ∀ pos ∈ t.wordPositions info, t.PosOk outputs pos

end ZPhoTable

variable {t : ZPhoTable}

/-- A phone carries the nodes of the entries that its triphones lead to. -/
def Carries (t : ZPhoTable) (pos : PhoPos) (pho : Pho) : Prop :=
  pho.mark = pos.mark ∧ ∀ node, node ∈ pho.nodes ↔
    ∃ tri ∈ pos.triphones, -1 < t.fixTriPhoId tri ∧ t.fixNode (t.fixTriPhoId tri) = node

theorem hasId_iff {pos : PhoPos} {pho : Pho} (h : Carries t pos pho) {k : Fin 3} {id : ℤ} :
    HasId pho k id ↔
      (∃ tri ∈ pos.triphones, -1 < t.fixTriPhoId tri ∧ t.fixNode (t.fixTriPhoId tri) k = id) ∨
        (k = Fin.last 2 ∧ pos.mark = .blockSil) ∧ 1 ≤ id ∧ id ≤ 5 := by
  rw [HasId, h.1]
  refine or_congr_left ?_
  constructor
  · rintro ⟨node, hnode, hid⟩
    obtain ⟨tri, htri, hfound, rfl⟩ := (h.2 node).mp hnode
    exact ⟨tri, htri, hfound, hid⟩
  · rintro ⟨tri, htri, hfound, hid⟩
    exact ⟨_, (h.2 _).mpr ⟨tri, htri, hfound, rfl⟩, hid⟩

theorem carries_at {positions : List PhoPos} {phones : List Pho}
    (h : List.Forall₂ (Carries t) positions phones) {i : ℕ} {pos : PhoPos} {pho : Pho}
    (hpos : positions[i]? = some pos) (hpho : phones[i]? = some pho) : Carries t pos pho := by
  obtain ⟨hi, rfl⟩ := List.getElem?_eq_some_iff.mp hpos
  obtain ⟨hi', rfl⟩ := List.getElem?_eq_some_iff.mp hpho
  exact (List.forall₂_iff_get.mp h).2 i hi hi'

/-- A phone of a graph as it should be. -/
theorem posOk_of_graphOk {outputs : ℕ} {positions : List PhoPos} {phones : List Pho}
    (h : List.Forall₂ (Carries t) positions phones)
    (hok : t.GraphOk outputs positions (setPhoBatchLst (parseWord phones))) :
    ∀ pos ∈ positions, t.PosOk outputs pos := by
  intro pos hmem
  obtain ⟨i, hi, rfl⟩ := List.mem_iff_getElem.mp hmem
  have hpos := List.getElem?_eq_getElem hi
  have hpho := List.getElem?_eq_getElem (h.length_eq ▸ hi)
  have hcarry := carries_at h hpos hpho
  constructor
  · -- the first state of the phone has an id, which is not one of silence
    obtain ⟨state, hstate, hids⟩ := exists_state hpho 0
    obtain ⟨id, hid⟩ := List.exists_mem_of_ne_nil _
      (hok.curStateLst_ne state (List.mem_of_getElem? hstate))
    obtain ⟨tri, htri, hfound, -⟩ | ⟨⟨hzero, -⟩, -⟩ := (hasId_iff hcarry).mp ((hids id).mp hid)
    · exact ⟨tri, htri, hfound⟩
    · exact absurd hzero (by decide)
  · intro tri htri hfound k
    obtain ⟨state, hstate, hids⟩ := exists_state hpho k
    have hid : t.fixNode (t.fixTriPhoId tri) k ∈ state.curStateLst :=
      (hids _).mpr ((hasId_iff hcarry).mpr (.inl ⟨tri, htri, hfound, rfl⟩))
    obtain ⟨pos, hpos', hbacked⟩ := hok.backed i k state hstate
    obtain rfl : positions[i] = pos := Option.some_inj.mp (hpos.symm.trans hpos')
    exact ⟨hok.ids state (List.mem_of_getElem? hstate) _ hid, hbacked _ hid⟩

/-- A state of a word whose phones are as they should be. -/
structure StateOk (t : ZPhoTable) (outputs : ℕ) (positions : List PhoPos) (i : ℕ) (k : Fin 3)
    (state : ZVtState) : Prop where
  curStateLst_ne : state.curStateLst ≠ []
  ids : ∀ id ∈ state.curStateLst, 1 ≤ id ∧ id ≤ outputs
  backed : ∃ pos, positions[i]? = some pos ∧ ∀ id ∈ state.curStateLst, t.Backed pos k id

theorem exists_stateOk {outputs : ℕ} {positions : List PhoPos} {phones : List Pho}
    (h : List.Forall₂ (Carries t) positions phones) (houtputs : priorNum ≤ outputs)
    (hall : ∀ pos ∈ positions, t.PosOk outputs pos) {s : ℕ} {state : ZVtState}
    (hs : (setPhoBatchLst (parseWord phones))[s]? = some state) :
    ∃ (i : ℕ) (k : Fin 3), s = 3 * i + k.val ∧ StateOk t outputs positions i k state := by
  obtain ⟨i, k, pho, rfl, hpho, hids⟩ := exists_pho hs
  have hi : i < positions.length := h.length_eq ▸ (List.getElem?_eq_some_iff.mp hpho).1
  have hpos := List.getElem?_eq_getElem hi
  have hcarry := carries_at h hpos hpho
  obtain ⟨⟨tri, htri, hfound⟩, hnodes⟩ := hall _ (List.getElem_mem hi)
  have hmem : t.fixNode (t.fixTriPhoId tri) k ∈ state.curStateLst :=
    (hids _).mpr ((hasId_iff hcarry).mpr (.inl ⟨tri, htri, hfound, rfl⟩))
  have hid : ∀ id ∈ state.curStateLst,
      (1 ≤ id ∧ id ≤ outputs) ∧ t.Backed positions[i] k id := by
    intro id hid
    obtain ⟨tri, htri, hfound, rfl⟩ | hsil := (hasId_iff hcarry).mp ((hids id).mp hid)
    · exact hnodes tri htri hfound k
    · simp only [priorNum] at houtputs
      exact ⟨by omega, .inr hsil⟩
  exact ⟨i, k, rfl, List.ne_nil_of_mem hmem, fun id hmem ↦ (hid id hmem).1, positions[i], hpos,
    fun id hmem ↦ (hid id hmem).2⟩

/-- The graph is as it should be exactly if every phone is. -/
theorem graphOk_iff {outputs : ℕ} {positions : List PhoPos} {phones : List Pho}
    (h : List.Forall₂ (Carries t) positions phones) :
    t.GraphOk outputs positions (setPhoBatchLst (parseWord phones)) ↔
      priorNum ≤ outputs ∧ ∀ pos ∈ positions, t.PosOk outputs pos := by
  constructor
  · intro hok
    have hpos : priorNum - 1 < priorNum := Nat.sub_lt priorNum_pos Nat.one_pos
    have hlt := (hok.reads (priorNum - 1 : ℕ) (mem_frameReads.mpr (.inl (by omega)))).2
    exact ⟨by omega, posOk_of_graphOk h hok⟩
  · rintro ⟨houtputs, hall⟩
    have hstate : ∀ state ∈ setPhoBatchLst (parseWord phones),
        ∃ i k, StateOk t outputs positions i k state := by
      intro state hmem
      obtain ⟨s, hs, rfl⟩ := List.mem_iff_getElem.mp hmem
      obtain ⟨i, k, -, hok⟩ := exists_stateOk h houtputs hall (List.getElem?_eq_getElem hs)
      exact ⟨i, k, hok⟩
    constructor
    · intro state hmem
      obtain ⟨_, _, hok⟩ := hstate state hmem
      exact hok.curStateLst_ne
    · intro i k state hs
      obtain ⟨i', k', heq, hok⟩ := exists_stateOk h houtputs hall hs
      have hk := k.isLt
      have hk' := k'.isLt
      obtain rfl : i' = i := by omega
      obtain rfl : k' = k := Fin.ext (by omega)
      exact hok.backed
    · intro state hmem
      obtain ⟨_, _, hok⟩ := hstate state hmem
      exact hok.ids
    · intro r hr
      obtain hprior | ⟨state, hmem, hread⟩ := mem_frameReads.mp hr
      · omega
      · obtain ⟨_, _, hok⟩ := hstate state hmem
        obtain ⟨id, hid, rfl⟩ := exists_of_mem_stateReads hok.curStateLst_ne hread
        have hrange := hok.ids id hid
        omega

/-! ## The first parser -/

theorem mem_foldl_addFix {e : ℤ} (l fixTriPhoLst : List ℤ) :
    e ∈ l.foldl addFix fixTriPhoLst ↔ e ∈ fixTriPhoLst ∨ e ∈ l ∧ -1 < e := by
  apply mem_foldl_of_step
  intro cur x e
  rw [addFix]
  split_ifs with hfound hmem
  · have hold : e = x ∧ -1 < e → e ∈ cur := fun he ↦ he.1 ▸ hmem
    exact (or_iff_left_of_imp hold).symm
  · have hkept : e = x → -1 < e := fun he ↦ he ▸ hfound
    rw [List.mem_append, List.mem_singleton, and_iff_left_of_imp hkept]
  · have hleft : ¬ (e = x ∧ -1 < e) := fun he ↦ hfound (he.1 ▸ he.2)
    exact (or_iff_left hleft).symm

theorem carries_monoPho (pos : PhoPos) : Carries t pos (t.monoPho pos) := by
  refine ⟨rfl, fun node ↦ ?_⟩
  simp only [ZPhoTable.monoPho, List.mem_map, mem_foldl_addFix, List.not_mem_nil, false_or]
  constructor
  · rintro ⟨e, ⟨⟨tri, htri, rfl⟩, he⟩, rfl⟩
    exact ⟨tri, htri, he, rfl⟩
  · rintro ⟨tri, htri, he, rfl⟩
    exact ⟨_, ⟨⟨tri, htri, rfl⟩, he⟩, rfl⟩

theorem carries_parseWordMonoPhoLst (t : ZPhoTable) (s : List Char) (rightSil : Bool) :
    List.Forall₂ (Carries t) (t.monoWord s rightSil) (t.parseWordMonoPhoLst s rightSil) :=
  List.forall₂_map_right_iff.mpr (List.forall₂_same.mpr fun pos _ ↦ carries_monoPho pos)

/-! ## The second parser -/

/-- A loop that may fail comes to its end or fails at an element. -/
theorem mapM_cases {α β ε : Type*} (f : α → Except ε β) (l : List α) :
    (∃ out, l.mapM f = .ok out ∧ List.Forall₂ (fun a b ↦ f a = .ok b) l out) ∨
      ∃ before a after e, l = before ++ a :: after ∧ (∀ x ∈ before, ∃ b, f x = .ok b) ∧
        f a = .error e ∧ l.mapM f = .error e := by
  induction l with
  | nil => exact .inl ⟨[], rfl, .nil⟩
  | cons head l ih =>
      rw [List.mapM_cons]
      cases hhead : f head with
      | error e => exact .inr ⟨[], head, l, e, rfl, fun _ hx ↦ (nomatch hx), hhead, rfl⟩
      | ok b =>
          obtain ⟨out, hout, hall⟩ | ⟨before, a, after, e, rfl, hbefore, ha, herror⟩ := ih
          · refine .inl ⟨b :: out, ?_, .cons hhead hall⟩
            rw [hout]
            rfl
          · refine .inr ⟨head :: before, a, after, e, rfl, ?_, ha, ?_⟩
            · exact List.forall_mem_cons.mpr ⟨⟨b, hhead⟩, hbefore⟩
            · rw [herror]
              rfl

/-- The first element that does not have a property. -/
theorem first_not_unique {α : Type*} {P : α → Prop} {before before' after after' : List α} {a a' : α}
    (h : before ++ a :: after = before' ++ a' :: after') (hbefore : ∀ x ∈ before, P x)
    (hbefore' : ∀ x ∈ before', P x) (ha : ¬ P a) (ha' : ¬ P a') : a = a' := by
  induction before generalizing before' with
  | nil =>
      cases before' with
      | nil => exact (List.cons.inj h).1
      | cons x before' =>
          rw [← (List.cons.inj h).1] at hbefore'
          exact absurd (hbefore' a List.mem_cons_self) ha
  | cons x before ih =>
      cases before' with
      | nil =>
          rw [(List.cons.inj h).1] at hbefore
          exact absurd (hbefore a' List.mem_cons_self) ha'
      | cons y before' =>
          exact ih (List.cons.inj h).2 (List.forall_mem_cons.mp hbefore).2
            (List.forall_mem_cons.mp hbefore').2

theorem triNode_eq_ok_iff {name : List Char} {node : Fin 3 → ℤ} :
    t.triNode name = .ok node ↔
      ∃ tri, triPieces name = .ok tri ∧ t.fixTriPhoId tri ≠ -1 ∧
        t.fixNode (t.fixTriPhoId tri) = node := by
  unfold ZPhoTable.triNode
  cases hpieces : triPieces name with
  | error e => exact iff_of_false (fun h ↦ nomatch h) fun ⟨_, h, _⟩ ↦ nomatch h
  | ok tri =>
      change (if t.fixTriPhoId tri = -1 then _ else _) = _ ↔ _
      by_cases hentry : t.fixTriPhoId tri = -1
      · rw [if_pos hentry]
        refine iff_of_false (fun h ↦ nomatch h) ?_
        rintro ⟨_, ⟨⟩, hne, -⟩
        exact hne hentry
      · rw [if_neg hentry]
        constructor
        · rintro ⟨⟩
          exact ⟨tri, rfl, hentry, rfl⟩
        · rintro ⟨_, ⟨⟩, -, rfl⟩
          rfl

theorem found_iff {name : List Char} : t.Found name ↔ ∃ node, t.triNode name = .ok node := by
  simp only [triNode_eq_ok_iff]
  constructor
  · rintro ⟨tri, htri, hentry⟩
    exact ⟨_, tri, htri, hentry, rfl⟩
  · rintro ⟨_, tri, htri, hentry, -⟩
    exact ⟨tri, htri, hentry⟩

theorem refused_iff {name : List Char} : t.Refused name ↔ t.triNode name = .error .assertion := by
  unfold ZPhoTable.triNode ZPhoTable.Refused
  cases hpieces : triPieces name with
  | error e =>
      cases e with
      | assertion => exact iff_of_true (.inl rfl) rfl
      | outOfBounds =>
          refine iff_of_false ?_ fun h ↦ nomatch h
          rintro (h | ⟨_, h, -⟩)
          · exact nomatch h
          · exact nomatch h
  | ok tri =>
      change _ ↔ (if t.fixTriPhoId tri = -1 then _ else _) = _
      by_cases hentry : t.fixTriPhoId tri = -1
      · rw [if_pos hentry]
        exact iff_of_true (.inr ⟨tri, rfl, hentry⟩) rfl
      · rw [if_neg hentry]
        refine iff_of_false ?_ fun h ↦ nomatch h
        rintro (h | ⟨_, ⟨⟩, h⟩)
        · exact nomatch h
        · exact hentry h

theorem forall₂_mem_right {α β : Type*} {R : α → β → Prop} {l : List α} {out : List β}
    (h : List.Forall₂ R l out) : ∀ b ∈ out, ∃ a ∈ l, R a b := by
  induction h with
  | nil => exact fun _ hb ↦ nomatch hb
  | cons hab _ ih =>
      refine List.forall_mem_cons.mpr ⟨⟨_, List.mem_cons_self, hab⟩, fun b hb ↦ ?_⟩
      obtain ⟨a, ha, hR⟩ := ih b hb
      exact ⟨a, List.mem_cons_of_mem _ ha, hR⟩

theorem forall₂_mem_left {α β : Type*} {R : α → β → Prop} {l : List α} {out : List β}
    (h : List.Forall₂ R l out) : ∀ a ∈ l, ∃ b ∈ out, R a b :=
  forall₂_mem_right h.flip

/-- A token of the second parser becomes a phone, or fails at its first triphone that is not found. -/
theorem triPho_cases (t : PhoTable) (tok : TriTok) :
    (∃ pho, t.triPho tok = .ok pho ∧ (∀ name ∈ tok.names, t.Found name) ∧
        Carries t.toZPhoTable (triPos tok) pho) ∨
      ∃ before name after e, tok.names = before ++ name :: after ∧ (∀ n ∈ before, t.Found n) ∧
        t.triNode name = .error e ∧ t.triPho tok = .error e := by
  unfold ZPhoTable.triPho
  obtain ⟨nodes, hnodes, hall⟩ | ⟨before, name, after, e, hnames, hbefore, hname, herror⟩ :=
    mapM_cases t.triNode tok.names
  · refine .inl ⟨⟨nodes, if tok.flag then .block else .none⟩, by rw [hnodes]; rfl, ?_, rfl, ?_⟩
    · intro name hname
      obtain ⟨node, -, hnode⟩ := forall₂_mem_left hall name hname
      exact found_iff.mpr ⟨node, hnode⟩
    · intro node
      constructor
      · intro hnode
        obtain ⟨name, hname, heq⟩ := forall₂_mem_right hall node hnode
        obtain ⟨tri, htri, hentry, rfl⟩ := triNode_eq_ok_iff.mp heq
        have hbound := (t.fixTriPhoId_bounds tri).1
        refine ⟨tri, List.mem_filterMap.mpr ⟨name, hname, ?_⟩, by omega, rfl⟩
        rw [htri]
        rfl
      · rintro ⟨tri, htri, hentry, rfl⟩
        obtain ⟨name, hname, hpieces⟩ := List.mem_filterMap.mp htri
        have hok : triPieces name = .ok tri := by
          cases hcase : triPieces name with
          | error e =>
              rw [hcase] at hpieces
              exact nomatch hpieces
          | ok tri' =>
              rw [hcase] at hpieces
              cases hpieces
              rfl
        obtain ⟨node, hmem, hnode⟩ := forall₂_mem_left hall name hname
        obtain ⟨tri', htri', -, rfl⟩ := triNode_eq_ok_iff.mp hnode
        obtain rfl : tri = tri' := Except.ok.inj (hok.symm.trans htri')
        exact hmem
  · refine .inr ⟨before, name, after, e, hnames, ?_, hname, by rw [herror]; rfl⟩
    exact fun n hn ↦ found_iff.mpr (hbefore n hn)

/-- The second parser finds all triphones of a string, or fails at the first that it does not find. -/
theorem parseWordTriPhoLst_cases (t : PhoTable) (s : List Char) :
    (∃ phones, t.parseWordTriPhoLst s = .ok phones ∧ (∀ name ∈ triNames s, t.Found name) ∧
        List.Forall₂ (Carries t.toZPhoTable) ((triToks s).map triPos) phones) ∨
      ∃ before name after e, triNames s = before ++ name :: after ∧ (∀ n ∈ before, t.Found n) ∧
        t.triNode name = .error e ∧ t.parseWordTriPhoLst s = .error e := by
  unfold ZPhoTable.parseWordTriPhoLst triNames
  have hfound {tok : TriTok} {pho : Pho} (h : t.triPho tok = .ok pho) :
      (∀ name ∈ tok.names, t.Found name) ∧ Carries t.toZPhoTable (triPos tok) pho := by
    obtain ⟨pho', hpho', hnames, hcarries⟩ | ⟨-, -, -, e, -, -, -, herror⟩ := triPho_cases t tok
    · obtain rfl : pho = pho' := Except.ok.inj (h.symm.trans hpho')
      exact ⟨hnames, hcarries⟩
    · exact nomatch h.symm.trans herror
  obtain ⟨phones, hphones, hall⟩ | ⟨toks, tok, later, e, htoks, hbefore, htok, herror⟩ :=
    mapM_cases t.triPho (triToks s)
  · refine .inl ⟨phones, hphones, fun name hname ↦ ?_, ?_⟩
    · obtain ⟨tok, htok, hmem⟩ := List.mem_flatMap.mp hname
      obtain ⟨pho, -, hpho⟩ := forall₂_mem_left hall tok htok
      exact (hfound hpho).1 name hmem
    · exact List.forall₂_map_left_iff.mpr (hall.imp fun tok pho hpho ↦ (hfound hpho).2)
  · obtain ⟨pho, hpho, -⟩ | ⟨before, name, after, e', hnames, hprior, hname, herror'⟩ :=
      triPho_cases t tok
    · exact nomatch htok.symm.trans hpho
    · obtain rfl : e = e' := Except.error.inj (htok.symm.trans herror')
      refine .inr ⟨toks.flatMap TriTok.names ++ before, name,
        after ++ later.flatMap TriTok.names, e, ?_, ?_, hname, herror⟩
      · rw [htoks, List.flatMap_append, List.flatMap_cons, hnames]
        simp
      · refine List.forall_mem_append.mpr ⟨fun n hn ↦ ?_, hprior⟩
        obtain ⟨tok', htok', hmem⟩ := List.mem_flatMap.mp hn
        obtain ⟨pho, hpho⟩ := hbefore tok' htok'
        exact (hfound hpho).1 n hmem

/-! ## The words that are safe -/

/-- A word that is parsed is safe exactly if it is sound. -/
theorem accepted_iff {outputs : ℕ} {info : WordInfo} {phones : List Pho}
    (hfound : '+' ∈ info.contentPhone → ∀ name ∈ triNames info.contentPhone, t.Found name)
    (hcarries : List.Forall₂ (Carries t) (t.wordPositions info) phones) :
    (t.GraphOk outputs (t.wordPositions info) (setPhoBatchLst (parseWord phones)) ∧
        (∀ name ∈ namedPhones info, name ∈ t.monPhoLst) ∧
        ∃ pos ∈ t.wordPositions info, ∃ tri ∈ pos.triphones,
          t.KnownNames tri ∧ -1 < t.fixTriPhoId tri) ↔ t.Sound outputs info := by
  rw [graphOk_iff hcarries]
  constructor
  · rintro ⟨⟨houtputs, hall⟩, hnamed, pos, hpos, -⟩
    exact ⟨hfound, houtputs, hnamed, List.ne_nil_of_mem hpos, hall⟩
  · rintro ⟨-, houtputs, hnamed, hne, hall⟩
    obtain ⟨pos, hpos⟩ := List.exists_mem_of_ne_nil _ hne
    obtain ⟨⟨tri, htri, hentry⟩, hbacked⟩ := hall pos hpos
    obtain ⟨tri', htri', hknown, hentry', -⟩ | ⟨⟨hzero, -⟩, -⟩ := (hbacked tri htri hentry 0).2
    · exact ⟨⟨houtputs, hall⟩, hnamed, pos, hpos, tri', htri', hknown, hentry'⟩
    · exact absurd hzero (by decide)

/-- A table of three phones, with one entry for all triphones. -/
def smallTable : PhoTable where
  monPhoLst := ["sil".toList, "<eps>".toList, "a".toList]
  monPho2Id := fun name ↦
    if name = "sil".toList then some 0
    else if name = "<eps>".toList then some 1
    else if name = "a".toList then some 2
    else none
  fixPhoState := [fun k ↦ (k.val : ℤ) + 1]
  triPho2FixPho := List.replicate 27 0
  nonempty := List.cons_ne_nil _ _
  total_eq := List.length_replicate
  entries := fun entry hentry ↦ by
    rw [List.eq_of_mem_replicate hentry]
    decide
  known := by
    intro name hname
    simp only [List.mem_cons, List.not_mem_nil, or_false] at hname
    obtain rfl | rfl | rfl := hname
    · exact ⟨0, by decide, rfl⟩
    · exact ⟨1, by decide, rfl⟩
    · exact ⟨2, by decide, rfl⟩
  unknown := by
    intro name hname
    simp only [List.mem_cons, List.not_mem_nil, or_false, not_or] at hname
    exact .inl ((if_neg hname.1).trans ((if_neg hname.2.1).trans (if_neg hname.2.2)))

/-- A wake word that names a phone which no table has. -/
def unknownWord : WordInfo where
  wordType := .awake
  contentUtf8 := "x".toList
  contentPhone := "x|#".toList
  blockAvgScore := 4
  blockMinScore := 2
  leftSilDet := true
  rightSilDet := false
  remoteAsrCheckWithAec := true
  remoteAsrCheckWithNoAec := true
  localClassifyCheck := false
  classifyShield := 0
  localClassifyNnetPath := []

end Vsys.Vt
