import Mathlib.Data.List.TakeWhile
import Mathlib.Logic.Function.Basic
import Vsys.Io.Reads
import Vsys.Vt.PhoTable

/-!
# The file of a phone table

`SaveNewTable` writes numbers behind a byte for their size, names with a blank after each, and
arrays as they stand in the memory; `LoadNewTable` reads the parts in the same order.  The map from
names to numbers is not written: the loader numbers the names again, as all loaders do.

What is lost on the way are the entries that `operator[]` of the map has made for names that are
not in the list.  `loadNewTable_saveNewTable` says what comes back.
-/

namespace Vsys.Vt

open Vsys.Io Vsys.Stream

/-! ## Numbers and names in the file -/

/-- `WriteBasicType` of an `int`: `sizeof(int)`, and the number. -/
def writeBasicType (t : ℤ) : List UInt8 := 4 :: intBytes 4 t

/-- A character of a name is a byte. -/
def byteOf (c : Char) : UInt8 := UInt8.ofNat c.toNat

def charOf (b : UInt8) : Char := Char.ofNat b.toNat

/-- What ends a string of C. -/
def nul : Char := Char.ofNat 0

/-- Blank, tab, line feed, vertical tab, form feed and carriage return. -/
def isspace (c : Char) : Prop := c.toNat = 32 ∨ (9 ≤ c.toNat ∧ c.toNat ≤ 13)

instance (c : Char) : Decidable (isspace c) := inferInstanceAs (Decidable (_ ∨ _))

/-- `WriteToken` of `c_str()`. -/
def writeToken (pToken : PhoName) : List UInt8 :=
  (pToken.takeWhile fun c ↦ decide (c ≠ nul)).map byteOf ++ [byteOf ' ']

/-- `ReadRawData(&c, 1)`. -/
def readChar (c : UInt8) : Reader UInt8 UInt8 := (fun bytes ↦ bytes.headD c) <$> fread [c]

/-- `GetChar`. -/
def getChar : Reader UInt8 UInt8 := readChar 0

/-- `ReadBasicType` of an `int` that is 0; another size in front of it fails an assertion. -/
def readBasicType : Reader UInt8 ℤ := do
  let len_c_in ← getChar
  if len_c_in = 4 then intOf <$> fread (intBytes 4 0) else failure

/-- The loop of `ReadToken` behind `c`, with what is left of its 100 characters. -/
def tokenLoop : ℕ → UInt8 → Reader UInt8 (List UInt8)
  | 0, _ => pure []
  | room + 1, c =>
      if c = byteOf ' ' then pure [] else (c :: ·) <$> (readChar c >>= tokenLoop room)

/-- `ReadToken`. -/
def readToken : Reader UInt8 PhoName := List.map charOf <$> (getChar >>= tokenLoop 100)

/-- `ZPhoNode` in the file. -/
def nodeBytes (node : Fin 3 → ℤ) : List UInt8 := (List.ofFn node).flatMap (intBytes 4)

def nodeOf (bytes : List UInt8) : Fin 3 → ℤ := fun k ↦ ((blocks 4 bytes).map intOf).getD k 0

/-- `Z_SAFE_NEW_AR1`, which fills the array with zeros, and `ReadArray`; there is no array of a
negative length. -/
def readNewArray {σ : Type} (size : ℕ) (ofCell : List UInt8 → σ) (num : ℤ) :
    Reader UInt8 (List σ) :=
  if num < 0 then failure else readArray size ofCell (List.replicate (num.toNat * size) 0)

/-- `m_MonPho2Id[tok] = i` for all names in order: of equal names the last one counts. -/
def numbering (monPhoLst : List PhoName) : PhoName → Option ℤ :=
  monPhoLst.zipIdx.foldl (fun ids entry ↦ Function.update ids entry.1 (some (entry.2 : ℤ)))
    fun _ ↦ none

namespace ZPhoTable

/-- `SaveNewTable`: the file that it writes. -/
def saveNewTable (t : ZPhoTable) : List UInt8 :=
  writeBasicType t.monPhoNum ++ t.monPhoLst.flatMap writeToken ++
    (writeBasicType t.fixPhoState.length ++ t.fixPhoState.flatMap nodeBytes) ++
    (writeBasicType t.triPho2FixPho.length ++ t.triPho2FixPho.flatMap (intBytes 4))

/-- `LoadNewTable` of a new object. -/
def loadNewTable : Reader UInt8 ZPhoTable := do
  let monPhoNum ← readBasicType
  let monPhoLst ← many readToken monPhoNum.toNat
  let triPhoNum_Fix ← readBasicType
  let fixPhoState ← readNewArray 12 nodeOf triPhoNum_Fix
  let triPhoNum_Total ← readBasicType
  let triPho2FixPho ← readNewArray 4 intOf triPhoNum_Total
  pure ⟨monPhoLst, numbering monPhoLst, fixPhoState, triPho2FixPho⟩

/-- `operator[]` enters the number that it answers. -/
def ask (t : ZPhoTable) (name : PhoName) : ZPhoTable :=
  { t with monPho2Id := Function.update t.monPho2Id name (some (t.monId name)) }

/-- The table is as a loader has made it, but for names that it has been asked for since. -/
structure Loaded (t : ZPhoTable) : Prop where
  listed : ∀ name ∈ t.monPhoLst, t.monPho2Id name = numbering t.monPhoLst name
  unlisted : ∀ name ∉ t.monPhoLst, t.monPho2Id name = none ∨ t.monPho2Id name = some 0

/-- The fields are values of their types: names are of bytes, and all numbers are an `int`. -/
structure CTypes (t : ZPhoTable) : Prop where
  chars : ∀ name ∈ t.monPhoLst, ∀ c ∈ name, c.toNat < 256
  monPhoNum_lt : t.monPhoNum < 2 ^ 31
  fixNum_lt : t.fixPhoState.length < 2 ^ 31
  totalNum_lt : t.triPho2FixPho.length < 2 ^ 31
  nodes : ∀ node ∈ t.fixPhoState, ∀ k, -2 ^ 31 ≤ node k ∧ node k < 2 ^ 31
  entries : ∀ entry ∈ t.triPho2FixPho, -2 ^ 31 ≤ entry ∧ entry < 2 ^ 31

/-- The names have no whitespace and at most 99 characters. -/
def Plain (t : ZPhoTable) : Prop :=
  ∀ name ∈ t.monPhoLst, (∀ c ∈ name, ¬ isspace c) ∧ name.length ≤ 99

end ZPhoTable

/-! ## One part after the other -/

theorem readChar_reads (c b : UInt8) : Reads (readChar c) [b] b := by
  have hbyte : Reads (fread [c]) [b] [b] := fread_reads rfl
  exact hbyte.map fun bytes ↦ bytes.headD c

theorem intOf_int {x : ℤ} (hlow : -2 ^ 31 ≤ x) (hhigh : x < 2 ^ 31) : intOf (intBytes 4 x) = x := by
  have hwidth : ((256 ^ 4 : ℕ) : ℤ) = 2 ^ 32 := by norm_num
  apply intOf_intBytes <;> rw [hwidth] <;> omega

theorem readBasicType_reads {x : ℤ} (hlow : -2 ^ 31 ≤ x) (hhigh : x < 2 ^ 31) :
    Reads readBasicType (writeBasicType x) x := by
  have hlength : (intBytes 4 x).length = (intBytes 4 0).length := by
    rw [intBytes_length, intBytes_length]
  have hnumber := (fread_reads hlength).map intOf
  rw [intOf_int hlow hhigh] at hnumber
  exact (readChar_reads 0 4).bind hnumber

theorem readBasicType_reads_length {n : ℕ} (hn : n < 2 ^ 31) :
    Reads readBasicType (writeBasicType n) (n : ℤ) :=
  readBasicType_reads (by omega) (by omega)

/-- The loop ends at the blank, if that comes within its 100 characters or right after them. -/
theorem tokenLoop_reads {name : List UInt8} (hblank : byteOf ' ' ∉ name) :
    ∀ {room : ℕ} (c : UInt8), name.length ≤ room →
      Reads (readChar c >>= tokenLoop room) (name ++ [byteOf ' ']) name := by
  induction name with
  | nil =>
      intro room c _
      have hend : Reads (tokenLoop room (byteOf ' ')) [] [] := by
        cases room with
        | zero => exact Reads.pure []
        | succ room =>
            rw [tokenLoop, if_pos rfl]
            exact Reads.pure []
      exact (readChar_reads c (byteOf ' ')).bind hend
  | cons a name ih =>
      intro room c hroom
      obtain ⟨hhead, htail⟩ := not_or.mp (mt List.mem_cons.mpr hblank)
      cases room with
      | zero => exact absurd hroom (Nat.not_succ_le_zero _)
      | succ room =>
          have hlater := (ih htail a (Nat.le_of_succ_le_succ hroom)).map (a :: ·)
          have hstep : Reads (tokenLoop (room + 1) a) (name ++ [byteOf ' ']) (a :: name) := by
            rw [tokenLoop, if_neg (Ne.symm hhead)]
            exact hlater
          exact (readChar_reads c a).bind hstep

theorem charOf_byteOf {c : Char} (hc : c.toNat < 256) : charOf (byteOf c) = c := by
  rw [charOf, byteOf, UInt8.toNat_ofNat', Nat.mod_eq_of_lt hc, Char.ofNat_toNat]

theorem byteOf_injective {c d : Char} (hc : c.toNat < 256) (hd : d.toNat < 256)
    (h : byteOf c = byteOf d) : c = d := by
  rw [← charOf_byteOf hc, h, charOf_byteOf hd]

/-- A string without zeros is written whole. -/
theorem takeWhile_ne_nul {name : PhoName} (hnul : nul ∉ name) :
    (name.takeWhile fun c ↦ decide (c ≠ nul)) = name := by
  apply List.takeWhile_eq_self_iff.mpr
  intro c hc
  exact decide_eq_true (ne_of_mem_of_not_mem hc hnul)

/-- **Names.** A name comes back if nothing in it ends the writing or the reading. -/
theorem readToken_reads {name : PhoName} (hchars : ∀ c ∈ name, c.toNat < 256) (hblank : ' ' ∉ name)
    (hnul : nul ∉ name) (hlength : name.length ≤ 100) :
    Reads readToken (writeToken name) name := by
  have hbytes : byteOf ' ' ∉ name.map byteOf := by
    intro hmem
    obtain ⟨c, hc, hbyte⟩ := List.mem_map.mp hmem
    rw [byteOf_injective (hchars c hc) (by decide) hbyte] at hc
    exact hblank hc
  have hback : (name.map byteOf).map charOf = name :=
    map_map_back fun c hc ↦ charOf_byteOf (hchars c hc)
  have hroom : (name.map byteOf).length ≤ 100 := by rwa [List.length_map]
  have hread := (tokenLoop_reads hbytes 0 hroom).map (List.map charOf)
  rw [hback] at hread
  rwa [writeToken, takeWhile_ne_nul hnul]

theorem nodeBytes_length (node : Fin 3 → ℤ) : (nodeBytes node).length = 12 := by
  rw [nodeBytes, length_flatMap_const (intBytes_length 4), List.length_ofFn]

theorem words_nodeBytes {node : Fin 3 → ℤ} (h : ∀ k, -2 ^ 31 ≤ node k ∧ node k < 2 ^ 31) :
    (blocks 4 (nodeBytes node)).map intOf = List.ofFn node := by
  have hback : ∀ x ∈ List.ofFn node, intOf (intBytes 4 x) = x := by
    intro x hx
    obtain ⟨k, rfl⟩ := List.mem_ofFn.mp hx
    exact intOf_int (h k).1 (h k).2
  rw [nodeBytes, blocks_flatMap (Nat.succ_pos 3) (intBytes_length 4), map_map_back hback]

theorem nodeOf_nodeBytes {node : Fin 3 → ℤ} (h : ∀ k, -2 ^ 31 ≤ node k ∧ node k < 2 ^ 31) :
    nodeOf (nodeBytes node) = node := by
  funext k
  have hk : k.val < (List.ofFn node).length := by
    rw [List.length_ofFn]
    exact k.isLt
  rw [nodeOf, words_nodeBytes h, List.getD_eq_getElem _ _ hk, List.getElem_ofFn]

theorem readNewArray_reads {σ : Type} {size : ℕ} (hsize : 0 < size) {ofCell : List UInt8 → σ}
    {write : σ → List UInt8} {l : List σ} (hwrite : ∀ a, (write a).length = size)
    (hcell : ∀ a ∈ l, ofCell (write a) = a) :
    Reads (readNewArray size ofCell l.length) (l.flatMap write) l := by
  rw [readNewArray, if_neg (Int.not_lt.mpr (Int.natCast_nonneg _)), Int.toNat_natCast]
  exact readArray_reads hsize hwrite List.length_replicate hcell

/-! ## The map -/

theorem numbering_concat (l : List PhoName) (name : PhoName) :
    numbering (l ++ [name]) = Function.update (numbering l) name (some (l.length : ℤ)) := by
  rw [numbering, List.zipIdx_append, List.foldl_append, Nat.zero_add]
  rfl

theorem numbering_of_not_mem {l : List PhoName} {name : PhoName} (h : name ∉ l) :
    numbering l name = none := by
  induction l using List.reverseRecOn with
  | nil => rfl
  | append_singleton l last ih =>
      rw [List.mem_append, List.mem_singleton, not_or] at h
      rw [numbering_concat, Function.update_of_ne h.2, ih h.1]

/-- A name of the list gets the number of one of its places. -/
theorem numbering_of_mem {l : List PhoName} {name : PhoName} (h : name ∈ l) :
    ∃ i : ℕ, numbering l name = some (i : ℤ) ∧ l[i]? = some name := by
  induction l using List.reverseRecOn with
  | nil => exact absurd h List.not_mem_nil
  | append_singleton l last ih =>
      rw [numbering_concat]
      by_cases hlast : name = last
      · subst hlast
        exact ⟨l.length, Function.update_self .., List.getElem?_concat_length⟩
      · have hmem : name ∈ l := by
          rw [List.mem_append, List.mem_singleton] at h
          exact h.resolve_right hlast
        obtain ⟨i, hid, hi⟩ := ih hmem
        have hlt := (List.getElem?_eq_some_iff.mp hi).1
        exact ⟨i, by rw [Function.update_of_ne hlast, hid], by rw [List.getElem?_append_left hlt, hi]⟩

namespace ZPhoTable

section Asking

variable {t : ZPhoTable}

theorem Loaded.ask (h : t.Loaded) (name : PhoName) : (t.ask name).Loaded where
  listed := by
    intro other hother
    change Function.update t.monPho2Id name (some (t.monId name)) other = _
    by_cases hname : other = name
    · subst hname
      obtain ⟨i, hid, _⟩ := numbering_of_mem hother
      have hsome : t.monPho2Id other = some (i : ℤ) := (h.listed other hother).trans hid
      rw [Function.update_self, monId, hsome]
      exact hid.symm
    · rw [Function.update_of_ne hname]
      exact h.listed other hother
  unlisted := by
    intro other hother
    change Function.update t.monPho2Id name (some (t.monId name)) other = none ∨
      Function.update t.monPho2Id name (some (t.monId name)) other = some 0
    by_cases hname : other = name
    · subst hname
      rw [Function.update_self, monId]
      obtain hid | hid := h.unlisted other hother <;> rw [hid] <;> exact .inr rfl
    · rw [Function.update_of_ne hname]
      exact h.unlisted other hother

/-- A table that has just been loaded. -/
theorem loaded_numbering {monPhoLst : List PhoName} {fixPhoState : List (Fin 3 → ℤ)}
    {triPho2FixPho : List ℤ} :
    (⟨monPhoLst, numbering monPhoLst, fixPhoState, triPho2FixPho⟩ : ZPhoTable).Loaded where
  listed := fun _ _ ↦ rfl
  unlisted := fun _ hname ↦ .inl (numbering_of_not_mem hname)

theorem loaded_of_loadNewTable {file rest : List UInt8}
    (h : loadNewTable.run file = some (t, rest)) : t.Loaded := by
  simp only [loadNewTable, StateT.run_bind, Option.bind_eq_bind, Option.bind_eq_some_iff] at h
  obtain ⟨_, _, _, _, _, _, _, _, _, _, _, _, hend⟩ := h
  obtain rfl := congrArg Prod.fst (Option.some.inj hend)
  exact loaded_numbering

/-- A table of the engine, whatever the file and the names that it has been asked for. -/
theorem loaded_of_asks {file rest : List UInt8} (h : loadNewTable.run file = some (t, rest))
    (names : List PhoName) : (names.foldl ZPhoTable.ask t).Loaded := by
  have hkeeps : ∀ s : ZPhoTable, s.Loaded → (names.foldl ZPhoTable.ask s).Loaded := by
    induction names with
    | nil => exact fun _ hs ↦ hs
    | cons name names ih => exact fun s hs ↦ ih (s.ask name) (hs.ask name)
  exact hkeeps t (loaded_of_loadNewTable h)

/-- The number of a name that is not in the list. -/
theorem Loaded.monId_of_not_mem (h : t.Loaded) {name : PhoName} (hname : name ∉ t.monPhoLst) :
    t.monId name = 0 := by
  rw [monId]
  obtain hid | hid := h.unlisted name hname <;> rw [hid] <;> rfl

/-- Renumbering the names changes no answer. -/
theorem Loaded.numbering_getD (h : t.Loaded) (name : PhoName) :
    (numbering t.monPhoLst name).getD 0 = t.monId name := by
  by_cases hname : name ∈ t.monPhoLst
  · rw [← h.listed name hname, monId]
  · rw [numbering_of_not_mem hname, h.monId_of_not_mem hname]
    rfl

theorem Loaded.numbering_eq_iff (h : t.Loaded) :
    numbering t.monPhoLst = t.monPho2Id ↔ ∀ name ∉ t.monPhoLst, t.monPho2Id name = none := by
  constructor
  · intro hmap name hname
    rw [← hmap]
    exact numbering_of_not_mem hname
  · intro hnone
    funext name
    by_cases hname : name ∈ t.monPhoLst
    · exact (h.listed name hname).symm
    · exact (numbering_of_not_mem hname).trans (hnone name hname).symm

end Asking

/-! ## The whole file -/

/-- **The file.** The reader takes the whole of it, and numbers the names again. -/
theorem loadNewTable_reads {t : ZPhoTable} (htypes : t.CTypes)
    (hnames : ∀ name ∈ t.monPhoLst, ' ' ∉ name ∧ nul ∉ name ∧ name.length ≤ 100) :
    Reads loadNewTable t.saveNewTable { t with monPho2Id := numbering t.monPhoLst } := by
  have hnumber := readBasicType_reads_length htypes.monPhoNum_lt
  have hlist : Reads (many readToken t.monPhoLst.length) (t.monPhoLst.flatMap writeToken)
      t.monPhoLst := Reads.many fun name hname ↦
    readToken_reads (htypes.chars name hname) (hnames name hname).1 (hnames name hname).2.1
      (hnames name hname).2.2
  have hfixNum := readBasicType_reads_length htypes.fixNum_lt
  have hfix : Reads (readNewArray 12 nodeOf t.fixPhoState.length) (t.fixPhoState.flatMap nodeBytes)
      t.fixPhoState := readNewArray_reads (Nat.succ_pos 11) nodeBytes_length fun node hnode ↦
    nodeOf_nodeBytes (htypes.nodes node hnode)
  have htotalNum := readBasicType_reads_length htypes.totalNum_lt
  have htotal : Reads (readNewArray 4 intOf t.triPho2FixPho.length)
      (t.triPho2FixPho.flatMap (intBytes 4)) t.triPho2FixPho :=
    readNewArray_reads (Nat.succ_pos 3) (intBytes_length 4) fun entry hentry ↦
      intOf_int (htypes.entries entry hentry).1 (htypes.entries entry hentry).2
  rw [← List.append_nil t.saveNewTable]
  simp only [saveNewTable, List.append_assoc]
  apply hnumber.bind
  rw [Int.toNat_natCast]
  apply hlist.bind
  apply hfixNum.bind
  apply hfix.bind
  apply htotalNum.bind
  apply htotal.bind
  exact Reads.pure _

/-- A condition on all characters of all names, as a test. -/
theorem forall_chars {p : Char → Prop} [DecidablePred p] {l : List PhoName}
    (h : (l.all fun name ↦ name.all fun c ↦ decide (p c)) = true) : ∀ name ∈ l, ∀ c ∈ name, p c := by
  simpa only [List.all_eq_true, decide_eq_true_eq] using h

theorem plain_of_test {t : ZPhoTable}
    (hchars : (t.monPhoLst.all fun name ↦ name.all fun c ↦ decide (¬ isspace c)) = true)
    (hlength : ∀ name ∈ t.monPhoLst, name.length ≤ 99) : t.Plain := fun name hname ↦
  ⟨forall_chars hchars name hname, hlength name hname⟩

/-- A table that has been loaded with two names, and has then been asked for a third one. -/
def askedTable : ZPhoTable :=
  ZPhoTable.ask ⟨["sil".toList, "a".toList], numbering ["sil".toList, "a".toList],
    [fun k ↦ (k.val : ℤ) + 1], List.replicate 8 0⟩ "x".toList

theorem askedTable_loaded : askedTable.Loaded := loaded_numbering.ask _

theorem askedTable_cTypes : askedTable.CTypes where
  chars := forall_chars (by decide)
  monPhoNum_lt := by decide
  fixNum_lt := by decide
  totalNum_lt := by decide
  nodes := by decide
  entries := by decide

theorem askedTable_plain : askedTable.Plain := plain_of_test (by decide) (by decide)

/-- **Round trip.** The lists and the arrays come back, and every name gets its number again.  The
map itself comes back if no name but those of the list has been asked for. -/
theorem loadNewTable_saveNewTable {t : ZPhoTable} (hloaded : t.Loaded) (htypes : t.CTypes)
    (hplain : t.Plain) (hnul : ∀ name ∈ t.monPhoLst, nul ∉ name) :
    ∃ t' : ZPhoTable, loadNewTable.run t.saveNewTable = some (t', []) ∧
      t'.monPhoLst = t.monPhoLst ∧
      (∀ name ∈ t.monPhoLst, t'.monPho2Id name = t.monPho2Id name) ∧
      (∀ name, t'.monId name = t.monId name) ∧
      (t'.monPho2Id = t.monPho2Id ↔ ∀ name ∉ t.monPhoLst, t.monPho2Id name = none) ∧
      t'.fixPhoState = t.fixPhoState ∧ t'.triPho2FixPho = t.triPho2FixPho := by
  have hnames : ∀ name ∈ t.monPhoLst, ' ' ∉ name ∧ nul ∉ name ∧ name.length ≤ 100 := by
    intro name hname
    obtain ⟨hspace, hlength⟩ := hplain name hname
    exact ⟨fun hblank ↦ hspace ' ' hblank (.inl rfl), hnul name hname, by omega⟩
  exact ⟨_, (loadNewTable_reads htypes hnames).whole, rfl, fun name hname ↦
    (hloaded.listed name hname).symm, hloaded.numbering_getD, hloaded.numbering_eq_iff, rfl, rfl⟩

theorem loadNewTable_saveNewTable_askedTable :
    ∃ t' : ZPhoTable, loadNewTable.run askedTable.saveNewTable = some (t', []) ∧
      t'.monPhoLst = askedTable.monPhoLst ∧
      (∀ name ∈ askedTable.monPhoLst, t'.monPho2Id name = askedTable.monPho2Id name) ∧
      (∀ name, t'.monId name = askedTable.monId name) ∧
      (t'.monPho2Id = askedTable.monPho2Id ↔
        ∀ name ∉ askedTable.monPhoLst, askedTable.monPho2Id name = none) ∧
      t'.fixPhoState = askedTable.fixPhoState ∧ t'.triPho2FixPho = askedTable.triPho2FixPho :=
  loadNewTable_saveNewTable askedTable_loaded askedTable_cTypes askedTable_plain (by decide)

/-- A table of one name, with no triphone. -/
def oneName (name : PhoName) : ZPhoTable := ⟨[name], numbering [name], [], [-1]⟩

theorem oneName_cTypes (name : PhoName)
    (h : ([name].all fun name ↦ name.all fun c ↦ decide (c.toNat < 256)) = true) :
    (oneName name).CTypes where
  chars := forall_chars h
  monPhoNum_lt := Nat.one_lt_two_pow (by decide)
  fixNum_lt := Nat.two_pow_pos 31
  totalNum_lt := Nat.one_lt_two_pow (by decide)
  nodes := fun _ hnode ↦ absurd hnode List.not_mem_nil
  entries := fun entry hentry ↦ by
    rw [List.mem_singleton.mp hentry]
    decide

/-- The entry of a name that is not in the list is lost, and so is what stands behind a NUL. -/
theorem not_loadNewTable_saveNewTable_same :
    (askedTable.Loaded ∧ askedTable.CTypes ∧ askedTable.Plain ∧
      ¬ ∃ t' : ZPhoTable, loadNewTable.run askedTable.saveNewTable = some (t', []) ∧
        t'.monPho2Id = askedTable.monPho2Id) ∧
    ((oneName ['a', nul]).Loaded ∧ (oneName ['a', nul]).CTypes ∧ (oneName ['a', nul]).Plain ∧
      ¬ ∃ t' : ZPhoTable, loadNewTable.run (oneName ['a', nul]).saveNewTable = some (t', []) ∧
        t'.monPhoLst = (oneName ['a', nul]).monPhoLst) := by
  have hasked := (loadNewTable_reads askedTable_cTypes (by decide)).whole
  have hcut := (loadNewTable_reads (oneName_cTypes ['a'] (by decide)) (by decide)).whole
  have hfile : (oneName ['a', nul]).saveNewTable = (oneName ['a']).saveNewTable := rfl
  refine ⟨⟨askedTable_loaded, askedTable_cTypes, askedTable_plain, ?_⟩,
    ⟨loaded_numbering, oneName_cTypes _ (by decide), plain_of_test (by decide) (by decide), ?_⟩⟩
  · rintro ⟨t', hload, hmap⟩
    obtain rfl := congrArg Prod.fst (Option.some.inj (hasked.symm.trans hload))
    exact absurd (congrFun hmap "x".toList) (by decide)
  · rintro ⟨t', hload, hlist⟩
    rw [hfile] at hload
    obtain rfl := congrArg Prod.fst (Option.some.inj (hcut.symm.trans hload))
    exact absurd hlist (by decide)

end ZPhoTable

end Vsys.Vt
