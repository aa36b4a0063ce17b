import Vsys.Felib.IniLoad

/-!
# Saving and loading

`iniparser_dump_ini` writes the sections and the values in them, and `iniparser_load` reads them
back, as long as the names and the values are plain: written without what the file gives a meaning
to.  A value outside every section is not written, which is why each key must have its section.
-/

namespace Vsys.Felib

open Vsys.Io Vsys.Stream Vsys.Trace

/-! ## Blanks at the ends -/

/-- No blank stands at either end. -/
structure Stripped (s : List Char) : Prop where
  first : s.dropWhile isspace = s
  last : s.rdropWhile isspace = s

theorem Stripped.strstrip_eq {s : List Char} (h : Stripped s) : strstrip s = s := by
  rw [strstrip, h.first, h.last]

theorem dropWhile_append_of_stripped {s t : List Char} (hs : s.dropWhile isspace = s)
    (hne : s ≠ []) : (s ++ t).dropWhile isspace = s ++ t := by
  rw [List.dropWhile_append, hs, if_neg]
  rw [List.isEmpty_iff]
  exact hne

theorem rdropWhile_append_of_stripped {s t : List Char} (ht : t.rdropWhile isspace = t)
    (hne : t ≠ []) : (s ++ t).rdropWhile isspace = s ++ t := by
  rw [List.rdropWhile_eq_self_iff] at ht ⊢
  intro hst
  rw [List.getLast_append_of_ne_nil hst hne]
  exact ht hne

theorem strstrip_append_blanks {s t : List Char} (hs : Stripped s)
    (ht : ∀ c ∈ t, isspace c = true) : strstrip (s ++ t) = s := by
  rw [← strstrip_rdropWhile, rdropWhile_of_blanks ht, hs.last, hs.strstrip_eq]

/-! ## The line of a section -/

/-- The name of a section that can be read back. -/
structure PlainSection (name : List Char) : Prop where
  stripped : Stripped name
  lower : strlwc name = name
  ne_nil : name ≠ []
  plain : ∀ c ∈ name, c ≠ ':' ∧ c ≠ ']' ∧ c ≠ '\n' ∧ c ≠ endOfString
  room : name.length + 3 < asciiLineSize

/-- `[name]`. -/
def sectionLine (name : List Char) : List Char := '[' :: name ++ [']']

theorem stripped_sectionLine (name : List Char) : Stripped (sectionLine name) where
  first := List.dropWhile_cons_of_neg (by decide)
  last := List.rdropWhile_concat_neg _ _ _ (by decide)

theorem iniparserLine_section {name : List Char} (h : PlainSection name) (current : List Char) :
    iniparserLine current (sectionLine name) = .section name := by
  have htail : (sectionLine name).tail.takeWhile (· ≠ ']') = name := by
    have hall : ∀ c ∈ name, decide (c ≠ ']') = true := fun c hc ↦
      decide_eq_true (h.plain c hc).2.1
    rw [sectionLine, List.cons_append, List.tail_cons, List.takeWhile_append_of_pos hall]
    exact List.append_nil name
  have hlast : (sectionLine name).getLast? = some ']' := List.getLast?_concat
  have hne : sectionLine name ≠ [] := List.cons_ne_nil _ _
  have hcomment : (sectionLine name).head? ≠ some '#' := by simp [sectionLine]
  rw [iniparserLine, (stripped_sectionLine name).strstrip_eq]
  simp only [htail]
  rw [if_neg hne, if_neg hcomment, if_pos ⟨rfl, hlast⟩,
    if_neg h.ne_nil, h.stripped.strstrip_eq, h.lower]

theorem fits_sectionLine {name : List Char} (h : PlainSection name) :
    (IniLine.mk [] (sectionLine name)).Fits where
  plain c hc := by
    rw [IniLine.chars_single] at hc
    rcases List.mem_append.mp hc with hc | hc
    · rcases List.mem_cons.mp hc with rfl | hc
      · decide
      · exact (h.plain c hc).2.2
    · rw [List.mem_singleton.mp hc]
      decide
  seen := .inr ⟨'[', List.mem_cons_self, rfl⟩
  ended := by
    rw [IniLine.chars_single, (stripped_sectionLine name).last,
      sectionLine, List.getLast?_concat]
    decide
  room := by
    have hroom := h.room
    rw [IniLine.chars_single, sectionLine, List.length_append,
      List.length_cons, List.length_singleton]
    exact ⟨(by decide : 2 < asciiLineSize), by omega⟩

/-! ## The line of a value -/

/-- A key that can be read back, without its section. -/
structure PlainKey (key : List Char) : Prop where
  stripped : Stripped key
  lower : strlwc key = key
  ne_nil : key ≠ []
  plain : ∀ c ∈ key, c ≠ '=' ∧ c ≠ '\n' ∧ c ≠ endOfString
  start : key.head? ≠ some '#' ∧ key.head? ≠ some '['

/-- A value that can be read back. -/
structure PlainValue (val : List Char) : Prop where
  stripped : Stripped val
  plain : ∀ c ∈ val, c ≠ ';' ∧ c ≠ '#' ∧ c ≠ '\n' ∧ c ≠ endOfString
  start : val.head? ≠ some '"' ∧ val.head? ≠ some '\''
  last : val.getLast? ≠ some '\\'

/-- The blanks between a key and the equals sign. -/
def padding (key : List Char) : List Char := List.replicate (30 - key.length) ' ' ++ [' ']

theorem isspace_of_mem_padding {key : List Char} : ∀ c ∈ padding key, isspace c = true := by
  intro c hc
  rcases List.mem_append.mp hc with hc | hc
  · rw [List.eq_of_mem_replicate hc]
    rfl
  · rw [List.mem_singleton.mp hc]
    rfl

theorem keyLine_eq (key val : List Char) :
    keyLine (leftAligned key) val = key ++ padding key ++ ('=' :: ' ' :: val) := by
  rw [keyLine, leftAligned, padding]
  simp only [List.append_assoc, List.cons_append, List.nil_append]
  rfl

section Value

variable {key val : List Char}

/-- What `iniparser_line` sees of the line: an empty value loses its blank. -/
theorem strstrip_keyLine (hk : PlainKey key) (hv : PlainValue val) :
    ∃ rest, strstrip (keyLine (leftAligned key) val) = key ++ padding key ++ '=' :: rest ∧
      rest.dropWhile isspace = val := by
  have hdrop (t : List Char) :
      (key ++ padding key ++ t).dropWhile isspace = key ++ padding key ++ t := by
    rw [List.append_assoc]
    exact dropWhile_append_of_stripped hk.stripped.first hk.ne_nil
  rw [keyLine_eq, strstrip, hdrop]
  by_cases hval : val = []
  · refine ⟨[], ?_, ?_⟩
    · rw [hval, List.append_cons]
      rw [List.rdropWhile_concat_pos _ _ _ (by decide),
        List.rdropWhile_concat_neg _ _ _ (by decide)]
    · rw [hval]
      rfl
  · refine ⟨' ' :: val, ?_, ?_⟩
    · have hsplit : key ++ padding key ++ ('=' :: ' ' :: val) =
          key ++ padding key ++ ['=', ' '] ++ val := by
        simp only [List.append_assoc, List.cons_append, List.nil_append]
      rw [hsplit, rdropWhile_append_of_stripped hv.stripped.last hval]
    · exact (List.dropWhile_cons_of_pos rfl).trans hv.stripped.first

variable {rest : List Char}

theorem scanKey_line (hk : PlainKey key) :
    scanKey (key ++ padding key ++ '=' :: rest) = some (key ++ padding key, '=' :: rest) := by
  have hall : ∀ c ∈ key ++ padding key, decide (c ≠ '=') = true := by
    intro c hc
    apply decide_eq_true
    rcases List.mem_append.mp hc with hc | hc
    · exact (hk.plain c hc).1
    · have hspace := isspace_of_mem_padding c hc
      rintro rfl
      exact absurd hspace (by decide)
  have htake : (key ++ padding key ++ '=' :: rest).takeWhile (· ≠ '=') = key ++ padding key := by
    rw [List.takeWhile_append_of_pos hall, List.takeWhile_cons_of_neg (by decide), List.append_nil]
  have hdrop : (key ++ padding key ++ '=' :: rest).dropWhile (· ≠ '=') = '=' :: rest := by
    rw [List.dropWhile_append_of_pos hall, List.dropWhile_cons_of_neg (by decide)]
  rw [scanKey]
  simp only [htake, hdrop]
  exact if_neg (List.append_ne_nil_of_left_ne_nil hk.ne_nil _)

theorem scanEquals_line : scanEquals ('=' :: rest) = some (rest.dropWhile isspace) := rfl

theorem scanQuoted_line (hk : PlainKey key) (hrest : rest.dropWhile isspace = val) {quote : Char}
    (hquote : val.head? ≠ some quote) :
    scanQuoted quote (key ++ padding key ++ '=' :: rest) = none := by
  rw [scanQuoted, scanKey_line hk]
  simp only [scanEquals_line, hrest]
  cases val with
  | nil => rfl
  | cons c val => exact if_neg fun h ↦ hquote (congrArg some h.1)

theorem scanPlain_line (hk : PlainKey key) (hv : PlainValue val)
    (hrest : rest.dropWhile isspace = val) :
    scanPlain (key ++ padding key ++ '=' :: rest) =
      if val = [] then none else some (key ++ padding key, val) := by
  have htake : (val.takeWhile fun c ↦ c ≠ ';' && c ≠ '#') = val := by
    rw [List.takeWhile_eq_self_iff]
    intro c hc
    simpa using And.intro (hv.plain c hc).1 (hv.plain c hc).2.1
  rw [scanPlain, scanKey_line hk]
  simp only [scanEquals_line, hrest, htake]
  exact ite_not ..

theorem scanBare_line (hk : PlainKey key) (hrest : rest.dropWhile isspace = []) :
    scanBare (key ++ padding key ++ '=' :: rest) = some (key ++ padding key) := by
  rw [scanBare, scanKey_line hk]
  simp only [scanEquals_line, hrest]
  rfl

theorem iniparserLine_value (hk : PlainKey key) (hv : PlainValue val) (current : List Char) :
    iniparserLine current (keyLine (leftAligned key) val) = .value key val := by
  obtain ⟨rest, hstrip, hrest⟩ := strstrip_keyLine hk hv
  have hkey : strlwc (strstrip (key ++ padding key)) = key := by
    rw [strstrip_append_blanks hk.stripped isspace_of_mem_padding, hk.lower]
  have hhead : (key ++ padding key ++ '=' :: rest).head? = key.head? := by
    obtain ⟨c, tail, rfl⟩ := List.exists_cons_of_ne_nil hk.ne_nil
    rfl
  have hne : key ++ padding key ++ '=' :: rest ≠ [] :=
    List.append_ne_nil_of_right_ne_nil _ (List.cons_ne_nil _ _)
  rw [iniparserLine, hstrip]
  simp only [scanQuoted_line hk hrest hv.start.1, scanQuoted_line hk hrest hv.start.2,
    scanPlain_line hk hv hrest, Option.none_or, hhead]
  rw [if_neg hne, if_neg hk.start.1, if_neg fun h ↦ hk.start.2 h.1]
  by_cases hval : val = []
  · rw [hval] at hrest ⊢
    simp only [if_true, scanBare_line hk hrest, hkey]
  · simp only [if_neg hval, hkey, hv.stripped.strstrip_eq]
    rw [if_neg]
    rintro (rfl | rfl)
    · exact hv.start.1 rfl
    · exact hv.start.2 rfl

theorem fits_keyLine (hk : PlainKey key) (hv : PlainValue val)
    (hroom : max key.length 30 + 3 + val.length + 1 < asciiLineSize) :
    (IniLine.mk [] (keyLine (leftAligned key) val)).Fits where
  plain c hc := by
    rw [IniLine.chars_single, keyLine_eq] at hc
    rcases List.mem_append.mp hc with hc | hc
    · rcases List.mem_append.mp hc with hc | hc
      · exact (hk.plain c hc).2
      · have hspace := List.mem_append.mp hc
        rcases hspace with hc | hc
        · rw [List.eq_of_mem_replicate hc]
          decide
        · rw [List.mem_singleton.mp hc]
          decide
    · rcases List.mem_cons.mp hc with rfl | hc
      · decide
      · rcases List.mem_cons.mp hc with rfl | hc
        · decide
        · exact (hv.plain c hc).2.2
  seen := by
    refine .inr ⟨'=', ?_, rfl⟩
    rw [IniLine.chars_single, keyLine_eq]
    exact List.mem_append_right _ List.mem_cons_self
  ended := by
    rw [IniLine.chars_single, keyLine_eq]
    by_cases hval : val = []
    · rw [hval, List.append_cons, List.rdropWhile_concat_pos _ _ _ (by decide),
        List.rdropWhile_concat_neg _ _ _ (by decide), List.getLast?_concat]
      decide
    · have hsplit : key ++ padding key ++ ('=' :: ' ' :: val) =
          key ++ padding key ++ ['=', ' '] ++ val := by
        simp only [List.append_assoc, List.cons_append, List.nil_append]
      rw [hsplit, rdropWhile_append_of_stripped hv.stripped.last hval,
        List.getLast?_append_of_ne_nil _ hval]
      exact hv.last
  room := by
    refine ⟨(by decide : 2 < asciiLineSize), ?_⟩
    rw [IniLine.chars_single, keyLine_eq, padding]
    simp only [List.length_append, List.length_replicate, List.length_cons, List.length_nil]
    omega

end Value

theorem fits_blank : (IniLine.mk [] []).Fits where
  plain c hc := absurd hc List.not_mem_nil
  seen := .inl rfl
  ended := by decide
  room := by decide

/-! ## The items of a dictionary -/

/-- The entry can be read back: it is a section, or a value in a section.  The key and its section
fit into the buffer where `iniparser_load` puts them together. -/
def PlainEntry (m : Entries) (key : List Char) (val : Option (List Char)) : Prop :=
  (PlainSection key ∧ val = none) ∨
    ∃ name k v, key = name ++ ':' :: k ∧ val = some v ∧ m name = some none ∧ PlainKey k ∧
      PlainValue v ∧ max k.length 30 + 3 + v.length + 1 < asciiLineSize ∧
      key.length ≤ asciiLineSize

/-- All entries can be read back. -/
def PlainEntries (m : Entries) : Prop := ∀ key val, m key = some val → PlainEntry m key val

section Items

variable {d : Dictionary} {m : Entries} {name : List Char}

theorem Dictionary.Holds.mem_items (h : d.Holds m) {key : List Char} {val : Option (List Char)} :
    (key, val) ∈ d.items ↔ m key = some val := by
  rw [← h.lookup_eq, slotsLookup_eq_some_iff h.nodup, Dictionary.items, List.mem_filterMap]
  constructor
  · rintro ⟨slot, hslot, hitem⟩
    rw [id_eq] at hitem
    exact hitem ▸ hslot
  · exact fun hslot ↦ ⟨_, hslot, rfl⟩

theorem PlainEntries.section (hm : PlainEntries m) (hname : m name = some none) :
    PlainSection name := by
  rcases hm name none hname with h | ⟨-, -, v, -, hv, -⟩
  · exact h.1
  · exact absurd hv (Option.some_ne_none v).symm

theorem Dictionary.Holds.mem_sections (h : d.Holds m) (hm : PlainEntries m) :
    name ∈ d.sections ↔ m name = some none := by
  rw [Dictionary.sections, List.mem_filter, List.mem_map, decide_eq_true_iff]
  constructor
  · rintro ⟨⟨⟨key, val⟩, hitem, rfl⟩, hcolon⟩
    have hval := h.mem_items.mp hitem
    rcases hm key val hval with ⟨-, rfl⟩ | ⟨name, k, v, rfl, -⟩
    · exact hval
    · exact absurd (List.mem_append_right name List.mem_cons_self) hcolon
  · intro hname
    refine ⟨⟨_, h.mem_items.mpr hname, rfl⟩, fun hcolon ↦ ?_⟩
    exact ((hm.section hname).plain _ hcolon).1 rfl

theorem takeWhile_colon {k : List Char} (h : ':' ∉ name) :
    (name ++ ':' :: k).takeWhile (· ≠ ':') = name := by
  have hall : ∀ c ∈ name, decide (c ≠ ':') = true := fun c hc ↦
    decide_eq_true fun heq ↦ h (heq ▸ hc)
  rw [List.takeWhile_append_of_pos hall, List.takeWhile_cons_of_neg (by decide), List.append_nil]

/-- What `strncmp` finds for a section are its values. -/
theorem Dictionary.Holds.mem_section_items (h : d.Holds m) (hm : PlainEntries m)
    (hname : m name = some none) {item : List Char × Option (List Char)}
    (hitem : item ∈ d.items.filter fun item ↦ (name ++ [':']).isPrefixOf item.1) :
    m item.1 = some item.2 ∧ ∃ k v, item = (name ++ ':' :: k, some v) ∧ PlainKey k ∧
      PlainValue v ∧ max k.length 30 + 3 + v.length + 1 < asciiLineSize := by
  obtain ⟨hmem, hprefix⟩ := List.mem_filter.mp hitem
  obtain ⟨key, val⟩ := item
  have hval := h.mem_items.mp hmem
  obtain ⟨rest, rfl⟩ := List.isPrefixOf_iff_prefix.mp hprefix
  have hkey : name ++ [':'] ++ rest = name ++ ':' :: rest := by
    rw [List.append_assoc]
    rfl
  have hcolon : ':' ∉ name := fun hmem ↦ ((hm.section hname).plain _ hmem).1 rfl
  refine ⟨hval, ?_⟩
  rw [hkey] at hval ⊢
  rcases hm _ val hval with ⟨hsection, -⟩ | ⟨other, k, v, heq, rfl, hother, hk, hv, hroom, -⟩
  · exact absurd rfl (hsection.plain ':' (List.mem_append_right name List.mem_cons_self)).1
  · have hothercolon : ':' ∉ other := fun hmem ↦ ((hm.section hother).plain _ hmem).1 rfl
    have hsame : name = other := by
      rw [← takeWhile_colon (k := rest) hcolon, heq, takeWhile_colon hothercolon]
    exact ⟨k, v, by rw [heq, hsame], hk, hv, hroom⟩

end Items

/-! ## What the written lines describe -/

/-- Of the map, these keys have been read. -/
structure Written (m : Entries) (keys : List (List Char)) (x : Described) : Prop where
  good : x.bad = false
  entries_eq : ∀ key, x.entries key = if key ∈ keys then m key else none

section Written

variable {m : Entries} {keys : List (List Char)} {x y : Described} {key name val : List Char}

theorem written_nothing : Written m [] .nothing where
  good := rfl
  entries_eq _ := (if_neg List.not_mem_nil).symm

theorem Written.write (h : Written m keys x) (hgood : y.bad = false)
    (hentries : y.entries = Function.update x.entries key (m key)) :
    Written m (keys ++ [key]) y := by
  refine ⟨hgood, fun k ↦ ?_⟩
  rw [hentries, Function.update_apply, h.entries_eq]
  by_cases hk : k = key
  · rw [hk, if_pos rfl, if_pos (List.mem_append_right _ (List.mem_singleton_self key))]
  · have hiff : k ∈ keys ++ [key] ↔ k ∈ keys := by simp [hk]
    rw [if_neg hk]
    simp only [hiff]

theorem Described.read_blank (x : Described) : x.read [] = x := by
  rw [Described.read]
  rfl

theorem Written.section (h : Written m keys x) (hname : PlainSection name)
    (hm : m name = some none) :
    Written m (keys ++ [name]) (x.read (sectionLine name)) ∧
      (x.read (sectionLine name)).current = name := by
  rw [Described.read, iniparserLine_section hname]
  refine ⟨h.write rfl ?_, rfl⟩
  rw [hm]

theorem Written.value (h : Written m keys x) (hname : x.current = name) (hk : PlainKey key)
    (hv : PlainValue val) (hm : m (name ++ ':' :: key) = some (some val)) :
    Written m (keys ++ [name ++ ':' :: key]) (x.read (keyLine (leftAligned key) val)) ∧
      (x.read (keyLine (leftAligned key) val)).current = name := by
  rw [Described.read, iniparserLine_value hk hv]
  refine ⟨h.write rfl ?_, hname⟩
  rw [hm, hname]

end Written

/-- The line of an item in its section. -/
def itemLine (name : List Char) (item : List Char × Option (List Char)) : List Char :=
  keyLine (leftAligned (item.1.drop (name.length + 1))) (item.2.getD [])

theorem itemLine_eq (name k v : List Char) :
    itemLine name (name ++ ':' :: k, some v) = keyLine (leftAligned k) v := by
  have hdrop : (name ++ ':' :: k).drop (name.length + 1) = k := by
    rw [List.drop_append, List.drop_of_length_le (Nat.le_succ _), Nat.add_sub_cancel_left]
    rfl
  rw [itemLine, hdrop]
  rfl

/-- The items of a section. -/
def Dictionary.sectionItems (d : Dictionary) (name : List Char) :
    List (List Char × Option (List Char)) :=
  d.items.filter fun item ↦ (name ++ [':']).isPrefixOf item.1

theorem sectionLines_eq (d : Dictionary) (name : List Char) :
    sectionLines d name = [] :: sectionLine name :: (d.sectionItems name).map (itemLine name) := rfl

section Written

variable {d : Dictionary} {m : Entries} {keys : List (List Char)} {x : Described}
  {name : List Char}

theorem Written.items (h : Written m keys x) (hname : x.current = name)
    (items : List (List Char × Option (List Char)))
    (hitems : ∀ item ∈ items, m item.1 = some item.2 ∧
      ∃ k v, item = (name ++ ':' :: k, some v) ∧ PlainKey k ∧ PlainValue v ∧
        max k.length 30 + 3 + v.length + 1 < asciiLineSize) :
    Written m (keys ++ items.map Prod.fst)
      (run Described.read x (items.map (itemLine name))) := by
  induction items generalizing keys x with
  | nil =>
      rw [List.map_nil, List.append_nil]
      exact h
  | cons item items ih =>
      obtain ⟨⟨hm, k, v, rfl, hk, hv, -⟩, hlater⟩ := List.forall_mem_cons.mp hitems
      obtain ⟨hwritten, hcurrent⟩ := h.value hname hk hv hm
      rw [List.map_cons, List.map_cons, run_cons, itemLine_eq, List.append_cons]
      exact ih hwritten hcurrent hlater

/-- The keys that stand in the lines of a section. -/
def Dictionary.sectionKeys (d : Dictionary) (name : List Char) : List (List Char) :=
  name :: (d.sectionItems name).map Prod.fst

theorem Written.sectionLines (h : Written m keys x) (hd : d.Holds m) (hm : PlainEntries m)
    (hname : m name = some none) :
    Written m (keys ++ d.sectionKeys name) (run Described.read x (sectionLines d name)) := by
  obtain ⟨hwritten, hcurrent⟩ := h.section (hm.section hname) hname
  rw [sectionLines_eq, run_cons, run_cons, Described.read_blank, Dictionary.sectionKeys,
    List.append_cons]
  exact hwritten.items hcurrent _ fun item hitem ↦ hd.mem_section_items hm hname hitem

theorem Written.sections (h : Written m keys x) (hd : d.Holds m) (hm : PlainEntries m)
    (names : List (List Char)) (hnames : ∀ name ∈ names, m name = some none) :
    Written m (keys ++ names.flatMap d.sectionKeys)
      (run Described.read x (names.flatMap (Felib.sectionLines d))) := by
  induction names generalizing keys x with
  | nil =>
      rw [List.flatMap_nil, List.append_nil]
      exact h
  | cons name names ih =>
      obtain ⟨hname, hnames⟩ := List.forall_mem_cons.mp hnames
      rw [List.flatMap_cons, List.flatMap_cons, run_append, ← List.append_assoc]
      exact ih (h.sectionLines hd hm hname) hnames

end Written

/-! ## The round trip -/

/-- A loop over the indices of a list goes through the list. -/
theorem flatMap_range_eq {α β : Type*} (l : List α) (f : α → List β) (g : ℕ → List β)
    (h : ∀ i a, l[i]? = some a → g i = f a) : (List.range l.length).flatMap g = l.flatMap f := by
  rw [List.flatMap_def, List.flatMap_def]
  apply congrArg List.flatten
  apply List.ext_getElem
  · rw [List.length_map, List.length_map, List.length_range]
  · intro i hi hi'
    rw [List.getElem_map, List.getElem_map, List.getElem_range]
    exact h i _ (List.getElem?_eq_getElem _)

section RoundTrip

variable {d : Dictionary} {m : Entries}

/-- Without a section there is nothing. -/
theorem Dictionary.Holds.items_eq_nil (h : d.Holds m) (hm : PlainEntries m)
    (hnone : d.sections = []) : d.items = [] := by
  rw [List.eq_nil_iff_forall_not_mem]
  rintro ⟨key, val⟩ hitem
  have hval := h.mem_items.mp hitem
  have hno (name : List Char) : m name ≠ some none := fun hname ↦ by
    have hmem := (h.mem_sections hm).mpr hname
    rw [hnone] at hmem
    exact absurd hmem List.not_mem_nil
  rcases hm key val hval with ⟨-, rfl⟩ | ⟨name, -, -, -, -, hname, -⟩
  · exact hno key hval
  · exact hno name hname

theorem dumpLines_eq (h : d.Holds m) (hm : PlainEntries m) :
    dumpLines d = d.sections.flatMap (sectionLines d) ++ if d.sections = [] then [] else [[]] := by
  rw [dumpLines, iniparserGetnsec]
  by_cases hnone : d.sections = []
  · rw [hnone, if_pos (by decide), if_pos rfl, h.items_eq_nil hm hnone]
    rfl
  · have hpos := List.length_pos_of_ne_nil hnone
    rw [if_neg (Nat.not_lt.mpr hpos), if_neg hnone]
    apply congrArg (· ++ [[]])
    refine flatMap_range_eq d.sections (sectionLines d) _ fun i name hname ↦ ?_
    rw [iniparserGetsecname, hname]

theorem fits_dumpLines (h : d.Holds m) (hm : PlainEntries m) :
    ∀ l ∈ (dumpLines d).map (IniLine.mk []), l.Fits := by
  intro l hl
  obtain ⟨line, hline, rfl⟩ := List.mem_map.mp hl
  rw [dumpLines_eq h hm] at hline
  rcases List.mem_append.mp hline with hline | hline
  · obtain ⟨name, hname, hline⟩ := List.mem_flatMap.mp hline
    have hname := (h.mem_sections hm).mp hname
    rw [sectionLines_eq] at hline
    rcases List.mem_cons.mp hline with rfl | hline
    · exact fits_blank
    · rcases List.mem_cons.mp hline with rfl | hline
      · exact fits_sectionLine (hm.section hname)
      · obtain ⟨item, hitem, rfl⟩ := List.mem_map.mp hline
        obtain ⟨-, k, v, rfl, hk, hv, hroom⟩ := h.mem_section_items hm hname hitem
        rw [itemLine_eq]
        exact fits_keyLine hk hv hroom
  · split_ifs at hline
    · exact absurd hline List.not_mem_nil
    · rw [List.mem_singleton.mp hline]
      exact fits_blank

theorem iniparserDumpIni_eq (d : Dictionary) :
    iniparserDumpIni d = ((dumpLines d).map (IniLine.mk [])).flatMap IniLine.text := by
  rw [List.flatMap_map]
  rfl

/-- Every key stands in the lines of some section. -/
theorem Dictionary.Holds.mem_sectionKeys (h : d.Holds m) (hm : PlainEntries m) {key : List Char}
    {val : Option (List Char)} (hval : m key = some val) :
    key ∈ d.sections.flatMap d.sectionKeys := by
  rw [List.mem_flatMap]
  rcases hm key val hval with ⟨-, rfl⟩ | ⟨name, k, v, rfl, rfl, hname, -⟩
  · exact ⟨key, (h.mem_sections hm).mpr hval, List.mem_cons_self⟩
  · refine ⟨name, (h.mem_sections hm).mpr hname, List.mem_cons_of_mem _ ?_⟩
    have hitem : (name ++ ':' :: k, some v) ∈ d.sectionItems name := by
      refine List.mem_filter.mpr ⟨h.mem_items.mpr hval, List.isPrefixOf_iff_prefix.mpr ⟨k, ?_⟩⟩
      rw [List.append_assoc]
      rfl
    exact List.mem_map_of_mem hitem

theorem described_dumpLines (h : d.Holds m) (hm : PlainEntries m) :
    (described ((dumpLines d).map (IniLine.mk []))).bad = false ∧
      (described ((dumpLines d).map (IniLine.mk []))).entries = m := by
  have hrun : described ((dumpLines d).map (IniLine.mk [])) =
      run Described.read .nothing (d.sections.flatMap (sectionLines d)) := by
    rw [described, run, List.foldl_map, dumpLines_eq h hm, List.foldl_append]
    split_ifs
    · rfl
    · exact Described.read_blank _
  have hwritten := written_nothing.sections h hm d.sections fun name hname ↦
    (h.mem_sections hm).mp hname
  rw [List.nil_append] at hwritten
  rw [hrun]
  refine ⟨hwritten.good, funext fun key ↦ ?_⟩
  rw [hwritten.entries_eq]
  cases hkey : m key with
  | none => exact ite_self none
  | some val => exact if_pos (h.mem_sectionKeys hm hkey)

/-- Saving and loading keeps the map. -/
theorem Dictionary.Holds.reload (h : d.Holds m) (hm : PlainEntries m) :
    ∃ d', iniparserLoad (iniparserDumpIni d) = some d' ∧ d'.Holds m := by
  obtain ⟨hgood, hentries⟩ := described_dumpLines h hm
  obtain ⟨d', hload, hholds⟩ := iniparserLoad_of_good (fits_dumpLines h hm) hgood
  rw [hentries] at hholds
  exact ⟨d', by rw [iniparserDumpIni_eq, hload], hholds⟩

end RoundTrip

/-- **Saving and loading.** After any calls that leave plain entries, the file that is written reads
back as a dictionary with the same keys and values. -/
theorem iniparserLoad_dumpIni (size : ℕ) (ops : List DictOp)
    (hm : PlainEntries (run DictOp.meaning (fun _ ↦ none) ops)) :
    ∃ d', iniparserLoad (iniparserDumpIni (run DictOp.apply (.new size) ops)) = some d' ∧
      (∀ key, d'.find key = (run DictOp.apply (.new size) ops).find key) ∧
      d'.n = (run DictOp.apply (.new size) ops).n := by
  have hholds := Dictionary.holds_run size ops
  obtain ⟨d', hload, hholds'⟩ := hholds.reload hm
  refine ⟨d', hload, fun key ↦ ?_, hholds'.n_unique hholds⟩
  rw [hholds'.find_eq, hholds.find_eq]

/-- A section, and a value that is set twice. -/
def hostOps : List DictOp :=
  [.set "net".toList none, .set "net:host".toList (some []),
    .set "net:host".toList (some "lab 1".toList)]

theorem plainEntries_host : PlainEntries (run DictOp.meaning (fun _ ↦ none) hostOps) := by
  intro key val h
  simp only [hostOps, run_cons, run_nil, DictOp.meaning, Function.update_apply] at h
  split_ifs at h with hhost hnet
  · obtain rfl := Option.some.inj h
    refine .inr ⟨"net".toList, "host".toList, "lab 1".toList, hhost, rfl, by decide, ?_, ?_,
      by decide, by rw [hhost]; decide⟩
    · exact ⟨⟨rfl, rfl⟩, rfl, by decide, forall_mem_of_all rfl, by decide⟩
    · exact ⟨⟨rfl, rfl⟩, forall_mem_of_all rfl, by decide, by decide⟩
  · rw [hnet]
    refine .inl ⟨⟨⟨rfl, rfl⟩, rfl, by decide, forall_mem_of_all rfl, by decide⟩, ?_⟩
    exact (Option.some.inj h).symm

theorem iniparserLoad_dumpIni_host :
    ∃ d', iniparserLoad (iniparserDumpIni (run DictOp.apply (.new 0) hostOps)) = some d' ∧
      (∀ key, d'.find key = (run DictOp.apply (.new 0) hostOps).find key) ∧
      d'.n = (run DictOp.apply (.new 0) hostOps).n :=
  iniparserLoad_dumpIni 0 hostOps plainEntries_host

end Vsys.Felib
