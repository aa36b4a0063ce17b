import Mathlib.Data.List.Basic
import Mathlib.Data.List.Lemmas
import Vsys.Activation.WordManager

/-!
# Pinyin and phonemes

`Phoneme` reads its table from a text with a line for each syllable: the syllable, and the phones it
is made of.  `pinyin2phoneme` cuts a string into syllables, each of which ends with a digit, and
looks them up.

`Spells` is the relation that the scanner is for.  What the scanner takes is a little more: letters
after the last syllable are left out in silence, and a string without any syllable is taken to spell
nothing.  `pinyin2phoneme_spells_iff` finds the strings on which this makes no difference.
-/

namespace Vsys.Activation

/-! ## The phoneme table -/

/-- `Phoneme`: the entries of `phoneme_maps`, in the order of their insertion. -/
structure Phoneme where
  phonemeMaps : List (List Char × List Char)

/-- The loop of `load_phoneme` over a line.  `seen` is the line up to `right`, and `field` what is
between `left` and `right`; a phone with a position mark stands there with its bare name before. -/
structure LineScan where
  isHead : Bool
  hasHead : Bool
  head : List Char
  content : List Char
  seen : List Char
  field : List Char

namespace LineScan

/-- Before the first character. -/
def start : LineScan where
  isHead := false
  hasHead := false
  head := []
  content := []
  seen := []
  field := []

/-- One character of a line. -/
def step (s : LineScan) (c : Char) : LineScan :=
  if c = ' ' then
    { isHead := true
      hasHead := false
      head := if s.isHead then s.head else s.seen
      content :=
        if s.isHead then s.content ++ s.field ++ (if s.hasHead then "|# ".toList else " ".toList)
        else s.content
      seen := s.seen ++ [c]
      field := [] }
  else if c = '_' then
    { s with
      hasHead := true
      content := s.content ++ s.field ++ "|".toList
      seen := s.seen ++ [c]
      field := s.field ++ [c] }
  else
    { s with
      seen := s.seen ++ [c]
      field := s.field ++ [c] }

/-- The end of a line: the syllable and its phones. -/
def finish (s : LineScan) : List Char × List Char :=
  (s.head, s.content ++ s.field ++ "|##".toList)

end LineScan

namespace Phoneme

/-- The entry of a line. -/
def loadLine (line : List Char) : List Char × List Char :=
  (line.foldl LineScan.step LineScan.start).finish

/-- `read_line`, called until it fails: the lines that end with a line feed. -/
def readLines (line : List Char) : List Char → List (List Char)
  | [] => []
  | c :: phones => if c = '\n' then line :: readLines [] phones else readLines (line ++ [c]) phones

/-- `load_phoneme`. -/
def load (phones : List Char) : Phoneme where
  phonemeMaps := (readLines [] phones).map loadLine

/-- `find_phoneme`.  An entry that is there is not inserted again, so that the first one counts. -/
def findPhoneme (p : Phoneme) (head : List Char) : List Char :=
  (p.phonemeMaps.lookup head).getD []

/-- The syllable has an entry. -/
def IsKey (p : Phoneme) (head : List Char) : Prop :=
  head ∈ p.phonemeMaps.map Prod.fst

/-- No entry of a loaded table is empty, so that `find_phoneme` answers with the empty string exactly
for the strings that are no key. -/
theorem findPhoneme_ne_nil_iff (phones head : List Char) :
    (load phones).findPhoneme head ≠ [] ↔ (load phones).IsKey head := by
  have hcontent : ∀ entry ∈ (load phones).phonemeMaps, entry.2 ≠ [] := by
    intro entry hentry
    obtain ⟨line, -, rfl⟩ := List.mem_map.mp hentry
    simp [loadLine, LineScan.finish]
  unfold findPhoneme IsKey
  cases hlookup : (load phones).phonemeMaps.lookup head with
  | none =>
      refine iff_of_false (by simp) fun hkey ↦ ?_
      obtain ⟨entry, hentry, rfl⟩ := List.mem_map.mp hkey
      have hne := List.lookup_eq_none_iff.mp hlookup entry hentry
      simp at hne
  | some content =>
      obtain ⟨before, after, hmaps, -⟩ := List.lookup_eq_some_iff.mp hlookup
      have hmem : (head, content) ∈ (load phones).phonemeMaps := by simp [hmaps]
      exact iff_of_true (hcontent _ hmem) (List.mem_map_of_mem hmem)

end Phoneme

/-! ## Syllables -/

/-- A run of letters and one digit. -/
def IsSyllable (s : List Char) : Prop :=
  ∃ letters digit, s = letters ++ [digit] ∧ (∀ c ∈ letters, c.isAlpha = true) ∧ digit.isDigit = true

theorem isDigit_eq_false_of_isAlpha {c : Char} (h : c.isAlpha = true) : c.isDigit = false := by
  have hletter : 65 ≤ c.val.toNat := by
    have hcase : c.isUpper = true ∨ c.isLower = true := Bool.or_eq_true_iff.mp h
    obtain hupper | hlower := hcase
    · have hrange : 'A'.val ≤ c.val ∧ c.val ≤ 'Z'.val := of_decide_eq_true hupper
      exact UInt32.le_iff_toNat_le.mp hrange.1
    · have hrange : decide ('a'.val ≤ c.val) = true ∧ decide (c.val ≤ 'z'.val) = true :=
        Bool.and_eq_true_iff.mp hlower
      exact (Nat.le_add_right 65 32).trans
        (UInt32.le_iff_toNat_le.mp (of_decide_eq_true hrange.1))
  by_contra hdigit
  have hrange : decide ('0'.val ≤ c.val) = true ∧ decide (c.val ≤ '9'.val) = true :=
    Bool.and_eq_true_iff.mp (Bool.not_eq_false _ ▸ hdigit)
  have h9 : c.val.toNat ≤ 57 := UInt32.le_iff_toNat_le.mp (of_decide_eq_true hrange.2)
  omega

/-- A syllable is not a run of letters. -/
theorem IsSyllable.exists_not_isAlpha {s : List Char} (h : IsSyllable s) :
    ∃ c ∈ s, ¬ c.isAlpha = true := by
  obtain ⟨letters, digit, rfl, -, hdigit⟩ := h
  refine ⟨digit, by simp, fun halpha ↦ ?_⟩
  rw [isDigit_eq_false_of_isAlpha halpha] at hdigit
  exact nomatch hdigit

theorem IsSyllable.isAlphanum {s : List Char} (h : IsSyllable s) : ∀ c ∈ s, c.isAlphanum = true := by
  obtain ⟨letters, digit, rfl, hletters, hdigit⟩ := h
  refine List.forall_mem_append.mpr ⟨fun c hc ↦ ?_, ?_⟩
  · simp [Char.isAlphanum, hletters c hc]
  · simp [Char.isAlphanum, hdigit]

/-- The first syllable of a string can be cut off in one way only. -/
theorem syllable_append_inj {s t rest more : List Char} (hs : IsSyllable s) (ht : IsSyllable t)
    (h : s ++ rest = t ++ more) : s = t ∧ rest = more := by
  obtain ⟨letters, digit, rfl, hletters, hdigit⟩ := hs
  obtain ⟨letters', digit', rfl, hletters', hdigit'⟩ := ht
  have hstop {d : Char} (hd : d.isDigit = true) : ¬ d.isAlpha = true := fun halpha ↦ by
    rw [isDigit_eq_false_of_isAlpha halpha] at hd
    exact nomatch hd
  have htake {l : List Char} {d : Char} (hl : ∀ c ∈ l, c.isAlpha = true) (hd : d.isDigit = true)
      (rest : List Char) : (l ++ [d] ++ rest).takeWhile Char.isAlpha = l := by
    rw [List.append_assoc, List.singleton_append, List.takeWhile_append_of_pos hl,
      List.takeWhile_cons_of_neg (hstop hd), List.append_nil]
  have hsame : letters = letters' := by
    rw [← htake hletters hdigit rest, h, htake hletters' hdigit' more]
  subst hsame
  rw [List.append_assoc, List.append_assoc, List.append_cancel_left_eq, List.singleton_append,
    List.singleton_append, List.cons.injEq] at h
  exact ⟨by rw [h.1], h.2⟩

/-- A string that begins with a syllable has it as the first of its row. -/
theorem row_of_syllable_append {s rest trailing : List Char} {syllables : List (List Char)}
    (hs : IsSyllable s) (hsyllables : ∀ t ∈ syllables, IsSyllable t)
    (htrailing : ∀ c ∈ trailing, c.isAlpha = true)
    (h : s ++ rest = syllables.flatten ++ trailing) :
    ∃ later, syllables = s :: later ∧ rest = later.flatten ++ trailing := by
  cases syllables with
  | nil =>
      obtain ⟨c, hc, hnot⟩ := hs.exists_not_isAlpha
      have hmem : c ∈ s ++ rest := List.mem_append_left rest hc
      rw [h, List.flatten_nil, List.nil_append] at hmem
      exact absurd (htrailing c hmem) hnot
  | cons t later =>
      rw [List.flatten_cons, List.append_assoc] at h
      obtain ⟨rfl, hrest⟩ := syllable_append_inj hs (hsyllables t List.mem_cons_self) h
      exact ⟨later, rfl, hrest⟩

/-- A string of letters and digits is a row of syllables and the letters that are left over. -/
theorem exists_syllables {pinyin : List Char} (h : ∀ c ∈ pinyin, c.isAlphanum = true) :
    ∃ (syllables : List (List Char)) (trailing : List Char), pinyin = syllables.flatten ++ trailing ∧
      (∀ s ∈ syllables, IsSyllable s) ∧ ∀ c ∈ trailing, c.isAlpha = true := by
  induction pinyin with
  | nil => exact ⟨[], [], rfl, by simp, by simp⟩
  | cons c pinyin ih =>
      rw [List.forall_mem_cons] at h
      obtain ⟨syllables, trailing, rfl, hsyllables, htrailing⟩ := ih h.2
      have hc : c.isAlpha = true ∨ c.isDigit = true := by simpa [Char.isAlphanum] using h.1
      obtain hletter | hdigit := hc
      · cases syllables with
        | nil => exact ⟨[], c :: trailing, rfl, by simp, List.forall_mem_cons.mpr ⟨hletter, htrailing⟩⟩
        | cons s syllables =>
            rw [List.forall_mem_cons] at hsyllables
            obtain ⟨letters, digit, rfl, hletters, hdigit⟩ := hsyllables.1
            refine ⟨(c :: letters ++ [digit]) :: syllables, trailing, by simp, ?_, htrailing⟩
            refine List.forall_mem_cons.mpr ⟨⟨c :: letters, digit, rfl, ?_, hdigit⟩, hsyllables.2⟩
            exact List.forall_mem_cons.mpr ⟨hletter, hletters⟩
      · refine ⟨[c] :: syllables, trailing, by simp, ?_, htrailing⟩
        exact List.forall_mem_cons.mpr ⟨⟨[], c, rfl, by simp, hdigit⟩, hsyllables⟩

/-! ## What the scanner takes -/

section Scanner

variable (p : Phoneme)

/-- The syllables are all in the table. -/
def AllKeys (syllables : List (List Char)) : Prop :=
  ∀ s ∈ syllables, IsSyllable s ∧ p.IsKey s

/-- A string spells phonemes: it is a row of one or more syllables of the table, and theirs are the
phonemes, with single spaces between. -/
def Spells (pinyin phone : List Char) : Prop :=
  ∃ syllables, syllables ≠ [] ∧ AllKeys p syllables ∧ pinyin = syllables.flatten ∧
    phone = [' '].intercalate (syllables.map p.findPhoneme)

/-- The string has a last character, and it is a digit. -/
def EndsInDigit (pinyin : List Char) : Prop :=
  ∃ c ∈ pinyin.getLast?, c.isDigit = true

/-- After a number of syllables of the table comes one that is not there. -/
def HasUnknownSyllable (pinyin : List Char) : Prop :=
  ∃ known s rest, pinyin = known.flatten ++ (s ++ rest) ∧ AllKeys p known ∧ IsSyllable s ∧
    ¬ p.IsKey s

end Scanner

theorem isAlphanum_of_mem_row {p : Phoneme} {syllables : List (List Char)} {trailing : List Char}
    (hkeys : AllKeys p syllables) (htrailing : ∀ c ∈ trailing, c.isAlpha = true) {c : Char}
    (hc : c ∈ syllables.flatten ++ trailing) : c.isAlphanum = true := by
  obtain hrow | hleft := List.mem_append.mp hc
  · obtain ⟨s, hs, hmem⟩ := List.mem_flatten.mp hrow
    exact (hkeys s hs).1.isAlphanum c hmem
  · simp [Char.isAlphanum, htrailing c hleft]

/-- The phonemes of the syllables to come, each after a space unless it is the first of all. -/
def joined (isFirst : Bool) : List (List Char) → List Char
  | [] => []
  | phone :: phones => (if isFirst then [] else [' ']) ++ phone ++ joined false phones

theorem joined_true (phones : List (List Char)) : joined true phones = [' '].intercalate phones := by
  have hlater (phone : List Char) (phones : List (List Char)) :
      phone ++ joined false phones = [' '].intercalate (phone :: phones) := by
    induction phones generalizing phone with
    | nil => simp [joined]
    | cons next phones ih =>
        rw [List.intercalate_cons_cons, ← ih next]
        simp [joined]
  cases phones with
  | nil => rfl
  | cons phone phones => exact hlater phone phones

variable {phones : List Char}

/-- The text is a row of syllables of the table with letters after it, and `out` is `result` with the
phonemes of the row at its end. -/
def IsScan (p : Phoneme) (isFirst : Bool) (result text out : List Char) : Prop :=
  ∃ syllables trailing, text = syllables.flatten ++ trailing ∧ AllKeys p syllables ∧
    (∀ c ∈ trailing, c.isAlpha = true) ∧
    out = result ++ joined isFirst (syllables.map p.findPhoneme)

section IsScan

variable {p : Phoneme} {isFirst : Bool} {result text out s rest : List Char}

/-- Letters alone are left out. -/
theorem isScan_letters (h : ∀ c ∈ text, c.isAlpha = true) :
    IsScan p isFirst result text out ↔ out = result := by
  constructor
  · rintro ⟨syllables, trailing, rfl, hkeys, -, rfl⟩
    cases syllables with
    | nil => exact List.append_nil _
    | cons s syllables =>
        obtain ⟨c, hc, hnot⟩ := (hkeys s List.mem_cons_self).1.exists_not_isAlpha
        exact absurd (h c (by simp [hc])) hnot
  · rintro rfl
    exact ⟨[], text, rfl, fun _ h ↦ (nomatch h), h, (List.append_nil _).symm⟩

/-- A syllable of the table comes first. -/
theorem isScan_cons (hs : IsSyllable s) (hkey : p.IsKey s) :
    IsScan p isFirst result (s ++ rest) out ↔
      IsScan p false (result ++ ((if isFirst then [] else [' ']) ++ p.findPhoneme s)) rest out := by
  constructor
  · rintro ⟨syllables, trailing, heq, hkeys, htrailing, rfl⟩
    obtain ⟨later, rfl, hrest⟩ := row_of_syllable_append hs (fun t ht ↦ (hkeys t ht).1) htrailing heq
    refine ⟨later, trailing, hrest, (List.forall_mem_cons.mp hkeys).2, htrailing, ?_⟩
    simp [joined]
  · rintro ⟨syllables, trailing, rfl, hkeys, htrailing, rfl⟩
    refine ⟨s :: syllables, trailing, by simp, ?_, htrailing, by simp [joined]⟩
    exact List.forall_mem_cons.mpr ⟨⟨hs, hkey⟩, hkeys⟩

/-- No row begins with a syllable that is not in the table. -/
theorem not_isScan_of_not_isKey (hs : IsSyllable s) (hkey : ¬ p.IsKey s) :
    ¬ IsScan p isFirst result (s ++ rest) out := by
  rintro ⟨syllables, trailing, heq, hkeys, htrailing, -⟩
  obtain ⟨later, rfl, -⟩ := row_of_syllable_append hs (fun t ht ↦ (hkeys t ht).1) htrailing heq
  exact hkey (hkeys s List.mem_cons_self).2

/-- No other character stands in a row. -/
theorem not_isScan_of_not_isAlphanum {c : Char} (hc : c ∈ text) (hnot : ¬ c.isAlphanum = true) :
    ¬ IsScan p isFirst result text out := by
  rintro ⟨syllables, trailing, rfl, hkeys, htrailing, -⟩
  exact hnot (isAlphanum_of_mem_row hkeys htrailing hc)

end IsScan

/-- The scanner takes a row of syllables of the table with letters after it. -/
theorem pinyinLoop_eq_some_iff {target : List Char} (htarget : ∀ c ∈ target, c.isAlpha = true)
    (isFirst : Bool) (result pinyin out : List Char) :
    VtWordManager.pinyinLoop (Phoneme.load phones).findPhoneme target isFirst result pinyin =
        some out ↔ IsScan (Phoneme.load phones) isFirst result (target ++ pinyin) out := by
  induction pinyin generalizing target isFirst result with
  | nil =>
      rw [VtWordManager.pinyinLoop, Option.some_inj, List.append_nil, isScan_letters htarget]
      exact eq_comm
  | cons c pinyin ih =>
      have hrow : target ++ c :: pinyin = (target ++ [c]) ++ pinyin := by simp
      rw [VtWordManager.pinyinLoop]
      by_cases halnum : c.isAlphanum = true
      · rw [if_neg (by simp [halnum]), hrow]
        by_cases hdigit : c.isDigit = true
        · have hsyllable : IsSyllable (target ++ [c]) := ⟨target, c, rfl, htarget, hdigit⟩
          rw [if_pos hdigit]
          dsimp only
          by_cases hkey : (Phoneme.load phones).IsKey (target ++ [c])
          · have hfound := (Phoneme.findPhoneme_ne_nil_iff ..).mpr hkey
            rw [if_neg (by simpa using hfound), ih (List.forall_mem_nil _), isScan_cons hsyllable hkey]
            simp
          · have hempty := not_not.mp (mt (Phoneme.findPhoneme_ne_nil_iff ..).mp hkey)
            rw [if_pos (List.isEmpty_iff.mpr hempty)]
            exact iff_of_false (fun h ↦ nomatch h) (not_isScan_of_not_isKey hsyllable hkey)
        · have hletter : c.isAlpha = true := by simpa [Char.isAlphanum, hdigit] using halnum
          rw [if_neg hdigit]
          exact ih (List.forall_mem_append.mpr ⟨htarget, by simpa using hletter⟩) isFirst result
      · rw [if_pos (by simpa using halnum)]
        have hmem : c ∈ target ++ c :: pinyin := List.mem_append_right _ List.mem_cons_self
        exact iff_of_false (fun h ↦ nomatch h) (not_isScan_of_not_isAlphanum hmem halnum)

/-- What `pinyin2phoneme` takes, and what it makes of it. -/
theorem pinyin2phoneme_eq_some_iff {pinyin out : List Char} :
    VtWordManager.pinyin2phoneme (Phoneme.load phones).findPhoneme .dnn pinyin = some out ↔
      ∃ syllables trailing, pinyin = syllables.flatten ++ trailing ∧
        AllKeys (Phoneme.load phones) syllables ∧ (∀ c ∈ trailing, c.isAlpha = true) ∧
        out = [' '].intercalate (syllables.map (Phoneme.load phones).findPhoneme) := by
  rw [VtWordManager.pinyin2phoneme, pinyinLoop_eq_some_iff (List.forall_mem_nil _)]
  simp only [IsScan, joined_true, List.nil_append]

/-- A row of syllables without letters after it ends in a digit. -/
theorem endsInDigit_flatten {syllables : List (List Char)} (hne : syllables ≠ [])
    (hsyllables : ∀ s ∈ syllables, IsSyllable s) : EndsInDigit syllables.flatten := by
  obtain ⟨earlier, last, rfl⟩ := (List.eq_nil_or_concat syllables).resolve_left hne
  obtain ⟨letters, digit, hlast, -, hdigit⟩ := hsyllables last (by simp)
  exact ⟨digit, by simp [hlast], hdigit⟩

/-- A string that ends in a digit has no letters left over. -/
theorem eq_nil_of_endsInDigit {s trailing : List Char} (h : EndsInDigit (s ++ trailing))
    (htrailing : ∀ c ∈ trailing, c.isAlpha = true) : trailing = [] := by
  by_contra hne
  obtain ⟨c, hc, hdigit⟩ := h
  rw [List.getLast?_append_of_ne_nil _ hne] at hc
  rw [isDigit_eq_false_of_isAlpha (htrailing c (List.mem_of_getLast? hc))] at hdigit
  exact nomatch hdigit

/-- A row of known syllables, with letters after it, has no unknown syllable. -/
theorem not_hasUnknownSyllable {p : Phoneme} {syllables : List (List Char)} {trailing : List Char}
    (hkeys : AllKeys p syllables) (htrailing : ∀ c ∈ trailing, c.isAlpha = true) :
    ¬ HasUnknownSyllable p (syllables.flatten ++ trailing) := by
  rintro ⟨known, s, rest, heq, hknown, hs, hunknown⟩
  induction known generalizing syllables with
  | nil =>
      obtain ⟨later, rfl, -⟩ :=
        row_of_syllable_append hs (fun t ht ↦ (hkeys t ht).1) htrailing heq.symm
      exact hunknown (hkeys s List.mem_cons_self).2
  | cons t known ih =>
      have ht := List.forall_mem_cons.mp hknown
      rw [List.flatten_cons, List.append_assoc] at heq
      obtain ⟨later, rfl, hlater⟩ :=
        row_of_syllable_append ht.1.1 (fun t ht ↦ (hkeys t ht).1) htrailing heq.symm
      exact ih (List.forall_mem_cons.mp hkeys).2 hlater.symm ht.2

/-- Syllables are all known, or there is a first one that is not. -/
theorem allKeys_or_hasUnknownSyllable (p : Phoneme) {syllables : List (List Char)}
    (h : ∀ s ∈ syllables, IsSyllable s) (trailing : List Char) :
    AllKeys p syllables ∨ HasUnknownSyllable p (syllables.flatten ++ trailing) := by
  induction syllables with
  | nil => exact .inl fun _ hs ↦ nomatch hs
  | cons s syllables ih =>
      rw [List.forall_mem_cons] at h
      by_cases hkey : p.IsKey s
      · refine (ih h.2).imp (fun hkeys ↦ List.forall_mem_cons.mpr ⟨⟨h.1, hkey⟩, hkeys⟩) ?_
        rintro ⟨known, t, rest, heq, hknown, ht, hunknown⟩
        refine ⟨s :: known, t, rest, ?_, ?_, ht, hunknown⟩
        · rw [List.flatten_cons, List.flatten_cons, List.append_assoc, List.append_assoc, heq]
        · exact List.forall_mem_cons.mpr ⟨⟨h.1, hkey⟩, hknown⟩
      · refine .inr ⟨[], s, syllables.flatten ++ trailing, ?_, fun _ ht ↦ (nomatch ht), h.1, hkey⟩
        rw [List.flatten_cons, List.append_assoc, List.flatten_nil, List.nil_append]

/-- **The scanner and the rows of syllables.**  `pinyin2phoneme` takes a string exactly if it spells
phonemes, and answers with these, for the strings that end in a digit, for those with a character
that is neither letter nor digit, and for those with an unknown syllable; for no others. -/
theorem pinyin2phoneme_spells_iff (phones pinyin : List Char) :
    (∀ out, VtWordManager.pinyin2phoneme (Phoneme.load phones).findPhoneme .dnn pinyin = some out ↔
      Spells (Phoneme.load phones) pinyin out) ↔
    EndsInDigit pinyin ∨ (∃ c ∈ pinyin, ¬ c.isAlphanum = true) ∨
      HasUnknownSyllable (Phoneme.load phones) pinyin := by
  constructor
  · intro h
    by_contra hnot
    obtain ⟨hlast, hplain, hknown⟩ := by simpa only [not_or] using hnot
    have halnum : ∀ c ∈ pinyin, c.isAlphanum = true := by simpa using hplain
    obtain ⟨syllables, trailing, rfl, hsyllables, htrailing⟩ := exists_syllables halnum
    have hkeys := (allKeys_or_hasUnknownSyllable (Phoneme.load phones) hsyllables
      trailing).resolve_right hknown
    obtain ⟨row, hne, hrow, heq, -⟩ := (h _).mp
      (pinyin2phoneme_eq_some_iff.mpr ⟨syllables, trailing, rfl, hkeys, htrailing, rfl⟩)
    rw [heq] at hlast
    exact hlast (endsInDigit_flatten hne fun s hs ↦ (hrow s hs).1)
  · intro h out
    rw [pinyin2phoneme_eq_some_iff]
    constructor
    · rintro ⟨syllables, trailing, rfl, hkeys, htrailing, rfl⟩
      obtain hdigit | ⟨c, hc, hnot⟩ | hunknown := h
      · obtain rfl := eq_nil_of_endsInDigit hdigit htrailing
        refine ⟨syllables, ?_, hkeys, List.append_nil _, rfl⟩
        rintro rfl
        obtain ⟨c, hc, -⟩ := hdigit
        exact nomatch hc
      · exact absurd (isAlphanum_of_mem_row hkeys htrailing hc) hnot
      · exact absurd hunknown (not_hasUnknownSyllable hkeys htrailing)
    · rintro ⟨syllables, -, hkeys, rfl, rfl⟩
      exact ⟨syllables, [], (List.append_nil _).symm, hkeys, fun _ hc ↦ (nomatch hc), rfl⟩

/-- Letters without a digit are taken, and spell nothing. -/
theorem letters_spell_nothing :
    ¬ ∀ (phones pinyin out : List Char),
      VtWordManager.pinyin2phoneme (Phoneme.load phones).findPhoneme .dnn pinyin = some out ↔
        Spells (Phoneme.load phones) pinyin out := by
  intro h
  have hspells := (h "a1 a1_S\n".toList "a1a".toList "a1|a1_S|##".toList).mp (by decide +kernel)
  obtain ⟨syllables, hne, hkeys, heq, -⟩ := hspells
  obtain ⟨c, hc, hdigit⟩ := endsInDigit_flatten hne fun s hs ↦ (hkeys s hs).1
  rw [← heq] at hc
  obtain rfl : 'a' = c := by simpa using hc
  exact nomatch hdigit

end Vsys.Activation
