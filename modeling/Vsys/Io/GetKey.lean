import Mathlib.Data.List.DropRight
import Vsys.Io.TextFile

/-!
# Looking a key up in a configuration file

`z_getkey` and `r2_getkey` read a file line by line into one buffer, keep whether the last section
line was the title's, and in such a section cut every line at its first `=` into a key and a value.
A key or a value without a token is dereferenced all the same; a line that is longer than the buffer
is read in pieces, each of which is taken for a line, and a tab ends a key or a value.
-/

namespace Vsys.Io

/-! ## The functions -/

/-- The delimiters of a key and a value. -/
def fieldEnds : List Char := ['\r', '\n', '\t']

/-- The loops that step over the spaces before a token and take those after it off. -/
def trimSpaces (s : List Char) : List Char := (s.dropWhile (· = ' ')).rdropWhile (· = ' ')

/-- `strtitle`. -/
def header (title : List Char) : List Char := '[' :: title ++ [']']

/-- What stands before the first `=`. -/
def keyPart (szLine : List Char) : List Char := szLine.takeWhile (· ≠ '=')

/-- What stands after the first `=`. -/
def valuePart (szLine : List Char) : List Char := (szLine.dropWhile (· ≠ '=')).tail

/-- The buffer after the key has been cut out of it. -/
def bufferAfter (szLine kk : List Char) : List Char :=
  (keyPart szLine).takeWhile (· ∈ fieldEnds) ++ kk.takeWhile (· = ' ') ++ trimSpaces kk

/-- How a round of the loop ends: with the value, at an absent token, or with the buffer and the
flag for the next round. -/
inductive KeyRound where
  | found (value : List Char)
  | absent
  | next (szLine : List Char) (flag : Bool)

/-- The round of the loop after `fgets`. -/
def keyRound (title key szLine : List Char) (flag : Bool) : KeyRound :=
  let szLine := (strtok lineEnds szLine).1
  if szLine.head? = some '[' then
    .next szLine (decide (SameLetters szLine (header title)))
  else if flag = true ∧ '=' ∈ szLine then
    match (strtok fieldEnds (keyPart szLine)).2, (strtok fieldEnds (valuePart szLine)).2 with
    | some kk, some vv =>
        if SameLetters (trimSpaces kk) key then .found (trimSpaces vv)
        else .next (bufferAfter szLine kk) flag
    | _, _ => .absent
  else .next szLine flag

/-- The loop over the reads of the file; a read that takes nothing leaves the buffer as it is, and
nothing is returned where an absent token is dereferenced. -/
def keyRounds (title key : List Char) : List (List Char) → List Char → Bool → Option (List Char)
  | [], _, _ => some []
  | read :: reads, szLine, flag =>
      match keyRound title key (if read = [] then szLine else cString read) flag with
      | .found value => some value
      | .absent => none
      | .next szLine flag => keyRounds title key reads szLine flag

/-- The body that `z_getkey` and `r2_getkey` have in common; `memory` is what the buffer of `ll`
characters holds at first. -/
def getkey (ll : ℕ) (memory : List Char) (file : Option (List Char)) (title key : List Char) :
    Option (List Char) :=
  match file with
  | none => some []
  | some file => keyRounds title key (fgetsAll (ll - 1) file) (cString memory) false

/-- `z_getkey`. -/
def zGetkey : List Char → Option (List Char) → List Char → List Char → Option (List Char) :=
  getkey 10240

/-- `r2_getkey`. -/
def r2Getkey : List Char → Option (List Char) → List Char → List Char → Option (List Char) :=
  getkey 10240

/-! ## What is looked up -/

/-- A blank of a text. -/
def IsBlank (c : Char) : Prop := c = ' ' ∨ c = '\t'

instance (c : Char) : Decidable (IsBlank c) := inferInstanceAs (Decidable (_ ∨ _))

/-- A key or a value without the blanks around it. -/
def trim (s : List Char) : List Char := (s.dropWhile (IsBlank ·)).rdropWhile (IsBlank ·)

/-- The lines of a file, each with whether it lies in a section with the title. -/
def placed (title : List Char) : Bool → List TextLine → List (Bool × TextLine)
  | _, [] => []
  | inside, l :: lines =>
      if l.chars.head? = some '[' then
        (false, l) :: placed title (decide (SameLetters l.chars (header title))) lines
      else (inside, l) :: placed title inside lines

/-- A line with a key and a value in a section with the title. -/
def IsEntry (p : Bool × TextLine) : Prop := p.1 = true ∧ '=' ∈ p.2.chars

instance (p : Bool × TextLine) : Decidable (IsEntry p) := inferInstanceAs (Decidable (_ ∧ _))

/-- A line with the key. -/
def Matches (key : List Char) (p : Bool × TextLine) : Prop :=
  IsEntry p ∧ SameLetters (trim (keyPart p.2.chars)) key

instance (key : List Char) (p : Bool × TextLine) : Decidable (Matches key p) :=
  inferInstanceAs (Decidable (_ ∧ _))

/-- The value of the first line with the key, taken from the line by `value`; nothing if there is no
such line. -/
def valueOf (value : TextLine → List Char) (key : List Char) : List (Bool × TextLine) → List Char
  | [] => []
  | p :: ps => if Matches key p then value p.2 else valueOf value key ps

/-- The value in a line. -/
def TextLine.value (l : TextLine) : List Char := trim (valuePart l.chars)

/-- The value that the key has in the file. -/
def TextFile.value (file : TextFile) (title key : List Char) : List Char :=
  valueOf TextLine.value key (placed title false file.lines)

/-! ## What is read -/

/-- The `k`-th piece of a string that is read `n` characters at a time. -/
def piece (n : ℕ) (s : List Char) (k : ℕ) : List Char := (s.drop (k * n)).take n

/-- What the buffer holds of a line after the first read. -/
def TextLine.seen (l : TextLine) : List Char := piece (10240 - 1) l.chars 0

/-- What the functions take for a key or a value. -/
def fieldOf (part : List Char) : List Char := trimSpaces ((strtok fieldEnds part).2.getD [])

/-- What the functions take for the value in a line. -/
def TextLine.seenValue (l : TextLine) : List Char := fieldOf (valuePart l.seen)

/-- A string whose key and value have a token each. -/
def HasFields (s : List Char) : Prop :=
  (∃ c ∈ keyPart s, c ≠ '\t') ∧ ∃ c ∈ valuePart s, c ≠ '\t'

instance (s : List Char) : Decidable (HasFields s) :=
  have := List.decidableBEx (· ≠ '\t') (keyPart s)
  have := List.decidableBEx (· ≠ '\t') (valuePart s)
  inferInstanceAs (Decidable (_ ∧ _))

/-- A line in a section with the title whose key or value has no token. -/
def LacksField (p : Bool × TextLine) : Prop :=
  p.1 = true ∧ '=' ∈ p.2.seen ∧ ¬ HasFields p.2.seen

instance (p : Bool × TextLine) : Decidable (LacksField p) :=
  inferInstanceAs (Decidable (_ ∧ _))

/-- A line that ends the search: it has the key, or its key or value has no token. -/
def Ends (key : List Char) (p : Bool × TextLine) : Prop := Matches key p ∨ LacksField p

instance (key : List Char) (p : Bool × TextLine) : Decidable (Ends key p) :=
  inferInstanceAs (Decidable (_ ∨ _))

/-- The lines up to the one that ends the search, that one included. -/
def upTo (key : List Char) : List (Bool × TextLine) → List (Bool × TextLine)
  | [] => []
  | p :: ps => if Ends key p then [p] else p :: upTo key ps

/-- The lines of a file that decide about a key. -/
def TextFile.deciding (file : TextFile) (title key : List Char) : List (Bool × TextLine) :=
  upTo key (placed title false file.lines)

/-- Whether the lines after a line lie in a section with the title. -/
def insideAfter (title : List Char) (p : Bool × TextLine) : Bool :=
  if p.2.chars.head? = some '[' then decide (SameLetters p.2.chars (header title)) else p.1

/-- A piece that is no section line and has not the key, but a key and a value if it has `=`. -/
def Passes (key : List Char) (flag : Bool) (s : List Char) : Prop :=
  s.head? ≠ some '[' ∧
    (flag = true → '=' ∈ s → HasFields s ∧ ¬ SameLetters (fieldOf (keyPart s)) key)

/-- A line that is taken for what it is: its first piece has the title or the key exactly if the line
has, and the other pieces are passed over. -/
structure Settled (title key : List Char) (p : Bool × TextLine) : Prop where
  seen_title : p.2.chars.head? = some '[' →
    (SameLetters p.2.seen (header title) ↔ SameLetters p.2.chars (header title))
  seen_key : IsEntry p → ¬ LacksField p →
    (Matches key p ↔ '=' ∈ p.2.seen ∧ SameLetters (fieldOf (keyPart p.2.seen)) key)
  later_passes : ¬ Ends key p → ∀ k,
    Passes key (insideAfter title p) (piece (10240 - 1) p.2.chars (k + 1))

/-- A line whose fields are read as they stand, as far as they count. -/
def Readable (key : List Char) (p : Bool × TextLine) : Prop :=
  (p.1 = true → '=' ∈ p.2.seen → HasFields p.2.seen) ∧ (Matches key p → p.2.seenValue = p.2.value)

/-! ## Tokens -/

theorem strtok_begins (delim s : List Char) : (strtok delim s).1 <+: s := by
  simp only [strtok]
  split_ifs
  · exact List.prefix_rfl
  · have hprefix : (s.dropWhile (· ∈ delim)).takeWhile (· ∉ delim) <+: s.dropWhile (· ∈ delim) :=
      List.takeWhile_prefix _
    have happend := (List.prefix_append_right_inj (s.takeWhile (· ∈ delim))).mpr hprefix
    rwa [List.takeWhile_append_dropWhile] at happend

theorem head?_strtok (delim s : List Char) : (strtok delim s).1.head? = s.head? := by
  cases s with
  | nil => rfl
  | cons c s =>
      by_cases hc : c ∈ delim
      · simp only [strtok]
        split_ifs
        · rfl
        · rw [List.takeWhile_cons_of_pos (by simpa using hc)]
          rfl
      · simp [strtok, hc]

theorem strtok_token {delim s : List Char} (h : ∃ c ∈ s, c ∉ delim) :
    ∃ token, (strtok delim s).2 = some token ∧ token ⊆ s := by
  obtain ⟨c, hc, hdelim⟩ := h
  have hfound : s.dropWhile (· ∈ delim) ≠ [] := fun hnil ↦
    hdelim (of_decide_eq_true (List.dropWhile_eq_nil_iff.mp hnil c hc))
  refine ⟨(s.dropWhile (· ∈ delim)).takeWhile (· ∉ delim), ?_, ?_⟩
  · simp only [strtok, if_neg hfound]
  · exact List.Subset.trans (List.takeWhile_prefix _).subset (List.dropWhile_suffix _).subset

/-! ## One round -/

variable {title key : List Char}

/-- A buffer that another round takes nothing from. -/
def Quiet (szLine : List Char) (flag : Bool) : Prop :=
  szLine.head? = some '[' ∨ (flag = true → '=' ∉ szLine)

/-- A string that is no section line and has no key, where one would count. -/
theorem keyRound_inert {szLine : List Char} {flag : Bool} (hhead : szLine.head? ≠ some '[')
    (hentry : flag = true → '=' ∉ szLine) :
    ∃ next, keyRound title key szLine flag = .next next flag ∧ Quiet next flag := by
  have hquiet : flag = true → '=' ∉ (strtok lineEnds szLine).1 := fun hflag hmem ↦
    hentry hflag ((strtok_begins _ _).subset hmem)
  refine ⟨(strtok lineEnds szLine).1, ?_, Or.inr hquiet⟩
  simp only [keyRound]
  rw [if_neg (by rwa [head?_strtok]), if_neg fun h ↦ hquiet h.1 h.2]

/-- A round on a buffer that is read again does nothing. -/
theorem keyRounds_quiet {szLine : List Char} {flag : Bool} (h : Quiet szLine flag) :
    keyRounds title key [[]] szLine flag = some [] := by
  rw [keyRounds, if_pos rfl]
  by_cases hhead : szLine.head? = some '['
  · simp only [keyRound]
    rw [if_pos (by rwa [head?_strtok])]
    rfl
  · have hinert : ∃ next, keyRound title key szLine flag = .next next flag ∧ Quiet next flag :=
      keyRound_inert hhead (h.resolve_left hhead)
    obtain ⟨next, hnext, -⟩ := hinert
    rw [hnext]
    rfl

/-- A field of a line has a token unless it consists of tabs. -/
theorem strtok_field (part : List Char) :
    (∃ c ∈ part, c ≠ '\t') ∨ (strtok fieldEnds part).2 = none := by
  by_cases h : ∃ c ∈ part, c ≠ '\t'
  · exact Or.inl h
  · have hall : ∀ c ∈ part, c ∈ fieldEnds := fun c hc ↦ by
      rw [not_not.mp fun hne ↦ h ⟨c, hc, hne⟩]
      decide
    exact Or.inr (congrArg Prod.snd (strtok_delimiters hall))

theorem keyPart_subset (s : List Char) : keyPart s ⊆ s := (List.takeWhile_prefix _).subset

theorem valuePart_subset (s : List Char) : valuePart s ⊆ s :=
  List.Subset.trans (List.tail_suffix _).subset (List.dropWhile_suffix _).subset

theorem not_mem_keyPart (s : List Char) : '=' ∉ keyPart s := fun hmem ↦ by
  simpa using List.mem_takeWhile_imp hmem

/-- Cutting the key leaves no `=` in the buffer. -/
theorem not_mem_bufferAfter {szLine kk : List Char} (hkk : kk ⊆ keyPart szLine) :
    '=' ∉ bufferAfter szLine kk := by
  have htrim : trimSpaces kk ⊆ kk :=
    List.Subset.trans (List.rdropWhile_prefix _ _).subset (List.dropWhile_suffix _).subset
  intro hmem
  simp only [bufferAfter, List.mem_append] at hmem
  obtain (hmem | hmem) | hmem := hmem
  · exact not_mem_keyPart szLine ((List.takeWhile_prefix _).subset hmem)
  · exact not_mem_keyPart szLine (hkk ((List.takeWhile_prefix _).subset hmem))
  · exact not_mem_keyPart szLine (hkk (htrim hmem))

section Piece

variable {t e : List Char}

theorem IsPart.exists_not_mem_fieldEnds (h : IsPart t e) {part : List Char} (hpart : part ⊆ t)
    (hfield : ∃ c ∈ part, c ≠ '\t') : ∃ c ∈ part, c ∉ fieldEnds := by
  obtain ⟨c, hc, htab⟩ := hfield
  refine ⟨c, hc, ?_⟩
  simpa [fieldEnds] using
    And.intro (h.plain c (hpart hc)).2.1 (And.intro (h.plain c (hpart hc)).1 htab)

/-- A section line. -/
theorem keyRound_header (h : IsPart t e) (hhead : t.head? = some '[') (flag : Bool) :
    keyRound title key (t ++ e) flag = .next t (decide (SameLetters t (header title))) := by
  have hne : t ≠ [] := fun hnil ↦ by simp [hnil] at hhead
  simp only [keyRound, h.strtok_lineEnds hne, if_pos hhead]

/-- A key or a value without a token. -/
theorem keyRound_absent (h : IsPart t e) (hhead : t.head? ≠ some '[') (hmem : '=' ∈ t)
    (hlacks : ¬ HasFields t) : keyRound title key (t ++ e) true = .absent := by
  simp only [keyRound, h.strtok_lineEnds (List.ne_nil_of_mem hmem)]
  rw [if_neg hhead, if_pos ⟨trivial, hmem⟩]
  rcases strtok_field (keyPart t) with hkey | hnone
  · rcases strtok_field (valuePart t) with hvalue | hnone
    · exact absurd ⟨hkey, hvalue⟩ hlacks
    · cases (strtok fieldEnds (keyPart t)).2 with
      | none => rfl
      | some kk => simp only [hnone]
  · simp only [hnone]

/-- A key and a value with tokens: the value, if the key's token is the key. -/
theorem keyRound_fields (title key : List Char) (h : IsPart t e) (hhead : t.head? ≠ some '[')
    (hmem : '=' ∈ t) (hfields : HasFields t) :
    ∃ next, '=' ∉ next ∧ keyRound title key (t ++ e) true =
      if SameLetters (fieldOf (keyPart t)) key then .found (fieldOf (valuePart t))
      else .next next true := by
  obtain ⟨kk, hkk, hsubset⟩ :=
    strtok_token (h.exists_not_mem_fieldEnds (keyPart_subset t) hfields.1)
  obtain ⟨vv, hvv, -⟩ :=
    strtok_token (h.exists_not_mem_fieldEnds (valuePart_subset t) hfields.2)
  refine ⟨bufferAfter t kk, not_mem_bufferAfter hsubset, ?_⟩
  simp only [keyRound, h.strtok_lineEnds (List.ne_nil_of_mem hmem), fieldOf, hkk, hvv, Option.getD_some]
  rw [if_neg hhead, if_pos ⟨trivial, hmem⟩]

/-- A piece that is passed over. -/
theorem keyRound_passes (h : IsPart t e) {flag : Bool} (hpass : Passes key flag t) :
    ∃ next, keyRound title key (t ++ e) flag = .next next flag ∧ Quiet next flag := by
  by_cases hentry : flag = true ∧ '=' ∈ t
  · obtain ⟨rfl, hmem⟩ := hentry
    obtain ⟨hfields, hother⟩ := hpass.2 rfl hmem
    obtain ⟨next, hnext, heq⟩ := keyRound_fields title key h hpass.1 hmem hfields
    exact ⟨next, by rw [heq, if_neg hother], Or.inr fun _ ↦ hnext⟩
  · refine keyRound_inert (fun hhead ↦ ?_) fun hflag hmem ↦ ?_
    · cases t with
      | nil => exact absurd (h.ending _ (List.mem_of_mem_head? hhead)) (by decide)
      | cons c t => exact hpass.1 hhead
    · rcases List.mem_append.mp hmem with hmem | hmem
      · exact hentry ⟨hflag, hmem⟩
      · exact absurd (h.ending _ hmem) (by decide)

end Piece

/-! ## The rounds of a line -/

/-- A read that leaves a quiet buffer goes on with the rest of the file. -/
theorem keyRounds_next {n : ℕ} {s rest szLine next : List Char} {flag flag' : Bool}
    (hs : s ≠ []) (hnul : endOfString ∉ s) {reads : List (List Char)}
    (hreads : reads = s :: fgetsAll (n + 1) rest ∨ (reads = [s] ∧ rest = []))
    (hnext : keyRound title key s flag = .next next flag') (hquiet : Quiet next flag') :
    keyRounds title key reads szLine flag =
      keyRounds title key (fgetsAll (n + 1) rest) next flag' := by
  obtain rfl | ⟨rfl, rfl⟩ := hreads
  · rw [keyRounds, if_neg hs, cString_eq_self hnul, hnext]
  · rw [keyRounds, if_neg hs, cString_eq_self hnul, hnext, fgetsAll_nil, keyRounds_quiet hquiet]
    rfl

theorem piece_zero (n : ℕ) (s : List Char) : piece n s 0 = s.take n := by
  rw [piece, Nat.zero_mul, List.drop_zero]

theorem piece_drop (n : ℕ) (s : List Char) (k : ℕ) : piece n (s.drop n) k = piece n s (k + 1) := by
  rw [piece, piece, List.drop_drop, Nat.succ_mul, Nat.add_comm]

/-- **The first read of a line.** If the round leaves a quiet buffer, the loop goes on with what is
left of the line. -/
theorem keyRounds_piece {n : ℕ} {t e rest szLine next : List Char} {flag flag' : Bool}
    (h : IsPart t e) (hne : t ++ e ≠ []) (hline : Unbroken (t ++ e) rest)
    (hnext : keyRound title key (t.take (n + 1) ++ e.take (n + 1 - t.length)) flag =
      .next next flag') (hquiet : Quiet next flag') :
    keyRounds title key (fgetsAll (n + 1) (t ++ e ++ rest)) szLine flag =
      keyRounds title key
        (fgetsAll (n + 1) (t.drop (n + 1) ++ e.drop (n + 1 - t.length) ++ rest)) next flag' := by
  have hpiece : t.take (n + 1) ++ e.take (n + 1 - t.length) ≠ [] := by
    rw [← List.take_append]
    exact fun hnil ↦ (List.take_eq_nil_iff.mp hnil).elim n.succ_ne_zero hne
  have hreads := fgetsAll_piece (n := n) hline
  rw [List.take_append, List.drop_append] at hreads
  exact keyRounds_next hpiece (h.take (n + 1)).endOfString_not_mem hreads hnext hquiet

/-- **What is left of a line.** If its pieces are passed over, the flag stays as it is. -/
theorem keyRounds_passes {n : ℕ} {t e rest szLine : List Char} {flag : Bool} (h : IsPart t e)
    (hline : t ++ e = [] ∨ Unbroken (t ++ e) rest)
    (hpass : ∀ k, Passes key flag (piece (n + 1) t k)) (hquiet : Quiet szLine flag) :
    ∃ next, Quiet next flag ∧
      keyRounds title key (fgetsAll (n + 1) (t ++ e ++ rest)) szLine flag =
        keyRounds title key (fgetsAll (n + 1) rest) next flag := by
  induction hlength : (t ++ e).length using Nat.strong_induction_on generalizing t e szLine with
  | _ length ih =>
      by_cases hne : t ++ e = []
      · exact ⟨szLine, hquiet, by rw [hne, List.nil_append]⟩
      · have hunbroken := hline.resolve_left hne
        have hfirst := hpass 0
        rw [piece_zero] at hfirst
        have hround : ∃ next, keyRound title key
            (t.take (n + 1) ++ e.take (n + 1 - t.length)) flag = .next next flag ∧
              Quiet next flag := keyRound_passes (h.take (n + 1)) hfirst
        obtain ⟨next, hnext, hnextQuiet⟩ := hround
        rw [keyRounds_piece h hne hunbroken hnext hnextQuiet]
        have hleft := hunbroken.drop (n + 1)
        have hshorter : ((t ++ e).drop (n + 1)).length < length := by
          have hpos := List.length_pos_of_ne_nil hne
          rw [List.length_drop]
          omega
        rw [List.drop_append] at hleft hshorter
        refine ih _ hshorter (h.drop (n + 1)) hleft (fun k ↦ ?_) hnextQuiet rfl
        rw [piece_drop]
        exact hpass (k + 1)

/-- A read that ends the search with a value. -/
theorem keyRounds_found {s szLine value : List Char} {flag : Bool} (hs : s ≠ [])
    (hnul : endOfString ∉ s) {reads : List (List Char)} (hreads : reads.head? = some s)
    (hfound : keyRound title key s flag = .found value) :
    keyRounds title key reads szLine flag = some value := by
  obtain ⟨later, rfl⟩ := List.head?_eq_some_iff.mp hreads
  rw [keyRounds, if_neg hs, cString_eq_self hnul, hfound]

/-- A read that ends the search at an absent token. -/
theorem keyRounds_absent {s szLine : List Char} {flag : Bool} (hs : s ≠ [])
    (hnul : endOfString ∉ s) {reads : List (List Char)} (hreads : reads.head? = some s)
    (habsent : keyRound title key s flag = .absent) :
    keyRounds title key reads szLine flag = none := by
  obtain ⟨later, rfl⟩ := List.head?_eq_some_iff.mp hreads
  rw [keyRounds, if_neg hs, cString_eq_self hnul, habsent]

/-! ## The rounds of a file -/

/-- What a search among placed lines ends with. -/
def outcome (key : List Char) (ps : List (Bool × TextLine)) : Option (List Char) :=
  if ∀ p ∈ upTo key ps, ¬ LacksField p then some (valueOf TextLine.seenValue key ps) else none

theorem upTo_of_ends {p : Bool × TextLine} (hends : Ends key p) (ps : List (Bool × TextLine)) :
    upTo key (p :: ps) = [p] := if_pos hends

theorem upTo_of_not_ends {p : Bool × TextLine} (hends : ¬ Ends key p)
    (ps : List (Bool × TextLine)) : upTo key (p :: ps) = p :: upTo key ps := if_neg hends

theorem mem_upTo_cons (key : List Char) (p : Bool × TextLine) (ps : List (Bool × TextLine)) :
    p ∈ upTo key (p :: ps) := by
  rw [upTo]
  split_ifs <;> exact List.mem_cons_self

theorem outcome_of_matches {p : Bool × TextLine} (hmatch : Matches key p) (hlacks : ¬ LacksField p)
    (ps : List (Bool × TextLine)) : outcome key (p :: ps) = some p.2.seenValue := by
  have hall : ∀ q ∈ [p], ¬ LacksField q := List.forall_mem_singleton.mpr hlacks
  rw [outcome, upTo_of_ends (Or.inl hmatch), valueOf, if_pos hmatch, if_pos hall]

theorem outcome_of_not_ends {p : Bool × TextLine} (hends : ¬ Ends key p)
    (ps : List (Bool × TextLine)) : outcome key (p :: ps) = outcome key ps := by
  have hsame : (∀ q ∈ p :: upTo key ps, ¬ LacksField q) ↔ ∀ q ∈ upTo key ps, ¬ LacksField q :=
    List.forall_mem_cons.trans (and_iff_right fun h ↦ hends (Or.inr h))
  rw [outcome, outcome, upTo_of_not_ends hends, valueOf, if_neg fun h ↦ hends (Or.inl h)]
  exact if_congr hsame rfl rfl

theorem outcome_of_lacksField {p : Bool × TextLine} (hlacks : LacksField p)
    (ps : List (Bool × TextLine)) : outcome key (p :: ps) = none :=
  if_neg fun hall ↦ hall p (mem_upTo_cons key p ps) hlacks

theorem TextLine.seen_eq (l : TextLine) : l.seen = l.chars.take (10238 + 1) := piece_zero _ _

theorem TextLine.head?_seen (l : TextLine) : l.seen.head? = l.chars.head? := by
  rw [TextLine.seen_eq, List.head?_take]
  exact if_neg (Nat.succ_ne_zero _)

theorem TextLine.mem_chars_of_mem_seen (l : TextLine) {c : Char} (hc : c ∈ l.seen) :
    c ∈ l.chars := by
  rw [TextLine.seen_eq] at hc
  exact List.mem_of_mem_take hc

/-- The pieces of a settled line that does not end the search. -/
theorem Settled.passes {l : TextLine} {flag : Bool} (h : Settled title key (flag, l))
    (hhead : ¬ l.chars.head? = some '[') (hends : ¬ Ends key (flag, l)) (k : ℕ) :
    Passes key flag (piece (10238 + 1) l.chars k) := by
  cases k with
  | zero =>
      have hlacks : ¬ LacksField (flag, l) := fun hlacks ↦ hends (Or.inr hlacks)
      refine ⟨fun hseen ↦ hhead (l.head?_seen.symm.trans hseen), fun hflag hmem ↦ ⟨?_, fun hsame ↦ ?_⟩⟩
      · exact not_not.mp fun hfields ↦ hlacks ⟨hflag, hmem, hfields⟩
      · have hentry : IsEntry (flag, l) := ⟨hflag, l.mem_chars_of_mem_seen hmem⟩
        exact hends (Or.inl ((h.seen_key hentry hlacks).mpr ⟨hmem, hsame⟩))
  | succ k =>
      have hlater := h.later_passes hends k
      rwa [insideAfter, if_neg hhead] at hlater

/-- The pieces of a settled section line after the first. -/
theorem Settled.later_passes_header {l : TextLine} (h : Settled title key (false, l))
    (hhead : l.chars.head? = some '[') (hends : ¬ Ends key (false, l)) (k : ℕ) :
    Passes key (decide (SameLetters l.chars (header title)))
      (piece (10238 + 1) (l.chars.drop (10238 + 1)) k) := by
  have hlater := h.later_passes hends k
  rw [insideAfter, if_pos hhead] at hlater
  rwa [piece_drop]

/-- A section line: its first read sets the flag, and the others leave it. -/
theorem keyRounds_header {l : TextLine} {rest szLine : List Char} {flag : Bool}
    (hrest : l.lineEnd = .none → rest = []) (hne : l.bytes ≠ []) (hhead : l.chars.head? = some '[')
    (hends : ¬ Ends key (false, l)) (hl : Settled title key (false, l)) :
    ∃ next, Quiet next (decide (SameLetters l.chars (header title))) ∧
      keyRounds title key (fgetsAll (10238 + 1) (l.bytes ++ rest)) szLine flag =
        keyRounds title key (fgetsAll (10238 + 1) rest) next
          (decide (SameLetters l.chars (header title))) := by
  have hline := l.unbroken hrest
  have hseen : (l.chars.take (10238 + 1)).head? = some '[' := by
    rw [← TextLine.seen_eq, l.head?_seen, hhead]
  have hround : keyRound title key (l.chars.take (10238 + 1) ++
      l.lineEnd.chars.take (10238 + 1 - l.chars.length)) flag =
        .next (l.chars.take (10238 + 1)) (decide (SameLetters l.chars (header title))) := by
    have htitle := hl.seen_title hhead
    rw [TextLine.seen_eq] at htitle
    rw [keyRound_header (l.isPart.take _) hseen, decide_eq_decide.mpr htitle]
  have hleft := hline.drop (10238 + 1)
  rw [TextLine.bytes, List.drop_append] at hleft
  rw [TextLine.bytes, keyRounds_piece l.isPart hne hline hround (Or.inl hseen)]
  exact keyRounds_passes (l.isPart.drop _) hleft (hl.later_passes_header hhead hends) (Or.inl hseen)

/-- **The search.** Where every line up to the one that ends the search is settled, the rounds of the
loop end with the value of that line, or at its absent token. -/
theorem keyRounds_lines {lines : List TextLine} (hended : EndedLines lines) {flag : Bool}
    {szLine : List Char} (hquiet : Quiet szLine flag)
    (hsettled : ∀ p ∈ upTo key (placed title flag lines), Settled title key p) :
    keyRounds title key (fgetsAll (10238 + 1) (lines.flatMap TextLine.bytes)) szLine flag =
      outcome key (placed title flag lines) := by
  induction lines generalizing flag szLine with
  | nil => exact keyRounds_quiet hquiet
  | cons l lines ih =>
      have hrest : l.lineEnd = .none → lines.flatMap TextLine.bytes = [] := fun hend ↦ by
        rw [(hended.1 hend).1, List.flatMap_nil]
      have hne := l.bytes_ne_nil hended
      have hline := l.unbroken hrest
      rw [List.flatMap_cons]
      by_cases hhead : l.chars.head? = some '['
      · rw [placed, if_pos hhead] at hsettled ⊢
        have hends : ¬ Ends key (false, l) := fun h ↦
          h.elim (fun h ↦ Bool.false_ne_true h.1.1) (fun h ↦ Bool.false_ne_true h.1)
        rw [upTo_of_not_ends hends] at hsettled
        obtain ⟨hl, hlines⟩ := List.forall_mem_cons.mp hsettled
        have hheader : ∃ next, Quiet next (decide (SameLetters l.chars (header title))) ∧
            keyRounds title key
              (fgetsAll (10238 + 1) (l.bytes ++ lines.flatMap TextLine.bytes)) szLine flag =
                keyRounds title key (fgetsAll (10238 + 1) (lines.flatMap TextLine.bytes)) next
                  (decide (SameLetters l.chars (header title))) :=
          keyRounds_header hrest hne hhead hends hl
        obtain ⟨next, hnext, heq⟩ := hheader
        rw [outcome_of_not_ends hends, heq]
        exact ih hended.2 hnext hlines
      · rw [placed, if_neg hhead] at hsettled ⊢
        have hl := hsettled _ (mem_upTo_cons key (flag, l) _)
        by_cases hends : Ends key (flag, l)
        · -- the first read of the line ends the search
          have hfirst := head?_fgetsAll_piece (n := 10238) hline
          have hpart := l.isPart.take (10238 + 1)
          rw [TextLine.bytes, List.take_append, ← TextLine.seen_eq] at hfirst
          rw [← TextLine.seen_eq] at hpart
          have hseen : l.seen.head? ≠ some '[' := fun h ↦ hhead (l.head?_seen.symm.trans h)
          by_cases hlacks : LacksField (flag, l)
          · obtain ⟨rfl, hmem, hfields⟩ := hlacks
            rw [outcome_of_lacksField ⟨rfl, hmem, hfields⟩]
            exact keyRounds_absent (List.append_ne_nil_of_left_ne_nil (List.ne_nil_of_mem hmem) _)
              hpart.endOfString_not_mem hfirst (keyRound_absent hpart hseen hmem hfields)
          · have hmatch := hends.resolve_right hlacks
            obtain ⟨hmem, hsame⟩ := (hl.seen_key hmatch.1 hlacks).mp hmatch
            have hflag : flag = true := hmatch.1.1
            have hfields : HasFields l.seen := not_not.mp fun h ↦ hlacks ⟨hflag, hmem, h⟩
            obtain ⟨next, -, heq⟩ := keyRound_fields title key hpart hseen hmem hfields
            rw [if_pos hsame, ← hflag] at heq
            rw [outcome_of_matches hmatch hlacks]
            exact keyRounds_found (List.append_ne_nil_of_left_ne_nil (List.ne_nil_of_mem hmem) _)
              hpart.endOfString_not_mem hfirst heq
        · have hpassed : ∃ next, Quiet next flag ∧ keyRounds title key
              (fgetsAll (10238 + 1) (l.bytes ++ lines.flatMap TextLine.bytes)) szLine flag =
                keyRounds title key (fgetsAll (10238 + 1) (lines.flatMap TextLine.bytes)) next flag :=
            keyRounds_passes l.isPart (Or.inr hline) (hl.passes hhead hends) hquiet
          obtain ⟨next, hnext, heq⟩ := hpassed
          rw [upTo_of_not_ends hends] at hsettled
          rw [outcome_of_not_ends hends, heq]
          exact ih hended.2 hnext (List.forall_mem_cons.mp hsettled).2

/-- The search ends with the key's value exactly if the lines up to its end are readable. -/
theorem outcome_eq_some_iff (ps : List (Bool × TextLine)) :
    outcome key ps = some (valueOf TextLine.value key ps) ↔ ∀ p ∈ upTo key ps, Readable key p := by
  induction ps with
  | nil => exact iff_of_true rfl (List.forall_mem_nil _)
  | cons p ps ih =>
      by_cases hlacks : LacksField p
      · rw [outcome_of_lacksField hlacks]
        refine iff_of_false (Option.some_ne_none _).symm fun hall ↦ hlacks.2.2 ?_
        exact (hall p (mem_upTo_cons key p ps)).1 hlacks.1 hlacks.2.1
      · have hfields : p.1 = true → '=' ∈ p.2.seen → HasFields p.2.seen := fun hinside hmem ↦
          not_not.mp fun hnot ↦ hlacks ⟨hinside, hmem, hnot⟩
        by_cases hmatch : Matches key p
        · rw [outcome_of_matches hmatch hlacks, upTo_of_ends (Or.inl hmatch), valueOf,
            if_pos hmatch, Option.some.injEq, List.forall_mem_singleton]
          exact ⟨fun h ↦ ⟨hfields, fun _ ↦ h⟩, fun h ↦ h.2 hmatch⟩
        · have hends : ¬ Ends key p := fun h ↦ h.elim hmatch hlacks
          rw [outcome_of_not_ends hends, upTo_of_not_ends hends, valueOf, if_neg hmatch, ih,
            List.forall_mem_cons]
          exact (and_iff_right ⟨hfields, fun h ↦ absurd h hmatch⟩).symm

/-- A line that fits into the buffer is settled, if no tab cuts its key. -/
theorem Settled.of_short {p : Bool × TextLine} (hshort : p.2.chars.length < 10240)
    (hkey : IsEntry p → HasFields p.2.chars →
      fieldOf (keyPart p.2.chars) = trim (keyPart p.2.chars)) : Settled title key p := by
  have hlength : p.2.chars.length ≤ 10238 + 1 := Nat.le_of_lt_succ hshort
  have hseen : p.2.seen = p.2.chars := by rw [TextLine.seen_eq, List.take_of_length_le hlength]
  refine ⟨fun _ ↦ by rw [hseen], fun hentry hlacks ↦ ?_, fun _ k ↦ ?_⟩
  · have hfields : HasFields p.2.chars := by
      by_contra hnot
      refine hlacks ⟨hentry.1, ?_, ?_⟩
      · rw [hseen]
        exact hentry.2
      · rwa [hseen]
    rw [hseen, hkey hentry hfields]
    exact and_congr_left' (and_iff_right hentry.1)
  · have hle : 10238 + 1 ≤ (k + 1) * (10238 + 1) := Nat.le_mul_of_pos_left _ k.succ_pos
    have hnil : piece (10240 - 1) p.2.chars (k + 1) = [] := by
      rw [piece, List.drop_of_length_le (hlength.trans hle), List.take_nil]
    rw [hnil]
    exact ⟨(Option.some_ne_none _).symm, fun _ hmem ↦ absurd hmem List.not_mem_nil⟩

/-- **Looking up a key.** Where the lines up to the one that ends the search are taken for what they
are, both functions return the key's value exactly if every key and value of these lines has a token
and nothing cuts the value. -/
theorem getkey_iff (file : TextFile) (title key : List Char)
    (hsettled : ∀ p ∈ file.deciding title key, Settled title key p) :
    (∀ memory memory' : List Char,
        zGetkey memory (some file.contents) title key = some (file.value title key) ∧
          r2Getkey memory' (some file.contents) title key = some (file.value title key)) ↔
      ∀ p ∈ file.deciding title key, Readable key p := by
  have hsearch : ∀ memory : List Char, getkey 10240 memory (some file.contents) title key =
      outcome key (placed title false file.lines) := fun memory ↦
    keyRounds_lines file.ended (Or.inr fun h ↦ absurd h Bool.false_ne_true) hsettled
  have hsame : (∀ memory memory' : List Char,
        zGetkey memory (some file.contents) title key = some (file.value title key) ∧
          r2Getkey memory' (some file.contents) title key = some (file.value title key)) ↔
      outcome key (placed title false file.lines) = some (file.value title key) := by
    simp only [zGetkey, r2Getkey, hsearch, and_self, forall_const]
  rw [hsame]
  exact outcome_eq_some_iff _

/-- A section line and a line with a key. -/
def keyFile : TextFile where
  lines := [⟨['[', 'A', ']'], .crlf, by simp [endOfString]⟩,
    ⟨['k', ' ', '=', ' ', 'v'], .none, by simp [endOfString]⟩]
  ended := ⟨nofun, ⟨fun _ ↦ ⟨rfl, List.cons_ne_nil _ _⟩, trivial⟩⟩

theorem getkey_keyFile :
    (∀ memory memory' : List Char,
        zGetkey memory (some keyFile.contents) ['a'] ['K'] = some (keyFile.value ['a'] ['K']) ∧
          r2Getkey memory' (some keyFile.contents) ['a'] ['K'] =
            some (keyFile.value ['a'] ['K'])) ∧
      keyFile.value ['a'] ['K'] = ['v'] := by
  have hshort : ∀ p ∈ keyFile.deciding ['a'] ['K'], p.2.chars.length < 10240 := by decide
  have hkeys : ∀ p ∈ keyFile.deciding ['a'] ['K'], IsEntry p → HasFields p.2.chars →
      fieldOf (keyPart p.2.chars) = trim (keyPart p.2.chars) := by decide
  have hfields : ∀ p ∈ keyFile.deciding ['a'] ['K'],
      p.1 = true → '=' ∈ p.2.seen → HasFields p.2.seen := by decide
  have hvalues : ∀ p ∈ keyFile.deciding ['a'] ['K'], Matches ['K'] p →
      p.2.seenValue = p.2.value := by decide
  have hsettled : ∀ p ∈ keyFile.deciding ['a'] ['K'], Settled ['a'] ['K'] p := fun p hp ↦
    Settled.of_short (hshort p hp) (hkeys p hp)
  exact ⟨(getkey_iff keyFile ['a'] ['K'] hsettled).mpr fun p hp ↦ ⟨hfields p hp, hvalues p hp⟩,
    by decide⟩

/-- An empty value before the line with the key. -/
def emptyValueFile : TextFile where
  lines := [⟨['[', 'a', ']'], .lf, by simp [endOfString]⟩, ⟨['b', '='], .lf, by simp [endOfString]⟩,
    ⟨['k', '=', 'v'], .lf, by simp [endOfString]⟩]
  ended := ⟨nofun, nofun, nofun, trivial⟩

theorem getkey_emptyValueFile :
    emptyValueFile.value ['a'] ['k'] = ['v'] ∧
      zGetkey [] (some emptyValueFile.contents) ['a'] ['k'] = none ∧
      r2Getkey [] (some emptyValueFile.contents) ['a'] ['k'] = none ∧
      ¬ zGetkey [] (some emptyValueFile.contents) ['a'] ['k'] =
        some (emptyValueFile.value ['a'] ['k']) := by
  decide +kernel

end Vsys.Io
