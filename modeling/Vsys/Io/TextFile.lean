import Mathlib.Data.List.TakeWhile
import Mathlib.Order.Basic
import Mathlib.Order.Nat

/-!
# Reading a text file line by line

A text is made of lines; `fgets` reads them one at a time into a buffer, and a line that is longer
than the buffer in pieces.  `while (!feof(file))` asks for the end only after a read has met it, so
a file that ends with a line end gives one more read, which takes nothing.

A character is a byte, and a C string is the list of its characters.
-/

namespace Vsys.Io

/-! ## Strings -/

/-- The character that ends a C string. -/
def endOfString : Char := Char.ofNat 0

/-- The C string that stands at the beginning of some memory. -/
def cString (memory : List Char) : List Char := memory.takeWhile (· ≠ endOfString)

/-- `strtok` for a new string: the string that it leaves, and the token. -/
def strtok (delim s : List Char) : List Char × Option (List Char) :=
  let found := s.dropWhile (· ∈ delim)
  if found = [] then (s, none)
  else (s.takeWhile (· ∈ delim) ++ found.takeWhile (· ∉ delim), some (found.takeWhile (· ∉ delim)))

/-- The strings for which `strcasecmp` is zero. -/
def SameLetters (s t : List Char) : Prop := s.map Char.toLower = t.map Char.toLower

instance (s t : List Char) : Decidable (SameLetters s t) :=
  inferInstanceAs (Decidable (_ = _))

/-! ## Files -/

/-- `fgets` with room for `n` characters: what it reads, what it leaves of the file, and whether it
met the end. -/
def fgets : ℕ → List Char → List Char × List Char × Bool
  | 0, file => ([], file, false)
  | _ + 1, [] => ([], [], true)
  | n + 1, c :: file =>
      if c = '\n' then ([c], file, false) else (c :: (fgets n file).1, (fgets n file).2)

/-- The reads of at most `rounds` rounds of `while (!feof(file)) fgets(...)`. -/
def fgetsRounds (n : ℕ) : ℕ → List Char → List (List Char)
  | 0, _ => []
  | rounds + 1, file =>
      (fgets n file).1 :: if (fgets n file).2.2 then [] else fgetsRounds n rounds (fgets n file).2.1

/-- All reads of the loop; every read that does not meet the end takes a character. -/
def fgetsAll (n : ℕ) (file : List Char) : List (List Char) := fgetsRounds n (file.length + 1) file

/-- How a line ends; only the last line of a file may have no end. -/
inductive LineEnd where
  | lf
  | crlf
  | none
  deriving DecidableEq

/-- The characters of a line end. -/
def LineEnd.chars : LineEnd → List Char
  | .lf => ['\n']
  | .crlf => ['\r', '\n']
  | .none => []

/-- A line of a text. -/
structure TextLine where
  chars : List Char
  lineEnd : LineEnd
  plain : ∀ c ∈ chars, c ≠ '\n' ∧ c ≠ '\r' ∧ c ≠ endOfString

/-- A line with its end. -/
def TextLine.bytes (l : TextLine) : List Char := l.chars ++ l.lineEnd.chars

/-- Only the last line may have no end, and then it is not empty. -/
def EndedLines : List TextLine → Prop
  | [] => True
  | l :: lines => (l.lineEnd = .none → lines = [] ∧ l.chars ≠ []) ∧ EndedLines lines

/-- A text file. -/
structure TextFile where
  lines : List TextLine
  ended : EndedLines lines

/-- What is in the file. -/
def TextFile.contents (file : TextFile) : List Char := file.lines.flatMap TextLine.bytes

/-- The delimiters with which a line end is cut off. -/
def lineEnds : List Char := ['\r', '\n']

/-! ## One read -/

theorem fgets_line {t : List Char} (ht : '\n' ∉ t) {n : ℕ} (hn : t.length < n)
    (rest : List Char) : fgets n (t ++ '\n' :: rest) = (t ++ ['\n'], rest, false) := by
  induction t generalizing n with
  | nil =>
      cases n with
      | zero => exact absurd hn (Nat.not_lt_zero _)
      | succ n => rfl
  | cons c t ih =>
      obtain ⟨hc, ht⟩ := not_or.mp (List.mem_cons.not.mp ht)
      cases n with
      | zero => exact absurd hn (Nat.not_lt_zero _)
      | succ n =>
          rw [List.cons_append, fgets, if_neg (Ne.symm hc), ih ht (Nat.lt_of_succ_lt_succ hn)]
          rfl

theorem fgets_full {t : List Char} (ht : '\n' ∉ t) (rest : List Char) :
    fgets t.length (t ++ rest) = (t, rest, false) := by
  induction t with
  | nil => rfl
  | cons c t ih =>
      obtain ⟨hc, ht⟩ := not_or.mp (List.mem_cons.not.mp ht)
      rw [List.length_cons, List.cons_append, fgets, if_neg (Ne.symm hc), ih ht]

theorem fgets_end {t : List Char} (ht : '\n' ∉ t) {n : ℕ} (hn : t.length < n) :
    fgets n t = (t, [], true) := by
  induction t generalizing n with
  | nil =>
      cases n with
      | zero => exact absurd hn (Nat.not_lt_zero _)
      | succ n => rfl
  | cons c t ih =>
      obtain ⟨hc, ht⟩ := not_or.mp (List.mem_cons.not.mp ht)
      cases n with
      | zero => exact absurd hn (Nat.not_lt_zero _)
      | succ n => rw [fgets, if_neg (Ne.symm hc), ih ht (Nat.lt_of_succ_lt_succ hn)]

/-- A read leaves less of the file, unless it meets the end. -/
theorem length_fgets (n : ℕ) (file : List Char) :
    (fgets (n + 1) file).2.2 = true ∨ (fgets (n + 1) file).2.1.length < file.length := by
  induction file generalizing n with
  | nil => exact Or.inl rfl
  | cons c file ih =>
      rw [fgets]
      split_ifs with hc
      · exact Or.inr (Nat.lt_succ_self _)
      · cases n with
        | zero => exact Or.inr (Nat.lt_succ_self _)
        | succ n => exact (ih n).imp_right fun h ↦ h.trans (Nat.lt_succ_self _)

/-! ## Tokens and lines -/

theorem cString_eq_self {s : List Char} (h : endOfString ∉ s) : cString s = s := by
  refine List.takeWhile_eq_self_iff.mpr fun c hc ↦ decide_eq_true fun heq ↦ ?_
  exact h (heq ▸ hc)

/-- `strtok` cuts off what consists of delimiters. -/
theorem strtok_append {delim t e : List Char} (ht : ∀ c ∈ t, c ∉ delim) (he : ∀ c ∈ e, c ∈ delim)
    (hne : t ≠ []) : strtok delim (t ++ e) = (t, some t) := by
  obtain ⟨c, s, rfl⟩ := List.exists_cons_of_ne_nil hne
  have hc : ¬ decide (c ∈ delim) = true := by simpa using ht c List.mem_cons_self
  have hfound : (c :: s ++ e).dropWhile (· ∈ delim) = c :: s ++ e :=
    List.dropWhile_cons_of_neg hc
  have hstart : (c :: s ++ e).takeWhile (· ∈ delim) = [] := List.takeWhile_cons_of_neg hc
  have htoken : (c :: s ++ e).takeWhile (· ∉ delim) = c :: s := by
    rw [List.takeWhile_append_of_pos fun d hd ↦ decide_eq_true (ht d hd)]
    refine (congrArg _ (List.takeWhile_eq_nil_iff.mpr fun hpos ↦ ?_)).trans (List.append_nil _)
    simpa using he _ (List.getElem_mem hpos)
  simp only [strtok, hfound, hstart, htoken, List.nil_append]
  exact if_neg (List.cons_ne_nil _ _)

/-- Delimiters alone have no token and stay. -/
theorem strtok_delimiters {delim s : List Char} (h : ∀ c ∈ s, c ∈ delim) :
    strtok delim s = (s, none) := by
  have hfound : s.dropWhile (· ∈ delim) = [] :=
    List.dropWhile_eq_nil_iff.mpr fun c hc ↦ decide_eq_true (h c hc)
  simp only [strtok, hfound, if_true]

/-- A part of a line: its characters, and what it has of the line end. -/
structure IsPart (t e : List Char) : Prop where
  plain : ∀ c ∈ t, c ≠ '\n' ∧ c ≠ '\r' ∧ c ≠ endOfString
  ending : ∀ c ∈ e, c ∈ lineEnds

theorem TextLine.isPart (l : TextLine) : IsPart l.chars l.lineEnd.chars where
  plain := l.plain
  ending c hc := by
    cases h : l.lineEnd <;> rw [h] at hc
    · exact List.mem_cons_of_mem _ hc
    · exact hc
    · exact absurd hc List.not_mem_nil

section Part

variable {t e : List Char}

theorem IsPart.take (h : IsPart t e) (n : ℕ) : IsPart (t.take n) (e.take (n - t.length)) where
  plain c hc := h.plain c (List.mem_of_mem_take hc)
  ending c hc := h.ending c (List.mem_of_mem_take hc)

theorem IsPart.drop (h : IsPart t e) (n : ℕ) : IsPart (t.drop n) (e.drop (n - t.length)) where
  plain c hc := h.plain c (List.mem_of_mem_drop hc)
  ending c hc := h.ending c (List.mem_of_mem_drop hc)

theorem IsPart.endOfString_not_mem (h : IsPart t e) : endOfString ∉ t ++ e := by
  intro hmem
  rcases List.mem_append.mp hmem with hmem | hmem
  · exact (h.plain _ hmem).2.2 rfl
  · exact absurd (h.ending _ hmem) (by decide)

/-- `strtok` cuts the end off what is not empty. -/
theorem IsPart.strtok_lineEnds (h : IsPart t e) (hne : t ≠ []) :
    (strtok lineEnds (t ++ e)).1 = t := by
  rw [strtok_append (fun c hc ↦ ?_) h.ending hne]
  simpa [lineEnds] using And.intro (h.plain c hc).2.1 (h.plain c hc).1

end Part

/-- A line is a C string. -/
theorem TextLine.cString_bytes (l : TextLine) : cString l.bytes = l.bytes :=
  cString_eq_self l.isPart.endOfString_not_mem

/-- `strtok` cuts the end off a line that is not empty. -/
theorem TextLine.strtok_bytes {l : TextLine} (hl : l.chars ≠ []) :
    (strtok lineEnds l.bytes).1 = l.chars := l.isPart.strtok_lineEnds hl

/-- An empty line has no token and keeps its end. -/
theorem TextLine.strtok_bytes_of_nil {l : TextLine} (hl : l.chars = []) :
    (strtok lineEnds l.bytes).1 = l.lineEnd.chars := by
  rw [TextLine.bytes, hl, List.nil_append, strtok_delimiters l.isPart.ending]

/-! ## The reads of a file -/

theorem fgetsRounds_eq {n : ℕ} {file : List Char} {rounds rounds' : ℕ}
    (h : file.length < rounds) (h' : file.length < rounds') :
    fgetsRounds (n + 1) rounds file = fgetsRounds (n + 1) rounds' file := by
  induction rounds generalizing rounds' file with
  | zero => exact absurd h (Nat.not_lt_zero _)
  | succ rounds ih =>
      cases rounds' with
      | zero => exact absurd h' (Nat.not_lt_zero _)
      | succ rounds' =>
          rw [fgetsRounds, fgetsRounds]
          rcases length_fgets n file with hend | hless
          · rw [if_pos hend, if_pos hend]
          · rw [ih (hless.trans_le (Nat.lt_succ_iff.mp h)) (hless.trans_le (Nat.lt_succ_iff.mp h'))]

/-- The first round of the loop and the others. -/
theorem fgetsAll_eq (n : ℕ) (file : List Char) :
    fgetsAll (n + 1) file = (fgets (n + 1) file).1 ::
      if (fgets (n + 1) file).2.2 then [] else fgetsAll (n + 1) (fgets (n + 1) file).2.1 := by
  rw [fgetsAll, fgetsRounds]
  rcases length_fgets n file with hend | hless
  · rw [if_pos hend, if_pos hend]
  · rw [fgetsAll, fgetsRounds_eq hless (Nat.lt_succ_self _)]

theorem TextLine.newline_not_mem (l : TextLine) : '\n' ∉ l.chars := fun h ↦ (l.plain _ h).1 rfl

/-- The characters of a line before the newline. -/
theorem TextLine.exists_bytes_eq (l : TextLine) (hend : l.lineEnd ≠ .none) :
    ∃ t, '\n' ∉ t ∧ l.bytes = t ++ ['\n'] := by
  cases h : l.lineEnd with
  | lf => exact ⟨l.chars, l.newline_not_mem, by rw [TextLine.bytes, h]; rfl⟩
  | crlf =>
      refine ⟨l.chars ++ ['\r'], fun hmem ↦ ?_, by rw [TextLine.bytes, h, List.append_assoc]; rfl⟩
      rcases List.mem_append.mp hmem with hmem | hmem
      · exact l.newline_not_mem hmem
      · exact absurd (List.mem_singleton.mp hmem) (by decide)
  | none => exact absurd h hend

theorem TextLine.bytes_of_none {l : TextLine} (hend : l.lineEnd = .none) : l.bytes = l.chars := by
  rw [TextLine.bytes, hend]
  exact List.append_nil _

theorem TextLine.bytes_ne_nil (l : TextLine) {lines : List TextLine}
    (hended : EndedLines (l :: lines)) : l.bytes ≠ [] := by
  by_cases hend : l.lineEnd = .none
  · rw [l.bytes_of_none hend]
    exact (hended.1 hend).2
  · obtain ⟨t, -, hbytes⟩ := l.exists_bytes_eq hend
    rw [hbytes]
    exact List.append_ne_nil_of_right_ne_nil t (List.cons_ne_nil _ _)

/-- What is left of a line: up to its newline, or up to the end of the file. -/
def Unbroken (s rest : List Char) : Prop :=
  ('\n' ∉ s ∧ rest = []) ∨ ∃ t, '\n' ∉ t ∧ s = t ++ ['\n']

theorem TextLine.unbroken (l : TextLine) {rest : List Char}
    (hrest : l.lineEnd = .none → rest = []) : Unbroken l.bytes rest := by
  by_cases hend : l.lineEnd = .none
  · rw [l.bytes_of_none hend]
    exact Or.inl ⟨l.newline_not_mem, hrest hend⟩
  · exact Or.inr (l.exists_bytes_eq hend)

theorem Unbroken.drop {s rest : List Char} (h : Unbroken s rest) (n : ℕ) :
    s.drop n = [] ∨ Unbroken (s.drop n) rest := by
  obtain ⟨hmem, hrest⟩ | ⟨t, ht, rfl⟩ := h
  · exact Or.inr (Or.inl ⟨fun hdrop ↦ hmem (List.mem_of_mem_drop hdrop), hrest⟩)
  · rcases Nat.lt_or_ge t.length n with hlt | hge
    · refine Or.inl (List.drop_of_length_le ?_)
      rwa [List.length_append, List.length_singleton]
    · refine Or.inr (Or.inr ⟨t.drop n, fun hdrop ↦ ht (List.mem_of_mem_drop hdrop), ?_⟩)
      rw [List.drop_append_of_le_length hge]

/-- **One read of a line.** It takes as much of the line as the buffer holds; only the end of the
file ends the loop. -/
theorem fgetsAll_piece {n : ℕ} {s rest : List Char} (h : Unbroken s rest) :
    fgetsAll (n + 1) (s ++ rest) = s.take (n + 1) :: fgetsAll (n + 1) (s.drop (n + 1) ++ rest) ∨
      (fgetsAll (n + 1) (s ++ rest) = [s.take (n + 1)] ∧ s.drop (n + 1) ++ rest = []) := by
  by_cases hlong : n + 1 ≤ s.length
  · refine Or.inl ?_
    have hlength : (s.take (n + 1)).length = n + 1 := List.length_take_of_le hlong
    by_cases hnewline : '\n' ∈ s.take (n + 1)
    · -- only a line that just fits has its newline in the first piece
      obtain ⟨hmem, -⟩ | ⟨t, ht, rfl⟩ := h
      · exact absurd (List.mem_of_mem_take hnewline) hmem
      · have hexact : t.length = n := by
          by_contra hne
          have hle : n + 1 ≤ t.length := by
            rw [List.length_append, List.length_singleton] at hlong
            omega
          rw [List.take_append_of_le_length hle] at hnewline
          exact ht (List.mem_of_mem_take hnewline)
        have hfit : (t ++ ['\n']).length = n + 1 := by
          rw [List.length_append, List.length_singleton, hexact]
        rw [List.take_of_length_le hfit.le, List.drop_of_length_le hfit.le, List.nil_append,
          List.append_assoc, fgetsAll_eq, List.singleton_append,
          fgets_line ht (hexact ▸ Nat.lt_succ_self n)]
        rfl
    · have hfull := fgets_full hnewline (s.drop (n + 1) ++ rest)
      rw [hlength, ← List.append_assoc, List.take_append_drop] at hfull
      rw [fgetsAll_eq, hfull]
      rfl
  · have hshort : s.length ≤ n := Nat.le_of_lt_succ (not_le.mp hlong)
    obtain ⟨hmem, rfl⟩ | ⟨t, ht, rfl⟩ := h
    · refine Or.inr ⟨?_, ?_⟩
      · rw [List.take_of_length_le (hshort.trans n.le_succ), List.append_nil, fgetsAll_eq,
          fgets_end hmem (Nat.lt_succ_of_le hshort)]
        rfl
      · rw [List.drop_of_length_le (hshort.trans n.le_succ), List.append_nil]
    · refine Or.inl ?_
      have hlt : t.length < n + 1 := by
        rw [List.length_append, List.length_singleton] at hshort
        omega
      rw [List.take_of_length_le (hshort.trans n.le_succ),
        List.drop_of_length_le (hshort.trans n.le_succ), List.nil_append, List.append_assoc,
        fgetsAll_eq, List.singleton_append, fgets_line ht hlt]
      rfl

theorem head?_fgetsAll_piece {n : ℕ} {s rest : List Char} (h : Unbroken s rest) :
    (fgetsAll (n + 1) (s ++ rest)).head? = some (s.take (n + 1)) := by
  rcases fgetsAll_piece (n := n) h with heq | ⟨heq, -⟩ <;> rw [heq] <;> rfl

theorem fgetsAll_nil (n : ℕ) : fgetsAll (n + 1) [] = [[]] := rfl

/-- A line that fits into the buffer is one read. -/
theorem fgetsAll_line {n : ℕ} {l : TextLine} {rest : List Char} (hn : l.bytes.length ≤ n + 1)
    (hrest : l.lineEnd = .none → rest = []) :
    fgetsAll (n + 1) (l.bytes ++ rest) = l.bytes :: fgetsAll (n + 1) rest ∨
      (fgetsAll (n + 1) (l.bytes ++ rest) = [l.bytes] ∧ rest = []) := by
  have hpiece := fgetsAll_piece (n := n) (l.unbroken hrest)
  rwa [List.take_of_length_le hn, List.drop_of_length_le hn, List.nil_append] at hpiece

/-- **The reads of a text whose lines fit.** One for each line, and perhaps one that takes
nothing. -/
theorem fgetsAll_contents {n : ℕ} (file : TextFile)
    (hn : ∀ l ∈ file.lines, l.bytes.length ≤ n + 1) :
    fgetsAll (n + 1) file.contents = file.lines.map TextLine.bytes ∨
      fgetsAll (n + 1) file.contents = file.lines.map TextLine.bytes ++ [[]] := by
  obtain ⟨lines, hended⟩ := file
  rw [TextFile.contents]
  induction lines with
  | nil => exact Or.inr (fgetsAll_nil n)
  | cons l lines ih =>
      obtain ⟨hl, hlines⟩ := List.forall_mem_cons.mp hn
      have hrest : l.lineEnd = .none → lines.flatMap TextLine.bytes = [] := fun hend ↦ by
        rw [(hended.1 hend).1, List.flatMap_nil]
      rw [List.flatMap_cons, List.map_cons, List.cons_append]
      rcases fgetsAll_line hl hrest with heq | ⟨heq, hnil⟩
      · rw [heq]
        exact (ih hended.2 hlines).imp (congrArg _) (congrArg _)
      · have hlast : lines = [] := by
          cases lines with
          | nil => rfl
          | cons k lines =>
              obtain ⟨hk, -⟩ := List.append_eq_nil_iff.mp ((List.flatMap_cons ..).symm.trans hnil)
              exact absurd hk (k.bytes_ne_nil hended.2)
        rw [heq, hlast]
        exact Or.inl rfl

end Vsys.Io
