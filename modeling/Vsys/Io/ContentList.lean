import Mathlib.Data.List.DropRight
import Vsys.Io.TextFile

/-!
# The lines of a list file

`GetFileContentLst` lists the lines of a text without their ends and trailing blanks.  An empty line
keeps its line end, since `strtok` finds no token in it, and is listed; for a line of blanks only the
loop that takes the blanks off goes on before the buffer.  So the list is right exactly for the files
in which every line has a character that is not blank.
-/

namespace Vsys.Io

/-! ## The function -/

/-- The loop that takes blanks off the end, over the line from its end; no result when it reads the
character before the buffer. -/
def takeBlanksOff : List Char → Option (List Char)
  | [] => none
  | c :: line => if c = ' ' then takeBlanksOff line else some (c :: line)

/-- What the loop makes of one read: the line that is pushed back, if any. -/
def contentRound (read : List Char) : Option (List (List Char)) := do
  let line := (strtok lineEnds (cString read)).1
  let line ← if line.length > 0 then (takeBlanksOff line.reverse).map List.reverse else some line
  return if line.length > 0 then [line] else []

/-- The loop over the reads of a file. -/
def contentRounds : List (List Char) → Option (List (List Char))
  | [] => some []
  | read :: reads => do
      let line ← contentRound read
      let lines ← contentRounds reads
      return line ++ lines

/-- `GetFileContentLst`, for a file that may be missing. -/
def getFileContentLst : Option (List Char) → Option (List (List Char))
  | none => some []
  | some file => contentRounds (fgetsAll (5120 - 1) file)

/-! ## One line -/

/-- The line without its trailing blanks. -/
def TextLine.content (l : TextLine) : List Char := l.chars.rdropWhile (· = ' ')

/-- A line with a character that is not blank. -/
def TextLine.HasContent (l : TextLine) : Prop := ∃ c ∈ l.chars, c ≠ ' '

instance (l : TextLine) : Decidable l.HasContent := List.decidableBEx (· ≠ ' ') l.chars

theorem takeBlanksOff_of_exists {line : List Char} (h : ∃ c ∈ line, c ≠ ' ') :
    takeBlanksOff line = some (line.dropWhile (· = ' ')) := by
  induction line with
  | nil => exact absurd h (by simp)
  | cons c line ih =>
      rw [takeBlanksOff, List.dropWhile_cons]
      by_cases hc : c = ' '
      · rw [if_pos hc, if_pos (decide_eq_true hc)]
        obtain ⟨d, hd, hne⟩ := h
        refine ih ⟨d, (List.mem_cons.mp hd).resolve_left fun heq ↦ hne (heq.trans hc), hne⟩
      · rw [if_neg hc, if_neg (by simpa using hc)]

theorem takeBlanksOff_of_forall {line : List Char} (h : ∀ c ∈ line, c = ' ') :
    takeBlanksOff line = none := by
  induction line with
  | nil => rfl
  | cons c line ih =>
      obtain ⟨hc, hline⟩ := List.forall_mem_cons.mp h
      rw [takeBlanksOff, if_pos hc, ih hline]

theorem TextLine.HasContent.content_ne_nil {l : TextLine} (h : l.HasContent) : l.content ≠ [] := by
  obtain ⟨c, hc, hne⟩ := h
  rw [TextLine.content, Ne, List.rdropWhile_eq_nil_iff]
  exact fun hall ↦ hne (of_decide_eq_true (hall c hc))

theorem TextLine.HasContent.contentRound {l : TextLine} (h : l.HasContent) :
    contentRound l.bytes = some [l.content] := by
  obtain ⟨c, hc, hne⟩ := h
  have hchars : l.chars ≠ [] := List.ne_nil_of_mem hc
  have hoff : takeBlanksOff l.chars.reverse = some (l.chars.reverse.dropWhile (· = ' ')) :=
    takeBlanksOff_of_exists ⟨c, List.mem_reverse.mpr hc, hne⟩
  have hpos : 0 < l.content.length :=
    List.length_pos_of_ne_nil (TextLine.HasContent.content_ne_nil ⟨c, hc, hne⟩)
  rw [Io.contentRound, l.cString_bytes, TextLine.strtok_bytes hchars]
  simp only [if_pos (List.length_pos_of_ne_nil hchars), hoff, Option.map_some,
    Option.bind_eq_bind, Option.bind_some]
  exact congrArg some (if_pos hpos)

/-- A line of blanks: the character before the buffer is read. -/
theorem contentRound_of_blanks {l : TextLine} (hchars : l.chars ≠ []) (h : ¬ l.HasContent) :
    contentRound l.bytes = none := by
  have hall : ∀ c ∈ l.chars.reverse, c = ' ' := fun c hc ↦
    not_not.mp fun hne ↦ h ⟨c, List.mem_reverse.mp hc, hne⟩
  rw [contentRound, l.cString_bytes, TextLine.strtok_bytes hchars]
  simp only [if_pos (List.length_pos_of_ne_nil hchars), takeBlanksOff_of_forall hall]
  rfl

/-- An empty line: its end is listed. -/
theorem contentRound_of_nil {l : TextLine} (hchars : l.chars = []) (hend : l.lineEnd ≠ .none) :
    contentRound l.bytes = some [l.lineEnd.chars] := by
  rw [contentRound, l.cString_bytes, TextLine.strtok_bytes_of_nil hchars]
  cases h : l.lineEnd with
  | lf => rfl
  | crlf => rfl
  | none => exact absurd h hend

/-! ## The list -/

/-- The lines of a text that have content, without their trailing blanks. -/
def TextFile.contentLines (file : TextFile) : List (List Char) :=
  (file.lines.filter (·.HasContent)).map TextLine.content

theorem contentRounds_append_nil (reads : List (List Char)) :
    contentRounds (reads ++ [[]]) = contentRounds reads := by
  induction reads with
  | nil => rfl
  | cons read reads ih => rw [List.cons_append, contentRounds, contentRounds, ih]

theorem contentRounds_of_content {lines : List TextLine} (h : ∀ l ∈ lines, l.HasContent) :
    contentRounds (lines.map TextLine.bytes) = some (lines.map TextLine.content) := by
  induction lines with
  | nil => rfl
  | cons l lines ih =>
      obtain ⟨hl, hlines⟩ := List.forall_mem_cons.mp h
      rw [List.map_cons, contentRounds, hl.contentRound, ih hlines]
      rfl

/-- A line without content spoils the list: there is none, or a line end is in it. -/
theorem newline_mem_contentRounds {lines : List TextLine} (hended : EndedLines lines)
    {l : TextLine} (hl : l ∈ lines) (h : ¬ l.HasContent) {listed : List (List Char)}
    (hlisted : contentRounds (lines.map TextLine.bytes) = some listed) :
    ∃ s ∈ listed, '\n' ∈ s := by
  induction lines generalizing listed with
  | nil => exact absurd hl List.not_mem_nil
  | cons k lines ih =>
      rw [List.map_cons, contentRounds] at hlisted
      obtain ⟨line, hline, hlisted⟩ := Option.bind_eq_some_iff.mp hlisted
      obtain ⟨later, hlater, heq⟩ := Option.bind_eq_some_iff.mp hlisted
      rw [← Option.some.inj heq]
      rcases List.mem_cons.mp hl with rfl | hl
      · by_cases hchars : l.chars = []
        · have hend : l.lineEnd ≠ .none := fun hnone ↦ (hended.1 hnone).2 hchars
          rw [contentRound_of_nil hchars hend] at hline
          rw [← Option.some.inj hline]
          refine ⟨l.lineEnd.chars, List.mem_append_left _ (List.mem_singleton.mpr rfl), ?_⟩
          cases hcase : l.lineEnd with
          | lf => decide
          | crlf => decide
          | none => exact absurd hcase hend
        · rw [contentRound_of_blanks hchars h] at hline
          exact absurd hline (Option.some_ne_none line).symm
      · obtain ⟨s, hs, hmem⟩ := ih hended.2 hl hlater
        exact ⟨s, List.mem_append_right _ hs, hmem⟩

theorem newline_not_mem_contentLines (file : TextFile) : ∀ s ∈ file.contentLines, '\n' ∉ s := by
  intro s hs hmem
  obtain ⟨l, -, rfl⟩ := List.mem_map.mp hs
  exact l.newline_not_mem ((List.rdropWhile_prefix _ _).subset hmem)

/-- **The list of a file's lines.** For a text whose lines fit into the buffer, the list is that of
the lines with content, and no character before the buffer is read, exactly if every line of the text
has content. -/
theorem getFileContentLst_iff (file : TextFile)
    (hshort : ∀ l ∈ file.lines, l.bytes.length < 5120) :
    getFileContentLst (some file.contents) = some file.contentLines ↔
      ∀ l ∈ file.lines, ∃ c ∈ l.chars, c ≠ ' ' := by
  have hreads : getFileContentLst (some file.contents) =
      contentRounds (file.lines.map TextLine.bytes) := by
    have hfits : ∀ l ∈ file.lines, l.bytes.length ≤ 5118 + 1 := fun l hl ↦
      Nat.le_of_lt_succ (hshort l hl)
    rw [getFileContentLst]
    rcases fgetsAll_contents file hfits with heq | heq
    · rw [heq]
    · rw [heq, contentRounds_append_nil]
  rw [hreads]
  constructor
  · intro heq l hl
    by_contra hcontent
    obtain ⟨s, hs, hmem⟩ := newline_mem_contentRounds file.ended hl hcontent heq
    exact newline_not_mem_contentLines file s hs hmem
  · intro hall
    have hfilter : file.lines.filter (·.HasContent) = file.lines :=
      List.filter_eq_self.mpr fun l hl ↦ decide_eq_true (hall l hl)
    rw [contentRounds_of_content hall, TextFile.contentLines, hfilter]

/-- Two lines with content, the last without an end. -/
def listFile : TextFile where
  lines := [⟨['a', ' '], .crlf, by simp [endOfString]⟩, ⟨[' ', 'b'], .none, by simp [endOfString]⟩]
  ended := ⟨nofun, ⟨fun _ ↦ ⟨rfl, List.cons_ne_nil _ _⟩, trivial⟩⟩

theorem getFileContentLst_listFile :
    getFileContentLst (some listFile.contents) = some listFile.contentLines ∧
      listFile.contentLines = [['a'], [' ', 'b']] := by
  have hshort : ∀ l ∈ listFile.lines, l.bytes.length < 5120 := by
    simp [listFile, TextLine.bytes, LineEnd.chars]
  have hcontent : ∀ l ∈ listFile.lines, ∃ c ∈ l.chars, c ≠ ' ' := by simp [listFile]
  exact ⟨(getFileContentLst_iff listFile hshort).mpr hcontent, rfl⟩

/-- A file with one empty line. -/
def emptyLine : TextFile where
  lines := [⟨[], .lf, nofun⟩]
  ended := ⟨nofun, trivial⟩

/-- A file with one line of blanks. -/
def blankLine : TextFile where
  lines := [⟨[' ', ' '], .lf, by simp [endOfString]⟩]
  ended := ⟨nofun, trivial⟩

theorem getFileContentLst_blank :
    ¬ getFileContentLst (some emptyLine.contents) = some emptyLine.contentLines ∧
      getFileContentLst (some emptyLine.contents) = some [['\n']] ∧
      getFileContentLst (some blankLine.contents) = none := by
  have hempty : getFileContentLst (some emptyLine.contents) = some [['\n']] := rfl
  have hnothing : emptyLine.contentLines = [] := rfl
  refine ⟨?_, hempty, rfl⟩
  rw [hempty, hnothing]
  simp

end Vsys.Io
