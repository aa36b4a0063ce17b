import Vsys.Felib.IniParser

/-!
# Loading a configuration

A line goes on behind a backslash, and the buffer holds the whole of it.  Loading lines that fit
makes the map that the lines describe one after the other.  A line that is neither a setting nor a
section, nor empty or a comment, is an error; the next setting or section forgets it, so that only
an error behind them refuses the file.
-/

namespace Vsys.Felib

open Vsys.Io Vsys.Trace

/-! ## Rounds of reading -/

theorem fgets_append (n : ℕ) (file : List Char) :
    (fgets n file).1 ++ (fgets n file).2.1 = file := by
  induction file generalizing n with
  | nil => cases n <;> rfl
  | cons c file ih =>
      cases n with
      | zero => rfl
      | succ n =>
          rw [fgets]
          split_ifs
          · rfl
          · exact congrArg (c :: ·) (ih n)

theorem length_fgets_lt {n : ℕ} {file : List Char} (h : (fgets n file).1 ≠ []) :
    (fgets n file).2.1.length < file.length := by
  have hlength := congrArg List.length (fgets_append n file)
  rw [List.length_append] at hlength
  have hpos := List.length_pos_of_ne_nil h
  omega

theorem iniRounds_eq {rounds rounds' : ℕ} {s : LoadState} {file : List Char}
    (h : file.length < rounds) (h' : file.length < rounds') :
    iniRounds rounds s file = iniRounds rounds' s file := by
  induction rounds generalizing rounds' s file with
  | zero => exact absurd h (Nat.not_lt_zero _)
  | succ rounds ih =>
      cases rounds' with
      | zero => exact absurd h' (Nat.not_lt_zero _)
      | succ rounds' =>
          rw [iniRounds, iniRounds]
          split_ifs with hpiece
          · rfl
          · have hless := length_fgets_lt hpiece
            refine congrArg (Option.bind _) (funext fun next ↦ ih ?_ ?_)
            · exact Nat.lt_of_lt_of_le hless (Nat.lt_succ_iff.mp h)
            · exact Nat.lt_of_lt_of_le hless (Nat.lt_succ_iff.mp h')

/-- The first round of the loop and the others. -/
theorem iniReads_eq (s : LoadState) (file : List Char)
    (h : (fgets (asciiLineSize - s.held.length - 1) file).1 ≠ []) :
    iniReads s file = (iniRound s (fgets (asciiLineSize - s.held.length - 1) file).1).bind
      fun s' ↦ iniReads s' (fgets (asciiLineSize - s.held.length - 1) file).2.1 := by
  rw [iniReads, iniRounds]
  refine (if_neg h).trans (congrArg (Option.bind _) (funext fun next ↦ ?_))
  exact iniRounds_eq (length_fgets_lt h) (Nat.lt_succ_self _)

theorem iniReads_nil (s : LoadState) : iniReads s [] = some s := by
  have hnone : (fgets (asciiLineSize - s.held.length - 1) []).1 = [] := by
    cases asciiLineSize - s.held.length - 1 <;> rfl
  rw [iniReads, List.length_nil, iniRounds]
  exact if_pos hnone

/-- A line that fits is one round. -/
theorem iniReads_line {s : LoadState} {t : List Char} (ht : '\n' ∉ t)
    (hfits : s.held.length + t.length + 1 < asciiLineSize) (rest : List Char) :
    iniReads s (t ++ '\n' :: rest) =
      (iniRound s (t ++ ['\n'])).bind fun s' ↦ iniReads s' rest := by
  have hread : fgets (asciiLineSize - s.held.length - 1) (t ++ '\n' :: rest) =
      (t ++ ['\n'], rest, false) := fgets_line ht (by omega) rest
  have hne : (fgets (asciiLineSize - s.held.length - 1) (t ++ '\n' :: rest)).1 ≠ [] := by
    rw [hread]
    exact List.append_ne_nil_of_right_ne_nil t (List.cons_ne_nil _ _)
  rw [iniReads_eq s _ hne, hread]

/-! ## Blanks -/

theorem rdropWhile_of_blanks {s t : List Char} (ht : ∀ c ∈ t, isspace c = true) :
    (s ++ t).rdropWhile isspace = s.rdropWhile isspace := by
  induction t using List.reverseRecOn with
  | nil => rw [List.append_nil]
  | append_singleton t c ih =>
      have hc : isspace c = true := ht c (List.mem_append_right _ (List.mem_singleton_self c))
      rw [← List.append_assoc, List.rdropWhile_concat_pos _ _ _ hc]
      exact ih fun d hd ↦ ht d (List.mem_append_left _ hd)

/-- What is cut off at the end is cut off by `strstrip` as well. -/
theorem strstrip_rdropWhile (s : List Char) : strstrip (s.rdropWhile isspace) = strstrip s := by
  induction s using List.reverseRecOn with
  | nil => rfl
  | append_singleton s c ih =>
      by_cases hc : isspace c = true
      · rw [List.rdropWhile_concat_pos _ _ _ hc, ih, strstrip, strstrip]
        by_cases hall : ∀ d ∈ s, isspace d = true
        · have hdrop : (s ++ [c]).dropWhile isspace = [] := by
            rw [List.dropWhile_eq_nil_iff]
            intro d hd
            rcases List.mem_append.mp hd with hd | hd
            · exact hall d hd
            · exact List.mem_singleton.mp hd ▸ hc
          rw [List.dropWhile_eq_nil_iff.mpr hall, hdrop]
        · have hdrop : (s ++ [c]).dropWhile isspace = s.dropWhile isspace ++ [c] := by
            rw [List.dropWhile_append, if_neg]
            rw [List.isEmpty_iff, List.dropWhile_eq_nil_iff]
            exact hall
          rw [hdrop, List.rdropWhile_concat_pos _ _ _ hc]
      · rw [List.rdropWhile_concat_neg _ _ _ hc]

theorem iniparserLine_rdropWhile (current line : List Char) :
    iniparserLine current (line.rdropWhile isspace) = iniparserLine current line := by
  rw [iniparserLine, iniparserLine, strstrip_rdropWhile]

theorem LoadState.read_rdropWhile (s : LoadState) (line : List Char) :
    s.read (line.rdropWhile isspace) = s.read line := by
  rw [LoadState.read, LoadState.read, iniparserLine_rdropWhile]

/-! ## Lines -/

/-- A line: the parts that end with a backslash, and the last one. -/
structure IniLine where
  before : List (List Char)
  last : List Char

/-- The line in the file. -/
def IniLine.text (l : IniLine) : List Char :=
  l.before.flatMap (· ++ ['\\', '\n']) ++ (l.last ++ ['\n'])

/-- What it says. -/
def IniLine.chars (l : IniLine) : List Char := l.before.flatten ++ l.last

@[simp]
theorem IniLine.chars_single (line : List Char) : (IniLine.mk [] line).chars = line := rfl

/-- The line fits into the buffer and ends where it ends.  A line of blanks alone is not one of
these. -/
structure IniLine.Fits (l : IniLine) : Prop where
  plain : ∀ c ∈ l.chars, c ≠ '\n' ∧ c ≠ endOfString
  seen : l.chars = [] ∨ ∃ c ∈ l.chars, isspace c = false
  ended : (l.chars.rdropWhile isspace).getLast? ≠ some '\\'
  room : l.before.flatten.length + 2 < asciiLineSize ∧ l.chars.length + 1 < asciiLineSize

/-- The part of a line goes on behind a backslash. -/
theorem iniRound_continued {s : LoadState} {p : List Char} (hp : endOfString ∉ s.held ++ p) :
    iniRound s (p ++ ['\\'] ++ ['\n']) = some { s with held := s.held ++ p } := by
  have hline : cString (s.held ++ (p ++ ['\\'] ++ ['\n'])) = s.held ++ p ++ ['\\'] ++ ['\n'] := by
    rw [← List.append_assoc, ← List.append_assoc]
    apply cString_eq_self
    intro hmem
    rcases List.mem_append.mp hmem with hmem | hmem
    · rcases List.mem_append.mp hmem with hmem | hmem
      · exact hp hmem
      · exact absurd (List.mem_singleton.mp hmem) (by decide)
    · exact absurd (List.mem_singleton.mp hmem) (by decide)
  have hlong : ¬ (s.held ++ p ++ ['\\'] ++ ['\n']).length ≤ 1 := by
    rw [List.length_append, List.length_append, List.length_singleton, List.length_singleton]
    omega
  have hcut : (s.held ++ p ++ ['\\'] ++ ['\n']).rdropWhile isspace = s.held ++ p ++ ['\\'] := by
    rw [List.rdropWhile_concat_pos _ _ _ (by decide), List.rdropWhile_concat_neg _ _ _ (by decide)]
  rw [iniRound]
  simp only [hline, hcut]
  rw [if_neg hlong, if_neg (by simp), if_pos List.getLast?_concat, List.dropLast_concat]

/-- The last part of a line. -/
theorem iniRound_last {s : LoadState} {p : List Char} (hp : endOfString ∉ s.held ++ p)
    (hended : ((s.held ++ p).rdropWhile isspace).getLast? ≠ some '\\') :
    iniRound s (p ++ ['\n']) = some (s.read (s.held ++ p)) := by
  have hline : cString (s.held ++ (p ++ ['\n'])) = s.held ++ p ++ ['\n'] := by
    rw [← List.append_assoc]
    apply cString_eq_self
    intro hmem
    rcases List.mem_append.mp hmem with hmem | hmem
    · exact hp hmem
    · exact absurd (List.mem_singleton.mp hmem) (by decide)
  have hcut : (s.held ++ p ++ ['\n']).rdropWhile isspace = (s.held ++ p).rdropWhile isspace :=
    List.rdropWhile_concat_pos _ _ _ (by decide)
  rw [iniRound]
  simp only [hline, hcut]
  split_ifs with hshort hnewline
  · -- nothing before the newline
    have hnil : s.held ++ p = [] := by
      rw [List.length_append, List.length_singleton] at hshort
      exact List.length_eq_zero_iff.mp (by omega)
    have hheld : s.held = [] := (List.append_eq_nil_iff.mp hnil).1
    rw [hnil]
    exact congrArg (fun held ↦ some { s with held := held }) hheld
  · exact absurd List.getLast?_concat hnewline
  · rw [LoadState.read_rdropWhile]

@[simp]
theorem LoadState.read_held (s : LoadState) (line : List Char) : (s.read line).held = [] := by
  rw [LoadState.read]
  split <;> rfl

theorem LoadState.read_with_held (s : LoadState) (held line : List Char) :
    LoadState.read { s with held := held } line = s.read line := by
  rw [LoadState.read, LoadState.read]

theorem iniReads_parts {before : List (List Char)} {last : List Char} {s : LoadState}
    (hplain : ∀ c ∈ s.held ++ before.flatten ++ last, c ≠ '\n' ∧ c ≠ endOfString)
    (hended : ((s.held ++ before.flatten ++ last).rdropWhile isspace).getLast? ≠ some '\\')
    (hbefore : (s.held ++ before.flatten).length + 2 < asciiLineSize)
    (hlast : (s.held ++ before.flatten ++ last).length + 1 < asciiLineSize) (rest : List Char) :
    iniReads s (before.flatMap (· ++ ['\\', '\n']) ++ (last ++ '\n' :: rest)) =
      iniReads (s.read (s.held ++ before.flatten ++ last)) rest := by
  induction before generalizing s with
  | nil =>
      simp only [List.flatten_nil, List.append_nil] at hplain hended hlast
      have hnewline : '\n' ∉ last := fun hmem ↦
        (hplain _ (List.mem_append_right _ hmem)).1 rfl
      have hend : endOfString ∉ s.held ++ last := fun hmem ↦ (hplain _ hmem).2 rfl
      rw [List.length_append] at hlast
      rw [List.flatMap_nil, List.nil_append, iniReads_line hnewline hlast,
        iniRound_last hend hended, List.flatten_nil, List.append_nil]
      rfl
  | cons p before ih =>
      simp only [List.flatten_cons, ← List.append_assoc] at hplain hended hbefore hlast
      have hmem : ∀ c ∈ s.held ++ p, c ∈ s.held ++ p ++ before.flatten ++ last := fun c hc ↦
        List.mem_append_left _ (List.mem_append_left _ hc)
      have hnewline : '\n' ∉ p ++ ['\\'] := by
        intro hc
        rcases List.mem_append.mp hc with hc | hc
        · exact (hplain _ (hmem _ (List.mem_append_right _ hc))).1 rfl
        · exact absurd (List.mem_singleton.mp hc) (by decide)
      have hend : endOfString ∉ s.held ++ p := fun hc ↦ (hplain _ (hmem _ hc)).2 rfl
      have hroom : s.held.length + (p ++ ['\\']).length + 1 < asciiLineSize := by
        rw [List.length_append, List.length_append] at hbefore
        rw [List.length_append, List.length_singleton]
        omega
      have hsplit : (p :: before).flatMap (· ++ ['\\', '\n']) ++ (last ++ '\n' :: rest) =
          p ++ ['\\'] ++
            '\n' :: (before.flatMap (· ++ ['\\', '\n']) ++ (last ++ '\n' :: rest)) := by
        simp only [List.flatMap_cons, List.append_assoc, List.cons_append, List.nil_append]
      rw [hsplit, iniReads_line hnewline hroom, iniRound_continued hend, Option.bind_some,
        ih hplain hended hbefore hlast, LoadState.read_with_held, List.flatten_cons,
        ← List.append_assoc s.held p]

/-- A line is read as what it says. -/
theorem iniReads_text {l : IniLine} (h : l.Fits) {s : LoadState} (hs : s.held = [])
    (rest : List Char) : iniReads s (l.text ++ rest) = iniReads (s.read l.chars) rest := by
  have hchars : s.held ++ l.before.flatten ++ l.last = l.chars := by
    rw [hs]
    rfl
  have hbefore : (s.held ++ l.before.flatten).length + 2 < asciiLineSize := by
    rw [hs]
    exact h.room.1
  calc
    iniReads s (l.text ++ rest) =
        iniReads s (l.before.flatMap (· ++ ['\\', '\n']) ++ (l.last ++ '\n' :: rest)) := by
      rw [IniLine.text, List.append_assoc, List.append_assoc]
      rfl
    _ = iniReads (s.read (s.held ++ l.before.flatten ++ l.last)) rest :=
      iniReads_parts (hchars ▸ h.plain) (hchars ▸ h.ended) hbefore (hchars ▸ h.room.2) rest
    _ = iniReads (s.read l.chars) rest := by rw [hchars]

/-- Reading the lines of a file. -/
theorem iniReads_lines {lines : List IniLine} (h : ∀ l ∈ lines, l.Fits) {s : LoadState}
    (hs : s.held = []) (rest : List Char) :
    iniReads s (lines.flatMap IniLine.text ++ rest) =
      iniReads (run (fun s l ↦ s.read l.chars) s lines) rest := by
  induction lines generalizing s with
  | nil => rfl
  | cons l lines ih =>
      obtain ⟨hl, hlines⟩ := List.forall_mem_cons.mp h
      rw [List.flatMap_cons, List.append_assoc, iniReads_text hl hs, run_cons]
      exact ih hlines (s.read_held _)

/-! ## What the lines say -/

/-- The map that lines describe, the section they are in, and whether the last thing that they have
said is an error. -/
structure Described where
  current : List Char
  entries : Entries
  bad : Bool

/-- A line is read on. -/
def Described.read (m : Described) (line : List Char) : Described :=
  match iniparserLine m.current line with
  | .empty => m
  | .comment => m
  | .section name =>
      { current := name, entries := Function.update m.entries name (some none), bad := false }
  | .value key val =>
      { m with
        entries := Function.update m.entries (m.current ++ ':' :: key) (some (some val))
        bad := false }
  | .error => { m with bad := true }

/-- Before any line. -/
def Described.nothing : Described := { current := [], entries := fun _ ↦ none, bad := false }

/-- The map of a file. -/
def described (lines : List IniLine) : Described :=
  run (fun m l ↦ m.read l.chars) .nothing lines

/-- The state holds what has been described. -/
structure LoadState.Means (s : LoadState) (m : Described) : Prop where
  holds : s.dict.Holds m.entries
  current_eq : s.current = m.current
  errs_iff : s.errs = 0 ↔ m.bad = false

theorem means_initial : LoadState.initial.Means .nothing where
  holds := Dictionary.holds_new 0
  current_eq := rfl
  errs_iff := iff_of_true rfl rfl

theorem LoadState.Means.read {s : LoadState} {m : Described} (h : s.Means m) (line : List Char) :
    (s.read line).Means (m.read line) := by
  rw [LoadState.read, Described.read, h.current_eq]
  cases iniparserLine m.current line with
  | empty => exact ⟨h.holds, rfl, h.errs_iff⟩
  | comment => exact ⟨h.holds, rfl, h.errs_iff⟩
  | «section» name => exact ⟨h.holds.set none name, rfl, iff_of_true rfl rfl⟩
  | value key val => exact ⟨h.holds.set (some val) _, rfl, iff_of_true rfl rfl⟩
  | error => exact ⟨h.holds, rfl, iff_of_false (Nat.succ_ne_zero _) Bool.noConfusion⟩

theorem LoadState.Means.run {s : LoadState} {m : Described} (h : s.Means m)
    (lines : List IniLine) :
    (Trace.run (fun s l ↦ LoadState.read s l.chars) s lines).Means
      (Trace.run (fun m l ↦ m.read l.chars) m lines) := by
  induction lines generalizing s m with
  | nil => exact h
  | cons l lines ih => exact ih (h.read l.chars)

/-! ## Errors -/

/-- A line that is an error, in whatever section. -/
def Refused (line : List Char) : Prop := iniparserLine [] line = .error

/-- A line that gives a section or a value. -/
def Sets (line : List Char) : Prop :=
  (∃ name, iniparserLine [] line = .section name) ∨
    ∃ key val, iniparserLine [] line = .value key val

/-- The section decides at most the name of a section. -/
theorem iniparserLine_current (current line : List Char) :
    iniparserLine current line = iniparserLine [] line ∨
      (∃ name, iniparserLine current line = .section name) ∧
        ∃ name, iniparserLine [] line = .section name := by
  rw [iniparserLine, iniparserLine]
  split_ifs
  · exact .inl rfl
  · exact .inl rfl
  · exact .inr ⟨⟨_, rfl⟩, _, rfl⟩
  · exact .inl rfl

theorem Described.bad_read_of_refused (m : Described) {line : List Char} (h : Refused line) :
    (m.read line).bad = true := by
  rcases iniparserLine_current m.current line with heq | ⟨-, name, hname⟩
  · rw [Described.read, heq, h]
  · exact absurd (h.symm.trans hname) Line.noConfusion

theorem Described.bad_read_of_sets (m : Described) {line : List Char} (h : Sets line) :
    (m.read line).bad = false := by
  rcases iniparserLine_current m.current line with heq | ⟨⟨name, hname⟩, -⟩
  · rcases h with ⟨name, hname⟩ | ⟨key, val, hval⟩
    · rw [Described.read, heq, hname]
    · rw [Described.read, heq, hval]
  · rw [Described.read, hname]

theorem Described.bad_read_of_neither (m : Described) {line : List Char} (hr : ¬ Refused line)
    (hs : ¬ Sets line) : (m.read line).bad = m.bad := by
  rcases iniparserLine_current m.current line with heq | ⟨-, hname⟩
  · rw [Described.read, heq]
    cases hline : iniparserLine [] line with
    | empty => rfl
    | comment => rfl
    | «section» name => exact absurd (.inl ⟨name, hline⟩) hs
    | value key val => exact absurd (.inr ⟨key, val, hline⟩) hs
    | error => exact absurd hline hr
  · exact absurd (.inl hname) hs

/-- The last thing said is an error. -/
theorem described_bad_iff (lines : List IniLine) :
    (described lines).bad = true ↔
      ∃ first l later, lines = first ++ l :: later ∧ Refused l.chars ∧
        ∀ l' ∈ later, ¬ Sets l'.chars := by
  refine (run_flag_iff (fun m : Described ↦ m.bad = true) (fun l : IniLine ↦ Refused l.chars)
    (fun l ↦ Sets l.chars) (fun m l h ↦ m.bad_read_of_refused h) (fun m l h ↦ ?_)
    (fun m l hr hs ↦ ?_) .nothing lines).trans (or_iff_right fun h ↦ Bool.noConfusion h.1)
  · rw [m.bad_read_of_sets h]
    exact Bool.noConfusion
  · rw [m.bad_read_of_neither hr hs]

/-! ## Loading -/

theorem iniparserLoad_eq {lines : List IniLine} (h : ∀ l ∈ lines, l.Fits) :
    ∃ s : LoadState, s.Means (described lines) ∧
      iniparserLoad (lines.flatMap IniLine.text) = if s.errs = 0 then some s.dict else none := by
  have hreads := iniReads_lines h (s := .initial) rfl []
  rw [List.append_nil, iniReads_nil] at hreads
  exact ⟨_, means_initial.run lines, by rw [iniparserLoad, hreads]⟩

theorem iniparserLoad_of_good {lines : List IniLine} (h : ∀ l ∈ lines, l.Fits)
    (hgood : (described lines).bad = false) :
    ∃ d, iniparserLoad (lines.flatMap IniLine.text) = some d ∧
      d.Holds (described lines).entries := by
  obtain ⟨s, hmeans, hload⟩ := iniparserLoad_eq h
  exact ⟨s.dict, hload.trans (if_pos (hmeans.errs_iff.mpr hgood)), hmeans.holds⟩

theorem iniparserLoad_of_bad {lines : List IniLine} (h : ∀ l ∈ lines, l.Fits)
    (hbad : (described lines).bad = true) :
    iniparserLoad (lines.flatMap IniLine.text) = none := by
  obtain ⟨s, hmeans, hload⟩ := iniparserLoad_eq h
  refine hload.trans (if_neg fun herrs ↦ ?_)
  exact Bool.noConfusion (hbad.symm.trans (hmeans.errs_iff.mp herrs))

/-- A test of the characters of a line. -/
theorem forall_mem_of_all {p : Char → Prop} [DecidablePred p] {l : List Char}
    (h : l.all (fun c ↦ decide (p c)) = true) : ∀ c ∈ l, p c := fun c hc ↦
  of_decide_eq_true (List.all_eq_true.mp h c hc)

/-- A section and a value on two lines. -/
def twoLines : List IniLine :=
  [⟨[], "[S]".toList⟩, ⟨["Key = a".toList], "b ; c".toList⟩]

theorem twoLines_fits : ∀ l ∈ twoLines, l.Fits := by
  intro l hl
  rcases List.mem_cons.mp hl with rfl | hl
  · exact ⟨forall_mem_of_all rfl, .inr ⟨'S', by decide, rfl⟩, by decide, by decide⟩
  · rw [List.mem_singleton.mp hl]
    exact ⟨forall_mem_of_all rfl, .inr ⟨'K', by decide, rfl⟩, by decide, by decide⟩

/-- The first piece of what has no newline early enough. -/
theorem fgets_broken {n : ℕ} {rest : List Char} (h : '\n' ∉ rest.take n) :
    (fgets n rest).1 = rest.take n := by
  rcases Nat.lt_or_ge rest.length n with hshort | hlong
  · have htake : rest.take n = rest := List.take_of_length_le (Nat.le_of_lt hshort)
    rw [htake] at h ⊢
    rw [fgets_end h hshort]
  · have hfull := fgets_full h (rest.drop n)
    rw [List.length_take_of_le hlong, List.take_append_drop] at hfull
    rw [hfull]

theorem held_run {s : LoadState} (hs : s.held = []) (lines : List IniLine) :
    (run (fun s l ↦ LoadState.read s l.chars) s lines).held = [] := by
  induction lines generalizing s with
  | nil => exact hs
  | cons l lines ih => exact ih (s.read_held l.chars)

end Vsys.Felib
