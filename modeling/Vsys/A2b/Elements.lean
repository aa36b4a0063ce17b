import Mathlib.Data.List.Infix
import Vsys.A2b.ConfigBuffer

/-!
# The elements of a command list

Where `<action` stands in a text an element starts, and it goes to the end of the line.  An element
may be too long for the buffer of `parseXML`, may lack the line feed, or may start on the line of
another one; `parseXML` stops at the first two, and does not see the third.

So there is an entry for each of the first elements that fit exactly if they are the first elements
at all, have a line feed, and are on different lines (`parseXML_complete_iff`), and if the parsing
returns.
-/

namespace Vsys.A2b

open Vsys.Io

/-! ## Elements -/

/-- Where the elements of a text start. -/
def elements (text : List UInt8) : List (List UInt8) :=
  text.tails.filter (actionMark.isPrefixOf ·)

/-- The line of the element fits the buffer. -/
def LineShort (start : List UInt8) : Prop := (lineOf start).length < actionSize

instance : DecidablePred LineShort := fun _ ↦ inferInstanceAs (Decidable (_ < _))

/-- The elements that are to become entries. -/
def expected (count : ℕ) (text : List UInt8) : List (List UInt8) :=
  ((elements text).filter (LineShort ·)).take count

/-- There is one entry for each of the first elements that fit, and it is what the element comes
to. -/
def Complete (text : List UInt8) : Prop :=
  ∃ entries final,
    parseXML text = .ok (entries, final) ∧ entries.map Prod.fst = expected maxActions text ∧
      ∀ entry ∈ entries, ∃ store later, parseAction store (lineOf entry.1) = .ok (entry.2, later)

/-- From the line feed on. -/
def lineEnd (start : List UInt8) : List UInt8 := start.dropWhile (· ≠ 10)

/-- No element before these is left out, they have line feeds, and they are on different lines. -/
structure Separate (text : List UInt8) (starts : List (List UInt8)) : Prop where
  first : starts <+: elements text
  terminated : ∀ start ∈ starts, 10 ∈ start
  apart : starts.Pairwise fun start next ↦ next <:+ lineEnd start

/-! ## Lines -/

section Lines

variable {b : UInt8} {s text start : List UInt8}

theorem elements_cons :
    elements (b :: s) =
      if actionMark.isPrefixOf (b :: s) then (b :: s) :: elements s else elements s := by
  rw [elements, List.tails_cons, List.filter_cons]
  rfl

theorem suffix_of_mem_elements (h : start ∈ elements text) : start <:+ text :=
  (List.mem_tails _ _).1 (List.mem_of_mem_filter h)

/-- `strstr` finds the first element. -/
theorem strstr_eq_none_iff : strstr actionMark text = none ↔ elements text = [] := by
  induction text with
  | nil => decide
  | cons b s ih =>
      rw [strstr, elements_cons]
      split_ifs with hmark
      · simp
      · exact ih

theorem elements_of_strstr (h : strstr actionMark text = some start) :
    elements text = start :: elements start.tail := by
  induction text with
  | nil => exact nomatch h
  | cons b s ih =>
      rw [strstr] at h
      rw [elements_cons]
      split_ifs at h with hmark
      · rw [if_pos hmark, ← Option.some.inj h]
        rfl
      · rw [if_neg hmark]
        exact ih h

/-- An element starts with a `<`. -/
theorem strstr_eq_cons (h : strstr actionMark text = some start) : ∃ s, start = 60 :: s := by
  induction text with
  | nil => exact nomatch h
  | cons b s ih =>
      rw [strstr] at h
      split_ifs at h with hmark
      · have hhead : b = 60 := by
          have : (60 == b) = true := (Bool.and_eq_true_iff.1 hmark).1
          exact (beq_iff_eq.1 this).symm
        exact ⟨s, by rw [← Option.some.inj h, hhead]⟩
      · exact ih h

theorem lineEnd_cons (hb : b ≠ 10) : lineEnd (b :: s) = lineEnd s := by
  rw [lineEnd, List.dropWhile_cons_of_pos (by simpa using hb)]
  rfl

theorem lineOf_cons (hb : b ≠ 10) : lineOf (b :: s) = b :: lineOf s := by
  rw [lineOf, List.dropWhile_cons_of_pos (by simpa using hb),
    List.takeWhile_cons_of_pos (by simpa using hb)]
  rfl

theorem lineEnd_suffix : lineEnd start <:+ start := List.dropWhile_suffix _

theorem strchr_line (h : 10 ∈ start) : strchr 10 start = some (lineEnd start) := if_pos h

/-- An element that starts on the line of another text. -/
structure OnLine (text start : List UInt8) : Prop where
  longer : (lineEnd text).length < start.length
  line : (lineOf start).length ≤ (lineOf text).length

/-- The elements of a text: those on its first line and those behind. -/
theorem exists_elements_eq (text : List UInt8) :
    ∃ inner, elements text = inner ++ elements (lineEnd text) ∧ ∀ start ∈ inner, OnLine text start := by
  induction text with
  | nil => exact ⟨[], rfl, List.forall_mem_nil _⟩
  | cons b s ih =>
      by_cases hb : b = 10
      · refine ⟨[], ?_, List.forall_mem_nil _⟩
        rw [lineEnd, List.dropWhile_cons_of_neg (by simpa using hb)]
        rfl
      · obtain ⟨inner, heq, hinner⟩ := ih
        have hlonger : ∀ start, OnLine s start → OnLine (b :: s) start := by
          intro start h
          refine ⟨by rw [lineEnd_cons hb]; exact h.longer, ?_⟩
          rw [lineOf_cons hb]
          exact h.line.trans (Nat.le_succ _)
        rw [elements_cons, lineEnd_cons hb, heq]
        split_ifs with hmark
        · refine ⟨(b :: s) :: inner, rfl, fun start hstart ↦ ?_⟩
          rcases List.mem_cons.1 hstart with rfl | hstart
          · refine ⟨?_, le_rfl⟩
            rw [lineEnd_cons hb]
            exact Nat.lt_succ_of_le lineEnd_suffix.length_le
          · exact hlonger start (hinner start hstart)
        · exact ⟨inner, rfl, fun start hstart ↦ hlonger start (hinner start hstart)⟩

/-- The elements from one on: itself, those on its line and those behind. -/
theorem exists_elements_of_strstr (h : strstr actionMark text = some start) :
    ∃ inner, elements text = start :: (inner ++ elements (lineEnd start)) ∧
      ∀ next ∈ inner, OnLine start next := by
  obtain ⟨s, rfl⟩ := strstr_eq_cons h
  have hb : (60 : UInt8) ≠ 10 := by decide
  obtain ⟨inner, heq, hinner⟩ := exists_elements_eq s
  refine ⟨inner, ?_, fun next hnext ↦ ?_⟩
  · rw [elements_of_strstr h, List.tail_cons, heq, lineEnd_cons hb]
  · refine ⟨?_, ?_⟩
    · rw [lineEnd_cons hb]
      exact (hinner next hnext).longer
    · rw [lineOf_cons hb]
      exact (hinner next hnext).line.trans (Nat.le_succ _)

end Lines

/-! ## What is parsed -/

section Starts

variable {count : ℕ} {text start : List UInt8}

theorem starts_of_none (h : strstr actionMark text = none) : starts (count + 1) text = [] := by
  rw [starts, h]

theorem starts_of_unfit (h : strstr actionMark text = some start)
    (hunfit : ¬ (10 ∈ start ∧ LineShort start)) : starts (count + 1) text = [] := by
  rw [starts, h]
  dsimp only
  by_cases hline : 10 ∈ start
  · rw [strchr_line hline]
    exact if_pos (Nat.le_of_not_lt fun hshort ↦ hunfit ⟨hline, hshort⟩)
  · rw [strchr, if_neg hline]

theorem starts_of_fit (h : strstr actionMark text = some start) (hline : 10 ∈ start)
    (hshort : LineShort start) :
    starts (count + 1) text = start :: starts count (lineEnd start) := by
  rw [starts, h]
  dsimp only
  rw [strchr_line hline]
  exact if_neg (Nat.not_le_of_lt hshort)

theorem suffix_of_mem_starts (h : start ∈ starts count text) : start <:+ text := by
  induction count generalizing text with
  | zero => exact absurd h List.not_mem_nil
  | succ count ih =>
      cases hfind : strstr actionMark text with
      | none =>
          rw [starts_of_none hfind] at h
          exact absurd h List.not_mem_nil
      | some first =>
          have hfirst : first <:+ text := by
            apply suffix_of_mem_elements
            rw [elements_of_strstr hfind]
            exact List.mem_cons_self
          by_cases hfit : 10 ∈ first ∧ LineShort first
          · rw [starts_of_fit hfind hfit.1 hfit.2] at h
            rcases List.mem_cons.1 h with rfl | h
            · exact hfirst
            · exact ((ih h).trans lineEnd_suffix).trans hfirst
          · rw [starts_of_unfit hfind hfit] at h
            exact absurd h List.not_mem_nil

theorem suffix_of_mem_expected (h : start ∈ expected count text) : start <:+ text :=
  suffix_of_mem_elements (List.mem_of_mem_filter (List.mem_of_mem_take h))

theorem lineShort_of_mem_expected (h : start ∈ expected count text) : LineShort start := by
  have hmem := List.mem_of_mem_take h
  exact of_decide_eq_true (List.mem_filter.1 hmem).2

theorem separate_nil (text : List UInt8) : Separate text [] where
  first := List.nil_prefix
  terminated := List.forall_mem_nil _
  apart := List.Pairwise.nil

/-- An element that fits comes first. -/
theorem exists_expected_eq (h : strstr actionMark text = some start) (hshort : LineShort start) :
    ∃ inner,
      elements text = start :: (inner ++ elements (lineEnd start)) ∧
        (∀ next ∈ inner, OnLine start next) ∧
          expected (count + 1) text =
            start :: (inner ++ (elements (lineEnd start)).filter (LineShort ·)).take count := by
  obtain ⟨inner, heq, hinner⟩ := exists_elements_of_strstr h
  have hall : inner.filter (LineShort ·) = inner := by
    apply List.filter_eq_self.2
    exact fun next hnext ↦ decide_eq_true (Nat.lt_of_le_of_lt (hinner next hnext).line hshort)
  refine ⟨inner, heq, hinner, ?_⟩
  rw [expected, heq, List.filter_cons, if_pos (decide_eq_true hshort), List.filter_append, hall,
    List.take_succ_cons]

/-- Behind an element with its own line it goes on with the text behind the line. -/
theorem separate_cons_iff {starts : List (List UInt8)} (hline : 10 ∈ start)
    (heq : elements text = start :: elements (lineEnd start))
    (hsuffix : ∀ next ∈ starts, next <:+ lineEnd start) :
    Separate text (start :: starts) ↔ Separate (lineEnd start) starts := by
  constructor
  · intro h
    refine ⟨?_, fun next hnext ↦ h.terminated next (List.mem_cons_of_mem _ hnext),
      (List.pairwise_cons.1 h.apart).2⟩
    have hfirst := h.first
    rw [heq] at hfirst
    exact (List.prefix_cons_inj start).1 hfirst
  · intro h
    refine ⟨?_, List.forall_mem_cons.2 ⟨hline, h.terminated⟩,
      List.pairwise_cons.2 ⟨hsuffix, h.apart⟩⟩
    rw [heq]
    exact (List.prefix_cons_inj start).2 h.first

end Starts

section OnLine

variable {count : ℕ} {text start next : List UInt8} {rest : List (List UInt8)}

/-- An element on the line of another one is not parsed. -/
theorem starts_ne_of_onLine (hnext : OnLine start next) :
    start :: starts count (lineEnd start) ≠ start :: next :: rest := by
  intro h
  rw [List.cons_inj_right] at h
  have hmem : next ∈ starts count (lineEnd start) := by
    rw [h]
    exact List.mem_cons_self
  exact hnext.longer.not_ge (suffix_of_mem_starts hmem).length_le

theorem not_separate_of_onLine (hnext : OnLine start next) :
    ¬ Separate text (start :: next :: rest) := by
  intro h
  have happart := (List.pairwise_cons.1 h.apart).1 next List.mem_cons_self
  exact hnext.longer.not_ge happart.length_le

end OnLine

/-- If the first element does not fit or has no line feed, nothing is parsed, and if something is
expected it is not the first element. -/
theorem nil_eq_iff_separate {count : ℕ} {text start : List UInt8}
    (h : strstr actionMark text = some start) (hunfit : ¬ (10 ∈ start ∧ LineShort start)) :
    [] = expected count text ↔ Separate text (expected count text) := by
  cases hexpected : expected count text with
  | nil => exact iff_of_true rfl (separate_nil text)
  | cons first rest =>
      apply iff_of_false (List.cons_ne_nil _ _).symm
      intro hseparate
      have hshort : LineShort first := by
        apply lineShort_of_mem_expected
        rw [hexpected]
        exact List.mem_cons_self
      have hfirst := hseparate.first
      rw [elements_of_strstr h] at hfirst
      have heq : first = start := (List.cons_prefix_cons.1 hfirst).1
      have hline := hseparate.terminated first List.mem_cons_self
      exact hunfit ⟨heq ▸ hline, heq ▸ hshort⟩

/-- The elements that are parsed are the first ones that fit exactly if these are the first ones at
all, have line feeds, and are on different lines. -/
theorem starts_eq_iff_separate (count : ℕ) (text : List UInt8) :
    starts count text = expected count text ↔ Separate text (expected count text) := by
  induction count generalizing text with
  | zero => exact iff_of_true rfl (separate_nil text)
  | succ count ih =>
      cases hfind : strstr actionMark text with
      | none =>
          have hnone : expected (count + 1) text = [] := by
            rw [expected, strstr_eq_none_iff.1 hfind]
            rfl
          rw [starts_of_none hfind, hnone]
          exact iff_of_true rfl (separate_nil text)
      | some start =>
          by_cases hfit : 10 ∈ start ∧ LineShort start
          · obtain ⟨hline, hshort⟩ := hfit
            obtain ⟨inner, heq, hinner, hexpected⟩ :=
              @exists_expected_eq count text start hfind hshort
            rw [hexpected, starts_of_fit hfind hline hshort]
            -- an element on the same line counts only if another entry is wanted
            cases inner with
            | nil =>
                have hsuffix : ∀ next ∈ expected count (lineEnd start), next <:+ lineEnd start :=
                  fun _ h ↦ suffix_of_mem_expected h
                rw [List.nil_append] at heq ⊢
                rw [← expected, separate_cons_iff hline heq hsuffix, List.cons_inj_right]
                exact ih (lineEnd start)
            | cons next inner =>
                cases count with
                | zero =>
                    refine iff_of_true rfl ⟨?_, ?_, List.pairwise_singleton _ _⟩
                    · rw [heq]
                      exact (List.prefix_cons_inj start).2 List.nil_prefix
                    · exact List.forall_mem_singleton.2 hline
                | succ count =>
                    have hnext := hinner next List.mem_cons_self
                    exact iff_of_false (starts_ne_of_onLine hnext) (not_separate_of_onLine hnext)
          · rw [starts_of_unfit hfind hfit]
            exact nil_eq_iff_separate hfind hfit

/-! ## The entries -/

/-- The entries are where the actions start, and what these come to. -/
theorem parseLines_entries {lines : List (List UInt8)} {store final : Store}
    {entries : List (List UInt8 × Config)} (h : parseLines lines store = .ok (entries, final)) :
    entries.map Prod.fst = lines ∧
      ∀ entry ∈ entries, ∃ store later,
        parseAction store (lineOf entry.1) = .ok (entry.2, later) := by
  induction lines generalizing store entries with
  | nil =>
      cases h
      exact ⟨rfl, List.forall_mem_nil _⟩
  | cons start rest ih =>
      cases haction : parseAction store (lineOf start) with
      | error fault => exact nomatch (parseLines_cons_of_error haction).symm.trans h
      | ok result =>
          obtain ⟨inner, hinner, rfl⟩ := (parseLines_cons_eq_ok_iff haction).1 h
          obtain ⟨hstarts, hentries⟩ := ih hinner
          refine ⟨by rw [List.map_cons, hstarts], ?_⟩
          exact List.forall_mem_cons.2 ⟨⟨store, result.2, haction⟩, hentries⟩

/-- **Complete lists.**  There is an entry for each of the first elements that fit exactly if these
are the first elements at all, have line feeds and are on different lines, and if no line writes
behind a buffer or lacks a `>`. -/
theorem parseXML_complete_iff (text : List UInt8) :
    Complete text ↔
      Separate text (expected maxActions text) ∧
        Runs 0 ((expected maxActions text).map lineOf) := by
  have hreturns : (∃ result, parseLines (starts maxActions text) ⟨fun _ ↦ 0, 0⟩ = .ok result) ↔
      Runs 0 ((starts maxActions text).map lineOf) := parseLines_ok_iff (Nat.zero_le _)
  rw [← starts_eq_iff_separate]
  constructor
  · rintro ⟨entries, final, hparse, hentries, -⟩
    rw [parseXML_eq] at hparse
    have hstarts : starts maxActions text = expected maxActions text :=
      (parseLines_entries hparse).1.symm.trans hentries
    rw [← hstarts]
    exact ⟨rfl, hreturns.1 ⟨_, hparse⟩⟩
  · rintro ⟨hstarts, hruns⟩
    rw [← hstarts] at hruns
    obtain ⟨⟨entries, final⟩, hlines⟩ := hreturns.2 hruns
    obtain ⟨hentries, hparse⟩ := parseLines_entries hlines
    exact ⟨entries, final, (parseXML_eq text).trans hlines, hentries.trans hstarts, hparse⟩

/-- An element at the end of a text without a line feed. -/
def lastAction : List UInt8 := ascii "<action instr=\"delay\">0A</action>"

/-- It is left out. -/
theorem lastAction_not_complete : ¬ Complete lastAction := by
  rintro ⟨entries, final, hparse, hentries, -⟩
  have hnone : (parseXML lastAction).toOption.map (fun result ↦ result.1.map Prod.fst) = some [] := by
    decide +kernel
  have hone : expected maxActions lastAction = [lastAction] := by decide +kernel
  rw [hparse] at hnone
  exact nomatch (Option.some.inj hnone).symm.trans (hentries.trans hone)

end Vsys.A2b
