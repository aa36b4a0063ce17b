import Mathlib.Data.List.GetD
import Mathlib.Order.Interval.Set.Disjoint
import Vsys.A2b.CommandList

/-!
# The buffer that the actions share

Each action with data takes the next bytes of `config_buffer`.  Whether there is room is decided by
the `len` of the action, and written is what its line has; and an action for which there is no room
stays a `WRITE` or `DELAY`, without data.

So the list is sound exactly if for each action there is room both for its `len` and for its line
(`parseXML_sound_iff`), or if the parsing does not return.
-/

namespace Vsys.A2b

open Vsys.Io

/-! ## Sound lists -/

/-- The places of the data of an entry. -/
def Config.cells (config : Config) : Set ℕ :=
  match config.paConfigData with
  | none => ∅
  | some off => Set.Ico off (off + config.nDataCount)

/-- The data of an entry: it is in the buffer, and it is what the line of its action has. -/
def DataOf (store : Store) (start : List UInt8) (config : Config) : Prop :=
  ∃ off header,
    config.paConfigData = some off ∧ off + config.nDataCount ≤ maxConfigData ∧
      parseHeader (lineOf start) = .ok header ∧
      (List.range config.nDataCount).map (fun i ↦ store.configBuffer (off + i)) =
        dataBytes header (lineOf start)

/-- What the driver needs of the entries and of the buffer. -/
structure Sound (entries : List (List UInt8 × Config)) (store : Store) : Prop where
  offset : store.writeOffset ≤ maxConfigData
  data : ∀ entry ∈ entries, entry.2.HasData → DataOf store entry.1 entry.2
  disjoint : entries.Pairwise fun first second ↦ first.2.cells ∩ second.2.cells = ∅

/-- Whatever returns is sound; after a write behind a buffer nothing is. -/
def Safe : Except Fault (List (List UInt8 × Config) × Store) → Prop
  | .ok (entries, store) => Sound entries store
  | .error .oops => True
  | .error .overrun => False

/-! ## Room for a line -/

/-- There is room for an action: for its `len` and for its line. -/
structure Room (used : ℕ) (line : List UInt8) (config : Config) : Prop where
  len : used + config.nDataCount < maxConfigData
  mark : 62 ∈ line
  stored : used + (dataBytes config line).length ≤ maxConfigData

/-- The strings of the line are short, and there is room for its data. -/
def LineFits (used : ℕ) (line : List UInt8) : Prop :=
  ∃ config, parseHeader line = .ok config ∧ (config.HasData → Room used line config)

/-- By its `len` there is no room for the action. -/
def OverLimit (used : ℕ) (line : List UInt8) : Prop :=
  ∃ config,
    parseHeader line = .ok config ∧ config.HasData ∧ maxConfigData ≤ used + config.nDataCount

/-- By its `len` there is room for the action, and its line has no `>`. -/
def NoMark (used : ℕ) (line : List UInt8) : Prop :=
  ∃ config,
    parseHeader line = .ok config ∧ config.HasData ∧ used + config.nDataCount < maxConfigData ∧
      62 ∉ line

/-- The number of bytes that a line has for the buffer. -/
def lineSize (line : List UInt8) : ℕ :=
  match parseHeader line with
  | .error _ => 0
  | .ok config => if config.HasData then (dataBytes config line).length else 0

/-- There is room for all lines. -/
def Fits : ℕ → List (List UInt8) → Prop
  | _, [] => True
  | used, line :: rest => LineFits used line ∧ Fits (used + lineSize line) rest

/-- The lines up to one without a `>` do not write behind a buffer. -/
def Stops : ℕ → List (List UInt8) → Prop
  | _, [] => False
  | used, line :: rest =>
      NoMark used line ∨ LineFits used line ∧ Stops (used + lineSize line) rest ∨
        OverLimit used line ∧ Stops used rest

/-- No line writes behind a buffer, and none lacks a `>`. -/
def Runs : ℕ → List (List UInt8) → Prop
  | _, [] => True
  | used, line :: rest =>
      LineFits used line ∧ Runs (used + lineSize line) rest ∨ OverLimit used line ∧ Runs used rest

/-! ## The buffer -/

namespace Store

variable (store : Store) (bytes : List UInt8)

@[simp]
theorem put_writeOffset : (store.put bytes).writeOffset = store.writeOffset + bytes.length := rfl

theorem put_nil : store.put [] = store := by
  cases store with
  | mk configBuffer writeOffset =>
      simp only [put, List.length_nil, Nat.add_zero, mk.injEq, and_true]
      funext k
      exact if_neg fun h ↦ absurd h.2 (Nat.not_lt_of_le h.1)

/-- What is in the buffer stays. -/
theorem put_configBuffer_of_lt {k : ℕ} (hk : k < store.writeOffset) :
    (store.put bytes).configBuffer k = store.configBuffer k :=
  if_neg fun h ↦ absurd h.1 (Nat.not_le_of_lt hk)

/-- The bytes are in the buffer. -/
theorem put_slice :
    (List.range bytes.length).map (fun i ↦ (store.put bytes).configBuffer (store.writeOffset + i)) =
      bytes := by
  apply List.ext_getElem
  · simp
  · intro i _ hi
    have hin : store.writeOffset ≤ store.writeOffset + i ∧
        store.writeOffset + i < store.writeOffset + bytes.length :=
      ⟨Nat.le_add_right _ _, Nat.add_lt_add_left hi _⟩
    rw [List.getElem_map, List.getElem_range]
    calc
      (store.put bytes).configBuffer (store.writeOffset + i) =
          bytes.getD (store.writeOffset + i - store.writeOffset) 0 := if_pos hin
      _ = bytes[i] := by rw [Nat.add_sub_cancel_left, List.getD_eq_getElem _ _ hi]

/-- A later state of the buffer: what was in it is still there. -/
structure Extends (store later : Store) : Prop where
  offset : store.writeOffset ≤ later.writeOffset
  buffer : ∀ k < store.writeOffset, later.configBuffer k = store.configBuffer k

theorem Extends.refl : store.Extends store := ⟨le_rfl, fun _ _ ↦ rfl⟩

variable {store}

theorem Extends.trans {next later : Store} (h : store.Extends next) (h' : next.Extends later) :
    store.Extends later where
  offset := h.offset.trans h'.offset
  buffer := fun k hk ↦ (h'.buffer k (hk.trans_le h.offset)).trans (h.buffer k hk)

theorem extends_put : store.Extends (store.put bytes) where
  offset := Nat.le_add_right _ _
  buffer := fun _ hk ↦ store.put_configBuffer_of_lt bytes hk

end Store

/-- The data of an entry stays when the buffer grows. -/
theorem DataOf.extends {store later : Store} {start : List UInt8} {config : Config} {off : ℕ}
    (h : DataOf store start config) (hoff : config.paConfigData = some off)
    (hused : off + config.nDataCount ≤ store.writeOffset) (hlater : store.Extends later) :
    DataOf later start config := by
  obtain ⟨off', header, hoff', hle, hheader, hslice⟩ := h
  have heq : off' = off := Option.some.inj (hoff'.symm.trans hoff)
  refine ⟨off', header, hoff', hle, hheader, ?_⟩
  rw [← hslice]
  apply List.map_congr_left
  intro i hi
  apply hlater.buffer
  rw [List.mem_range] at hi
  omega

/-! ## One line -/

section Line

variable {used : ℕ} {line : List UInt8} {config : Config}

theorem lineFits_iff (hheader : parseHeader line = .ok config) :
    LineFits used line ↔ (config.HasData → Room used line config) := by
  rw [LineFits, hheader]
  simp

theorem overLimit_iff (hheader : parseHeader line = .ok config) :
    OverLimit used line ↔ config.HasData ∧ maxConfigData ≤ used + config.nDataCount := by
  rw [OverLimit, hheader]
  simp

theorem noMark_iff (hheader : parseHeader line = .ok config) :
    NoMark used line ↔
      config.HasData ∧ used + config.nDataCount < maxConfigData ∧ 62 ∉ line := by
  rw [NoMark, hheader]
  simp

theorem lineSize_of_ok (hheader : parseHeader line = .ok config) :
    lineSize line = if config.HasData then (dataBytes config line).length else 0 := by
  unfold lineSize
  split
  · next _ herror => cases hheader.symm.trans herror
  · next _ hok =>
      cases hheader.symm.trans hok
      rfl

theorem LineFits.not_overLimit (h : LineFits used line) : ¬ OverLimit used line := by
  obtain ⟨config, hheader, hroom⟩ := h
  rw [overLimit_iff hheader]
  exact fun hlimit ↦ absurd (hroom hlimit.1).len (Nat.not_lt_of_le hlimit.2)

theorem LineFits.not_noMark (h : LineFits used line) : ¬ NoMark used line := by
  obtain ⟨config, hheader, hroom⟩ := h
  rw [noMark_iff hheader]
  exact fun hmark ↦ hmark.2.2 (hroom hmark.1).mark

theorem OverLimit.not_noMark (h : OverLimit used line) : ¬ NoMark used line := by
  obtain ⟨config, hheader, hdata, hlimit⟩ := h
  rw [noMark_iff hheader]
  exact fun hmark ↦ absurd hmark.2.1 (Nat.not_lt_of_le hlimit)

end Line

/-- What an entry is that a line fits: its bytes are the next ones of the buffer. -/
structure Entered (store : Store) (line : List UInt8) (config : Config) (bytes : List UInt8) :
    Prop where
  size : lineSize line = bytes.length
  le : store.writeOffset + bytes.length ≤ maxConfigData
  data : config.HasData →
    config.paConfigData = some store.writeOffset ∧ config.nDataCount = bytes.length ∧
      ∃ header, parseHeader line = .ok header ∧ dataBytes header line = bytes
  dataless : ¬ config.HasData → config.paConfigData = none

section Action

variable {store : Store} {line : List UInt8}

theorem parseAction_fits (hused : store.writeOffset ≤ maxConfigData)
    (hfits : LineFits store.writeOffset line) :
    ∃ config bytes,
      parseAction store line = .ok (config, store.put bytes) ∧ Entered store line config bytes := by
  obtain ⟨config, hheader, hroom⟩ := hfits
  by_cases hdata : config.HasData
  · have hsize : lineSize line = (dataBytes config line).length :=
      (lineSize_of_ok hheader).trans (if_pos hdata)
    have room := hroom hdata
    refine ⟨_, _, parseAction_stored hheader hdata room.len.not_ge room.mark room.stored.not_gt,
      hsize, room.stored, fun _ ↦ ⟨rfl, rfl, config, hheader, rfl⟩, fun hnone ↦ ?_⟩
    exact absurd hdata hnone
  · have hsize : lineSize line = 0 := (lineSize_of_ok hheader).trans (if_neg hdata)
    refine ⟨config, [], ?_, hsize, hused, fun h ↦ absurd h hdata,
      fun _ ↦ parseHeader_paConfigData hheader⟩
    rw [Store.put_nil]
    exact parseAction_dataless hheader hdata

theorem parseAction_overLimit (hlimit : OverLimit store.writeOffset line) :
    ∃ config,
      parseAction store line = .ok (config, store) ∧ config.HasData ∧
        config.paConfigData = none := by
  obtain ⟨config, hheader, hdata, hle⟩ := hlimit
  exact ⟨config, parseAction_limit hheader hdata hle, hdata, parseHeader_paConfigData hheader⟩

theorem parseAction_noMark (hmark : NoMark store.writeOffset line) :
    parseAction store line = .error .oops := by
  obtain ⟨config, hheader, hdata, hlt, hnone⟩ := hmark
  exact parseAction_oops hheader hdata hlt.not_ge hnone

theorem parseAction_else (hfits : ¬ LineFits store.writeOffset line)
    (hlimit : ¬ OverLimit store.writeOffset line) (hmark : ¬ NoMark store.writeOffset line) :
    parseAction store line = .error .overrun := by
  cases hheader : parseHeader line with
  | error fault => rw [parseAction_error hheader, parseHeader_error hheader]
  | ok config =>
      rw [lineFits_iff hheader, Classical.not_imp] at hfits
      rw [overLimit_iff hheader] at hlimit
      rw [noMark_iff hheader] at hmark
      have hdata := hfits.1
      have hlen : ¬ maxConfigData ≤ store.writeOffset + config.nDataCount :=
        fun hle ↦ hlimit ⟨hdata, hle⟩
      have hin : 62 ∈ line := by
        by_contra hnone
        exact hmark ⟨hdata, Nat.lt_of_not_le hlen, hnone⟩
      apply parseAction_overrun hheader hdata hlen hin
      by_contra hstored
      exact hfits.2 ⟨Nat.lt_of_not_le hlen, hin, Nat.le_of_not_lt hstored⟩

theorem parseAction_faults (hfits : ¬ LineFits store.writeOffset line)
    (hlimit : ¬ OverLimit store.writeOffset line) :
    ∃ fault, parseAction store line = .error fault := by
  by_cases hmark : NoMark store.writeOffset line
  · exact ⟨_, parseAction_noMark hmark⟩
  · exact ⟨_, parseAction_else hfits hlimit hmark⟩

end Action

/-! ## All lines -/

section Lines

variable {store later : Store} {start : List UInt8} {rest : List (List UInt8)}

theorem parseLines_cons_of_ok {config : Config}
    (h : parseAction store (lineOf start) = .ok (config, later)) :
    parseLines (start :: rest) store =
      (parseLines rest later).map fun result ↦ ((start, config) :: result.1, result.2) := by
  rw [parseLines, h]
  change (parseLines rest later >>= fun result ↦ _) = _
  cases parseLines rest later <;> rfl

theorem parseLines_cons_eq_ok_iff {config : Config}
    (h : parseAction store (lineOf start) = .ok (config, later))
    {entries : List (List UInt8 × Config)} {final : Store} :
    parseLines (start :: rest) store = .ok (entries, final) ↔
      ∃ inner, parseLines rest later = .ok (inner, final) ∧ entries = (start, config) :: inner := by
  rw [parseLines_cons_of_ok h]
  cases parseLines rest later with
  | error fault => simp [Except.map]
  | ok result => simp [Except.map, Prod.ext_iff, and_comm, eq_comm]

theorem parseLines_cons_returns_iff {config : Config}
    (h : parseAction store (lineOf start) = .ok (config, later)) :
    (∃ result, parseLines (start :: rest) store = .ok result) ↔
      ∃ result, parseLines rest later = .ok result := by
  rw [parseLines_cons_of_ok h]
  cases parseLines rest later <;> simp [Except.map]

theorem parseLines_cons_eq_error_iff {config : Config}
    (h : parseAction store (lineOf start) = .ok (config, later)) {fault : Fault} :
    parseLines (start :: rest) store = .error fault ↔ parseLines rest later = .error fault := by
  rw [parseLines_cons_of_ok h]
  cases parseLines rest later <;> simp [Except.map]

theorem parseLines_cons_of_error {fault : Fault}
    (h : parseAction store (lineOf start) = .error fault) :
    parseLines (start :: rest) store = .error fault := by
  rw [parseLines, h]
  rfl

end Lines

/-- The entries of lines for which there is room, and the buffer behind them. -/
structure Filled (store : Store) (entries : List (List UInt8 × Config)) (later : Store) : Prop where
  grown : store.Extends later
  sound : Sound entries later
  cells : ∀ entry ∈ entries, entry.2.cells ⊆ Set.Ico store.writeOffset later.writeOffset

theorem Entered.cells {store : Store} {line : List UInt8} {config : Config} {bytes : List UInt8}
    (h : Entered store line config bytes) :
    config.cells ⊆ Set.Ico store.writeOffset (store.put bytes).writeOffset := by
  by_cases hdata : config.HasData
  · obtain ⟨hoff, hcount, -⟩ := h.data hdata
    rw [Config.cells, hoff, hcount]
    exact subset_rfl
  · rw [Config.cells, h.dataless hdata]
    exact Set.empty_subset _

theorem Entered.dataOf {store later : Store} {start : List UInt8} {config : Config}
    {bytes : List UInt8} (h : Entered store (lineOf start) config bytes) (hdata : config.HasData)
    (hlater : (store.put bytes).Extends later) : DataOf later start config := by
  obtain ⟨hoff, hcount, header, hheader, hbytes⟩ := h.data hdata
  have hnow : DataOf (store.put bytes) start config := by
    refine ⟨store.writeOffset, header, hoff, hcount ▸ h.le, hheader, ?_⟩
    rw [hcount, store.put_slice bytes, hbytes]
  apply hnow.extends hoff _ hlater
  rw [hcount, Store.put_writeOffset]

theorem Filled.cons {store later : Store} {start : List UInt8} {config : Config}
    {bytes : List UInt8} {entries : List (List UInt8 × Config)}
    (hentered : Entered store (lineOf start) config bytes)
    (hfilled : Filled (store.put bytes) entries later) :
    Filled store ((start, config) :: entries) later where
  grown := (store.extends_put bytes).trans hfilled.grown
  sound :=
    { offset := hfilled.sound.offset
      data := by
        intro entry hentry hdata
        rcases List.mem_cons.1 hentry with rfl | hentry
        · exact hentered.dataOf hdata hfilled.grown
        · exact hfilled.sound.data entry hentry hdata
      disjoint := by
        refine List.pairwise_cons.2 ⟨fun entry hentry ↦ ?_, hfilled.sound.disjoint⟩
        apply Set.disjoint_iff_inter_eq_empty.1
        apply Set.disjoint_of_subset hentered.cells (hfilled.cells entry hentry)
        exact Set.Ico_disjoint_Ico_same }
  cells := by
    intro entry hentry
    rcases List.mem_cons.1 hentry with rfl | hentry
    · exact hentered.cells.trans (Set.Ico_subset_Ico_right hfilled.grown.offset)
    · exact (hfilled.cells entry hentry).trans
        (Set.Ico_subset_Ico_left (store.extends_put bytes).offset)

/-- If there is room for all lines, the entries are sound. -/
theorem parseLines_fits {lines : List (List UInt8)} {store : Store}
    (hused : store.writeOffset ≤ maxConfigData)
    (hfits : Fits store.writeOffset (lines.map lineOf)) :
    ∃ entries later, parseLines lines store = .ok (entries, later) ∧ Filled store entries later := by
  induction lines generalizing store with
  | nil =>
      refine ⟨[], store, rfl, Store.Extends.refl store, ⟨hused, ?_, List.Pairwise.nil⟩, ?_⟩
      · exact fun entry hentry ↦ absurd hentry List.not_mem_nil
      · exact fun entry hentry ↦ absurd hentry List.not_mem_nil
  | cons start rest ih =>
      obtain ⟨config, bytes, hparse, hentered⟩ := parseAction_fits hused hfits.1
      have hrest : Fits (store.put bytes).writeOffset (rest.map lineOf) := by
        rw [Store.put_writeOffset, ← hentered.size]
        exact hfits.2
      obtain ⟨entries, later, hentries, hfilled⟩ := ih hentered.le hrest
      refine ⟨(start, config) :: entries, later, ?_, hfilled.cons hentered⟩
      rw [parseLines_cons_of_ok hparse, hentries]
      rfl

/-- If all entries that need data have some, there is room for all lines. -/
theorem fits_of_data {lines : List (List UInt8)} {store later : Store}
    {entries : List (List UInt8 × Config)} (hused : store.writeOffset ≤ maxConfigData)
    (hparse : parseLines lines store = .ok (entries, later))
    (hdata : ∀ entry ∈ entries, entry.2.HasData → entry.2.paConfigData ≠ none) :
    Fits store.writeOffset (lines.map lineOf) := by
  induction lines generalizing store entries with
  | nil => trivial
  | cons start rest ih =>
      by_cases hfits : LineFits store.writeOffset (lineOf start)
      · obtain ⟨config, bytes, haction, hentered⟩ := parseAction_fits hused hfits
        obtain ⟨inner, hinner, heq⟩ := (parseLines_cons_eq_ok_iff haction).1 hparse
        have hrest := ih hentered.le hinner fun entry hentry ↦
          hdata entry (heq ▸ List.mem_cons_of_mem _ hentry)
        rw [Store.put_writeOffset, ← hentered.size] at hrest
        exact ⟨hfits, hrest⟩
      · exfalso
        by_cases hlimit : OverLimit store.writeOffset (lineOf start)
        · obtain ⟨config, haction, hhas, hnone⟩ := parseAction_overLimit hlimit
          obtain ⟨inner, -, heq⟩ := (parseLines_cons_eq_ok_iff haction).1 hparse
          exact hdata (start, config) (heq ▸ List.mem_cons_self) hhas hnone
        · obtain ⟨fault, herror⟩ := parseAction_faults hfits hlimit
          exact nomatch (parseLines_cons_of_error herror).symm.trans hparse

/-- The parsing ends at a line without a `>` exactly if nothing went wrong before. -/
theorem parseLines_oops_iff {lines : List (List UInt8)} {store : Store}
    (hused : store.writeOffset ≤ maxConfigData) :
    parseLines lines store = .error .oops ↔ Stops store.writeOffset (lines.map lineOf) := by
  induction lines generalizing store with
  | nil => exact iff_of_false (fun h ↦ nomatch h) not_false
  | cons start rest ih =>
      rw [List.map_cons, Stops]
      by_cases hfits : LineFits store.writeOffset (lineOf start)
      · obtain ⟨config, bytes, haction, hentered⟩ := parseAction_fits hused hfits
        rw [parseLines_cons_eq_error_iff haction, ih hentered.le, Store.put_writeOffset,
          ← hentered.size]
        simp [hfits, hfits.not_noMark, hfits.not_overLimit]
      · by_cases hlimit : OverLimit store.writeOffset (lineOf start)
        · obtain ⟨config, haction, -⟩ := parseAction_overLimit hlimit
          rw [parseLines_cons_eq_error_iff haction, ih hused]
          simp [hfits, hlimit, hlimit.not_noMark]
        · by_cases hmark : NoMark store.writeOffset (lineOf start)
          · rw [parseLines_cons_of_error (parseAction_noMark hmark)]
            simp [hmark]
          · rw [parseLines_cons_of_error (parseAction_else hfits hlimit hmark)]
            simp [hfits, hlimit, hmark]

/-- The parsing returns exactly if every line has room or is over the limit by its `len`. -/
theorem parseLines_ok_iff {lines : List (List UInt8)} {store : Store}
    (hused : store.writeOffset ≤ maxConfigData) :
    (∃ result, parseLines lines store = .ok result) ↔ Runs store.writeOffset (lines.map lineOf) := by
  induction lines generalizing store with
  | nil => exact iff_of_true ⟨_, rfl⟩ trivial
  | cons start rest ih =>
      rw [List.map_cons, Runs]
      by_cases hfits : LineFits store.writeOffset (lineOf start)
      · obtain ⟨config, bytes, haction, hentered⟩ := parseAction_fits hused hfits
        rw [parseLines_cons_returns_iff haction, ih hentered.le, Store.put_writeOffset,
          ← hentered.size]
        simp [hfits, hfits.not_overLimit]
      · by_cases hlimit : OverLimit store.writeOffset (lineOf start)
        · obtain ⟨config, haction, -⟩ := parseAction_overLimit hlimit
          rw [parseLines_cons_returns_iff haction, ih hused]
          simp [hfits, hlimit]
        · obtain ⟨fault, herror⟩ := parseAction_faults hfits hlimit
          rw [parseLines_cons_of_error herror]
          simp [hfits, hlimit]

theorem parseLines_safe_iff {lines : List (List UInt8)} {store : Store}
    (hused : store.writeOffset ≤ maxConfigData) :
    Safe (parseLines lines store) ↔
      Fits store.writeOffset (lines.map lineOf) ∨ Stops store.writeOffset (lines.map lineOf) := by
  have hstops : parseLines lines store = .error .oops ↔ Stops store.writeOffset (lines.map lineOf) :=
    parseLines_oops_iff hused
  have hfits : Fits store.writeOffset (lines.map lineOf) → ∃ entries later,
      parseLines lines store = .ok (entries, later) ∧ Filled store entries later :=
    parseLines_fits hused
  cases hparse : parseLines lines store with
  | error fault =>
      have hnot : ¬ Fits store.writeOffset (lines.map lineOf) := by
        intro h
        obtain ⟨entries, later, hok, -⟩ := hfits h
        exact nomatch hparse.symm.trans hok
      cases fault with
      | oops => exact iff_of_true trivial (.inr (hstops.1 hparse))
      | overrun =>
          refine iff_of_false not_false ?_
          rintro (h | h)
          · exact hnot h
          · exact nomatch hparse.symm.trans (hstops.2 h)
  | ok result =>
      obtain ⟨entries, later⟩ := result
      constructor
      · intro hsound
        refine .inl (fits_of_data hused hparse fun entry hentry hdata hnone ↦ ?_)
        obtain ⟨off, -, hoff, -⟩ := hsound.data entry hentry hdata
        exact nomatch hnone.symm.trans hoff
      · rintro (h | h)
        · obtain ⟨entries', later', hok, hfilled⟩ := hfits h
          cases hparse.symm.trans hok
          exact hfilled.sound
        · exact nomatch hparse.symm.trans (hstops.2 h)

/-- **Sound lists.**  Whatever `parseXML` returns is sound exactly if there is room for all lines
that it parses, both by their `len` and by what they have, or if it does not return. -/
theorem parseXML_sound_iff (xml : List UInt8) :
    Safe (parseXML xml) ↔
      Fits 0 ((starts maxActions xml).map lineOf) ∨
        Stops 0 ((starts maxActions xml).map lineOf) := by
  rw [parseXML_eq]
  exact parseLines_safe_iff (Nat.zero_le _)

/-- One action with a `len` of 20000. -/
def longAction : List UInt8 :=
  ascii ("<action instr=\"writeXbytes\" SpiCmd=\"0\" SpiCmdWidth=\"0\" addr_width=\"1\" " ++
    "data_width=\"1\" len=\"20000\" addr=\"18\" i2caddr=\"104\" AddrIncr=\"0\" " ++
    "Protocol=\"I2C\" ParamName=\"REG_A2B0_CONTROL\">04</action>\n")

/-- The action stays a `WRITE`, without data. -/
theorem longAction_unsound : ¬ Safe (parseXML longAction) := by
  have hentries : (parseXML longAction).toOption.map
      (fun result ↦ result.1.map fun entry ↦ (entry.2.eOpCode, entry.2.paConfigData)) =
        some [(.write, none)] := by
    decide +kernel
  obtain ⟨entries, store, hparse, hlist⟩ := exists_of_parsed hentries
  have hmem : (OpCode.write, none) ∈
      entries.map fun entry ↦ (entry.2.eOpCode, entry.2.paConfigData) := by
    rw [hlist]
    exact List.mem_singleton_self _
  obtain ⟨entry, hentry, heq⟩ := List.mem_map.1 hmem
  obtain ⟨hcode, hnone⟩ := Prod.mk.inj heq
  rw [hparse]
  intro hsound
  obtain ⟨off, -, hoff, -⟩ := hsound.data entry hentry (.inl hcode)
  exact nomatch hnone.symm.trans hoff

end Vsys.A2b
