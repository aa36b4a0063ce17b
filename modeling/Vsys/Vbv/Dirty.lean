import Mathlib.Algebra.GroupWithZero.Nat
import Mathlib.Data.List.Chain
import Mathlib.Data.List.Nodup
import Mathlib.Order.Monotone.Basic
import Vsys.Trace.Run

/-!
# `ZDirty`

The memory of noisy directions.  The circle is divided into sectors; a dirty mark and a release act
on a sector and on those around it, and every sector has its own times.  The clock is read again and
again, also within one operation, so its readings are numbered and the state counts them.

`check` refuses a sector that has been marked often and in close succession, and it refuses it only
once: the next check in its neighbourhood within the time for a second try passes.  The window of
trust that a release opens stays bounded.
-/

namespace Vsys.Vbv

open Vsys.Trace

/-- `SECTOR_NUM`. -/
abbrev sectorNum : ℕ := 72

/-- `SECTOR_TOR`. -/
abbrev sectorTor : ℕ := 4

/-- What is known of one direction. -/
structure AudioInputSector where
  dirty : ℕ
  tryTime : ℕ
  dirtyTime : ℕ
  dirtySuccessTime : ℕ
deriving DecidableEq

/-- A sector as its constructor leaves it. -/
def AudioInputSector.new : AudioInputSector where
  dirty := 0
  tryTime := 0
  dirtyTime := 0
  dirtySuccessTime := 0

/-- What the constructor of `ZDirty` is given. -/
structure DirtySettings where
  bAffect : Bool
  dirtyMax : ℕ
  dirtyTimeOut : ℕ
  tryTimeOut : ℕ
  dirtySuccessTimeOut : ℕ

/-- What happens to a sector: it is freed, or it is marked at a time. -/
inductive SectorEvent where
  | freed (index : Fin sectorNum)
  | marked (index : Fin sectorNum) (now : ℕ)

/-- The state of a `ZDirty` object.  `readings` counts the readings of the clock, and `history` lists
what has happened to the sectors. -/
structure ZDirty where
  sectors : Fin sectorNum → AudioInputSector
  readings : ℕ
  history : List SectorEvent

/-! ## The sectors around a sector -/

/-- `subindex`, the sector that is `i` away. -/
def subindex (index : Fin sectorNum) (i : ℤ) : Fin sectorNum :=
  let sub := (index : ℤ) + i
  let sub := if sub < 0 then sub + sectorNum else sub
  let sub := if sub ≥ sectorNum then sub - sectorNum else sub
  Fin.ofNat sectorNum sub.toNat

/-- The sectors that an operation at `index` visits, in its order. -/
def around (index : Fin sectorNum) : List (Fin sectorNum) :=
  (List.range (2 * sectorTor + 1)).map fun k : ℕ ↦ subindex index ((k : ℤ) - sectorTor)

/-- Two sectors are at most `sectorTor` apart on the circle. -/
def Near (i j : Fin sectorNum) : Prop :=
  ((i : ℤ) - j).natAbs ≤ sectorTor ∨ sectorNum - sectorTor ≤ ((i : ℤ) - j).natAbs

theorem subindex_val (index : Fin sectorNum) {i : ℤ} (hi : i.natAbs ≤ sectorTor) :
    (subindex index i : ℤ) = (index + i) % sectorNum := by
  have hindex := index.isLt
  unfold subindex
  simp only [sectorNum, sectorTor] at *
  rw [Fin.val_ofNat]
  split_ifs <;> omega

theorem mem_around {i j : Fin sectorNum} : j ∈ around i ↔ Near i j := by
  have hi := i.isLt
  have hj := j.isLt
  have hval (k : ℕ) (hk : k < 2 * sectorTor + 1) :
      (subindex i (k - sectorTor) : ℤ) = (i + (k - sectorTor)) % sectorNum :=
    subindex_val i (by simp only [sectorTor] at *; omega)
  simp only [around, List.mem_map, List.mem_range, Near]
  constructor
  · rintro ⟨k, hk, rfl⟩
    have h := hval k hk
    simp only [sectorNum, sectorTor] at *
    omega
  · intro hnear
    let k := (((j : ℤ) - i + sectorTor) % sectorNum).toNat
    have hk : k < 2 * sectorTor + 1 := by
      simp only [k, sectorNum, sectorTor] at *
      omega
    refine ⟨k, hk, Fin.ext ?_⟩
    have h := hval k hk
    simp only [k, sectorNum, sectorTor] at *
    omega

/-- No sector is visited twice by one operation. -/
theorem around_nodup (index : Fin sectorNum) : (around index).Nodup := by
  refine List.Nodup.map_on (fun a ha b hb hab ↦ ?_) List.nodup_range
  have hindex := index.isLt
  rw [List.mem_range] at ha hb
  have hval (k : ℕ) (hk : k < 2 * sectorTor + 1) :=
    subindex_val index (i := k - sectorTor) (by simp only [sectorTor] at *; omega)
  have h := hval a ha
  rw [hab, hval b hb] at h
  simp only [sectorNum, sectorTor] at *
  omega

/-! ## The operations -/

/-- One sector after `setFree` read the time `now`. -/
def AudioInputSector.setFree (z : DirtySettings) (now : ℕ) (s : AudioInputSector) :
    AudioInputSector where
  dirtyTime := 0
  dirty := 0
  tryTime := 0
  dirtySuccessTime :=
    if now < s.dirtySuccessTime then
      if now + z.dirtySuccessTimeOut * 5 > s.dirtySuccessTime then
        s.dirtySuccessTime + z.dirtySuccessTimeOut
      else s.dirtySuccessTime
    else now + z.dirtySuccessTimeOut

/-- An operation with a sector. -/
inductive DirtyOp where
  | dirty (index : Fin sectorNum)
  | dirty2 (index : Fin sectorNum)
  | setFree2 (index : Fin sectorNum)
  | check (index : Fin sectorNum)
deriving DecidableEq

namespace ZDirty

section Code

variable (z : DirtySettings) (clock : ℕ → ℕ)

/-- A new object. -/
def new : ZDirty where
  sectors := fun _ ↦ AudioInputSector.new
  readings := 0
  history := []

/-- A call of `time`: the reading that it makes is `clock s.readings`. -/
def tick (s : ZDirty) : ZDirty :=
  { s with readings := s.readings + 1 }

/-- `setFree`. -/
def setFree (s : ZDirty) (index : Fin sectorNum) : ZDirty where
  sectors := Function.update s.sectors index ((s.sectors index).setFree z (clock s.readings))
  readings := s.readings + 1
  history := s.history ++ [.freed index]

/-- `setFree2`. -/
def setFree2 (s : ZDirty) (index : Fin sectorNum) : ZDirty :=
  run (setFree z clock) s (around index)

/-- The end of `dirty`: the mark itself, at the time read at its beginning. -/
def mark (s : ZDirty) (index : Fin sectorNum) (now : ℕ) : ZDirty where
  sectors := Function.update s.sectors index
    { s.sectors index with
      dirty := ((s.sectors index).dirty + 1) % 2 ^ 32
      dirtyTime := now }
  readings := s.readings
  history := s.history ++ [.marked index now]

/-- `dirty`. -/
def dirty (s : ZDirty) (index : Fin sectorNum) : ZDirty :=
  let now := clock s.readings
  if (now : ℤ) - (s.sectors index).dirtyTime ≥ z.dirtyTimeOut then
    (s.tick.setFree z clock index).mark index now
  else
    s.tick.mark index now

/-- `dirty2`. -/
def dirty2 (s : ZDirty) (index : Fin sectorNum) : ZDirty :=
  run (dirty z clock) s (around index)

/-- The time of a try is noted in a sector. -/
def setTry (now : ℕ) (s : ZDirty) (index : Fin sectorNum) : ZDirty :=
  { s with
    sectors := Function.update s.sectors index { s.sectors index with tryTime := now } }

/-- `check`, with what it returns. -/
def check (s : ZDirty) (index : Fin sectorNum) : Bool × ZDirty :=
  if z.bAffect = false then (true, s)
  else
    let now := clock s.readings
    let sector := s.sectors index
    if now < sector.dirtySuccessTime then
      (true, s.tick.setFree2 z clock index)
    else if sector.dirty < z.dirtyMax then
      (true, s.tick.setFree2 z clock index)
    else if (now : ℤ) - sector.dirtyTime ≥ z.dirtyTimeOut then
      (true, s.tick.setFree2 z clock index)
    else if (now : ℤ) - sector.tryTime < z.tryTimeOut then
      (true, s.tick.setFree2 z clock index)
    else
      (false, run (setTry now) s.tick (around index))

/-- One operation. -/
def step (s : ZDirty) : DirtyOp → ZDirty
  | .dirty index => s.dirty z clock index
  | .dirty2 index => s.dirty2 z clock index
  | .setFree2 index => s.setFree2 z clock index
  | .check index => (s.check z clock index).2

end Code

variable {z : DirtySettings} {clock : ℕ → ℕ}

theorem setFree_sectors (s : ZDirty) (index i : Fin sectorNum) :
    (s.setFree z clock index).sectors i =
      if i = index then (s.sectors i).setFree z (clock s.readings) else s.sectors i := by
  simp only [setFree, Function.update_apply]
  split_ifs with hi
  · rw [hi]
  · rfl

theorem mark_sectors (s : ZDirty) (index i : Fin sectorNum) (now : ℕ) :
    (s.mark index now).sectors i =
      if i = index then
        { s.sectors i with dirty := ((s.sectors i).dirty + 1) % 2 ^ 32, dirtyTime := now }
      else s.sectors i := by
  simp only [mark, Function.update_apply]
  split_ifs with hi
  · rw [hi]
  · rfl

theorem setTry_sectors (s : ZDirty) (index i : Fin sectorNum) (now : ℕ) :
    (setTry now s index).sectors i =
      if i = index then { s.sectors i with tryTime := now } else s.sectors i := by
  simp only [setTry, Function.update_apply]
  split_ifs with hi
  · rw [hi]
  · rfl

/-- A check goes one of three ways: the object is off, the sector is refused, or it is freed. -/
theorem check_cases (z : DirtySettings) (clock : ℕ → ℕ) (s : ZDirty) (index : Fin sectorNum) :
    z.bAffect = false ∧ s.check z clock index = (true, s) ∨
      (z.bAffect = true ∧ (s.sectors index).dirtySuccessTime ≤ clock s.readings ∧
          z.dirtyMax ≤ (s.sectors index).dirty ∧
          (clock s.readings : ℤ) - (s.sectors index).dirtyTime < z.dirtyTimeOut ∧
          (z.tryTimeOut : ℤ) ≤ clock s.readings - (s.sectors index).tryTime) ∧
        s.check z clock index =
          (false, run (setTry (clock s.readings)) s.tick (around index)) ∨
      s.check z clock index = (true, s.tick.setFree2 z clock index) := by
  unfold check
  by_cases haffect : z.bAffect = false
  · exact .inl ⟨haffect, if_pos haffect⟩
  · rw [if_neg haffect]
    dsimp only
    split_ifs with hsuccess hfew hexpired htry
    iterate 4 exact .inr (.inr rfl)
    refine .inr (.inl ⟨⟨by simpa using haffect, ?_⟩, rfl⟩)
    omega

/-- What is known when `check` refuses a sector; it notes the time of the try around the sector and
does nothing else. -/
theorem check_of_refused {s : ZDirty} {index : Fin sectorNum}
    (h : (s.check z clock index).1 = false) :
    (z.bAffect = true ∧ (s.sectors index).dirtySuccessTime ≤ clock s.readings ∧
        z.dirtyMax ≤ (s.sectors index).dirty ∧
        (clock s.readings : ℤ) - (s.sectors index).dirtyTime < z.dirtyTimeOut ∧
        (z.tryTimeOut : ℤ) ≤ clock s.readings - (s.sectors index).tryTime) ∧
      (s.check z clock index).2 = run (setTry (clock s.readings)) s.tick (around index) := by
  obtain ⟨-, hcheck⟩ | ⟨hguilty, hcheck⟩ | hcheck := check_cases z clock s index
  · rw [hcheck] at h
    exact nomatch h
  · exact ⟨hguilty, congrArg Prod.snd hcheck⟩
  · rw [hcheck] at h
    exact nomatch h

/-- A check that passes frees the sectors around, or does nothing at all. -/
theorem check_of_passed {s : ZDirty} {index : Fin sectorNum}
    (h : (s.check z clock index).1 = true) :
    (s.check z clock index).2 = s ∨
      (s.check z clock index).2 = s.tick.setFree2 z clock index := by
  obtain ⟨-, hcheck⟩ | ⟨-, hcheck⟩ | hcheck := check_cases z clock s index
  · exact .inl (congrArg Prod.snd hcheck)
  · rw [hcheck] at h
    exact nomatch h
  · exact .inr (congrArg Prod.snd hcheck)

/-- What the four elementary steps keep is kept by every operation: a reading of the clock, a
release, a mark, and the note of a try at the time read last. -/
theorem step_keeps {inv : ZDirty → Prop} (htick : ∀ s, inv s → inv s.tick)
    (hfree : ∀ s index, inv s → inv (s.setFree z clock index))
    (hdirty : ∀ s index, inv s → inv (s.dirty z clock index))
    (htry : ∀ s index reading, s.readings = reading + 1 → inv s →
      inv (setTry (clock reading) s index))
    {s : ZDirty} (h : inv s) (op : DirtyOp) : inv (s.step z clock op) := by
  have hfree2 (s : ZDirty) (index : Fin sectorNum) (h : inv s) : inv (s.setFree2 z clock index) :=
    run_keeps hfree h (around index)
  cases op with
  | dirty index => exact hdirty s index h
  | dirty2 index => exact run_keeps hdirty h (around index)
  | setFree2 index => exact hfree2 s index h
  | check index =>
      change inv (s.check z clock index).2
      cases hcheck : (s.check z clock index).1 with
      | false =>
          rw [(check_of_refused hcheck).2]
          have htried : ∀ s' index', (s'.readings = s.readings + 1 ∧ inv s') →
              ((setTry (clock s.readings) s' index').readings = s.readings + 1 ∧
                inv (setTry (clock s.readings) s' index')) := fun s' index' h' ↦
            ⟨h'.1, htry s' index' s.readings h'.1 h'.2⟩
          exact (run_keeps htried ⟨rfl, htick s h⟩ (around index)).2
      | true =>
          obtain hsame | hfreed := check_of_passed hcheck
          · rwa [hsame]
          · rw [hfreed]
            exact hfree2 _ index (htick s h)

/-! ## The marks behind a refusal -/

section Code

variable (index : Fin sectorNum)

/-- The marks of a sector after one more event: a release forgets them. -/
def marksAfter (marks : List ℕ) : SectorEvent → List ℕ
  | .freed i => if i = index then [] else marks
  | .marked i now => if i = index then marks ++ [now] else marks

/-- The times of the marks of a sector since it was last freed. -/
def marksSinceFreed (history : List SectorEvent) : List ℕ :=
  history.foldl (marksAfter index) []

end Code

/-- What the fields of a sector tell about its marks.  The count is kept modulo `2 ^ 32`. -/
structure Marks (z : DirtySettings) (sector : AudioInputSector) (marks : List ℕ) : Prop where
  count : sector.dirty ≤ marks.length
  last : ∀ time ∈ marks.getLast?, time = sector.dirtyTime
  close : marks.IsChain fun earlier later : ℕ ↦ (later : ℤ) - earlier < z.dirtyTimeOut

theorem Marks.freed (s : AudioInputSector) (now : ℕ) : Marks z (s.setFree z now) [] where
  count := Nat.le_refl 0
  last := fun _ h ↦ nomatch h
  close := .nil

theorem Marks.mark {sector : AudioInputSector} {marks : List ℕ} (h : Marks z sector marks) {now : ℕ}
    (hnow : marks = [] ∨ (now : ℤ) - sector.dirtyTime < z.dirtyTimeOut) :
    Marks z { sector with dirty := (sector.dirty + 1) % 2 ^ 32, dirtyTime := now }
      (marks ++ [now]) where
  count := by
    have hcount := h.count
    have hmod := Nat.mod_le (sector.dirty + 1) (2 ^ 32)
    simp only [List.length_append, List.length_singleton]
    omega
  last := by simp
  close := by
    refine List.isChain_append.mpr ⟨h.close, .singleton _, fun time htime later hlater ↦ ?_⟩
    obtain rfl : now = later := by simpa using hlater
    obtain rfl | hclose := hnow
    · exact nomatch htime
    · rw [h.last time htime]
      exact hclose

/-- Every sector tells about its marks in the history. -/
def HistoryOk (z : DirtySettings) (s : ZDirty) : Prop :=
  ∀ index, Marks z (s.sectors index) (marksSinceFreed index s.history)

theorem marksSinceFreed_concat (index : Fin sectorNum) (history : List SectorEvent)
    (event : SectorEvent) :
    marksSinceFreed index (history ++ [event]) =
      marksAfter index (marksSinceFreed index history) event :=
  List.foldl_concat ..

theorem setFree_marks (s : ZDirty) (index i : Fin sectorNum) :
    marksSinceFreed i (s.setFree z clock index).history =
      if i = index then [] else marksSinceFreed i s.history := by
  refine (marksSinceFreed_concat ..).trans ?_
  simp only [marksAfter, eq_comm]

theorem mark_marks (s : ZDirty) (index i : Fin sectorNum) (now : ℕ) :
    marksSinceFreed i (s.mark index now).history =
      if i = index then marksSinceFreed i s.history ++ [now] else marksSinceFreed i s.history := by
  refine (marksSinceFreed_concat ..).trans ?_
  simp only [marksAfter, eq_comm]

theorem HistoryOk.setFree {s : ZDirty} (h : HistoryOk z s) (index : Fin sectorNum) :
    HistoryOk z (s.setFree z clock index) := by
  intro i
  rw [setFree_sectors, setFree_marks]
  split_ifs
  · exact Marks.freed _ _
  · exact h i

theorem HistoryOk.mark {s : ZDirty} (h : HistoryOk z s) {index : Fin sectorNum} {now : ℕ}
    (hnow : marksSinceFreed index s.history = [] ∨
      (now : ℤ) - (s.sectors index).dirtyTime < z.dirtyTimeOut) :
    HistoryOk z (s.mark index now) := by
  intro i
  rw [mark_sectors, mark_marks]
  split_ifs with hi
  · subst hi
    exact (h i).mark hnow
  · exact h i

theorem HistoryOk.dirty {s : ZDirty} (h : HistoryOk z s) (index : Fin sectorNum) :
    HistoryOk z (s.dirty z clock index) := by
  unfold ZDirty.dirty
  dsimp only
  split_ifs with hexpired
  · refine HistoryOk.mark (HistoryOk.setFree (s := s.tick) h index) (.inl ?_)
    rw [setFree_marks, if_pos rfl]
  · exact HistoryOk.mark (s := s.tick) h (.inr (lt_of_not_ge hexpired))

theorem HistoryOk.setTry {s : ZDirty} (h : HistoryOk z s) (now : ℕ) (index : Fin sectorNum) :
    HistoryOk z (setTry now s index) := by
  intro i
  have hi := h i
  change Marks z ((ZDirty.setTry now s index).sectors i) (marksSinceFreed i s.history)
  rw [setTry_sectors]
  split_ifs
  · exact ⟨hi.count, hi.last, hi.close⟩
  · exact hi

theorem HistoryOk.run (z : DirtySettings) (clock : ℕ → ℕ) (ops : List DirtyOp) :
    HistoryOk z (Trace.run (ZDirty.step z clock) ZDirty.new ops) := by
  have hnew : HistoryOk z ZDirty.new := fun _ ↦ ⟨Nat.le_refl 0, fun _ h ↦ (nomatch h), .nil⟩
  have htick : ∀ s, HistoryOk z s → HistoryOk z s.tick := fun _ h ↦ h
  refine run_keeps (fun s op h ↦ ?_) hnew ops
  exact step_keeps htick (fun _ index h ↦ h.setFree index) (fun _ index h ↦ h.dirty index)
    (fun _ index _ _ h ↦ h.setTry _ index) h op

/-- A call of `dirty` marks its own sector once, and says nothing of the others. -/
theorem dirty_marks (s : ZDirty) (index i : Fin sectorNum) :
    marksSinceFreed i (s.dirty z clock index).history =
      if i = index then
        (if (clock s.readings : ℤ) - (s.sectors index).dirtyTime ≥ z.dirtyTimeOut then []
          else marksSinceFreed i s.history) ++ [clock s.readings]
      else marksSinceFreed i s.history := by
  unfold ZDirty.dirty
  dsimp only
  split_ifs with hexpired hi hi
  · rw [mark_marks, setFree_marks, if_pos hi, if_pos hi]
  · rw [mark_marks, setFree_marks, if_neg hi, if_neg hi]
    rfl
  · rw [mark_marks, if_pos hi]
    rfl
  · rw [mark_marks, if_neg hi]
    rfl

/-- A call of `dirty2` brings one mark to each sector around, as the last one, and none elsewhere. -/
theorem dirty2_marks (s : ZDirty) (index i : Fin sectorNum) :
    (Near index i → ∃ past now,
      marksSinceFreed i (s.dirty2 z clock index).history = past ++ [now] ∧
        (past = [] ∨ past = marksSinceFreed i s.history)) ∧
    (¬ Near index i →
      marksSinceFreed i (s.dirty2 z clock index).history = marksSinceFreed i s.history) := by
  have hother (visited : List (Fin sectorNum)) (s : ZDirty) (hi : i ∉ visited) :
      marksSinceFreed i (run (ZDirty.dirty z clock) s visited).history =
        marksSinceFreed i s.history := by
    induction visited generalizing s with
    | nil => rfl
    | cons head visited ih =>
        rw [List.mem_cons, not_or] at hi
        rw [run_cons, ih _ hi.2, dirty_marks, if_neg hi.1]
  refine ⟨fun hnear ↦ ?_, fun hfar ↦ hother _ s (mt mem_around.mp hfar)⟩
  obtain ⟨before, after, haround⟩ := List.append_of_mem (mem_around.mpr hnear)
  have hnodup := around_nodup index
  rw [haround, List.nodup_middle, List.nodup_cons, List.mem_append, not_or] at hnodup
  unfold ZDirty.dirty2
  rw [haround, run_append, run_cons, hother after _ hnodup.1.2, dirty_marks, if_pos rfl,
    hother before s hnodup.1.1]
  refine ⟨_, _, rfl, ?_⟩
  split_ifs
  · exact .inl rfl
  · exact .inr rfl

/-! ## The second try -/

/-- A refusal around the sector, at the reading `reading`, is not forgotten: either the try is still
noted, or the sector has been freed since and is trusted for long enough. -/
structure Tried (z : DirtySettings) (clock : ℕ → ℕ) (reading : ℕ) (i : Fin sectorNum)
    (s : ZDirty) : Prop where
  past : reading < s.readings
  kept : clock reading ≤ (s.sectors i).tryTime ∨
    clock reading + z.dirtySuccessTimeOut ≤ (s.sectors i).dirtySuccessTime

theorem le_dirtySuccessTime_setFree (now : ℕ) (sector : AudioInputSector) :
    now + z.dirtySuccessTimeOut ≤ (sector.setFree z now).dirtySuccessTime := by
  unfold AudioInputSector.setFree
  dsimp only
  split_ifs <;> omega

theorem Tried.setFree (hclock : Monotone clock) {reading : ℕ} {i : Fin sectorNum} {s : ZDirty}
    (h : Tried z clock reading i s) (index : Fin sectorNum) :
    Tried z clock reading i (s.setFree z clock index) where
  past := Nat.lt_succ_of_lt h.past
  kept := by
    rw [setFree_sectors]
    split_ifs
    · have hnow : clock reading ≤ clock s.readings := hclock h.past.le
      exact .inr ((Nat.add_le_add_right hnow _).trans (le_dirtySuccessTime_setFree _ _))
    · exact h.kept

theorem Tried.mark {reading : ℕ} {i : Fin sectorNum} {s : ZDirty} (h : Tried z clock reading i s)
    (index : Fin sectorNum) (now : ℕ) : Tried z clock reading i (s.mark index now) where
  past := h.past
  kept := by
    rw [mark_sectors]
    split_ifs
    · exact h.kept
    · exact h.kept

theorem Tried.tick {reading : ℕ} {i : Fin sectorNum} {s : ZDirty} (h : Tried z clock reading i s) :
    Tried z clock reading i s.tick where
  past := Nat.lt_succ_of_lt h.past
  kept := h.kept

theorem Tried.dirty (hclock : Monotone clock) {reading : ℕ} {i : Fin sectorNum} {s : ZDirty}
    (h : Tried z clock reading i s) (index : Fin sectorNum) :
    Tried z clock reading i (s.dirty z clock index) := by
  unfold ZDirty.dirty
  dsimp only
  split_ifs
  · exact (h.tick.setFree hclock index).mark index _
  · exact h.tick.mark index _

theorem Tried.setTry (hclock : Monotone clock) {reading : ℕ} {i : Fin sectorNum} {s : ZDirty}
    (h : Tried z clock reading i s) (index : Fin sectorNum) {last : ℕ}
    (hlast : s.readings = last + 1) :
    Tried z clock reading i (setTry (clock last) s index) where
  past := h.past
  kept := by
    rw [setTry_sectors]
    split_ifs
    · exact .inl (hclock (Nat.le_of_lt_succ (h.past.trans_eq hlast)))
    · exact h.kept

theorem Tried.step (hclock : Monotone clock) {reading : ℕ} {i : Fin sectorNum} {s : ZDirty}
    (h : Tried z clock reading i s) (op : DirtyOp) : Tried z clock reading i (s.step z clock op) :=
  step_keeps (fun _ h ↦ h.tick) (fun _ index h ↦ h.setFree hclock index)
    (fun _ index h ↦ h.dirty hclock index) (fun _ index _ hlast h ↦ h.setTry hclock index hlast) h op

/-- A refusal notes the try in every sector around. -/
theorem tried_of_refused {s : ZDirty} {index i : Fin sectorNum}
    (h : (s.check z clock index).1 = false) (hnear : Near index i) :
    Tried z clock s.readings i (s.step z clock (.check index)) := by
  have hall (visited : List (Fin sectorNum)) (s' : ZDirty) :
      (run (ZDirty.setTry (clock s.readings)) s' visited).readings = s'.readings ∧
        ((s'.sectors i).tryTime = clock s.readings ∨ i ∈ visited →
          ((run (ZDirty.setTry (clock s.readings)) s' visited).sectors i).tryTime =
            clock s.readings) := by
    induction visited generalizing s' with
    | nil => simp
    | cons head visited ih =>
        refine ⟨(ih _).1, fun htried ↦ (ih _).2 ?_⟩
        rw [setTry_sectors]
        by_cases hi : i = head
        · rw [if_pos hi]
          exact .inl rfl
        · rw [if_neg hi]
          exact htried.imp_right fun hmem ↦ (List.mem_cons.mp hmem).resolve_left hi
  obtain ⟨hreadings, htry⟩ := hall (around index) s.tick
  change Tried z clock s.readings i (s.check z clock index).2
  rw [(check_of_refused h).2]
  exact ⟨by rw [hreadings]; exact Nat.lt_succ_self _, .inl (htry (.inr (mem_around.mpr hnear))).ge⟩

/-- A sector that is remembered is not refused before the time for a second try is over. -/
theorem Tried.check (hclock : Monotone clock) (htimeouts : z.tryTimeOut ≤ z.dirtySuccessTimeOut)
    {reading : ℕ} {i : Fin sectorNum} {s : ZDirty} (h : Tried z clock reading i s)
    (hsoon : clock s.readings < clock reading + z.tryTimeOut) : (s.check z clock i).1 = true := by
  by_contra hrefused
  obtain ⟨-, hsuccess, -, -, htry⟩ := (check_of_refused (Bool.eq_false_iff.mpr hrefused)).1
  have hnow : clock reading ≤ clock s.readings := hclock h.past.le
  obtain hkept | hkept := h.kept <;> omega

/-! ## The window of trust -/

/-- No window reaches further than six timeouts beyond the last reading of the clock. -/
def WindowsBounded (z : DirtySettings) (clock : ℕ → ℕ) (s : ZDirty) : Prop :=
  ∀ i reading, s.readings ≤ reading + 1 →
    (s.sectors i).dirtySuccessTime ≤ clock reading + 6 * z.dirtySuccessTimeOut

theorem dirtySuccessTime_setFree_le {now bound : ℕ} {sector : AudioInputSector}
    (hnow : now + 6 * z.dirtySuccessTimeOut ≤ bound) (hsector : sector.dirtySuccessTime ≤ bound) :
    (sector.setFree z now).dirtySuccessTime ≤ bound := by
  unfold AudioInputSector.setFree
  dsimp only
  split_ifs <;> omega

theorem WindowsBounded.setFree (hclock : Monotone clock) {s : ZDirty}
    (h : WindowsBounded z clock s) (index : Fin sectorNum) :
    WindowsBounded z clock (s.setFree z clock index) := by
  intro i reading hreading
  have hreading' : s.readings ≤ reading := Nat.le_of_succ_le_succ hreading
  have hi := h i reading (Nat.le_succ_of_le hreading')
  rw [setFree_sectors]
  split_ifs
  · exact dirtySuccessTime_setFree_le (Nat.add_le_add_right (hclock hreading') _) hi
  · exact hi

theorem WindowsBounded.mark {s : ZDirty} (h : WindowsBounded z clock s) (index : Fin sectorNum)
    (now : ℕ) : WindowsBounded z clock (s.mark index now) := by
  intro i reading hreading
  have hi := h i reading hreading
  rw [mark_sectors]
  split_ifs
  · exact hi
  · exact hi

theorem WindowsBounded.tick {s : ZDirty} (h : WindowsBounded z clock s) :
    WindowsBounded z clock s.tick := fun i reading hreading ↦
  h i reading ((Nat.le_succ _).trans hreading)

theorem WindowsBounded.dirty (hclock : Monotone clock) {s : ZDirty} (h : WindowsBounded z clock s)
    (index : Fin sectorNum) : WindowsBounded z clock (s.dirty z clock index) := by
  unfold ZDirty.dirty
  dsimp only
  split_ifs
  · exact (h.tick.setFree hclock index).mark index _
  · exact h.tick.mark index _

theorem WindowsBounded.setTry {s : ZDirty} (h : WindowsBounded z clock s) (now : ℕ)
    (index : Fin sectorNum) : WindowsBounded z clock (setTry now s index) := by
  intro i reading hreading
  have hi := h i reading hreading
  rw [setTry_sectors]
  split_ifs
  · exact hi
  · exact hi

theorem WindowsBounded.run (hclock : Monotone clock) (ops : List DirtyOp) :
    WindowsBounded z clock (Trace.run (ZDirty.step z clock) ZDirty.new ops) := by
  have hnew : WindowsBounded z clock ZDirty.new := fun _ _ _ ↦ Nat.zero_le _
  refine run_keeps (fun s op h ↦ ?_) hnew ops
  exact step_keeps (fun _ h ↦ h.tick) (fun _ index h ↦ h.setFree hclock index)
    (fun _ index h ↦ h.dirty hclock index) (fun _ index _ _ h ↦ h.setTry _ index) h op

/-- **A refusal has its reasons, is not repeated, and trust stays bounded.**  After every run: a
sector is refused only outside its window, after `dirtyMax` marks in close succession since it was
last freed; every later check around it passes within the time for a second try; and no window
exceeds the time of the clock by more than six timeouts. -/
theorem refusals_and_windows (z : DirtySettings) (clock : ℕ → ℕ) (hclock : Monotone clock)
    (htimeouts : z.tryTimeOut ≤ z.dirtySuccessTimeOut) (ops : List DirtyOp) :
    let s := run (step z clock) new ops
    (∀ i, (s.check z clock i).1 = false →
      z.dirtyMax ≤ (marksSinceFreed i s.history).length ∧
        (marksSinceFreed i s.history).IsChain
          (fun earlier later : ℕ ↦ (later : ℤ) - earlier < z.dirtyTimeOut) ∧
        ¬ clock s.readings < (s.sectors i).dirtySuccessTime) ∧
    (∀ i, (s.check z clock i).1 = false → ∀ (later : List DirtyOp) (j : Fin sectorNum), Near i j →
      let s' := run (step z clock) (s.step z clock (.check i)) later
      clock s'.readings < clock s.readings + z.tryTimeOut → (s'.check z clock j).1 = true) ∧
    (∀ i reading, s.readings ≤ reading + 1 →
      (s.sectors i).dirtySuccessTime ≤ clock reading + 6 * z.dirtySuccessTimeOut) := by
  intro s
  refine ⟨fun i hrefused ↦ ?_, fun i hrefused later j hnear ↦ ?_, WindowsBounded.run hclock ops⟩
  · obtain ⟨-, hsuccess, hdirty, -, -⟩ := (check_of_refused hrefused).1
    have hmarks := HistoryOk.run z clock ops i
    exact ⟨hdirty.trans hmarks.count, hmarks.close, Nat.not_lt.mpr hsuccess⟩
  · intro s' hsoon
    have htried : Tried z clock s.readings j s' :=
      run_keeps (fun _ op h ↦ h.step hclock op) (tried_of_refused hrefused hnear) later
    exact htried.check hclock htimeouts hsoon

/-- Six marks make sector 0 guilty; after its refusal sector 4 passes. -/
theorem refusals_and_windows_six :
    let z : DirtySettings := ⟨true, 6, 60, 10, 20⟩
    let clock : ℕ → ℕ := fun _ ↦ 15
    let s := run (step z clock) new (List.replicate 6 (.dirty2 0))
    (s.check z clock 0).1 = false ∧ ((s.step z clock (.check 0)).check z clock 4).1 = true := by
  intro z clock s
  have hrefused : (s.check z clock 0).1 = false := by decide +kernel
  have hnear : Near 0 4 := .inl (by decide)
  have hlearning := refusals_and_windows z clock monotone_const (by decide)
    (List.replicate 6 (.dirty2 0))
  exact ⟨hrefused, hlearning.2.1 0 hrefused [] 4 hnear (by decide)⟩

/-! ## Marks that open a window -/

section Code

variable (z : DirtySettings) (clock : ℕ → ℕ)

/-- The operation moves the end of some window. -/
def Raises (s : ZDirty) (op : DirtyOp) : Prop :=
  ∃ i, (s.sectors i).dirtySuccessTime < ((s.step z clock op).sectors i).dirtySuccessTime

/-- The operations that are there to open windows. -/
def Opens (s : ZDirty) : DirtyOp → Prop
  | .setFree2 _ => True
  | .check index => (s.check z clock index).1 = true
  | _ => False

/-- A mark finds its sector marked a short while ago, or trusted for long enough already. -/
def QuietMark (s : ZDirty) (index : Fin sectorNum) : Prop :=
  (clock s.readings : ℤ) - (s.sectors index).dirtyTime ≥ z.dirtyTimeOut →
    clock (s.readings + 1) + 5 * z.dirtySuccessTimeOut ≤ (s.sectors index).dirtySuccessTime

/-- Every mark of the operation is quiet when its turn comes. -/
def Quiet (s : ZDirty) : DirtyOp → Prop
  | .dirty index => QuietMark z clock s index
  | .dirty2 index => Along (dirty z clock) (QuietMark z clock) s (around index)
  | _ => True

end Code

theorem le_setFree_dirtySuccessTime (now : ℕ) (sector : AudioInputSector) :
    sector.dirtySuccessTime ≤ (sector.setFree z now).dirtySuccessTime := by
  unfold AudioInputSector.setFree
  dsimp only
  split_ifs <;> omega

/-- A release leaves a window alone exactly if it reaches five timeouts ahead. -/
theorem setFree_dirtySuccessTime_le_iff {now : ℕ} {sector : AudioInputSector} :
    (sector.setFree z now).dirtySuccessTime ≤ sector.dirtySuccessTime ↔
      now + 5 * z.dirtySuccessTimeOut ≤ sector.dirtySuccessTime := by
  unfold AudioInputSector.setFree
  dsimp only
  split_ifs <;> omega

theorem dirty_dirtySuccessTime (s : ZDirty) (index i : Fin sectorNum) :
    ((s.dirty z clock index).sectors i).dirtySuccessTime =
      if i = index ∧ (clock s.readings : ℤ) - (s.sectors index).dirtyTime ≥ z.dirtyTimeOut then
        ((s.sectors i).setFree z (clock (s.readings + 1))).dirtySuccessTime
      else (s.sectors i).dirtySuccessTime := by
  unfold ZDirty.dirty
  dsimp only
  split_ifs with hexpired h h
  · rw [mark_sectors, if_pos h.1, setFree_sectors, if_pos h.1]
    rfl
  · have hi : ¬ i = index := fun hi ↦ h ⟨hi, hexpired⟩
    rw [mark_sectors, if_neg hi, setFree_sectors, if_neg hi]
    rfl
  · exact absurd h.2 hexpired
  · rw [mark_sectors]
    split_ifs <;> rfl

theorem le_dirty_dirtySuccessTime (s : ZDirty) (index i : Fin sectorNum) :
    (s.sectors i).dirtySuccessTime ≤ ((s.dirty z clock index).sectors i).dirtySuccessTime := by
  rw [dirty_dirtySuccessTime]
  split_ifs
  · exact le_setFree_dirtySuccessTime _ _
  · exact le_rfl

/-- A mark moves no window exactly if it is quiet. -/
theorem dirty_le_iff_quietMark {s : ZDirty} {index : Fin sectorNum} :
    (∀ i, ((s.dirty z clock index).sectors i).dirtySuccessTime ≤ (s.sectors i).dirtySuccessTime) ↔
      QuietMark z clock s index := by
  constructor
  · intro h hexpired
    have hindex := h index
    rw [dirty_dirtySuccessTime, if_pos ⟨rfl, hexpired⟩] at hindex
    exact setFree_dirtySuccessTime_le_iff.mp hindex
  · intro hquiet i
    rw [dirty_dirtySuccessTime]
    split_ifs with h
    · obtain ⟨rfl, hexpired⟩ := h
      exact setFree_dirtySuccessTime_le_iff.mpr (hquiet hexpired)
    · exact le_rfl

/-- A round of marks moves no window exactly if every one of its marks is quiet. -/
theorem dirty2_le_iff_quiet {s : ZDirty} {index : Fin sectorNum} :
    (∀ i, ((s.dirty2 z clock index).sectors i).dirtySuccessTime ≤ (s.sectors i).dirtySuccessTime) ↔
      Quiet z clock s (.dirty2 index) := by
  let good (s' : ZDirty) : Prop :=
    ∀ i, (s'.sectors i).dirtySuccessTime ≤ (s.sectors i).dirtySuccessTime
  let inv (s' : ZDirty) : Prop :=
    ∀ i, (s'.sectors i).dirtySuccessTime = (s.sectors i).dirtySuccessTime
  have keep : ∀ s' i, inv s' → QuietMark z clock s' i → inv (s'.dirty z clock i) := by
    intro s' i hinv hquiet j
    rw [← hinv j]
    exact le_antisymm (dirty_le_iff_quietMark.mpr hquiet j) (le_dirty_dirtySuccessTime s' i j)
  have spoil : ∀ s' i, inv s' → ¬ QuietMark z clock s' i → ¬ good (s'.dirty z clock i) := by
    intro s' i hinv hquiet hgood
    refine hquiet (dirty_le_iff_quietMark.mp fun j ↦ ?_)
    rw [hinv j]
    exact hgood j
  have stuck : ∀ s' i, ¬ good s' → ¬ good (s'.dirty z clock i) := fun s' i hbad hgood ↦
    hbad fun j ↦ (le_dirty_dirtySuccessTime s' i j).trans (hgood j)
  exact run_exact inv good keep spoil stuck (fun _ hinv j ↦ (hinv j).le) (fun _ ↦ rfl) (around index)

/-- A refusal moves no window. -/
theorem check_dirtySuccessTime_of_refused {s : ZDirty} {index : Fin sectorNum}
    (h : (s.check z clock index).1 = false) (i : Fin sectorNum) :
    ((s.check z clock index).2.sectors i).dirtySuccessTime = (s.sectors i).dirtySuccessTime := by
  rw [(check_of_refused h).2]
  let inv (s' : ZDirty) : Prop :=
    (s'.sectors i).dirtySuccessTime = (s.sectors i).dirtySuccessTime
  have keep : ∀ s' j, inv s' → inv (setTry (clock s.readings) s' j) := by
    intro s' j hinv
    change ((setTry (clock s.readings) s' j).sectors i).dirtySuccessTime = _
    rw [setTry_sectors]
    split_ifs
    · exact hinv
    · exact hinv
  exact run_keeps keep rfl (around index)

theorem opens_of_raises_iff_quiet {s : ZDirty} {op : DirtyOp} :
    (Raises z clock s op → Opens z clock s op) ↔ Quiet z clock s op := by
  cases op with
  | dirty index =>
      rw [Quiet, ← dirty_le_iff_quietMark]
      simp only [Raises, Opens, imp_false, not_exists, not_lt, step]
  | dirty2 index =>
      rw [← dirty2_le_iff_quiet]
      simp only [Raises, Opens, imp_false, not_exists, not_lt, step]
  | setFree2 index => exact iff_of_true (fun _ ↦ trivial) trivial
  | check index =>
      refine iff_of_true ?_ trivial
      rintro ⟨i, hraised⟩
      by_contra hrefused
      exact hraised.ne' (check_dirtySuccessTime_of_refused (Bool.eq_false_iff.mpr hrefused) i)

/-- **Marks leave the windows alone exactly if they are all quiet.**  In a run only `setFree2` and
passed checks move the end of a window if and only if every mark, when its turn comes, finds its
sector marked less than the timeout ago or trusted for five timeouts more. -/
theorem only_releases_raise_iff (z : DirtySettings) (clock : ℕ → ℕ) (ops : List DirtyOp) :
    Along (step z clock) (fun s op ↦ Raises z clock s op → Opens z clock s op) new ops ↔
      Along (step z clock) (Quiet z clock) new ops :=
  along_congr (fun _ ↦ True) (fun _ _ _ ↦ trivial) (fun _ _ _ ↦ opens_of_raises_iff_quiet) trivial
    ops

/-- The first mark of a new object makes its sector trusted. -/
theorem first_mark_opens : ¬ ∀ (z : DirtySettings) (clock : ℕ → ℕ), Monotone clock →
    ∀ ops, Along (step z clock) (fun s op ↦ Raises z clock s op → Opens z clock s op) new ops := by
  intro h
  refine (h ⟨true, 6, 60, 10, 20⟩ (fun _ ↦ 1000) monotone_const [.dirty 0]).1 ⟨0, ?_⟩
  decide

end ZDirty

end Vsys.Vbv
