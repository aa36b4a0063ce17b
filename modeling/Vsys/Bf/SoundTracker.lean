import Mathlib.Algebra.Order.Field.Basic
import Mathlib.Tactic.Linarith
import Mathlib.Tactic.FieldSimp
import Mathlib.Tactic.Ring

/-!
# Tracks of sound candidates

`R2SoundTracker` follows the directions that sound comes from.  `AddCandidate` gives a candidate to
the track nearest to it or starts a track, and `Tick` puts a silence into the queue of every track
that received nothing, cuts the queue to `kMaxQueueLen` entries and takes the weighted mean of the
entries that are not silent; a track without such an entry is removed.

A call has no result where the source would divide by zero, read beyond the end of a vector or take
the last entry of an empty queue.
-/

namespace Vsys.Bf

variable {F : Type}

/-! ## The tracker -/

/-- `R2SoundCandidate`. -/
structure R2SoundCandidate (F : Type) where
  serial : ℤ
  azimuth : F
  elevation : F
  confidence : F
  ticks : ℤ
  silence : Bool

/-- `R2SoundTracker`. -/
structure R2SoundTracker (F : Type) where
  candiqueues : List (List (R2SoundCandidate F))
  tickupdates : List Bool
  candidates : List (R2SoundCandidate F)
  serial : ℤ

/-- `kMaxQueueLen`. -/
def kMaxQueueLen : ℕ := 7

/-- A division of the source. -/
def divide [Field F] [DecidableEq F] (a b : F) : Option F := if b = 0 then none else some (a / b)

/-- The silence of a tick without a candidate. -/
def silent [Zero F] (serial : ℤ) : R2SoundCandidate F where
  serial := serial
  azimuth := 0
  elevation := 0
  confidence := 0
  ticks := 0
  silence := true

/-- `R2SoundTracker::Reset`. -/
def R2SoundTracker.reset (_ : R2SoundTracker F) : R2SoundTracker F where
  candiqueues := []
  tickupdates := []
  candidates := []
  serial := 0

section Model

variable [Field F] [LinearOrder F]

/-- `kMinClusterAngleCos`. -/
def kMinClusterAngleCos : F := 96592582629 / 100000000000

/-- The number of the candidate nearest to `candi`, with `maxWeight` and `maxWeightIdx` folded over
the candidates. -/
def closest (calcSoundAngle : R2SoundCandidate F → R2SoundCandidate F → F)
    (candi : R2SoundCandidate F) (candidates : List (R2SoundCandidate F)) : Option ℕ :=
  (candidates.zipIdx.foldl (fun max sc ↦
    let angle := calcSoundAngle candi sc.1
    if angle < kMinClusterAngleCos then max
    else if angle > max.1 then (angle, some sc.2) else max) ((-1 : F), none)).2

/-- `R2SoundTracker::AddCandidate`, with the candidate that the caller gets back. -/
def R2SoundTracker.addCandidate
    (calcSoundAngle : R2SoundCandidate F → R2SoundCandidate F → F) (s : R2SoundTracker F)
    (candi : R2SoundCandidate F) : Option (R2SoundTracker F × R2SoundCandidate F) :=
  match closest calcSoundAngle candi s.candidates with
  | none => do
      let candi := { candi with serial := s.serial }
      let confidence ← divide candi.confidence (kMaxQueueLen : F)
      return ({ candiqueues := s.candiqueues ++ [[candi]]
                tickupdates := s.tickupdates ++ [true]
                candidates := s.candidates ++ [{ candi with confidence := confidence }]
                serial := s.serial + 1 }, candi)
  | some maxWeightIdx => do
      let candiqueue ← s.candiqueues[maxWeightIdx]?
      let prevcandi ← candiqueue.getLast?
      let updated ← s.tickupdates[maxWeightIdx]?
      let candi := { candi with serial := prevcandi.serial }
      if updated then
        if candi.confidence > prevcandi.confidence then
          return ({ s with candiqueues :=
            s.candiqueues.set maxWeightIdx (candiqueue.dropLast ++ [candi]) }, candi)
        else return (s, candi)
      else
        return ({ s with
          candiqueues := s.candiqueues.set maxWeightIdx (candiqueue ++ [candi])
          tickupdates := s.tickupdates.set maxWeightIdx true }, candi)

/-- `GetRoundAzimuth`. -/
def getRoundAzimuth (pi azimuth center : F) : F :=
  let a1 := azimuth - pi * (2 : ℕ)
  let a2 := azimuth
  let a3 := azimuth + pi * (2 : ℕ)
  let d1 := |a1 - center|
  let d2 := |a2 - center|
  let d3 := |a3 - center|
  if d1 ≤ d2 ∧ d1 ≤ d3 then a1 else if d2 ≤ d1 ∧ d2 ≤ d3 then a2 else a3

/-- An azimuth brought back by at most one turn. -/
def wrap (pi azimuth : F) : F :=
  if azimuth < 0 then azimuth + pi * (2 : ℕ)
  else if azimuth ≥ pi * (2 : ℕ) then azimuth - pi * (2 : ℕ) else azimuth

/-- The mean `sc` of the entries so far with entry `j`. -/
def mean (pi : F) (j : ℕ) (aziCenter : F) (sc c : R2SoundCandidate F) :
    Option (R2SoundCandidate F) := do
  let w := sc.confidence + c.confidence * (j + 1)
  let w1 ← divide sc.confidence w
  let w2 ← divide (c.confidence * (j + 1)) w
  return { sc with
    azimuth := wrap pi (sc.azimuth * w1 + getRoundAzimuth pi c.azimuth aziCenter * w2)
    elevation := sc.elevation * w1 + c.elevation * w2
    confidence := sc.confidence + c.confidence * (j + 1) }

/-- The loop of `Tick` over a queue, from entry `j` on: the candidate and `nosilNum`. -/
def means (pi : F) : ℕ → List (R2SoundCandidate F) → F → ℕ → R2SoundCandidate F →
    Option (R2SoundCandidate F × ℕ)
  | _, [], _, nosilNum, sc => some (sc, nosilNum)
  | j, c :: rest, aziCenter, nosilNum, sc =>
      if c.silence then means pi (j + 1) rest aziCenter nosilNum sc
      else do
        let sc ← if nosilNum = 0 then some c else mean pi j aziCenter sc c
        means pi (j + 1) rest sc.azimuth (nosilNum + 1) sc

/-- The queue of a track in `Tick`, with a silence if the track received nothing. -/
def withSilence (updated : Bool) (candiqueue : List (R2SoundCandidate F)) :
    Option (List (R2SoundCandidate F)) :=
  if updated then some candiqueue
  else candiqueue.getLast?.map fun last ↦ candiqueue ++ [silent last.serial]

/-- A queue cut to `kMaxQueueLen`. -/
def cut (candiqueue : List (R2SoundCandidate F)) : List (R2SoundCandidate F) :=
  if candiqueue.length > kMaxQueueLen then candiqueue.tail else candiqueue

/-- The body of the loop of `Tick`: a track's queue, its candidate and `nosilNum`. -/
def tickTrack (pi : F) (updated : Bool) (candiqueue : List (R2SoundCandidate F))
    (sc : R2SoundCandidate F) :
    Option (List (R2SoundCandidate F) × R2SoundCandidate F × ℕ) := do
  let candiqueue ← (withSilence updated candiqueue).map cut
  let (sc, nosilNum) ← means pi 0 candiqueue 0 0 sc
  if nosilNum = 0 then return (candiqueue, sc, 0)
  else
    let n := candiqueue.length
    let confidence ← divide sc.confidence ((n * (n + 1) / 2 : ℕ) : F)
    return (candiqueue, { sc with confidence := confidence, ticks := nosilNum }, nosilNum)

/-- The loop of `Tick` from track `i` on.  A round goes to the next track or removes this one, so
as many rounds as there are tracks are enough. -/
def R2SoundTracker.tickRounds (pi : F) : ℕ → ℕ → R2SoundTracker F → Option (R2SoundTracker F)
  | 0, _, s => some s
  | rounds + 1, i, s =>
      if i < s.candiqueues.length then do
        let candiqueue ← s.candiqueues[i]?
        let updated ← s.tickupdates[i]?
        let sc ← s.candidates[i]?
        let (candiqueue, sc, nosilNum) ← tickTrack pi updated candiqueue sc
        if nosilNum = 0 then
          tickRounds pi rounds i { s with
            candiqueues := s.candiqueues.eraseIdx i
            tickupdates := s.tickupdates.eraseIdx i
            candidates := s.candidates.eraseIdx i }
        else
          tickRounds pi rounds (i + 1) { s with
            candiqueues := s.candiqueues.set i candiqueue
            tickupdates := s.tickupdates.set i false
            candidates := s.candidates.set i sc }
      else some s

/-- `R2SoundTracker::Tick`. -/
def R2SoundTracker.tick (pi : F) (s : R2SoundTracker F) : Option (R2SoundTracker F) :=
  s.tickRounds pi s.candiqueues.length 0

/-- `CompareSoundCandidate`. -/
def compareSoundCandidate (first second : R2SoundCandidate F) : Bool :=
  decide (first.confidence > second.confidence)

/-- `R2SoundTracker::GetCandidates`. -/
def R2SoundTracker.getCandidates (s : R2SoundTracker F) :
    R2SoundTracker F × List (R2SoundCandidate F) :=
  (s, s.candidates.mergeSort fun first second ↦ !compareSoundCandidate second first)

end Model

theorem divide_eq [Field F] [DecidableEq F] (a : F) {b : F} (hb : b ≠ 0) :
    divide a b = some (a / b) :=
  if_neg hb

section Azimuth

variable [Field F] [LinearOrder F] [IsStrictOrderedRing F] {pi : F}

/-! ## Azimuths -/

/-- A direction given by an azimuth of `[0, 2π)`. -/
structure OnCircle (pi azimuth : F) : Prop where
  nonneg : 0 ≤ azimuth
  lt_turn : azimuth < pi * 2

/-- The turn of an azimuth that `GetRoundAzimuth` chooses is at most half a turn from the center. -/
theorem abs_getRoundAzimuth_sub_le {azimuth center : F} (ha : OnCircle pi azimuth)
    (hc : OnCircle pi center) : |getRoundAzimuth pi azimuth center - center| ≤ pi := by
  have hnear : |azimuth - pi * 2 - center| ≤ pi ∨ |azimuth - center| ≤ pi ∨
      |azimuth + pi * 2 - center| ≤ pi := by
    simp only [abs_le]
    by_cases hlow : azimuth - center < -pi
    · exact Or.inr (Or.inr ⟨by linarith [ha.nonneg, hc.lt_turn], by linarith⟩)
    · by_cases hhigh : pi < azimuth - center
      · exact Or.inl ⟨by linarith, by linarith [ha.lt_turn, hc.nonneg]⟩
      · exact Or.inr (Or.inl ⟨by linarith, by linarith⟩)
  simp only [getRoundAzimuth, Nat.cast_ofNat]
  split_ifs with h1 h2
  · rcases hnear with h | h | h
    · exact h
    · exact h1.1.trans h
    · exact h1.2.trans h
  · rcases hnear with h | h | h
    · exact h2.1.trans h
    · exact h
    · exact h2.2.trans h
  · rcases hnear with h | h | h <;> grind

/-- One turn is enough for what is within half a turn of the circle. -/
theorem onCircle_wrap {azimuth : F} (hlow : -pi ≤ azimuth) (hhigh : azimuth < pi * 3) :
    OnCircle pi (wrap pi azimuth) := by
  have hpi : 0 < pi := by linarith
  simp only [wrap, Nat.cast_ofNat]
  split_ifs with h1 h2
  · exact ⟨by linarith, by linarith⟩
  · exact ⟨by linarith, by linarith⟩
  · exact ⟨not_lt.mp h1, not_le.mp h2⟩

/-- A weighted mean of a center and an azimuth turned next to it. -/
theorem onCircle_mean {a b u v : F} (hu : 0 < u) (hv : 0 < v) (ha : OnCircle pi a)
    (hb : OnCircle pi b) :
    OnCircle pi (wrap pi (a * (u / (u + v)) + getRoundAzimuth pi b a * (v / (u + v)))) := by
  have hnear := abs_le.mp (abs_getRoundAzimuth_sub_le hb ha)
  have hsum : 0 < u + v := add_pos hu hv
  have hmean : a * (u / (u + v)) + getRoundAzimuth pi b a * (v / (u + v)) =
      a + (getRoundAzimuth pi b a - a) * (v / (u + v)) := by
    field_simp
    ring
  have hw : v / (u + v) ≤ 1 := (div_le_one hsum).mpr (le_add_of_nonneg_left hu.le)
  have hw0 : 0 < v / (u + v) := div_pos hv hsum
  have hpi : 0 ≤ pi := by linarith [hnear.1, hnear.2]
  have hlow : -pi ≤ (getRoundAzimuth pi b a - a) * (v / (u + v)) := by
    nlinarith [mul_le_mul_of_nonneg_right hnear.1 hw0.le]
  have hhigh : (getRoundAzimuth pi b a - a) * (v / (u + v)) ≤ pi := by
    nlinarith [mul_le_mul_of_nonneg_right hnear.2 hw0.le]
  rw [hmean]
  exact onCircle_wrap (by linarith [ha.nonneg]) (by linarith [ha.lt_turn])

/-! ## The candidate of a queue -/

/-- An entry that a caller may add: an azimuth of the circle and a positive confidence. -/
structure R2SoundCandidate.Heard (pi : F) (c : R2SoundCandidate F) : Prop where
  silence : c.silence = false
  azimuth : OnCircle pi c.azimuth
  confidence : 0 < c.confidence

/-- `Tick` divides by a positive weight and finds a direction of the circle. -/
theorem mean_eq_some {sc c : R2SoundCandidate F} (hsc : sc.Heard pi) (hc : c.Heard pi) (j : ℕ) :
    ∃ next, mean pi j sc.azimuth sc c = some next ∧ next.Heard pi ∧ next.serial = sc.serial := by
  have hv : 0 < c.confidence * ((j : F) + 1) := mul_pos hc.confidence (Nat.cast_add_one_pos j)
  have hw : sc.confidence + c.confidence * ((j : F) + 1) ≠ 0 := (add_pos hsc.confidence hv).ne'
  have hmean : ∃ elevation, mean pi j sc.azimuth sc c = some { sc with
      azimuth := wrap pi (sc.azimuth * (sc.confidence / (sc.confidence + c.confidence * (j + 1))) +
        getRoundAzimuth pi c.azimuth sc.azimuth *
          (c.confidence * (j + 1) / (sc.confidence + c.confidence * (j + 1))))
      elevation := elevation
      confidence := sc.confidence + c.confidence * (j + 1) } :=
    ⟨_, by rw [mean, divide_eq _ hw, divide_eq _ hw, Option.bind_eq_bind]; rfl⟩
  obtain ⟨elevation, hmean⟩ := hmean
  refine ⟨_, hmean, ⟨hsc.silence, ?_, add_pos hsc.confidence hv⟩, rfl⟩
  exact onCircle_mean hsc.confidence hv hsc.azimuth hc.azimuth

/-- The entries of a queue that are not silent. -/
def heardNum (queue : List (R2SoundCandidate F)) : ℕ := queue.countP fun c ↦ !c.silence

/-- From a candidate that was found already. -/
theorem means_eq_some_of_pos {queue : List (R2SoundCandidate F)}
    (hqueue : ∀ c ∈ queue, c.silence = false → c.Heard pi) (j : ℕ) {n : ℕ} (hn : n ≠ 0)
    {sc : R2SoundCandidate F} (hsc : sc.Heard pi) :
    ∃ last, means pi j queue sc.azimuth n sc = some (last, n + heardNum queue) ∧ last.Heard pi ∧
      last.serial = sc.serial := by
  induction queue generalizing j n sc with
  | nil => exact ⟨sc, rfl, hsc, rfl⟩
  | cons c queue ih =>
      have hrest := fun d hd ↦ hqueue d (List.mem_cons_of_mem c hd)
      cases hc : c.silence with
      | true =>
          obtain ⟨last, heq, hlast⟩ := ih hrest (j + 1) hn hsc
          refine ⟨last, ?_, hlast⟩
          rw [means, if_pos hc, heq, heardNum, heardNum, List.countP_cons_of_neg (by simp [hc])]
      | false =>
          obtain ⟨next, hmean, hnext, hserial⟩ :=
            mean_eq_some hsc (hqueue c List.mem_cons_self hc) j
          obtain ⟨last, heq, hlast, hsame⟩ := ih hrest (j + 1) n.succ_ne_zero hnext
          refine ⟨last, ?_, hlast, hsame.trans hserial⟩
          have hcount : heardNum (c :: queue) = heardNum queue + 1 :=
            List.countP_cons_of_pos (by simp [hc])
          rw [means, if_neg (by simp [hc]), if_neg hn, hmean, Option.bind_eq_bind,
            Option.bind_some, hcount, ← Nat.add_assoc, Nat.add_right_comm]
          exact heq

/-- A queue with an entry that is not silent gives a candidate with that track's number. -/
theorem means_eq_some {queue : List (R2SoundCandidate F)}
    (hqueue : ∀ c ∈ queue, c.silence = false → c.Heard pi) {serial : ℤ}
    (hserial : ∀ c ∈ queue, c.serial = serial) (j : ℕ) (aziCenter : F)
    (sc : R2SoundCandidate F) :
    ∃ last, means pi j queue aziCenter 0 sc = some (last, heardNum queue) ∧
      (heardNum queue ≠ 0 → last.Heard pi ∧ last.serial = serial) := by
  induction queue generalizing j with
  | nil => exact ⟨sc, rfl, fun h ↦ absurd rfl h⟩
  | cons c queue ih =>
      have hrest := fun d hd ↦ hqueue d (List.mem_cons_of_mem c hd)
      cases hc : c.silence with
      | true =>
          have hcount : heardNum (c :: queue) = heardNum queue :=
            List.countP_cons_of_neg (by simp [hc])
          rw [means, if_pos hc, hcount]
          exact ih hrest (fun d hd ↦ hserial d (List.mem_cons_of_mem c hd)) (j + 1)
      | false =>
          have hcount : heardNum (c :: queue) = 0 + 1 + heardNum queue := by
            rw [heardNum, List.countP_cons_of_pos (by simp [hc]), heardNum, Nat.zero_add,
              Nat.add_comm]
          obtain ⟨last, heq, hlast, hsame⟩ := means_eq_some_of_pos hrest (j + 1)
            (Nat.succ_ne_zero 0) (hqueue c List.mem_cons_self hc)
          refine ⟨last, ?_, fun _ ↦ ⟨hlast, hsame.trans (hserial c List.mem_cons_self)⟩⟩
          rw [means, if_neg (by simp [hc]), if_pos rfl, hcount]
          exact heq

end Azimuth

/-! ## Tracks -/

/-- What happens to the tracks: `AddCandidate` hands out a track's number, `Tick` ends a tick. -/
inductive Event where
  | received (serial : ℤ)
  | ticked

/-- Whether a track received a candidate since the last `Tick`, and the number of consecutive ticks
before it in which the track received none. -/
structure Watch where
  heard : Bool
  missed : ℕ

/-- The end of a tick. -/
def Watch.tick (w : Watch) : Watch where
  heard := false
  missed := if w.heard then 0 else w.missed + 1

/-- What an event means for track `n`. -/
def Watch.next (n : ℤ) (w : Watch) : Event → Watch
  | .received serial => if serial = n then { w with heard := true } else w
  | .ticked => w.tick

/-- Track `n` after the events of a log. -/
def watch (n : ℤ) (log : List Event) : Watch := log.foldl (Watch.next n) ⟨false, 0⟩

/-- The silences at the end of a track's queue. -/
def Watch.silences (w : Watch) : ℕ := if w.heard then 0 else w.missed

/-- The entries that a track has in the three vectors. -/
structure Track (F : Type) where
  candiqueue : List (R2SoundCandidate F)
  updated : Bool
  candidate : R2SoundCandidate F

/-- The number of a track. -/
def Track.serial (t : Track F) : ℤ := t.candidate.serial

/-- The tracker with these tracks. -/
def ofTracks (tracks : List (Track F)) (serial : ℤ) : R2SoundTracker F where
  candiqueues := tracks.map (·.candiqueue)
  tickupdates := tracks.map (·.updated)
  candidates := tracks.map (·.candidate)
  serial := serial

section Tracks

variable [Field F] [LinearOrder F] {pi : F}

/-- An entry of the queue of track `serial`. -/
def R2SoundCandidate.Entry (pi : F) (serial : ℤ) (c : R2SoundCandidate F) : Prop :=
  c.serial = serial ∧ (c.silence = false → c.Heard pi)

/-- A queue that ends with an entry that is not silent and `silences` silences. -/
def EndsWith (serial : ℤ) (silences : ℕ) (queue : List (R2SoundCandidate F)) : Prop :=
  ∃ front c, queue = front ++ c :: List.replicate silences (silent serial) ∧ c.silence = false

/-- A track of which `w` is known. -/
structure Track.Holds (pi : F) (w : Watch) (t : Track F) : Prop where
  updated : t.updated = w.heard
  ends : EndsWith t.serial w.silences t.candiqueue
  length_le : t.candiqueue.length ≤ kMaxQueueLen + w.heard.toNat
  entries : ∀ c ∈ t.candiqueue, c.Entry pi t.serial
  azimuth : OnCircle pi t.candidate.azimuth

omit [LinearOrder F] in
theorem EndsWith.ne_nil {serial : ℤ} {silences : ℕ} {queue : List (R2SoundCandidate F)}
    (h : EndsWith serial silences queue) : queue ≠ [] := by
  obtain ⟨front, c, rfl, -⟩ := h
  exact List.append_ne_nil_of_right_ne_nil front (List.cons_ne_nil c _)

omit [LinearOrder F] in
theorem EndsWith.exists_heard {serial : ℤ} {silences : ℕ} {queue : List (R2SoundCandidate F)}
    (h : EndsWith serial silences queue) : ∃ c ∈ queue, c.silence = false := by
  obtain ⟨front, c, rfl, hc⟩ := h
  exact ⟨c, List.mem_append_right front List.mem_cons_self, hc⟩

omit [LinearOrder F] in
/-- An entry that is not silent, put at the end. -/
theorem endsWith_concat (serial : ℤ) (queue : List (R2SoundCandidate F)) {c : R2SoundCandidate F}
    (hc : c.silence = false) : EndsWith serial 0 (queue ++ [c]) := ⟨queue, c, rfl, hc⟩

/-- `Tick` puts a silence into the queue of a track that received nothing. -/
theorem Track.Holds.withSilence {w : Watch} {t : Track F} (h : t.Holds pi w) :
    ∃ queue, withSilence t.updated t.candiqueue = some queue ∧
      EndsWith t.serial w.tick.missed queue ∧ queue.length ≤ kMaxQueueLen + 1 ∧
      ∀ c ∈ queue, c.Entry pi t.serial := by
  obtain ⟨front, c, hqueue, hc⟩ := h.ends
  cases hheard : w.heard with
  | true =>
      refine ⟨t.candiqueue, if_pos (h.updated.trans hheard), ⟨front, c, ?_, hc⟩, ?_, h.entries⟩
      · simpa [Watch.silences, Watch.tick, hheard] using hqueue
      · simpa [hheard] using h.length_le
  | false =>
      have hlast := List.getLast?_eq_some_getLast h.ends.ne_nil
      have hserial := (h.entries _ (List.getLast_mem h.ends.ne_nil)).1
      refine ⟨t.candiqueue ++ [silent t.serial], ?_, ⟨front, c, ?_, hc⟩, ?_, ?_⟩
      · rw [Bf.withSilence, if_neg (by simp [h.updated, hheard]), hlast, Option.map_some, hserial]
      · rw [hqueue, List.append_assoc, List.cons_append]
        simp [Watch.silences, Watch.tick, hheard, List.replicate_succ']
      · simpa [hheard] using h.length_le
      · intro d hd
        rcases List.mem_append.mp hd with hd | hd
        · exact h.entries d hd
        · rw [List.mem_singleton.mp hd]
          exact ⟨rfl, fun hsilence ↦ absurd hsilence (by simp [silent])⟩

/-- The queue that `Tick` leaves: the last entry that was heard is cut off by the seventh tick in
which the track received nothing. -/
theorem Track.Holds.cut {w : Watch} {t : Track F} (h : t.Holds pi w) :
    ∃ queue, (Bf.withSilence t.updated t.candiqueue).map cut = some queue ∧
      queue.length ≤ kMaxQueueLen ∧ (∀ c ∈ queue, c.Entry pi t.serial) ∧
      (w.tick.missed = kMaxQueueLen ∧ (∀ c ∈ queue, c.silence = true) ∨
        w.tick.missed ≠ kMaxQueueLen ∧ EndsWith t.serial w.tick.missed queue) := by
  obtain ⟨queue, heq, ⟨front, c, hqueue, hc⟩, hlength, hentries⟩ := h.withSilence
  have hcount : queue.length = front.length + w.tick.missed + 1 := by
    rw [hqueue, List.length_append, List.length_cons, List.length_replicate, Nat.add_assoc]
  by_cases hlong : queue.length > kMaxQueueLen
  · have hcut : Bf.cut queue = queue.tail := if_pos hlong
    have hkept := fun d hd ↦ hentries d (List.mem_of_mem_tail hd)
    refine ⟨queue.tail, by rw [heq, Option.map_some, hcut], ?_, hkept, ?_⟩
    · rw [List.length_tail]
      omega
    · cases front with
      | nil =>
          refine Or.inl ⟨by simp only [List.length_nil] at hcount; omega, fun d hd ↦ ?_⟩
          rw [hqueue] at hd
          rw [List.eq_of_mem_replicate hd]
          rfl
      | cons f front =>
          refine Or.inr ⟨by simp only [List.length_cons] at hcount; omega, front, c, ?_, hc⟩
          rw [hqueue]
          rfl
  · have hcut : Bf.cut queue = queue := if_neg hlong
    refine ⟨queue, by rw [heq, Option.map_some, hcut], not_lt.mp hlong, hentries, ?_⟩
    exact Or.inr ⟨by omega, front, c, hqueue, hc⟩

omit [Field F] [LinearOrder F] in
theorem heardNum_eq_zero_iff {queue : List (R2SoundCandidate F)} :
    heardNum queue = 0 ↔ ∀ c ∈ queue, c.silence = true := by
  simp [heardNum, List.countP_eq_zero]

/-- **One round of `Tick`.** Nothing is divided by zero; the track goes exactly at the seventh
consecutive tick without a candidate, and what stays is a track again. -/
theorem Track.Holds.tickTrack [IsStrictOrderedRing F] {w : Watch} {t : Track F}
    (h : t.Holds pi w) :
    ∃ queue sc nosilNum,
      tickTrack pi t.updated t.candiqueue t.candidate = some (queue, sc, nosilNum) ∧
      (nosilNum = 0 ↔ w.tick.missed = kMaxQueueLen) ∧ queue.length ≤ kMaxQueueLen ∧
      (nosilNum ≠ 0 → (Track.mk queue false sc).Holds pi w.tick ∧ sc.serial = t.serial) := by
  obtain ⟨queue, hqueue, hlength, hentries, hends⟩ := h.cut
  obtain ⟨sc, hmeans, hsc⟩ := means_eq_some (fun c hc ↦ (hentries c hc).2)
    (fun c hc ↦ (hentries c hc).1) 0 0 t.candidate
  have hnum : heardNum queue = 0 ↔ w.tick.missed = kMaxQueueLen := by
    rw [heardNum_eq_zero_iff]
    rcases hends with ⟨hmissed, hall⟩ | ⟨hmissed, hend⟩
    · exact iff_of_true hall hmissed
    · obtain ⟨c, hc, hheard⟩ := hend.exists_heard
      exact iff_of_false (fun hall ↦ by simp [hall c hc] at hheard) hmissed
  by_cases hzero : heardNum queue = 0
  · refine ⟨queue, sc, 0, ?_, iff_of_true rfl (hnum.mp hzero), hlength, fun h ↦ absurd rfl h⟩
    rw [Bf.tickTrack, hqueue, Option.bind_eq_bind, Option.bind_some, hmeans]
    simp [hzero]
  · have hend := (hends.resolve_left fun hmissed ↦ hzero (hnum.mpr hmissed.1)).2
    have hpos : 0 < queue.length := List.length_pos_of_ne_nil hend.ne_nil
    have hhalf : 0 < queue.length * (queue.length + 1) / 2 :=
      Nat.div_pos (by nlinarith) two_pos
    have hdivisor : ((queue.length * (queue.length + 1) / 2 : ℕ) : F) ≠ 0 :=
      Nat.cast_ne_zero.mpr hhalf.ne'
    obtain ⟨hheard, hserial⟩ := hsc hzero
    refine ⟨queue, { sc with
        confidence := sc.confidence / ((queue.length * (queue.length + 1) / 2 : ℕ) : F)
        ticks := heardNum queue }, heardNum queue, ?_, hnum, hlength, fun _ ↦ ⟨?_, hserial⟩⟩
    · rw [Bf.tickTrack, hqueue, Option.bind_eq_bind, Option.bind_some, hmeans]
      simp [hzero, divide_eq _ hdivisor]
    · have hnumber : (Track.mk queue false { sc with
          confidence := sc.confidence / ((queue.length * (queue.length + 1) / 2 : ℕ) : F)
          ticks := heardNum queue }).serial = t.serial := hserial
      refine ⟨rfl, ?_, hlength, ?_, hheard.azimuth⟩
      · rw [hnumber]
        exact hend
      · rw [hnumber]
        exact hentries

end Tracks

end Vsys.Bf
