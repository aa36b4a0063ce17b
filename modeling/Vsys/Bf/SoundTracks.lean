import Mathlib.Algebra.Order.Ring.Rat
import Mathlib.Data.List.Nodup
import Vsys.Bf.SoundTracker
import Vsys.Trace.Run

/-!
# The life of a sound track

The three vectors of `R2SoundTracker` are the columns of one list of tracks.  `Tick` maps and
filters that list and `AddCandidate` appends to it or changes one track, so what a call leaves of a
track is read off the track alone; a run is followed with a log of the numbers handed out and the
ticks.
-/

namespace Vsys.Bf

open Vsys.Trace

variable {F : Type}

/-! ## Columns of the list of tracks -/

/-- What a round of `Tick` leaves of a track. -/
def Track.tick [Field F] [LinearOrder F] (pi : F) (t : Track F) : Option (Track F) :=
  (tickTrack pi t.updated t.candiqueue t.candidate).bind fun r ↦
    if r.2.2 = 0 then none else some ⟨r.1, false, r.2.1⟩

/-- The numbers of the tracks. -/
def R2SoundTracker.serials (s : R2SoundTracker F) : List ℤ := s.candidates.map (·.serial)

theorem serials_ofTracks (tracks : List (Track F)) (serial : ℤ) :
    (ofTracks tracks serial).serials = tracks.map Track.serial := List.map_map ..

/-- The loop of `Tick` reaches every track once and is over after as many rounds. -/
theorem tickRounds_ofTracks [Field F] [LinearOrder F] {pi : F} {rest : List (Track F)}
    (hrest : ∀ t ∈ rest, (tickTrack pi t.updated t.candiqueue t.candidate).isSome)
    (done : List (Track F)) (serial : ℤ) :
    (ofTracks (done ++ rest) serial).tickRounds pi rest.length done.length =
      some (ofTracks (done ++ rest.filterMap (Track.tick pi)) serial) := by
  induction rest generalizing done with
  | nil => rfl
  | cons t rest ih =>
      obtain ⟨⟨queue, sc, nosilNum⟩, htick⟩ := Option.isSome_iff_exists.mp (hrest t List.mem_cons_self)
      have ih := ih fun u hu ↦ hrest u (List.mem_cons_of_mem t hu)
      have hlength : done.length < (ofTracks (done ++ t :: rest) serial).candiqueues.length := by
        simp [ofTracks]
      have hqueue : (ofTracks (done ++ t :: rest) serial).candiqueues[done.length]? =
          some t.candiqueue := by simp [ofTracks]
      have hupdated : (ofTracks (done ++ t :: rest) serial).tickupdates[done.length]? =
          some t.updated := by simp [ofTracks]
      have hcandidate : (ofTracks (done ++ t :: rest) serial).candidates[done.length]? =
          some t.candidate := by simp [ofTracks]
      rw [List.length_cons, R2SoundTracker.tickRounds, if_pos hlength]
      simp only [hqueue, hupdated, hcandidate, Option.bind_eq_bind, Option.bind_some, htick]
      by_cases hzero : nosilNum = 0
      · have hnone : Track.tick pi t = none := by rw [Track.tick, htick, Option.bind_some, if_pos hzero]
        rw [if_pos hzero, List.filterMap_cons_none hnone, ← ih done]
        simp [ofTracks, List.eraseIdx_append_of_length_le]
      · have hsome : Track.tick pi t = some ⟨queue, false, sc⟩ := by
          rw [Track.tick, htick, Option.bind_some, if_neg hzero]
        have hnext := ih (done ++ [⟨queue, false, sc⟩])
        rw [if_neg hzero, List.filterMap_cons_some hsome]
        simpa [ofTracks] using hnext

/-! ## The tracks of a log -/

section Tracking

variable [Field F] [LinearOrder F] {pi : F} {tracks : List (Track F)} {serial : ℤ}
  {log : List Event}

/-- Tracks whose queues agree with the log; a number is handed out to one track only. -/
structure Tracking (pi : F) (tracks : List (Track F)) (serial : ℤ) (log : List Event) : Prop where
  holds : ∀ t ∈ tracks, t.Holds pi (watch t.serial log)
  nodup : (tracks.map Track.serial).Nodup
  below : ∀ t ∈ tracks, t.serial < serial

theorem watch_received (n m : ℤ) (log : List Event) :
    watch n (log ++ [.received m]) =
      if m = n then { watch n log with heard := true } else watch n log := by
  simp [watch, Watch.next]

theorem watch_ticked (n : ℤ) (log : List Event) :
    watch n (log ++ [.ticked]) = (watch n log).tick := by
  simp [watch, Watch.next]

/-- `AddCandidate` chooses one of the tracks. -/
theorem closest_lt {calcSoundAngle : R2SoundCandidate F → R2SoundCandidate F → F}
    {candi : R2SoundCandidate F} {candidates : List (R2SoundCandidate F)} {i : ℕ}
    (h : closest calcSoundAngle candi candidates = some i) : i < candidates.length := by
  refine List.foldlRecOn (motive := fun max : F × Option ℕ ↦ max.2 = some i → i < candidates.length)
    candidates.zipIdx _ (by simp) (fun max ih sc hsc ↦ ?_) h
  dsimp only
  split_ifs
  · exact ih
  · intro heq
    rw [← Option.some.inj heq]
    exact List.snd_lt_of_mem_zipIdx hsc
  · exact ih

/-- A track that receives a candidate keeps its number and its candidate. -/
theorem Track.Holds.receive {w : Watch} {t : Track F} (h : t.Holds pi w) (serial : ℤ)
    {candi : R2SoundCandidate F} (hcandi : candi.Heard pi)
    {calcSoundAngle : R2SoundCandidate F → R2SoundCandidate F → F} {done rest : List (Track F)}
    (hclosest : closest calcSoundAngle candi ((done ++ t :: rest).map (·.candidate)) =
      some done.length) :
    ∃ u : Track F, (ofTracks (done ++ t :: rest) serial).addCandidate calcSoundAngle candi =
        some (ofTracks (done ++ u :: rest) serial, { candi with serial := t.serial }) ∧
      u.Holds pi { w with heard := true } ∧ u.serial = t.serial := by
  have hlast := List.getLast?_eq_some_getLast h.ends.ne_nil
  have hserial := (h.entries _ (List.getLast_mem h.ends.ne_nil)).1
  have hentry : ({ candi with serial := t.serial } : R2SoundCandidate F).Entry pi t.serial :=
    ⟨rfl, fun _ ↦ ⟨hcandi.silence, hcandi.azimuth, hcandi.confidence⟩⟩
  have hqueue : (ofTracks (done ++ t :: rest) serial).candiqueues[done.length]? =
      some t.candiqueue := by simp [ofTracks]
  have hupdated : (ofTracks (done ++ t :: rest) serial).tickupdates[done.length]? =
      some t.updated := by simp [ofTracks]
  have hadd : ∀ queue : List (R2SoundCandidate F),
      (∀ c ∈ queue, c.Entry pi t.serial) → queue.length ≤ kMaxQueueLen →
      (Track.mk (queue ++ [{ candi with serial := t.serial }]) true t.candidate).Holds pi
        { w with heard := true } := by
    intro queue hentries hlength
    refine ⟨rfl, endsWith_concat _ queue hcandi.silence, ?_, ?_, h.azimuth⟩
    · simpa using hlength
    · exact List.forall_mem_append.mpr ⟨hentries, List.forall_mem_singleton.mpr hentry⟩
  unfold R2SoundTracker.addCandidate
  rw [show closest calcSoundAngle candi (ofTracks (done ++ t :: rest) serial).candidates = _ from
    hclosest]
  simp only [hqueue, hupdated, hlast, hserial, Option.bind_eq_bind, Option.bind_some]
  have hmax := h.length_le
  cases hheard : w.heard with
  | true =>
      have hsame : { w with heard := true } = w := by rw [← hheard]
      rw [hheard] at hmax
      rw [if_pos (h.updated.trans hheard)]
      split_ifs with hconfidence
      · refine ⟨⟨t.candiqueue.dropLast ++ [{ candi with serial := t.serial }], true, t.candidate⟩,
          ?_, hadd _ (fun c hc ↦ h.entries c (List.dropLast_subset _ hc)) ?_, rfl⟩
        · simp [ofTracks, h.updated.trans hheard]
        · rw [List.length_dropLast]
          simpa using hmax
      · exact ⟨t, rfl, hsame ▸ h, rfl⟩
  | false =>
      rw [hheard] at hmax
      refine ⟨⟨t.candiqueue ++ [{ candi with serial := t.serial }], true, t.candidate⟩, ?_,
        hadd _ h.entries (by simpa using hmax), rfl⟩
      rw [if_neg (by simp [h.updated, hheard])]
      simp [ofTracks]

theorem Tracking.ne_of_mem {done rest : List (Track F)} {t u : Track F}
    (h : Tracking pi (done ++ t :: rest) serial log) (hu : u ∈ done ++ rest) :
    u.serial ≠ t.serial := by
  have hnodup := h.nodup
  rw [List.map_append, List.map_cons, List.nodup_middle, ← List.map_append,
    List.nodup_cons] at hnodup
  exact fun heq ↦ hnodup.1 (heq ▸ List.mem_map_of_mem hu)

/-- A track with the next number. -/
theorem Tracking.concat (h : Tracking pi tracks serial log) {t : Track F}
    (hserial : t.serial = serial) (ht : t.Holds pi { watch serial log with heard := true }) :
    Tracking pi (tracks ++ [t]) (serial + 1) (log ++ [.received serial]) := by
  refine ⟨?_, ?_, ?_⟩
  · refine List.forall_mem_append.mpr ⟨fun u hu ↦ ?_, List.forall_mem_singleton.mpr ?_⟩
    · rw [watch_received, if_neg (h.below u hu).ne']
      exact h.holds u hu
    · rw [hserial, watch_received, if_pos rfl]
      exact ht
  · rw [List.map_append, List.map_singleton, ← List.concat_eq_append, hserial]
    refine h.nodup.concat fun hmem ↦ ?_
    obtain ⟨u, hu, heq⟩ := List.mem_map.mp hmem
    exact (h.below u hu).ne heq
  · refine List.forall_mem_append.mpr ⟨fun u hu ↦ ?_, List.forall_mem_singleton.mpr ?_⟩
    · exact (h.below u hu).trans (lt_add_one serial)
    · rw [hserial]
      exact lt_add_one serial

/-- A track changed in its place, when its number is handed out. -/
theorem Tracking.replace {done rest : List (Track F)} {t u : Track F}
    (h : Tracking pi (done ++ t :: rest) serial log) (hserial : u.serial = t.serial)
    (hu : u.Holds pi { watch t.serial log with heard := true }) :
    Tracking pi (done ++ u :: rest) serial (log ++ [.received t.serial]) := by
  have hsame : (done ++ u :: rest).map Track.serial = (done ++ t :: rest).map Track.serial := by
    rw [List.map_append, List.map_append, List.map_cons, List.map_cons, hserial]
  have hothers : ∀ v ∈ done ++ u :: rest, v = u ∨ v ∈ done ++ rest := by
    intro v hv
    simp only [List.mem_append, List.mem_cons] at hv ⊢
    tauto
  have hkept : ∀ v ∈ done ++ rest, v ∈ done ++ t :: rest := by
    intro v hv
    simp only [List.mem_append, List.mem_cons] at hv ⊢
    tauto
  refine ⟨fun v hv ↦ ?_, ?_, fun v hv ↦ ?_⟩
  · rcases hothers v hv with rfl | hv
    · rw [hserial, watch_received, if_pos rfl]
      exact hu
    · rw [watch_received, if_neg (h.ne_of_mem hv).symm]
      exact h.holds v (hkept v hv)
  · rw [hsame]
    exact h.nodup
  · rcases hothers v hv with rfl | hv
    · rw [hserial]
      exact h.below t (List.mem_append_right done List.mem_cons_self)
    · exact h.below v (hkept v hv)

/-- **One `AddCandidate`.** It succeeds; no track goes, and a number that is new was never handed
out. -/
theorem Tracking.addCandidate [IsStrictOrderedRing F] (h : Tracking pi tracks serial log)
    {candi : R2SoundCandidate F} (hcandi : candi.Heard pi)
    (calcSoundAngle : R2SoundCandidate F → R2SoundCandidate F → F) :
    ∃ tracks' serial' n, (ofTracks tracks serial).addCandidate calcSoundAngle candi =
        some (ofTracks tracks' serial', { candi with serial := n }) ∧
      Tracking pi tracks' serial' (log ++ [.received n]) ∧ serial ≤ serial' ∧
      (∀ m ∈ tracks.map Track.serial, m ∈ tracks'.map Track.serial) ∧
      ∀ m ∈ tracks'.map Track.serial, m ∈ tracks.map Track.serial ∨ serial ≤ m := by
  cases hclosest : closest calcSoundAngle candi (tracks.map (·.candidate)) with
  | none =>
      have hseven : ((kMaxQueueLen : ℕ) : F) ≠ 0 := Nat.cast_ne_zero.mpr (by decide)
      let first : R2SoundCandidate F := { candi with serial := serial }
      let track : Track F :=
        ⟨[first], true, { first with confidence := candi.confidence / (kMaxQueueLen : F) }⟩
      have hentry : first.Entry pi serial :=
        ⟨rfl, fun _ ↦ ⟨hcandi.silence, hcandi.azimuth, hcandi.confidence⟩⟩
      have htrack : track.Holds pi { watch serial log with heard := true } :=
        ⟨rfl, endsWith_concat _ [] hcandi.silence, Nat.succ_le_succ (Nat.zero_le _),
          List.forall_mem_singleton.mpr hentry, hcandi.azimuth⟩
      refine ⟨tracks ++ [track], serial + 1, serial, ?_, h.concat rfl htrack, by omega, ?_, ?_⟩
      · unfold R2SoundTracker.addCandidate
        rw [show closest calcSoundAngle candi (ofTracks tracks serial).candidates = none from
          hclosest]
        simp [ofTracks, track, first, divide_eq candi.confidence hseven]
      · intro m hm
        rw [List.map_append]
        exact List.mem_append_left _ hm
      · intro m hm
        rw [List.map_append, List.map_singleton] at hm
        exact (List.mem_append.mp hm).imp_right fun hm ↦ (List.mem_singleton.mp hm).ge
  | some i =>
      have hi : i < tracks.length := by simpa using closest_lt hclosest
      obtain ⟨done, t, rest, rfl, rfl⟩ : ∃ done t rest, tracks = done ++ t :: rest ∧
          i = done.length := by
        refine ⟨tracks.take i, tracks[i], tracks.drop (i + 1), ?_, ?_⟩
        · rw [← List.drop_eq_getElem_cons hi, List.take_append_drop]
        · rw [List.length_take_of_le hi.le]
      have ht : t ∈ done ++ t :: rest := List.mem_append_right done List.mem_cons_self
      obtain ⟨u, hadd, hu, hserial⟩ := (h.holds t ht).receive serial hcandi hclosest
      have hsame : (done ++ u :: rest).map Track.serial = (done ++ t :: rest).map Track.serial := by
        rw [List.map_append, List.map_append, List.map_cons, List.map_cons, hserial]
      refine ⟨done ++ u :: rest, serial, t.serial, hadd, h.replace hserial hu, le_rfl,
        fun m hm ↦ hsame ▸ hm, fun m hm ↦ Or.inl (hsame ▸ hm)⟩

/-- What keeps its key keeps its place. -/
theorem sublist_map_filterMap {α β : Type*} {f : α → Option α} {key : α → β} {l : List α}
    (hf : ∀ a ∈ l, ∀ b, f a = some b → key b = key a) :
    ((l.filterMap f).map key).Sublist (l.map key) := by
  induction l with
  | nil => exact List.Sublist.slnil
  | cons a l ih =>
      have ih := ih fun b hb ↦ hf b (List.mem_cons_of_mem a hb)
      cases ha : f a with
      | none =>
          rw [List.filterMap_cons_none ha]
          exact ih.cons (key a)
      | some b =>
          rw [List.filterMap_cons_some ha, List.map_cons, List.map_cons,
            hf a List.mem_cons_self b ha]
          exact ih.cons_cons (key a)

/-- **One `Tick`.** It succeeds; the tracks that go are those at the seventh consecutive tick without
a candidate. -/
theorem Tracking.tick [IsStrictOrderedRing F] (h : Tracking pi tracks serial log) :
    ∃ tracks', (ofTracks tracks serial).tick pi = some (ofTracks tracks' serial) ∧
      Tracking pi tracks' serial (log ++ [.ticked]) ∧
      (∀ n ∈ tracks.map Track.serial, n ∉ tracks'.map Track.serial ↔
        (watch n (log ++ [.ticked])).missed = kMaxQueueLen) ∧
      (∀ n ∈ tracks'.map Track.serial, n ∈ tracks.map Track.serial) ∧
      ∀ t ∈ tracks', t.candiqueue.length ≤ kMaxQueueLen := by
  have hspec : ∀ t ∈ tracks, (tickTrack pi t.updated t.candiqueue t.candidate).isSome ∧
      (t.tick pi = none ↔ (watch t.serial (log ++ [.ticked])).missed = kMaxQueueLen) ∧
      ∀ u, t.tick pi = some u → u.Holds pi (watch t.serial (log ++ [.ticked])) ∧
        u.serial = t.serial ∧ u.candiqueue.length ≤ kMaxQueueLen := by
    intro t ht
    obtain ⟨queue, sc, nosilNum, heq, hzero, hlength, hsc⟩ := (h.holds t ht).tickTrack
    rw [watch_ticked, heq, Track.tick, heq, Option.bind_some]
    refine ⟨rfl, ?_, fun u hu ↦ ?_⟩
    · rw [← hzero]
      simp
    · by_cases hnone : nosilNum = 0
      · rw [if_pos hnone] at hu
        exact absurd hu (Option.some_ne_none u).symm
      · rw [if_neg hnone] at hu
        rw [← Option.some.inj hu]
        exact ⟨(hsc hnone).1, (hsc hnone).2, hlength⟩
  have hfound : ∀ u ∈ tracks.filterMap (Track.tick pi), ∃ t ∈ tracks, t.tick pi = some u :=
    fun u hu ↦ List.mem_filterMap.mp hu
  have hsublist : ((tracks.filterMap (Track.tick pi)).map Track.serial).Sublist
      (tracks.map Track.serial) :=
    sublist_map_filterMap fun t ht u hu ↦ ((hspec t ht).2.2 u hu).2.1
  refine ⟨tracks.filterMap (Track.tick pi), ?_, ⟨fun u hu ↦ ?_, hsublist.nodup h.nodup,
    fun u hu ↦ ?_⟩, fun n hn ↦ ?_, fun n hn ↦ hsublist.subset hn, fun u hu ↦ ?_⟩
  · have hrounds := tickRounds_ofTracks (fun t ht ↦ (hspec t ht).1) [] serial
    rw [R2SoundTracker.tick]
    simpa [ofTracks] using hrounds
  · obtain ⟨t, ht, hsome⟩ := hfound u hu
    have ⟨hholds, hserial, _⟩ := (hspec t ht).2.2 u hsome
    rw [hserial]
    exact hholds
  · obtain ⟨t, ht, hsome⟩ := hfound u hu
    rw [((hspec t ht).2.2 u hsome).2.1]
    exact h.below t ht
  · obtain ⟨t, ht, rfl⟩ := List.mem_map.mp hn
    rw [← (hspec t ht).2.1]
    constructor
    · intro hgone
      refine Option.eq_none_iff_forall_not_mem.mpr fun u hu ↦ hgone (List.mem_map.mpr ?_)
      exact ⟨u, List.mem_filterMap.mpr ⟨t, ht, hu⟩, ((hspec t ht).2.2 u hu).2.1⟩
    · intro hnone hmem
      obtain ⟨u, hu, hserial⟩ := List.mem_map.mp hmem
      obtain ⟨v, hv, hsome⟩ := hfound u hu
      have hsame : v = t := List.inj_on_of_nodup_map h.nodup hv ht
        (((hspec v hv).2.2 u hsome).2.1.symm.trans hserial)
      rw [hsame, hnone] at hsome
      exact Option.some_ne_none u hsome.symm
  · obtain ⟨t, ht, hsome⟩ := hfound u hu
    exact ((hspec t ht).2.2 u hsome).2.2

end Tracking

/-! ## Runs -/

/-- The calls of a tracker; the angles that a call finds are its own. -/
inductive TrackerOp (F : Type) where
  | addCandidate (calcSoundAngle : R2SoundCandidate F → R2SoundCandidate F → F)
      (candi : R2SoundCandidate F)
  | tick
  | getCandidates

/-- A caller adds candidates that were heard. -/
def TrackerOp.Admissible [Field F] [LinearOrder F] (pi : F) : TrackerOp F → Prop
  | .addCandidate _ candi => candi.Heard pi
  | .tick => True
  | .getCandidates => True

section Runs

variable [Field F] [LinearOrder F]

/-- One call, and what it adds to the log. -/
def perform (pi : F) (state : Option (R2SoundTracker F × List Event)) :
    TrackerOp F → Option (R2SoundTracker F × List Event)
  | .addCandidate calcSoundAngle candi =>
      state.bind fun s ↦ (s.1.addCandidate calcSoundAngle candi).map fun r ↦
        (r.1, s.2 ++ [.received r.2.serial])
  | .tick => state.bind fun s ↦ (s.1.tick pi).map fun r ↦ (r, s.2 ++ [.ticked])
  | .getCandidates => state.map fun s ↦ (s.1.getCandidates.1, s.2)

/-- The tracker and its log after a `Reset` and some calls. -/
def history (pi : F) (before : R2SoundTracker F) (ops : List (TrackerOp F)) :
    Option (R2SoundTracker F × List Event) :=
  run (perform pi) (some (before.reset, [])) ops

/-- What holds of a tracker between its calls. -/
structure R2SoundTracker.Consistent (pi : F) (s : R2SoundTracker F) : Prop where
  tickupdates_length : s.tickupdates.length = s.candiqueues.length
  candidates_length : s.candidates.length = s.candiqueues.length
  queues : ∀ queue ∈ s.candiqueues, queue ≠ [] ∧ queue.length ≤ 8 ∧ ∃ c ∈ queue, c.silence = false
  serials : ∀ (i : ℕ) (queue : List (R2SoundCandidate F)) (sc : R2SoundCandidate F),
    s.candiqueues[i]? = some queue → s.candidates[i]? = some sc → ∀ c ∈ queue, c.serial = sc.serial
  distinct : s.serials.Nodup
  azimuths : ∀ sc ∈ s.candidates, 0 ≤ sc.azimuth ∧ sc.azimuth < pi * 2

variable {pi : F} {tracks : List (Track F)} {serial : ℤ} {log : List Event}

theorem Tracking.consistent (h : Tracking pi tracks serial log) :
    (ofTracks tracks serial).Consistent pi := by
  refine ⟨?_, ?_, ?_, ?_, ?_, ?_⟩
  · simp [ofTracks]
  · simp [ofTracks]
  · refine List.forall_mem_map.mpr fun t ht ↦ ?_
    have hholds := h.holds t ht
    exact ⟨hholds.ends.ne_nil, hholds.length_le.trans (Nat.add_le_add_left (Bool.toNat_le _) _),
      hholds.ends.exists_heard⟩
  · intro i queue sc hqueue hsc c hc
    simp only [ofTracks, List.getElem?_map, Option.map_eq_some_iff] at hqueue hsc
    obtain ⟨t, ht, rfl⟩ := hqueue
    obtain ⟨u, hu, rfl⟩ := hsc
    rw [ht] at hu
    rw [← Option.some.inj hu]
    exact ((h.holds t (List.mem_of_getElem? ht)).entries c hc).1
  · rw [serials_ofTracks]
    exact h.nodup
  · refine List.forall_mem_map.mpr fun t ht ↦ ?_
    obtain ⟨hnonneg, hturn⟩ := (h.holds t ht).azimuth
    exact ⟨hnonneg, hturn⟩

/-- What a call makes of the tracks. -/
structure Follows (pi : F) (tracks : List (Track F)) (serial : ℤ) (op : TrackerOp F)
    (tracks' : List (Track F)) (serial' : ℤ) (log' : List Event) : Prop where
  tracking : Tracking pi tracks' serial' log'
  gone : ∀ n ∈ tracks.map Track.serial, n ∉ tracks'.map Track.serial ↔
    op = .tick ∧ (watch n log').missed = kMaxQueueLen
  fresh : ∀ n ∈ tracks'.map Track.serial, n ∈ tracks.map Track.serial ∨ serial ≤ n
  serial_le : serial ≤ serial'
  short : op = .tick → ∀ t ∈ tracks', t.candiqueue.length ≤ kMaxQueueLen

/-- Every call succeeds. -/
theorem Tracking.perform [IsStrictOrderedRing F] (h : Tracking pi tracks serial log)
    {op : TrackerOp F} (hop : op.Admissible pi) :
    ∃ tracks' serial' log', perform pi (some (ofTracks tracks serial, log)) op =
        some (ofTracks tracks' serial', log') ∧
      Follows pi tracks serial op tracks' serial' log' := by
  cases op with
  | addCandidate calcSoundAngle candi =>
      obtain ⟨tracks', serial', n, heq, hnext, hle, hkept, hfresh⟩ :=
        h.addCandidate hop calcSoundAngle
      refine ⟨tracks', serial', _, ?_, hnext, fun m hm ↦ ?_, hfresh, hle, nofun⟩
      · rw [Bf.perform, Option.bind_some, heq, Option.map_some]
      · exact iff_of_false (fun hgone ↦ hgone (hkept m hm)) nofun
  | tick =>
      obtain ⟨tracks', heq, hnext, hgone, hkept, hshort⟩ := h.tick
      refine ⟨tracks', serial, _, ?_, hnext, fun m hm ↦ ?_, fun m hm ↦ Or.inl (hkept m hm), le_rfl,
        fun _ ↦ hshort⟩
      · rw [Bf.perform, Option.bind_some, heq, Option.map_some]
      · rw [hgone m hm, eq_self, true_and]
  | getCandidates =>
      refine ⟨tracks, serial, log, rfl, h, fun m hm ↦ ?_, fun m hm ↦ Or.inl hm, le_rfl, nofun⟩
      exact iff_of_false (fun hgone ↦ hgone hm) nofun

/-- Every run succeeds, and what is not among the tracks and was handed out before does not come
back. -/
theorem Tracking.run [IsStrictOrderedRing F] (h : Tracking pi tracks serial log)
    {ops : List (TrackerOp F)} (hops : ∀ op ∈ ops, op.Admissible pi) :
    ∃ tracks' serial' log', run (Bf.perform pi) (some (ofTracks tracks serial, log)) ops =
        some (ofTracks tracks' serial', log') ∧ Tracking pi tracks' serial' log' ∧
      serial ≤ serial' ∧
      ∀ n ∈ tracks'.map Track.serial, n ∈ tracks.map Track.serial ∨ serial ≤ n := by
  induction ops generalizing tracks serial log with
  | nil => exact ⟨tracks, serial, log, rfl, h, le_rfl, fun n hn ↦ Or.inl hn⟩
  | cons op ops ih =>
      obtain ⟨hop, hops⟩ := List.forall_mem_cons.mp hops
      obtain ⟨tracks₁, serial₁, log₁, hfirst, hnext⟩ := h.perform hop
      obtain ⟨tracks₂, serial₂, log₂, hrest, hlast, hle, hfresh⟩ := ih hnext.tracking hops
      refine ⟨tracks₂, serial₂, log₂, ?_, hlast, hnext.serial_le.trans hle, fun n hn ↦ ?_⟩
      · rw [run_cons, hfirst, hrest]
      · rcases hfresh n hn with hn | hn
        · exact hnext.fresh n hn
        · exact Or.inr (hnext.serial_le.trans hn)

theorem tracking_reset (pi : F) : Tracking pi [] 0 [] :=
  ⟨List.forall_mem_nil _, List.nodup_nil, List.forall_mem_nil _⟩

/-- **The life of a sound track.** After any calls that add candidates which were heard, the tracker
is consistent: no call divided by zero or left a vector.  The next call removes a track exactly if it
is the seventh consecutive `Tick` in which the track received no candidate, a `Tick` leaves at most
seven entries in a queue, and the number of a track that is gone does not come back. -/
theorem soundTracks_history [IsStrictOrderedRing F] (before : R2SoundTracker F)
    {ops : List (TrackerOp F)} (hops : ∀ op ∈ ops, op.Admissible pi) :
    ∃ s log, history pi before ops = some (s, log) ∧ s.Consistent pi ∧
      (∀ op : TrackerOp F, op.Admissible pi →
        ∃ s' log', history pi before (ops ++ [op]) = some (s', log') ∧
          (op = .tick → ∀ queue ∈ s'.candiqueues, queue.length ≤ 7) ∧
          ∀ n ∈ s.serials, n ∉ s'.serials ↔ op = .tick ∧ (watch n log').missed = 7) ∧
      ∀ later rest : List (TrackerOp F), (∀ op ∈ later ++ rest, op.Admissible pi) →
        ∃ s₁ log₁ s₂ log₂, history pi before (ops ++ later) = some (s₁, log₁) ∧
          history pi before (ops ++ later ++ rest) = some (s₂, log₂) ∧
          ∀ n ∈ s.serials, n ∉ s₁.serials → n ∉ s₂.serials := by
  obtain ⟨tracks, serial, log, heq, h, -, -⟩ := (tracking_reset pi).run hops
  refine ⟨ofTracks tracks serial, log, heq, h.consistent, fun op hop ↦ ?_, fun later rest hlater ↦ ?_⟩
  · obtain ⟨tracks', serial', log', hnext, hfollows⟩ := h.perform hop
    refine ⟨ofTracks tracks' serial', log', ?_, fun htick ↦ ?_, ?_⟩
    · rw [history, run_append, show run (perform pi) (some (before.reset, [])) ops = _ from heq]
      exact hnext
    · exact List.forall_mem_map.mpr (hfollows.short htick)
    · rw [serials_ofTracks, serials_ofTracks]
      exact hfollows.gone
  · obtain ⟨hlater, hrest⟩ := List.forall_mem_append.mp hlater
    obtain ⟨tracks₁, serial₁, log₁, heq₁, h₁, hle, -⟩ := h.run hlater
    obtain ⟨tracks₂, serial₂, log₂, heq₂, -, -, hfresh⟩ := h₁.run hrest
    have hfirst : history pi before (ops ++ later) = some (ofTracks tracks₁ serial₁, log₁) := by
      rw [history, run_append, show run (perform pi) (some (before.reset, [])) ops = _ from heq, heq₁]
    refine ⟨ofTracks tracks₁ serial₁, log₁, ofTracks tracks₂ serial₂, log₂, hfirst, ?_,
      fun n hn hgone hback ↦ ?_⟩
    · rw [history, run_append, show run (perform pi) (some (before.reset, [])) (ops ++ later) = _ from
        hfirst, heq₂]
    · rw [serials_ofTracks] at hn hgone hback
      obtain ⟨t, ht, rfl⟩ := List.mem_map.mp hn
      have hbelow := (h.below t ht).trans_le hle
      exact (hfresh t.serial hback).elim hgone hbelow.not_ge

end Runs

/-- One candidate and then `count` ticks. -/
def heardOnce (count : ℕ) : List (TrackerOp ℚ) :=
  .addCandidate (fun _ _ ↦ 1) ⟨9, 1, 0, 1, 0, false⟩ :: List.replicate count .tick

theorem soundTracks_history_heardOnce :
    (∃ s log, history (22 / 7) ⟨[], [], [], 5⟩ (heardOnce 7) = some (s, log) ∧
        s.Consistent (22 / 7)) ∧
      (history (22 / 7) ⟨[], [], [], 5⟩ (heardOnce 7)).map (·.1.serials) = some [0] ∧
      (history (22 / 7) ⟨[], [], [], 5⟩ (heardOnce 8)).map (·.1.serials) = some [] := by
  have hops : ∀ op ∈ heardOnce 7, op.Admissible (22 / 7) := by
    refine List.forall_mem_cons.mpr ⟨⟨rfl, ⟨by norm_num, by norm_num⟩, one_pos⟩, fun op hop ↦ ?_⟩
    rw [List.eq_of_mem_replicate hop]
    trivial
  obtain ⟨s, log, heq, hs, -⟩ := soundTracks_history ⟨[], [], [], 5⟩ hops
  exact ⟨⟨s, log, heq, hs⟩, by decide +kernel, by decide +kernel⟩

end Vsys.Bf
