import Mathlib.Computability.RegularExpressions

/-!
# Session traces

A stream of session events is well bracketed when it is a prefix of
`(start data* (stop | cancel))*`.  The language is stated with Mathlib's regular expressions.
`track` is its two-state monitor: it remembers whether a session is open and answers `none` from
the first event that no word of the language continues with.

The monitor is what invariants are stated with; `isSessionPrefix_iff` carries them back to the
language.
-/

namespace Vsys.Trace

open RegularExpression

/-- The four events that open, feed and close a session. -/
inductive SessionEvent
  | start
  | data
  | stop
  | cancel
  deriving DecidableEq, Repr

/-- One complete session. -/
def session : RegularExpression SessionEvent :=
  char .start * (star (char .data) * (char .stop + char .cancel))

/-- Any number of complete sessions, one after the other. -/
def sessions : Language SessionEvent := (star session).matches'

/-- The streams that some further events complete to a sequence of sessions. -/
def IsSessionPrefix (events : List SessionEvent) : Prop := ∃ word ∈ sessions, events <+: word

/-- The monitor: `some open?` while the stream is well bracketed, `none` from a violation on. -/
def advance : Option Bool → SessionEvent → Option Bool
  | some false, .start => some true
  | some true, .data => some true
  | some true, .stop => some false
  | some true, .cancel => some false
  | _, _ => none

/-- The monitor's verdict on a whole stream. -/
def track (events : List SessionEvent) : Option Bool := events.foldl advance (some false)

@[simp]
theorem track_nil : track [] = some false := rfl

@[simp]
theorem track_append_singleton (events : List SessionEvent) (event : SessionEvent) :
    track (events ++ [event]) = advance (track events) event := by
  simp [track]

@[simp]
theorem advance_none (event : SessionEvent) : advance none event = none := by
  cases event <;> rfl

theorem foldl_advance_none (events : List SessionEvent) : events.foldl advance none = none := by
  induction events with
  | nil => rfl
  | cons event events ih => rw [List.foldl_cons, advance_none, ih]

/-- A violation is never repaired by later events. -/
theorem track_append_eq_none {events : List SessionEvent} (h : track events = none)
    (later : List SessionEvent) : track (events ++ later) = none := by
  rw [track, List.foldl_append]
  change List.foldl advance (track events) later = none
  rw [h, foldl_advance_none]

/-! ## The monitor decides the language -/

theorem nil_mem_sessions : [] ∈ sessions := by
  simp only [sessions, matches'_star, Language.mem_kstar]
  exact ⟨[], rfl, by simp⟩

/-- Appending one complete session keeps a sequence of sessions. -/
theorem append_mem_sessions {word tail : List SessionEvent} (hword : word ∈ sessions)
    (htail : tail ∈ session.matches') : word ++ tail ∈ sessions := by
  simp only [sessions, matches'_star, Language.mem_kstar] at hword ⊢
  obtain ⟨parts, rfl, hparts⟩ := hword
  refine ⟨parts ++ [tail], by simp, ?_⟩
  intro part hpart
  rcases List.mem_append.mp hpart with hpart | hpart
  · exact hparts part hpart
  · rw [List.mem_singleton.mp hpart]
    exact htail

theorem replicate_data_mem (count : ℕ) :
    List.replicate count SessionEvent.data ∈ (star (char SessionEvent.data)).matches' := by
  simp only [matches'_star, Language.mem_kstar]
  refine ⟨List.replicate count [.data], by simp, ?_⟩
  intro part hpart
  rw [List.eq_of_mem_replicate hpart]
  exact Set.mem_singleton _

/-- A start, any number of data events and a closing event are one complete session. -/
theorem closed_mem_session (count : ℕ) {last : SessionEvent}
    (hlast : last = .stop ∨ last = .cancel) :
    .start :: (List.replicate count .data ++ [last]) ∈ session.matches' := by
  have hclose : [last] ∈ (char SessionEvent.stop + char SessionEvent.cancel).matches' := by
    rw [matches'_add, Language.mem_add]
    rcases hlast with rfl | rfl
    · exact .inl (Set.mem_singleton _)
    · exact .inr (Set.mem_singleton _)
  simp only [session, matches'_mul]
  refine Language.mem_mul.mpr ⟨[.start], Set.mem_singleton _, _, ?_, rfl⟩
  exact Language.mem_mul.mpr ⟨_, replicate_data_mem count, [last], hclose, rfl⟩

/-- What the monitor's state says about the stream read so far. -/
theorem track_shape (events : List SessionEvent) :
    (track events = some false → events ∈ sessions) ∧
      (track events = some true → ∃ word ∈ sessions, ∃ count,
        events = word ++ .start :: List.replicate count .data) := by
  induction events using List.reverseRecOn with
  | nil => exact ⟨fun _ ↦ nil_mem_sessions, by simp⟩
  | append_singleton events event ih =>
      rw [track_append_singleton]
      match htrack : track events, event with
      | some false, .start =>
          refine ⟨by simp [advance], fun _ ↦ ⟨events, ih.1 htrack, 0, by simp⟩⟩
      | some true, .data =>
          refine ⟨by simp [advance], fun _ ↦ ?_⟩
          obtain ⟨word, hword, count, rfl⟩ := ih.2 htrack
          refine ⟨word, hword, count + 1, ?_⟩
          rw [List.replicate_succ']
          simp
      | some true, .stop =>
          refine ⟨fun _ ↦ ?_, by simp [advance]⟩
          obtain ⟨word, hword, count, rfl⟩ := ih.2 htrack
          simpa using append_mem_sessions hword (closed_mem_session count (.inl rfl))
      | some true, .cancel =>
          refine ⟨fun _ ↦ ?_, by simp [advance]⟩
          obtain ⟨word, hword, count, rfl⟩ := ih.2 htrack
          simpa using append_mem_sessions hword (closed_mem_session count (.inr rfl))
      | none, _ | some false, .data | some false, .stop | some false, .cancel
      | some true, .start => simp [advance]

/-- Data events keep an open session open. -/
theorem foldl_advance_data {body : List SessionEvent}
    (hbody : body ∈ (star (char SessionEvent.data)).matches') :
    body.foldl advance (some true) = some true := by
  simp only [matches'_star, Language.mem_kstar] at hbody
  obtain ⟨parts, rfl, hparts⟩ := hbody
  induction parts with
  | nil => rfl
  | cons part parts ih =>
      have hpart : part = [SessionEvent.data] := hparts part List.mem_cons_self
      rw [List.flatten_cons, List.foldl_append, hpart]
      exact ih fun later hlater ↦ hparts later (List.mem_cons_of_mem _ hlater)

/-- Reading one complete session from the closed state leaves the monitor closed. -/
theorem foldl_advance_session {word : List SessionEvent} (hword : word ∈ session.matches') :
    word.foldl advance (some false) = some false := by
  simp only [session, matches'_mul] at hword
  obtain ⟨first, hfirst, rest, hrest, rfl⟩ := Language.mem_mul.mp hword
  obtain ⟨body, hbody, last, hlast, rfl⟩ := Language.mem_mul.mp hrest
  have hclosed : last = [SessionEvent.stop] ∨ last = [SessionEvent.cancel] := by
    rw [matches'_add, Language.mem_add] at hlast
    exact hlast
  have hstart : first = [SessionEvent.start] := hfirst
  rw [hstart, List.foldl_append, List.foldl_append]
  change List.foldl advance (body.foldl advance (some true)) last = _
  rw [foldl_advance_data hbody]
  rcases hclosed with rfl | rfl <;> rfl

theorem track_of_mem_sessions {word : List SessionEvent} (hword : word ∈ sessions) :
    track word = some false := by
  simp only [sessions, matches'_star, Language.mem_kstar] at hword
  obtain ⟨parts, rfl, hparts⟩ := hword
  induction parts with
  | nil => rfl
  | cons part parts ih =>
      rw [track, List.flatten_cons, List.foldl_append,
        foldl_advance_session (hparts part List.mem_cons_self)]
      exact ih fun later hlater ↦ hparts later (List.mem_cons_of_mem _ hlater)

/-- **The monitor is exact.** A stream is a prefix of a sequence of sessions if and only if the
monitor never answered `none`. -/
theorem isSessionPrefix_iff (events : List SessionEvent) :
    IsSessionPrefix events ↔ track events ≠ none := by
  constructor
  · rintro ⟨word, hword, later, rfl⟩ hnone
    have := track_append_eq_none hnone later
    rw [track_of_mem_sessions hword] at this
    exact Option.some_ne_none _ this
  · intro hsome
    cases htrack : track events with
    | none => exact absurd htrack hsome
    | some opened =>
        cases opened with
        | false => exact ⟨events, (track_shape events).1 htrack, List.prefix_refl _⟩
        | true =>
            obtain ⟨word, hword, count, rfl⟩ := (track_shape events).2 htrack
            refine ⟨_, append_mem_sessions hword (closed_mem_session count (.inl rfl)), ?_⟩
            exact ⟨[.stop], by simp⟩

instance (events : List SessionEvent) : Decidable (IsSessionPrefix events) :=
  decidable_of_iff _ (isSessionPrefix_iff events).symm

end Vsys.Trace
