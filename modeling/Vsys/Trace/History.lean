import Mathlib.Data.List.Induction

/-!
# Histories of actions

A history lists the actions of a run, the oldest first.  `Guarded` says of every action what must
have happened before it; `Since` says that something has happened and has not been undone.  Both
are decided at the last action, which is how a run extends them.
-/

namespace Vsys.Trace

variable {Action : Type*}

/-- Every action of the history meets `need` with the actions before it. -/
def Guarded (need : List Action → Action → Prop) (log : List Action) : Prop :=
  ∀ before action after, log = before ++ action :: after → need before action

/-- An action with `start` has happened, and none with `stop` after it. -/
def Since (start stop : Action → Prop) (log : List Action) : Prop :=
  ∃ past action since, log = past ++ action :: since ∧ start action ∧ ∀ later ∈ since, ¬ stop later

variable {need : List Action → Action → Prop} {start stop : Action → Prop}
  {log : List Action} {action : Action}

/-- A history that is split at one of its actions is split at the last one or before it. -/
theorem concat_eq_append_cons_iff {before after : List Action} {last : Action} :
    log ++ [last] = before ++ action :: after ↔
      (log = before ∧ last = action ∧ after = []) ∨
        ∃ rest, after = rest ++ [last] ∧ log = before ++ action :: rest := by
  constructor
  · intro h
    obtain rfl | ⟨rest, final, rfl⟩ := List.eq_nil_or_concat after
    · obtain ⟨rfl, rfl⟩ := List.append_singleton_inj.mp h
      exact .inl ⟨rfl, rfl, rfl⟩
    · rw [List.concat_eq_append, ← List.cons_append, ← List.append_assoc] at h
      obtain ⟨rfl, rfl⟩ := List.append_singleton_inj.mp h
      exact .inr ⟨rest, List.concat_eq_append, rfl⟩
  · rintro (⟨rfl, rfl, rfl⟩ | ⟨rest, rfl, rfl⟩)
    · rfl
    · simp

theorem guarded_nil : Guarded need [] := by
  intro before action after h
  simp at h

theorem Guarded.concat (h : Guarded need log) (haction : need log action) :
    Guarded need (log ++ [action]) := by
  intro before middle after heq
  obtain ⟨rfl, rfl, -⟩ | ⟨rest, -, rfl⟩ := concat_eq_append_cons_iff.mp heq
  · exact haction
  · exact h before middle rest rfl

theorem guarded_concat_iff :
    Guarded need (log ++ [action]) ↔ Guarded need log ∧ need log action := by
  refine ⟨fun h ↦ ⟨fun before middle after heq ↦ ?_, h log action [] rfl⟩, fun h ↦ h.1.concat h.2⟩
  exact h before middle (after ++ [action]) (by rw [heq, List.append_assoc, List.cons_append])

/-- What holds of an empty history and is kept by every guarded action holds of every guarded
history. -/
theorem Guarded.invariant {inv : List Action → Prop} (hnil : inv [])
    (keep : ∀ log action, inv log → need log action → inv (log ++ [action]))
    (h : Guarded need log) : inv log := by
  induction log using List.reverseRecOn with
  | nil => exact hnil
  | append_singleton log action ih =>
      obtain ⟨hlog, haction⟩ := guarded_concat_iff.mp h
      exact keep log action (ih hlog) haction

/-- If an action without its need makes `good` fail at once, `good` holds of every beginning of a
history exactly when the history is guarded. -/
theorem forall_isPrefix_iff_guarded (inv good : List Action → Prop) (hnil : inv [])
    (keep : ∀ log action, inv log → need log action → inv (log ++ [action]))
    (spoil : ∀ log action, inv log → ¬ need log action → ¬ good (log ++ [action]))
    (hgood : ∀ log, inv log → good log) (log : List Action) :
    (∀ first, first <+: log → good first) ↔ Guarded need log := by
  constructor
  · intro h
    induction log using List.reverseRecOn with
    | nil => exact guarded_nil
    | append_singleton log action ih =>
        have hlog := ih fun first hfirst ↦ h first (hfirst.trans (List.prefix_append _ _))
        have hinv := hlog.invariant hnil keep
        refine guarded_concat_iff.mpr ⟨hlog, ?_⟩
        by_contra hneed
        exact spoil log action hinv hneed (h _ List.prefix_rfl)
  · rintro h first ⟨later, rfl⟩
    have hfirst : Guarded need first := fun before action after heq ↦
      h before action (after ++ later) (by rw [heq, List.append_assoc, List.cons_append])
    exact hgood first (hfirst.invariant hnil keep)

theorem not_since_nil : ¬ Since start stop [] := by
  rintro ⟨past, action, since, h, -⟩
  simp at h

theorem since_concat_iff :
    Since start stop (log ++ [action]) ↔ start action ∨ Since start stop log ∧ ¬ stop action := by
  constructor
  · rintro ⟨past, first, since, heq, hstart, hsince⟩
    obtain ⟨-, rfl, -⟩ | ⟨rest, rfl, rfl⟩ := concat_eq_append_cons_iff.mp heq
    · exact .inl hstart
    · refine .inr ⟨⟨past, first, rest, rfl, hstart, fun later hlater ↦ ?_⟩, ?_⟩
      · exact hsince later (List.mem_append_left _ hlater)
      · exact hsince action (List.mem_append_right _ (List.mem_singleton_self action))
  · rintro (hstart | ⟨⟨past, first, since, rfl, hstart, hsince⟩, hstop⟩)
    · exact ⟨log, action, [], rfl, hstart, fun later hlater ↦ nomatch hlater⟩
    · refine ⟨past, first, since ++ [action], by simp, hstart, fun later hlater ↦ ?_⟩
      obtain hlater | hlater := List.mem_append.mp hlater
      · exact hsince later hlater
      · exact List.mem_singleton.mp hlater ▸ hstop

theorem since_of_start (hstart : start action) : Since start stop (log ++ [action]) :=
  since_concat_iff.mpr (.inl hstart)

theorem Since.concat (h : Since start stop log) (hstop : ¬ stop action) :
    Since start stop (log ++ [action]) :=
  since_concat_iff.mpr (.inr ⟨h, hstop⟩)

/-- The actions are looked at from the last one back. -/
theorem since_reverse_cons_iff {rest : List Action} :
    Since start stop (action :: rest).reverse ↔
      start action ∨ Since start stop rest.reverse ∧ ¬ stop action := by
  rw [List.reverse_cons, since_concat_iff]

instance decidableSinceReverse (start stop : Action → Prop) [DecidablePred start]
    [DecidablePred stop] : ∀ newest : List Action, Decidable (Since start stop newest.reverse)
  | [] => isFalse not_since_nil
  | _ :: rest =>
      have := decidableSinceReverse start stop rest
      decidable_of_iff' _ since_reverse_cons_iff

instance (start stop : Action → Prop) [DecidablePred start] [DecidablePred stop]
    (log : List Action) : Decidable (Since start stop log) :=
  decidable_of_iff (Since start stop log.reverse.reverse) (by rw [List.reverse_reverse])

end Vsys.Trace
