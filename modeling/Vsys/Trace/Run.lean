import Mathlib.Logic.Basic

/-!
# Runs of a step function

A run performs a list of operations from a state.  `Along` says that a condition holds of every
operation in the state it is performed in; it is how an assumption about whole runs is stated
without mentioning the states by hand.

`run_invariant` is the induction every safety theorem of a development uses.  `run_exact` is its
two-sided form: when a bad operation breaks the observed property for good, the property holds
after a run exactly if no operation of the run was bad.  `throughout_exact` is the form for a
property that may recover later: it holds in every state of the run exactly if no operation was bad.
-/

namespace Vsys.Trace

variable {State Op : Type*}

/-- The state after performing `ops` from `state`. -/
def run (step : State → Op → State) (state : State) (ops : List Op) : State :=
  ops.foldl step state

/-- Every operation of the run meets `ok` in the state it is performed in. -/
def Along (step : State → Op → State) (ok : State → Op → Prop) : State → List Op → Prop
  | _, [] => True
  | state, op :: ops => ok state op ∧ Along step ok (step state op) ops

instance Along.decidable (step : State → Op → State) (ok : State → Op → Prop)
    [∀ state op, Decidable (ok state op)] :
    ∀ (state : State) (ops : List Op), Decidable (Along step ok state ops)
  | _, [] => inferInstanceAs (Decidable True)
  | state, op :: ops =>
      have := Along.decidable step ok (step state op) ops
      inferInstanceAs (Decidable (_ ∧ _))

variable {step : State → Op → State} {ok : State → Op → Prop}

@[simp]
theorem run_nil (state : State) : run step state [] = state := rfl

@[simp]
theorem run_cons (state : State) (op : Op) (ops : List Op) :
    run step state (op :: ops) = run step (step state op) ops := rfl

theorem run_append (state : State) (ops later : List Op) :
    run step state (ops ++ later) = run step (run step state ops) later :=
  List.foldl_append ..

theorem along_append_iff {state : State} {first later : List Op} :
    Along step ok state (first ++ later) ↔
      Along step ok state first ∧ Along step ok (run step state first) later := by
  induction first generalizing state with
  | nil => exact (and_iff_right trivial).symm
  | cons op first ih => exact (and_congr_right' ih).trans and_assoc.symm

/-- A condition met along a run is met along every beginning of it. -/
theorem along_of_isPrefix {state : State} {first ops : List Op} (hfirst : first <+: ops)
    (h : Along step ok state ops) : Along step ok state first := by
  induction first generalizing state ops with
  | nil => trivial
  | cons op first ih =>
      obtain ⟨later, rfl⟩ := hfirst
      exact ⟨h.1, ih (List.prefix_append first later) h.2⟩

/-- A condition on the operations alone can be met besides. -/
theorem Along.and_forall {cond : Op → Prop} {state : State} {ops : List Op}
    (h : Along step ok state ops) (hcond : ∀ op ∈ ops, cond op) :
    Along step (fun state op ↦ ok state op ∧ cond op) state ops := by
  induction ops generalizing state with
  | nil => trivial
  | cons op ops ih =>
      refine ⟨⟨h.1, hcond op List.mem_cons_self⟩, ih h.2 fun later hlater ↦ ?_⟩
      exact hcond later (List.mem_cons_of_mem op hlater)

/-- Two conditions that agree in the states of an invariant are met along the same runs. -/
theorem along_congr {ok' : State → Op → Prop} (inv : State → Prop)
    (keep : ∀ state op, inv state → inv (step state op))
    (same : ∀ state op, inv state → (ok state op ↔ ok' state op))
    {state : State} (hinv : inv state) (ops : List Op) :
    Along step ok state ops ↔ Along step ok' state ops := by
  induction ops generalizing state with
  | nil => exact Iff.rfl
  | cons op ops ih => exact and_congr (same state op hinv) (ih (keep state op hinv))

/-- Two systems that perform the same operations: when a relation of their states makes their
conditions agree and is kept by admissible operations, the conditions are met along the same
runs. -/
theorem along_simulate {State' : Type*} {step' : State' → Op → State'} {ok' : State' → Op → Prop}
    (related : State → State' → Prop)
    (keep : ∀ state state' op, related state state' → ok' state' op →
      related (step state op) (step' state' op))
    (same : ∀ state state' op, related state state' → (ok state op ↔ ok' state' op))
    {state : State} {state' : State'} (h : related state state') (ops : List Op) :
    Along step ok state ops ↔ Along step' ok' state' ops := by
  induction ops generalizing state state' with
  | nil => exact Iff.rfl
  | cons op ops ih =>
      refine (and_congr_right fun hok ↦ ?_).trans (and_congr_left' (same state state' op h))
      exact ih (keep state state' op h ((same state state' op h).mp hok))

/-- A property kept by every admissible operation holds after every admissible run. -/
theorem run_invariant {inv : State → Prop}
    (keep : ∀ state op, inv state → ok state op → inv (step state op))
    {state : State} (hinv : inv state) {ops : List Op} (hok : Along step ok state ops) :
    inv (run step state ops) := by
  induction ops generalizing state with
  | nil => exact hinv
  | cons op ops ih => exact ih (keep state op hinv hok.1) hok.2

/-- A condition on the operations alone is met along every run of such operations. -/
theorem along_of_forall {ops : List Op} (hok : ∀ op ∈ ops, ∀ state, ok state op) (state : State) :
    Along step ok state ops := by
  induction ops generalizing state with
  | nil => trivial
  | cons op ops ih =>
      refine ⟨hok op List.mem_cons_self state, ih (fun later hlater ↦ ?_) (step state op)⟩
      exact hok later (List.mem_cons_of_mem op hlater)

/-- A property kept by every operation holds after every run. -/
theorem run_keeps {inv : State → Prop} (keep : ∀ state op, inv state → inv (step state op))
    {state : State} (hinv : inv state) (ops : List Op) : inv (run step state ops) := by
  have hok : Along step (fun _ _ ↦ True) state ops := along_of_forall (fun _ _ _ ↦ trivial) state
  exact run_invariant (fun state op h _ ↦ keep state op h) hinv hok

/-- A flag that some operations raise and others clear: it is up after a run if it was up before and
nothing has cleared it, or an operation has raised it and nothing behind that has cleared it. -/
theorem run_flag_iff (flag : State → Prop) (raises clears : Op → Prop)
    (hraises : ∀ state op, raises op → flag (step state op))
    (hclears : ∀ state op, clears op → ¬ flag (step state op))
    (hkeeps : ∀ state op, ¬ raises op → ¬ clears op → (flag (step state op) ↔ flag state))
    (state : State) (ops : List Op) :
    flag (run step state ops) ↔ (flag state ∧ ∀ op ∈ ops, ¬ clears op) ∨
      ∃ first op later, ops = first ++ op :: later ∧ raises op ∧ ∀ op' ∈ later, ¬ clears op' := by
  induction ops generalizing state with
  | nil =>
      constructor
      · exact fun h ↦ .inl ⟨h, fun _ hop ↦ absurd hop List.not_mem_nil⟩
      · rintro (⟨h, -⟩ | ⟨first, op, later, hops, -⟩)
        · exact h
        · exact absurd hops (List.append_ne_nil_of_right_ne_nil first (List.cons_ne_nil _ _)).symm
  | cons op ops ih =>
      rw [run_cons, ih]
      constructor
      · rintro (⟨hflag, hops⟩ | ⟨first, op', later, rfl, hop', hlater⟩)
        · by_cases hop : raises op
          · exact .inr ⟨[], op, ops, rfl, hop, hops⟩
          · have hkept : ¬ clears op := fun h ↦ hclears state op h hflag
            refine .inl ⟨(hkeeps state op hop hkept).mp hflag, ?_⟩
            exact List.forall_mem_cons.mpr ⟨hkept, hops⟩
        · exact .inr ⟨op :: first, op', later, rfl, hop', hlater⟩
      · rintro (⟨hflag, hall⟩ | ⟨first, op', later, hsplit, hop', hlater⟩)
        · obtain ⟨hkept, hops⟩ := List.forall_mem_cons.mp hall
          refine .inl ⟨?_, hops⟩
          by_cases hop : raises op
          · exact hraises state op hop
          · exact (hkeeps state op hop hkept).mpr hflag
        · cases first with
          | nil =>
              obtain ⟨rfl, rfl⟩ := List.cons.inj hsplit
              exact .inl ⟨hraises state op hop', hlater⟩
          | cons head first =>
              obtain ⟨rfl, rfl⟩ := List.cons.inj hsplit
              exact .inr ⟨first, op', later, rfl, hop', hlater⟩

/-- Operations that bring a piece of a stream each: what is kept relates the state to the stream. -/
theorem run_flatten {Item : Type*} {step : State → List Item → State}
    (inv : List Item → State → Prop)
    (keep : ∀ l state piece, inv l state → inv (l ++ piece) (step state piece))
    {l : List Item} {state : State} (hinv : inv l state) (pieces : List (List Item)) :
    inv (l ++ pieces.flatten) (run step state pieces) := by
  induction pieces generalizing l state with
  | nil => simpa using hinv
  | cons piece pieces ih =>
      rw [List.flatten_cons, ← List.append_assoc]
      exact ih (keep l state piece hinv)

/-- If an inadmissible operation breaks `good` and nothing repairs it, `good` holds after a run
exactly when the run is admissible. -/
theorem run_exact (inv good : State → Prop)
    (keep : ∀ state op, inv state → ok state op → inv (step state op))
    (spoil : ∀ state op, inv state → ¬ ok state op → ¬ good (step state op))
    (stuck : ∀ state op, ¬ good state → ¬ good (step state op))
    (hgood : ∀ state, inv state → good state)
    {state : State} (hinv : inv state) (ops : List Op) :
    good (run step state ops) ↔ Along step ok state ops := by
  have hstuck : ∀ (ops : List Op) (state : State), ¬ good state → ¬ good (run step state ops) := by
    intro ops
    induction ops with
    | nil => exact fun _ h ↦ h
    | cons op ops ih => exact fun state h ↦ ih _ (stuck state op h)
  induction ops generalizing state with
  | nil => exact iff_of_true (hgood state hinv) trivial
  | cons op ops ih =>
      by_cases hop : ok state op
      · simpa [Along, hop] using ih (keep state op hinv hop)
      · refine iff_of_false ?_ fun h ↦ hop h.1
        exact hstuck ops _ (spoil state op hinv hop)

/-- Every state of the run, from the first to the last, satisfies `good`. -/
def Throughout (step : State → Op → State) (good : State → Prop) (state : State)
    (ops : List Op) : Prop :=
  ∀ first, first <+: ops → good (run step state first)

/-- What an invariant of admissible operations promises holds throughout an admissible run. -/
theorem throughout_of_along {inv good : State → Prop}
    (keep : ∀ state op, inv state → ok state op → inv (step state op))
    (hgood : ∀ state, inv state → good state) {state : State} (hinv : inv state) {ops : List Op}
    (hok : Along step ok state ops) : Throughout step good state ops := fun _ hfirst ↦
  hgood _ (run_invariant keep hinv (along_of_isPrefix hfirst hok))

/-- If an inadmissible operation makes `good` fail at once, `good` holds throughout a run exactly
when the run is admissible; here for runs that are given to meet a condition. -/
theorem throughout_exact_of {given : State → Op → Prop} (inv good : State → Prop)
    (keep : ∀ state op, inv state → given state op → ok state op → inv (step state op))
    (spoil : ∀ state op, inv state → given state op → ¬ ok state op → ¬ good (step state op))
    (hgood : ∀ state, inv state → good state)
    {state : State} (hinv : inv state) {ops : List Op} (hgiven : Along step given state ops) :
    Throughout step good state ops ↔ Along step ok state ops := by
  induction ops generalizing state with
  | nil =>
      refine iff_of_true (fun first hfirst ↦ ?_) trivial
      rw [List.prefix_nil.mp hfirst]
      exact hgood state hinv
  | cons op ops ih =>
      by_cases hop : ok state op
      · have hrest := ih (keep state op hinv hgiven.1 hop) hgiven.2
        refine ⟨fun h ↦ ⟨hop, hrest.mp fun first hfirst ↦ ?_⟩, fun h first hfirst ↦ ?_⟩
        · exact h (op :: first) (List.cons_prefix_cons.mpr ⟨rfl, hfirst⟩)
        · cases first with
          | nil => exact hgood state hinv
          | cons head first =>
              obtain ⟨rfl, hlater⟩ := List.cons_prefix_cons.mp hfirst
              exact hrest.mpr h.2 first hlater
      · refine iff_of_false (fun h ↦ spoil state op hinv hgiven.1 hop ?_) fun h ↦ hop h.1
        exact h [op] (List.cons_prefix_cons.mpr ⟨rfl, List.nil_prefix⟩)

/-- The same for all runs. -/
theorem throughout_exact (inv good : State → Prop)
    (keep : ∀ state op, inv state → ok state op → inv (step state op))
    (spoil : ∀ state op, inv state → ¬ ok state op → ¬ good (step state op))
    (hgood : ∀ state, inv state → good state)
    {state : State} (hinv : inv state) (ops : List Op) :
    Throughout step good state ops ↔ Along step ok state ops := by
  have hgiven : Along step (fun _ _ ↦ True) state ops := along_of_forall (fun _ _ _ ↦ trivial) state
  exact throughout_exact_of inv good (fun state op h _ ↦ keep state op h)
    (fun state op h _ ↦ spoil state op h) hgood hinv hgiven

/-! ## What a run shows -/

variable {Out : Type*}

/-- What the operations of a run show, in order. -/
def outputs (step : State → Op → State) (out : State → Op → List Out) : State → List Op → List Out
  | _, [] => []
  | state, op :: ops => out state op ++ outputs step out (step state op) ops

variable {out : State → Op → List Out}

@[simp]
theorem outputs_nil (state : State) : outputs step out state [] = [] := rfl

@[simp]
theorem outputs_cons (state : State) (op : Op) (ops : List Op) :
    outputs step out state (op :: ops) = out state op ++ outputs step out (step state op) ops := rfl

/-- What holds of everything a run shows holds of what each of its operations shows. -/
theorem forall_mem_outputs_iff {good : Out → Prop} {state : State} {ops : List Op} :
    (∀ shown ∈ outputs step out state ops, good shown) ↔
      Along step (fun state op ↦ ∀ shown ∈ out state op, good shown) state ops := by
  induction ops generalizing state with
  | nil => simp [Along]
  | cons op ops ih => rw [outputs_cons, List.forall_mem_append, ih, Along]

theorem outputs_append (state : State) (ops later : List Op) :
    outputs step out state (ops ++ later) =
      outputs step out state ops ++ outputs step out (run step state ops) later := by
  induction ops generalizing state with
  | nil => rfl
  | cons op ops ih => simp [ih]

theorem outputs_concat (state : State) (ops : List Op) (op : Op) :
    outputs step out state (ops ++ [op]) =
      outputs step out state ops ++ out (run step state ops) op := by
  rw [outputs_append, outputs_cons, outputs_nil, List.append_nil]

end Vsys.Trace
