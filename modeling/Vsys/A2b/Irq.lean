import Vsys.Trace.Run
import Mathlib.Data.Nat.Notation
import Mathlib.Data.Bool.Basic

/-!
# The interrupt of the A2B driver

`test/bsp/i2c/a2b24xx/a2b24xx.c`: the handler turns the interrupt off and schedules a fault check,
and a fault check that finds nothing turns it on again.  The command `Reset` cancels the fault
check, sets the network up and then acts as a fault check does.

`enable_irq` must be called only while the interrupt is off.  Who may call it next is like a token:
the enabled interrupt, the scheduled check, the running check or the set-up work has it.  A `Reset`
that finds the interrupt enabled makes a second one.
-/

namespace Vsys.A2b

open Vsys.Trace

/-- The driver after `setup_work` has requested the interrupt, with `client->irq` present. -/
structure Driver where
  /-- The depth of disables of the interrupt; it is enabled at 0. -/
  depth : ℕ
  hasFault : Bool
  workAllowed : Bool
  /-- `fault_check_work` is pending. -/
  scheduled : Bool
  /-- `fault_check_work` is running. -/
  running : Bool
  /-- `setup_work` is in its last delay, before it schedules the first check. -/
  settingUp : Bool
  /-- The commands that wait in `cancel_delayed_work_sync`. -/
  disabling : ℕ
  resetCanceling : ℕ
  /-- The resets that set the network up. -/
  resetting : ℕ
  /-- Fault checking was turned off by the last command, or a reset is not done yet. -/
  disabledByCommand : Bool
  /-- `enable_irq` was called while the interrupt was enabled. -/
  unbalanced : Bool
  deriving DecidableEq, Repr

/-- What may happen next; a fault check and a reset come with what they find on the bus. -/
inductive Event
  | interrupt
  | checkBegin
  | checkEnd (fault : Bool)
  | setupDone
  | disable
  | disableDone
  | reset
  | resetCanceled
  | resetEnd (fault : Bool)
  deriving DecidableEq, Repr

namespace Driver

/-- `devm_request_irq` with `IRQF_NO_AUTOEN`. -/
def requested : Driver where
  depth := 1
  hasFault := false
  workAllowed := true
  scheduled := false
  running := false
  settingUp := true
  disabling := 0
  resetCanceling := 0
  resetting := 0
  disabledByCommand := false
  unbalanced := false

variable (d : Driver)

/-- Some command is canceling the work. -/
def Canceling : Prop := 0 < d.disabling + d.resetCanceling

instance : Decidable d.Canceling := inferInstanceAs (Decidable (_ < _))

/-- `schedule_delayed_work`; work that is being canceled is not queued. -/
def scheduleWork : Driver := if d.Canceling then d else { d with scheduled := true }

/-- `enable_irq`: an unbalanced call is warned about and has no effect. -/
def enableIrq : Driver :=
  if d.depth = 0 then { d with unbalanced := true } else { d with depth := d.depth - 1 }

/-- `a2b24xx_schedule_fault_check`. -/
def scheduleFaultCheck : Driver := if d.hasFault then d.scheduleWork else d.enableIrq

/-- `a2b24xx_irq_handler`. -/
def irqHandler : Driver :=
  let d := { d with depth := d.depth + 1 }
  if d.workAllowed then d.scheduleWork else d

/-- The first half of `a2b24xx_disable_fault_check`: pending work is canceled at once. -/
def disableFaultCheck : Driver :=
  { d with workAllowed := false, scheduled := false, disabledByCommand := true }

end Driver

/-- One event; an event that cannot happen changes nothing. -/
def step (d : Driver) : Event → Driver
  | .interrupt => if d.depth = 0 then d.irqHandler else d
  | .checkBegin =>
      if d.scheduled ∧ ¬ d.running then
        { d with scheduled := false, running := true, hasFault := false }
      else d
  | .checkEnd fault =>
      if d.running then
        ({ d with running := false, hasFault := fault }).scheduleFaultCheck
      else d
  | .setupDone => if d.settingUp then ({ d with settingUp := false }).scheduleWork else d
  | .disable =>
      let d := d.disableFaultCheck
      if d.running then { d with disabling := d.disabling + 1 } else d
  | .disableDone =>
      if 0 < d.disabling ∧ ¬ d.running then
        { d with disabling := d.disabling - 1, disabledByCommand := true }
      else d
  | .reset =>
      let d := d.disableFaultCheck
      if d.running then { d with resetCanceling := d.resetCanceling + 1 }
      else { d with resetting := d.resetting + 1 }
  | .resetCanceled =>
      if 0 < d.resetCanceling ∧ ¬ d.running then
        { d with
          resetCanceling := d.resetCanceling - 1, resetting := d.resetting + 1,
          disabledByCommand := true }
      else d
  | .resetEnd fault =>
      if 0 < d.resetting then
        ({ d with
          resetting := d.resetting - 1, hasFault := fault, workAllowed := true,
          disabledByCommand := false }).scheduleFaultCheck
      else d

/-- No event is in the middle: no check runs, no command waits for one, and the set-up is done. -/
structure Driver.Completed (d : Driver) : Prop where
  running : d.running = false
  canceling : ¬ d.Canceling
  settingUp : d.settingUp = false

/-- `enable_irq` was called only while the interrupt was off, and faults do not go unnoticed. -/
structure Watched (d : Driver) : Prop where
  balanced : d.unbalanced = false
  noticed : d.Completed → d.depth = 0 ∨ d.scheduled = true ∨ d.disabledByCommand = true

/-- A reset comes to its end while the interrupt is off and no fault check is under way. -/
def ResetsOff (d : Driver) : Event → Prop
  | .resetEnd _ => 0 < d.resetting →
      d.depth ≠ 0 ∧ d.scheduled = false ∧ d.running = false ∧ d.settingUp = false
  | _ => True

/-! ## Faults do not go unnoticed -/

/-- Something is under way, or the interrupt is on, or a command turned the checks off. -/
structure Sighted (d : Driver) : Prop where
  depth : d.depth ≤ 1
  allowed : d.workAllowed = false → d.disabledByCommand = true
  noticed : d.running = true ∨ d.Canceling ∨ d.settingUp = true ∨ d.depth = 0 ∨
    d.scheduled = true ∨ d.disabledByCommand = true

variable {d : Driver}

/-- After a call of `schedule_delayed_work` the work is pending or being canceled. -/
theorem sighted_scheduleWork (hdepth : d.depth ≤ 1)
    (hallowed : d.workAllowed = false → d.disabledByCommand = true) : Sighted d.scheduleWork := by
  rw [Driver.scheduleWork]
  split
  · rename_i hcanceling
    exact ⟨hdepth, hallowed, .inr (.inl hcanceling)⟩
  · exact ⟨hdepth, hallowed, .inr (.inr (.inr (.inr (.inl rfl))))⟩

/-- After a call of `enable_irq` the interrupt is on. -/
theorem sighted_enableIrq (hdepth : d.depth ≤ 1)
    (hallowed : d.workAllowed = false → d.disabledByCommand = true) : Sighted d.enableIrq := by
  rw [Driver.enableIrq]
  split
  · rename_i hzero
    exact ⟨hdepth, hallowed, .inr (.inr (.inr (.inl hzero)))⟩
  · have hone : d.depth - 1 = 0 := Nat.sub_eq_zero_of_le hdepth
    exact ⟨Nat.le_succ_of_le (Nat.le_of_eq hone), hallowed, .inr (.inr (.inr (.inl hone)))⟩

theorem sighted_scheduleFaultCheck (hdepth : d.depth ≤ 1)
    (hallowed : d.workAllowed = false → d.disabledByCommand = true) :
    Sighted d.scheduleFaultCheck := by
  rw [Driver.scheduleFaultCheck]
  split
  · exact sighted_scheduleWork hdepth hallowed
  · exact sighted_enableIrq hdepth hallowed

theorem sighted_of_disabled (hdepth : d.depth ≤ 1) (hdisabled : d.disabledByCommand = true) :
    Sighted d :=
  ⟨hdepth, fun _ ↦ hdisabled, .inr (.inr (.inr (.inr (.inr hdisabled))))⟩

/-- Every event keeps the faults in sight. -/
theorem step_sighted (h : Sighted d) (event : Event) : Sighted (step d event) := by
  cases event with
  | interrupt =>
      rw [step]
      split
      · rename_i hzero
        have hone : d.depth + 1 ≤ 1 := by omega
        rw [Driver.irqHandler]
        split
        · exact sighted_scheduleWork hone h.allowed
        · rename_i hallowed
          exact sighted_of_disabled hone (h.allowed (Bool.eq_false_of_not_eq_true hallowed))
      · exact h
  | checkBegin =>
      rw [step]
      split
      · exact ⟨h.depth, h.allowed, .inl rfl⟩
      · exact h
  | checkEnd fault =>
      rw [step]
      split
      · exact sighted_scheduleFaultCheck h.depth h.allowed
      · exact h
  | setupDone =>
      rw [step]
      split
      · exact sighted_scheduleWork h.depth h.allowed
      · exact h
  | disable =>
      rw [step]
      split
      · exact sighted_of_disabled h.depth rfl
      · exact sighted_of_disabled h.depth rfl
  | disableDone =>
      rw [step]
      split
      · exact sighted_of_disabled h.depth rfl
      · exact h
  | reset =>
      rw [step]
      split
      · exact sighted_of_disabled h.depth rfl
      · exact sighted_of_disabled h.depth rfl
  | resetCanceled =>
      rw [step]
      split
      · exact sighted_of_disabled h.depth rfl
      · exact h
  | resetEnd fault =>
      rw [step]
      split
      · exact sighted_scheduleFaultCheck h.depth (fun hfalse ↦ absurd hfalse Bool.true_eq_false_eq_False)
      · exact h

/-! ## One token -/

/-- The number of those that may turn the interrupt on next. -/
def Driver.tokens (d : Driver) : ℕ :=
  (if d.depth = 0 then 1 else 0) + d.scheduled.toNat + d.running.toNat + d.settingUp.toNat

/-- `enable_irq` was balanced, and at most one may call it next. -/
structure Single (d : Driver) : Prop where
  balanced : d.unbalanced = false
  tokens : d.tokens ≤ 1

theorem single_scheduleWork (hbalanced : d.unbalanced = false) (htokens : d.tokens = 0) :
    Single d.scheduleWork := by
  rw [Driver.scheduleWork]
  split
  · exact ⟨hbalanced, Nat.le_succ_of_le (Nat.le_of_eq htokens)⟩
  · refine ⟨hbalanced, ?_⟩
    simp only [Driver.tokens, Nat.add_eq_zero_iff] at htokens ⊢
    simp [htokens]

theorem single_enableIrq (hbalanced : d.unbalanced = false) (htokens : d.tokens = 0) :
    Single d.enableIrq := by
  simp only [Driver.tokens, Nat.add_eq_zero_iff] at htokens
  rw [Driver.enableIrq]
  split
  · simp_all
  · refine ⟨hbalanced, ?_⟩
    simp only [Driver.tokens, htokens]
    split <;> omega

theorem single_scheduleFaultCheck (hbalanced : d.unbalanced = false) (htokens : d.tokens = 0) :
    Single d.scheduleFaultCheck := by
  rw [Driver.scheduleFaultCheck]
  split
  · exact single_scheduleWork hbalanced htokens
  · exact single_enableIrq hbalanced htokens

/-- What takes part in nothing keeps the token where it is. -/
theorem Single.congr {d' : Driver} (h : Single d) (hbalanced : d'.unbalanced = d.unbalanced)
    (htokens : d'.tokens ≤ d.tokens) : Single d' :=
  ⟨hbalanced.trans h.balanced, Nat.le_trans htokens h.tokens⟩

/-- The pending work is canceled: nobody gets its token. -/
theorem tokens_disableFaultCheck (d : Driver) : d.disableFaultCheck.tokens ≤ d.tokens :=
  Nat.add_le_add_right (Nat.add_le_add_right (Nat.add_le_add_left (Nat.zero_le _) _) _) _

/-- Every event but the end of a reset passes the token on. -/
theorem step_single (h : Single d) {event : Event} (hok : ResetsOff d event) :
    Single (step d event) := by
  have htokens := h.tokens
  cases event with
  | interrupt =>
      rw [step]
      split
      · rename_i hzero
        have hnone : ({ d with depth := d.depth + 1 } : Driver).tokens = 0 := by
          simp only [Driver.tokens, hzero, if_true] at htokens
          rw [Driver.tokens, if_neg (Nat.succ_ne_zero _)]
          show 0 + d.scheduled.toNat + d.running.toNat + d.settingUp.toNat = 0
          omega
        rw [Driver.irqHandler]
        split
        · exact single_scheduleWork h.balanced hnone
        · exact ⟨h.balanced, Nat.le_succ_of_le (Nat.le_of_eq hnone)⟩
      · exact h
  | checkBegin =>
      rw [step]
      split
      · rename_i hbegin
        refine h.congr rfl ?_
        simp only [Driver.tokens, hbegin.1, Bool.eq_false_of_not_eq_true hbegin.2, Bool.toNat_true,
          Bool.toNat_false]
        omega
      · exact h
  | checkEnd fault =>
      rw [step]
      split
      · rename_i hrunning
        refine single_scheduleFaultCheck h.balanced ?_
        simp only [Driver.tokens, hrunning, Bool.toNat_true, Bool.toNat_false] at htokens ⊢
        omega
      · exact h
  | setupDone =>
      rw [step]
      split
      · rename_i hsetting
        refine single_scheduleWork h.balanced ?_
        simp only [Driver.tokens, hsetting, Bool.toNat_true, Bool.toNat_false] at htokens ⊢
        omega
      · exact h
  | disable =>
      rw [step]
      split
      · exact h.congr rfl (tokens_disableFaultCheck d)
      · exact h.congr rfl (tokens_disableFaultCheck d)
  | disableDone =>
      rw [step]
      split
      · exact h.congr rfl (Nat.le_refl _)
      · exact h
  | reset =>
      rw [step]
      split
      · exact h.congr rfl (tokens_disableFaultCheck d)
      · exact h.congr rfl (tokens_disableFaultCheck d)
  | resetCanceled =>
      rw [step]
      split
      · exact h.congr rfl (Nat.le_refl _)
      · exact h
  | resetEnd fault =>
      rw [step]
      split
      · rename_i hresetting
        obtain ⟨hdepth, hscheduled, hrunning, hsetting⟩ := hok hresetting
        refine single_scheduleFaultCheck h.balanced ?_
        simp [Driver.tokens, hdepth, hscheduled, hrunning, hsetting]
      · exact h

theorem sighted_requested : Sighted .requested :=
  ⟨Nat.le_refl 1, fun h ↦ absurd h (by decide), .inr (.inr (.inl rfl))⟩

theorem single_requested : Single .requested := ⟨rfl, by decide⟩

/-- A driver in sight notices its faults once nothing is under way. -/
theorem Sighted.noticed_of_completed (h : Sighted d) (hdone : d.Completed) :
    d.depth = 0 ∨ d.scheduled = true ∨ d.disabledByCommand = true := by
  obtain hrunning | hcanceling | hsetting | hrest := h.noticed
  · exact absurd (hrunning.symm.trans hdone.running) (by decide)
  · exact absurd hcanceling hdone.canceling
  · exact absurd (hsetting.symm.trans hdone.settingUp) (by decide)
  · exact hrest

/-- **Interrupt balance.** If every reset comes to its end while the interrupt is off and no fault
check is under way, then in every state of the run `enable_irq` was called only while the interrupt
was off, and no fault goes unnoticed. -/
theorem watched_throughout {events : List Event} (h : Along step ResetsOff .requested events) :
    Throughout step Watched .requested events := by
  intro first hfirst
  have hsingle : Single (run step .requested first) :=
    @run_invariant _ _ step ResetsOff Single (fun _ _ hinv hok ↦ step_single hinv hok) _
      single_requested _ (along_of_isPrefix hfirst h)
  have hsighted : Sighted (run step .requested first) :=
    @run_keeps _ _ step Sighted (fun _ event hinv ↦ step_sighted hinv event) _ sighted_requested first
  exact ⟨hsingle.balanced, hsighted.noticed_of_completed⟩

/-- A reset while the interrupt is on, during which the bus raises an interrupt. -/
theorem watched_throughout_interrupted_reset :
    Throughout step Watched .requested
      [.setupDone, .checkBegin, .checkEnd false, .reset, .interrupt, .resetEnd true] :=
  watched_throughout (by simp [Along, ResetsOff, step, Driver.scheduleWork, Driver.requested,
    Driver.scheduleFaultCheck, Driver.enableIrq, Driver.disableFaultCheck, Driver.irqHandler,
    Driver.Canceling])

/-- The first check finds no fault and turns the interrupt on; a reset turns it on once more. -/
theorem reset_not_watched :
    ¬ Throughout step Watched .requested
      [.setupDone, .checkBegin, .checkEnd false, .reset, .resetEnd false] := by
  intro h
  have hbalanced := (h _ (List.prefix_refl _)).balanced
  exact absurd hbalanced (by decide)

end Vsys.A2b
