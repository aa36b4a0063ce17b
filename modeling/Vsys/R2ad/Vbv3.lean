import Vsys.Vt.Word

/-!
# `r2mem_vbv3` and the detection protocol

`r2mem_vbv3` wraps the wake-word engine.  It remembers in `m_bPre` whether a detection is open,
and keeps the word of the open detection.  Its assertions spell out the protocol of the results:
a detection is opened by `PRE` while none is open, and everything else needs an open one.

`Follows` is that protocol as a monitor on single results; a result that follows it makes no
assertion fail.
-/

namespace Vsys.Vt

/-- The detection protocol: what a result may be, given whether a detection is open. -/
structure VtResult.Follows (opened : Bool) (rt : VtResult) : Prop where
  pre_fresh : rt.pre = true → opened = false
  det_pre : rt.det = true → rt.pre = true
  decided_open : rt.decided = true → (opened || rt.pre) = true
  one_decision : ¬ (rt.detCmd = true ∧ rt.detNocmd = true)
  no_cancel : rt.cancel = false

instance (opened : Bool) (rt : VtResult) : Decidable (rt.Follows opened) :=
  decidable_of_iff
    ((rt.pre = true → opened = false) ∧ (rt.det = true → rt.pre = true) ∧
      (rt.decided = true → (opened || rt.pre) = true) ∧
      ¬ (rt.detCmd = true ∧ rt.detNocmd = true) ∧ rt.cancel = false)
    ⟨fun h ↦ ⟨h.1, h.2.1, h.2.2.1, h.2.2.2.1, h.2.2.2.2⟩,
      fun h ↦ ⟨h.1, h.2, h.3, h.4, h.5⟩⟩

/-- Whether a detection is open after a result. -/
def VtResult.next (opened : Bool) (rt : VtResult) : Bool := (opened || rt.pre) && !rt.decided

theorem VtResult.follows_none (opened : Bool) : VtResult.none.Follows opened := by
  constructor <;> simp [VtResult.none, VtResult.decided]

@[simp]
theorem VtResult.next_none (opened : Bool) : VtResult.none.next opened = opened := by
  simp [VtResult.next, VtResult.none, VtResult.decided]

/-- Every result of a sequence follows the protocol. -/
def Protocol : Bool → List VtResult → Prop
  | _, [] => True
  | opened, rt :: rts => rt.Follows opened ∧ Protocol (rt.next opened) rts

end Vsys.Vt

namespace Vsys.R2ad

open Vsys.Vt

/-- The state of an `r2mem_vbv3` object, apart from the engine behind it. -/
structure Vbv3 where
  pre : Bool := false
  wordInfo : Option WordInfo := none
  wordDetInfo : Option WordDetInfo := none
  assertsHeld : Bool := true

namespace Vbv3

/-- `assert`. -/
def check (v : Vbv3) (condition : Bool) : Vbv3 :=
  { v with assertsHeld := v.assertsHeld && condition }

/-- `Process`, given the engine's result and the word `r2_vbv_getdetwordinfo` reports. -/
def process (v : Vbv3) (rt : VtResult) (word : WordInfo) (det : WordDetInfo) : Vbv3 :=
  let v := if !v.pre then { v with wordInfo := none, wordDetInfo := none } else v
  let v :=
    if rt.pre then
      { v.check (!v.pre) with pre := true, wordInfo := some word, wordDetInfo := some det }
    else v
  let v := if rt.det then v.check v.pre else v
  let v := if rt.cancel then { v.check v.pre with pre := false } else v
  let v := if rt.detCmd then { v.check v.pre with pre := false } else v
  if rt.detNocmd then { v.check v.pre with pre := false } else v

/-- Results that follow the protocol make no assertion fail, and `m_bPre` is the monitor. -/
theorem process_of_follows (v : Vbv3) {rt : VtResult} (h : rt.Follows v.pre) (word : WordInfo)
    (det : WordDetInfo) :
    (v.process rt word det).pre = rt.next v.pre ∧
      (v.process rt word det).assertsHeld = v.assertsHeld := by
  obtain ⟨hfresh, hdet, hopen, hone, hcancel⟩ := h
  obtain ⟨pre, det', cancel, detCmd, detNocmd⟩ := rt
  cases hv : v.pre <;> cases pre <;> cases det' <;> cases cancel <;> cases detCmd <;>
    cases detNocmd <;> simp_all [process, check, VtResult.next, VtResult.decided]

/-- The word of an open detection is the one reported when it was opened. -/
theorem process_wordInfo (v : Vbv3) (rt : VtResult) (word : WordInfo) (det : WordDetInfo) :
    (v.process rt word det).wordInfo =
      if rt.pre then some word else if v.pre then v.wordInfo else none := by
  unfold process check
  cases v.pre <;> cases rt.pre <;> cases rt.det <;> cases rt.cancel <;> cases rt.detCmd <;>
    cases rt.detNocmd <;> rfl

/-- A sequence of results that follows the protocol makes no assertion fail, whatever words are
reported with it. -/
theorem assertsHeld_of_protocol {reports : List (VtResult × WordInfo × WordDetInfo)} {v : Vbv3}
    (hheld : v.assertsHeld = true) (h : Protocol v.pre (reports.map Prod.fst)) :
    (reports.foldl (fun v report ↦ v.process report.1 report.2.1 report.2.2) v).assertsHeld =
      true := by
  induction reports generalizing v with
  | nil => exact hheld
  | cons report reports ih =>
      obtain ⟨hpre, hasserts⟩ := v.process_of_follows h.1 report.2.1 report.2.2
      refine ih (hasserts.trans hheld) ?_
      rw [hpre]
      exact h.2

end Vbv3

end Vsys.R2ad
