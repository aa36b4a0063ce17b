import Vsys.Vt.Protocol

/-!
# `ZVbvMem`

The voice front end around the wake-word engine.  `Process` cleans the audio, hands whole batches
of it to the engine through `ZVt`, and keeps in `m_bWorking` whether the beam-formed buffer
belongs to an open detection.  During `Detect` a detector may call `my_dosecsl_callback`, which
steers the beam former anew and refills the buffer.

A failed `assert` stops the program, so a step returns the assertion that failed or the new state.
The audio itself is left out: only its length decides what happens.
-/

namespace Vsys.Vbv

open Vsys.Vt

/-- The assertions of `Process` and of the callback. -/
inductive Assertion
  | secSlRange
  | secSlWorking
  | preWorking
  | cancelWorking
  | detCmdWorking
  | detNocmdWorking
  deriving DecidableEq, Repr

/-- `assert`. -/
def check (assertion : Assertion) (condition : Bool) : Except Assertion Unit :=
  if condition then .ok () else .error assertion

/-- The state of a `ZVbvMem` object: the engine, the samples `ZVt` holds back (`m_iLen_In`), and
`m_pAudBuff_Vt_Ns->m_bWorking`. -/
structure VbvMem where
  vt : VtMem
  lenIn : ℕ
  working : Bool
  deriving DecidableEq

/-- What goes into one call of `Process`: the length of the cleaned audio, the flags, and the
answers of the engines. -/
structure VbvIn where
  lenNs : ℕ
  aec : Bool
  vadEnd : Bool
  frms : List (ℕ → FrmIn)
  endIn : ℕ → FrmIn

/-- `m_iBatchSize`: 12 frames of 160 samples. -/
def batchSize : ℕ := 12 * 160

namespace VbvMem

/-- The constructor installs the callback; `words` is the list given to `SetWords`. -/
def create (words : List WordInfo) : VbvMem where
  vt := ((VtMem.create true).setWords words).1
  lenIn := 0
  working := false

/-- `m_iLen_In` of `ZVt::Process`: what the last call left of a batch, and the new samples. -/
def lenTotal (s : VbvMem) (input : VbvIn) : ℕ :=
  (if s.lenIn ≥ batchSize then s.lenIn % batchSize else s.lenIn) + input.lenNs

/-- What `ZVt::Process` hands to `Detect`: whole batches only. -/
def detectIn (s : VbvMem) (input : VbvIn) : DetectIn where
  wavLen := (s.lenTotal input / batchSize * batchSize : ℕ)
  aec := input.aec
  vadEnd := input.vadEnd
  frms := input.frms
  endIn := input.endIn

/-- `ZVt::Process`. -/
def vtProcess (s : VbvMem) (input : VbvIn) : VbvMem × VtResult × List SecSlCall :=
  if input.lenNs = 0 then (s, .none, [])
  else
    let out := s.vt.detect (s.detectIn input)
    ({ s with vt := out.mem, lenIn := s.lenTotal input }, out.rt, out.calls)

/-- `my_dosecsl_callback`, as far as `m_bWorking` goes: `ZAudBuff_S::Reset` clears it. -/
def myDoSecSlCallback (working : Bool) (call : SecSlCall) : Except Assertion Bool := do
  check .secSlRange (decide call.Valid)
  check .secSlWorking (!working)
  return false

/-- What `Process` makes of the engine's result. -/
def handleResult (working : Bool) (rt : VtResult) : Except Assertion Bool := do
  let working ← if rt.pre then do check .preWorking (!working); pure true else pure working
  let working ← if rt.cancel then do check .cancelWorking working; pure false else pure working
  let working ← if rt.detCmd then do check .detCmdWorking working; pure false else pure working
  if rt.detNocmd then do check .detNocmdWorking working; pure false else pure working

/-- `Process`. -/
def process (s : VbvMem) (input : VbvIn) : Except Assertion (VbvMem × VtResult) := do
  let (s, rt, calls) := s.vtProcess input
  let working ← calls.foldlM myDoSecSlCallback s.working
  let working ← handleResult working rt
  return ({ s with working := working }, rt)

/-- Successive calls of `Process`. -/
def processes : VbvMem → List VbvIn → Except Assertion VbvMem
  | s, [] => .ok s
  | s, input :: inputs => do
      let out ← s.process input
      processes out.1 inputs

/-! ## The assertions -/

/-- A result that follows the protocol makes no assertion of `Process` fail. -/
theorem handleResult_of_follows {working : Bool} {rt : VtResult} (h : rt.Follows working) :
    handleResult working rt = .ok (rt.next working) := by
  obtain ⟨hfresh, -, hopen, hone, hcancel⟩ := h
  obtain ⟨pre, det, cancel, detCmd, detNocmd⟩ := rt
  cases working <;> cases pre <;> cases cancel <;> cases detCmd <;> cases detNocmd <;>
    simp_all [handleResult, check, VtResult.next, VtResult.decided, bind, Except.bind, pure,
      Except.pure]

/-- The callback's calls pass while the buffer is free; the first one fails otherwise. -/
theorem foldlM_myDoSecSlCallback {calls : List SecSlCall} (hvalid : ∀ call ∈ calls, call.Valid)
    (working : Bool) :
    calls.foldlM myDoSecSlCallback working =
      if working = true ∧ calls ≠ [] then .error .secSlWorking else .ok working := by
  have hfree : ∀ calls : List SecSlCall, (∀ call ∈ calls, call.Valid) →
      calls.foldlM myDoSecSlCallback false = .ok false := by
    intro calls
    induction calls with
    | nil => exact fun _ ↦ rfl
    | cons call calls ih =>
        intro hvalid
        have hcall : myDoSecSlCallback false call = .ok false := by
          simp [myDoSecSlCallback, check, hvalid call List.mem_cons_self, bind, Except.bind, pure,
            Except.pure]
        rw [List.foldlM_cons, hcall]
        exact ih fun later hlater ↦ hvalid later (List.mem_cons_of_mem _ hlater)
  cases working with
  | false => simpa using hfree calls hvalid
  | true =>
      cases calls with
      | nil => rfl
      | cons call calls =>
          have hcall : myDoSecSlCallback true call = .error .secSlWorking := by
            simp [myDoSecSlCallback, check, hvalid call List.mem_cons_self, bind, Except.bind]
          rw [List.foldlM_cons, hcall]
          rfl

/-- The buffer is in use exactly while a detection is open. -/
structure Inv (s : VbvMem) : Prop where
  vt : s.vt.Inv
  working : s.working = s.vt.opened

theorem inv_create (words : List WordInfo) : Inv (create words) :=
  ⟨(VtMem.inv_create true).setWords words,
    (VtMem.opened_of_cur_none (VtMem.setWords_detectors _ words).2).symm⟩

theorem Inv.vtProcess {s : VbvMem} (h : Inv s) (input : VbvIn) :
    (s.vtProcess input).1.vt.Inv ∧ (s.vtProcess input).1.working = s.working ∧
      (s.vtProcess input).2.1.Follows s.working ∧
      (s.vtProcess input).2.1.next s.working = (s.vtProcess input).1.vt.opened ∧
      ∀ call ∈ (s.vtProcess input).2.2, call.Valid := by
  unfold VbvMem.vtProcess
  split_ifs
  · exact ⟨h.vt, rfl, VtResult.follows_none _, (VtResult.next_none _).trans h.working, by simp⟩
  · dsimp only
    obtain ⟨hinv, hdetected⟩ := h.vt.detect (s.detectIn input)
    obtain ⟨hfollows, hnext⟩ := hdetected.follows
    rw [← h.working] at hfollows hnext
    exact ⟨hinv, rfl, hfollows, hnext, h.vt.calls_detect _⟩

/-- One call of `Process`: it goes through, unless a detector calls back while the buffer is in
use. -/
theorem Inv.process {s : VbvMem} (h : Inv s) (input : VbvIn) :
    (s.working = true ∧ (s.vtProcess input).2.2 ≠ [] ∧
      s.process input = .error .secSlWorking) ∨
    (s.working = true → (s.vtProcess input).2.2 = []) ∧
      ∃ out, s.process input = .ok out ∧ Inv out.1 ∧ out.1.vt = (s.vtProcess input).1.vt := by
  obtain ⟨hinv, hworking, hfollows, hnext, hvalid⟩ := h.vtProcess input
  unfold VbvMem.process
  generalize s.vtProcess input = out at *
  obtain ⟨t, rt, calls⟩ := out
  dsimp only at *
  rw [hworking, foldlM_myDoSecSlCallback hvalid]
  split_ifs with hbusy
  · exact .inl ⟨hbusy.1, hbusy.2, rfl⟩
  · refine .inr ⟨fun hworking ↦ ?_, ({ t with working := rt.next s.working }, rt), ?_,
      ⟨hinv, hnext⟩, rfl⟩
    · by_contra hcalls
      exact hbusy ⟨hworking, hcalls⟩
    · simp [handleResult_of_follows hfollows, bind, Except.bind, pure, Except.pure]

/-- The only assertion that can ever fail is the callback's. -/
theorem Inv.error_processes {s : VbvMem} (h : Inv s) {inputs : List VbvIn} {failed : Assertion}
    (hfailed : s.processes inputs = .error failed) : failed = .secSlWorking := by
  induction inputs generalizing s with
  | nil => cases hfailed
  | cons input inputs ih =>
      rw [processes] at hfailed
      rcases h.process input with ⟨-, -, herror⟩ | ⟨-, out, hok, hinv, -⟩
      · rw [herror] at hfailed
        cases hfailed
        rfl
      · rw [hok] at hfailed
        exact ih hinv hfailed

/-- **The detection protocol.** For every word list and every sequence of `Detect` calls:

* the results follow the protocol, so a `PRE` comes only while no detection is open, `DET` comes
  only with a `PRE`, one decision closes a detection, and nothing is canceled;
* an open detection is closed by a decision within 36 further score frames;
* no assertion of `r2mem_vbv3` fails on these results, whatever word is reported with them;
* in a run of `ZVbvMem::Process` the first assertion to fail, if any, is the callback's own, so the
  assertions on `PRE`, `DET_CMD` and `DET_NOCMD` hold. -/
theorem detect_follows_protocol (dsCb : Bool) (words : List WordInfo) (inputs : List DetectIn) :
    Protocol false (((VtMem.create dsCb).setWords words).1.results inputs) ∧
      (∀ later : List DetectIn,
        (((VtMem.create dsCb).setWords words).1.afterDetects inputs).opened = true →
        36 ≤ (later.map DetectIn.frames).sum →
        ∃ rt ∈ (((VtMem.create dsCb).setWords words).1.afterDetects inputs).results later,
          rt.decided = true) ∧
      (∀ reports : List (VtResult × WordInfo × WordDetInfo),
        reports.map Prod.fst = ((VtMem.create dsCb).setWords words).1.results inputs →
        (reports.foldl (fun v report ↦ v.process report.1 report.2.1 report.2.2)
          ({} : R2ad.Vbv3)).assertsHeld = true) ∧
      ∀ (calls : List VbvIn) (failed : Assertion),
        (create words).processes calls = .error failed → failed = .secSlWorking := by
  have hinv : (((VtMem.create dsCb).setWords words).1).Inv := (VtMem.inv_create dsCb).setWords words
  have hclosed : (((VtMem.create dsCb).setWords words).1).opened = false :=
    VtMem.opened_of_cur_none (VtMem.setWords_detectors _ words).2
  have hprotocol := hinv.protocol_results inputs
  rw [hclosed] at hprotocol
  refine ⟨hprotocol, ?_, ?_, fun _ _ ↦ (inv_create words).error_processes⟩
  · intro later hopen hframes
    have hafter := hinv.afterDetects inputs
    obtain ⟨left, hleft, hphase⟩ := hafter.left_lt hopen
    exact hafter.decided_of_frames hphase (Nat.lt_of_lt_of_le hleft hframes)
  · intro reports hreports
    exact R2ad.Vbv3.assertsHeld_of_protocol rfl (hreports ▸ hprotocol)

end VbvMem

end Vsys.Vbv
