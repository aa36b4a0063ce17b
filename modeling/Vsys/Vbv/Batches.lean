import Vsys.Stream.Blocks
import Vsys.Trace.Run
import Vsys.Vbv.Mem

/-!
# `ZVt`

The samples of the selected channels on their way to the engine, which takes whole batches only.  A
call hands over what makes up batches and leaves all samples where they are; it is the next call that
drops the batches and moves what is left over to the front.  A call without samples does nothing.

`Inv` says what the rows hold behind the batches handed over, and `passed_run` is the law for any
split of the stream.
-/

namespace Vsys.Vbv

open Vsys.Stream Vsys.Trace

variable {F σ : Type*} [Zero F] {micNum : ℕ}

/-- The engine: `r2_vt_process` on rows of equal length, with its result. -/
structure VtEngine (σ F : Type*) (micNum : ℕ) where
  process : σ → (Fin micNum → List F) → ℤ → σ × ℤ

/-- The state of a `ZVt` object; the rows have `m_iLen_In_Total` samples.  `passed` lists what the
engine has been given. -/
structure ZVt (σ F : Type*) (micNum : ℕ) where
  engine : σ
  dataIn : Fin micNum → List F
  lenIn : ℕ
  lenInTotal : ℕ
  passed : List (Fin micNum → List F)

/-- The arguments of `Process`: `wavBuff m k` is sample `k` of channel `m`. -/
structure VtCall (F : Type*) where
  wavBuff : ℕ → ℕ → F
  wavLen : ℕ
  vtFlag : ℤ

/-- The samples of a channel. -/
def VtCall.samples {F : Type*} (c : VtCall F) (mic : ℕ) : List F := (List.range c.wavLen).map (c.wavBuff mic)

namespace ZVt

/-- The constructor. -/
def create (engine : σ) : ZVt σ F micNum where
  engine := engine
  dataIn := fun _ ↦ List.replicate (batchSize * 10) 0
  lenIn := 0
  lenInTotal := batchSize * 10
  passed := []

/-- Batches that were handed over are dropped. -/
def drop (v : ZVt σ F micNum) : ZVt σ F micNum :=
  if v.lenIn ≥ batchSize then
    let leftSize := v.lenIn % batchSize
    { v with
      dataIn := fun i ↦
        if leftSize > 0 then
          overwrite (v.dataIn i) 0 (((v.dataIn i).drop (v.lenIn - leftSize)).take leftSize)
        else v.dataIn i
      lenIn := leftSize }
  else v

/-- The rows are made longer. -/
def reserve (v : ZVt σ F micNum) (wavLen : ℕ) : ZVt σ F micNum :=
  if v.lenIn + wavLen > v.lenInTotal then
    let total := (v.lenIn + wavLen) * 2
    { v with
      dataIn := fun i ↦
        if v.lenIn > 0 then
          overwrite (List.replicate total 0) 0 ((v.dataIn i).take v.lenIn)
        else List.replicate total 0
      lenInTotal := total }
  else v

/-- The samples of the selected channels come behind the others. -/
def append (v : ZVt σ F micNum) (micIds : Fin micNum → ℕ) (c : VtCall F) : ZVt σ F micNum :=
  { v with
    dataIn := fun i ↦ overwrite (v.dataIn i) v.lenIn (c.samples (micIds i))
    lenIn := v.lenIn + c.wavLen }

/-- The beginning of the rows, whole batches only. -/
def batches (v : ZVt σ F micNum) : Fin micNum → List F := fun i ↦
  (v.dataIn i).take (v.lenIn / batchSize * batchSize)

/-- `Process`. -/
def process (E : VtEngine σ F micNum) (micIds : Fin micNum → ℕ) (v : ZVt σ F micNum)
    (c : VtCall F) : ZVt σ F micNum × ℤ :=
  if c.wavLen = 0 then (v, 0)
  else
    let v := (v.drop.reserve c.wavLen).append micIds c
    let answer := E.process v.engine v.batches c.vtFlag
    ({ v with engine := answer.1, passed := v.passed ++ [v.batches] }, answer.2)

/-- `GetLeftPos`. -/
def getLeftPos (v : ZVt σ F micNum) : ℕ := v.lenIn % batchSize

/-! ## The rows -/

/-- The samples in a row. -/
def content (v : ZVt σ F micNum) (i : Fin micNum) : List F := (v.dataIn i).take v.lenIn

/-- The rows have room for the samples in them. -/
structure Fits (v : ZVt σ F micNum) : Prop where
  length_eq : ∀ i, (v.dataIn i).length = v.lenInTotal
  lenIn_le : v.lenIn ≤ v.lenInTotal

omit [Zero F] in
theorem Fits.length_content {v : ZVt σ F micNum} (h : v.Fits) (i : Fin micNum) :
    (v.content i).length = v.lenIn := by
  rw [content, List.length_take, h.length_eq]
  exact min_eq_left h.lenIn_le

theorem create_fits (engine : σ) : (create engine : ZVt σ F micNum).Fits :=
  ⟨fun _ ↦ List.length_replicate, Nat.zero_le _⟩

omit [Zero F] in
/-- What is left over moves to the front. -/
theorem Fits.drop {v : ZVt σ F micNum} (h : v.Fits) :
    v.drop.Fits ∧ v.drop.lenIn = v.lenIn % batchSize ∧
      ∀ i, v.drop.content i = leftover batchSize (v.content i) := by
  have hle := h.lenIn_le
  have hdiv := Nat.div_add_mod' v.lenIn batchSize
  rw [ZVt.drop]
  split_ifs with hfull
  · have hmoved : ∀ i, (((v.dataIn i).drop (v.lenIn - v.lenIn % batchSize)).take
        (v.lenIn % batchSize)).length = v.lenIn % batchSize := by
      intro i
      have := h.length_eq i
      rw [List.length_take, List.length_drop]
      omega
    refine ⟨⟨fun i ↦ ?_, ?_⟩, rfl, fun i ↦ ?_⟩
    · have hlen := h.length_eq i
      dsimp only
      split_ifs
      · rw [overwrite_length (by rw [hmoved, hlen]; omega), hlen]
      · exact hlen
    · dsimp only
      omega
    · have hstart : v.lenIn - v.lenIn % batchSize = v.lenIn / batchSize * batchSize := by omega
      have hleft : leftover batchSize (v.content i) =
          ((v.dataIn i).drop (v.lenIn - v.lenIn % batchSize)).take (v.lenIn % batchSize) := by
        rw [leftover, h.length_content, content, List.drop_take, hstart]
        congr 1
        omega
      rw [hleft, content]
      dsimp only
      split_ifs with hsome
      · exact take_overwrite_zero _ (hmoved i)
      · rw [Nat.eq_zero_of_not_pos hsome, List.take_zero, List.take_zero]
  · have hlt : v.lenIn < batchSize := Nat.lt_of_not_le hfull
    refine ⟨h, (Nat.mod_eq_of_lt hlt).symm, fun i ↦ ?_⟩
    rw [leftover_of_length_lt (by rw [h.length_content]; exact hlt)]

theorem Fits.reserve {v : ZVt σ F micNum} (h : v.Fits) (wavLen : ℕ) :
    (v.reserve wavLen).Fits ∧ (v.reserve wavLen).lenIn = v.lenIn ∧
      v.lenIn + wavLen ≤ (v.reserve wavLen).lenInTotal ∧
      ∀ i, (v.reserve wavLen).content i = v.content i := by
  rw [ZVt.reserve]
  by_cases hgrow : v.lenIn + wavLen > v.lenInTotal
  · rw [if_pos hgrow]
    have hcontent : ∀ i, ((v.dataIn i).take v.lenIn).length = v.lenIn := h.length_content
    refine ⟨⟨fun i ↦ ?_, ?_⟩, rfl, ?_, fun i ↦ ?_⟩
    · dsimp only
      split_ifs
      · rw [overwrite_length (by rw [hcontent, List.length_replicate]; omega),
          List.length_replicate]
      · exact List.length_replicate
    · dsimp only
      omega
    · dsimp only
      omega
    · rw [content, content]
      dsimp only
      split_ifs with hsome
      · exact take_overwrite_zero _ (hcontent i)
      · rw [Nat.eq_zero_of_not_pos hsome, List.take_zero, List.take_zero]
  · rw [if_neg hgrow]
    exact ⟨h, rfl, Nat.le_of_not_lt hgrow, fun _ ↦ rfl⟩

omit [Zero F] in
theorem Fits.append {v : ZVt σ F micNum} (h : v.Fits) (micIds : Fin micNum → ℕ) {c : VtCall F}
    (hroom : v.lenIn + c.wavLen ≤ v.lenInTotal) :
    (v.append micIds c).Fits ∧
      ∀ i, (v.append micIds c).content i = v.content i ++ c.samples (micIds i) := by
  have hsamples : ∀ i, (c.samples (micIds i)).length = c.wavLen := fun i ↦ by
    rw [VtCall.samples, List.length_map, List.length_range]
  refine ⟨⟨fun i ↦ ?_, hroom⟩, fun i ↦ ?_⟩
  · calc
      ((v.append micIds c).dataIn i).length = (v.dataIn i).length :=
        overwrite_length (by rw [hsamples, h.length_eq]; exact hroom)
      _ = v.lenInTotal := h.length_eq i
  · have hfront : v.lenIn ≤ (v.dataIn i).length := by
      rw [h.length_eq]
      exact h.lenIn_le
    exact take_overwrite hfront _ (congrArg (v.lenIn + ·) (hsamples i))

/-! ## The stream -/

/-- What the engine has been given of a channel. -/
def passedOf (v : ZVt σ F micNum) (i : Fin micNum) : List F := (v.passed.map (· i)).flatten

/-- The engine has been given whole batches, and what it has not been given of the `length` samples of
`stream` so far stands behind the batches in the rows. -/
structure Inv (v : ZVt σ F micNum) (stream : Fin micNum → List F) (length : ℕ) : Prop where
  fits : v.Fits
  stream_eq : ∀ i, v.passedOf i ++ leftover batchSize (v.content i) = stream i
  length_eq : ∀ i, (stream i).length = length
  left : v.lenIn % batchSize = length % batchSize

theorem create_inv (engine : σ) : (create engine : ZVt σ F micNum).Inv (fun _ ↦ []) 0 where
  fits := create_fits engine
  stream_eq := fun _ ↦ by simp [passedOf, create, content, leftover]
  length_eq := fun _ ↦ rfl
  left := rfl

/-- **One call.** -/
theorem Inv.process {v : ZVt σ F micNum} {stream : Fin micNum → List F} {length : ℕ}
    (h : v.Inv stream length) (E : VtEngine σ F micNum) (micIds : Fin micNum → ℕ) (c : VtCall F) :
    (v.process E micIds c).1.Inv (fun i ↦ stream i ++ c.samples (micIds i))
      (length + c.wavLen) := by
  have hsamples : ∀ i, (c.samples (micIds i)).length = c.wavLen := fun i ↦ by
    rw [VtCall.samples, List.length_map, List.length_range]
  have hlength : ∀ i, (stream i ++ c.samples (micIds i)).length = length + c.wavLen := fun i ↦ by
    rw [List.length_append, h.length_eq, hsamples]
  rw [ZVt.process]
  split_ifs with hnone
  · have hnil : ∀ i, c.samples (micIds i) = [] := fun i ↦
      List.eq_nil_of_length_eq_zero ((hsamples i).trans hnone)
    refine ⟨h.fits, fun i ↦ ?_, hlength, ?_⟩
    · rw [hnil, List.append_nil]
      exact h.stream_eq i
    · rw [hnone]
      exact h.left
  · obtain ⟨hdrop, hleft, hkept⟩ := h.fits.drop
    obtain ⟨hreserve, hlenIn, hroom, hsame⟩ := hdrop.reserve c.wavLen
    obtain ⟨hfits, hcontent⟩ := hreserve.append micIds (by rw [hlenIn]; exact hroom)
    have hpassed : ((v.drop.reserve c.wavLen).append micIds c).passed = v.passed := by
      rw [append, ZVt.reserve, ZVt.drop]
      split_ifs <;> rfl
    refine ⟨⟨hfits.length_eq, hfits.lenIn_le⟩, fun i ↦ ?_, hlength, ?_⟩
    · have hbatches : ((v.drop.reserve c.wavLen).append micIds c).batches i =
          (((v.drop.reserve c.wavLen).append micIds c).content i).take
            ((((v.drop.reserve c.wavLen).append micIds c).content i).length / batchSize *
              batchSize) := by
        rw [hfits.length_content, batches, content, List.take_take,
          min_eq_left (Nat.div_mul_le_self _ _)]
      have hold := h.stream_eq i
      generalize (v.drop.reserve c.wavLen).append micIds c = w at *
      calc
        ((w.passed ++ [w.batches]).map (· i)).flatten ++ leftover batchSize (w.content i) =
            v.passedOf i ++ (w.batches i ++ leftover batchSize (w.content i)) := by
          rw [hpassed, List.map_append, List.flatten_append, List.map_singleton,
            List.flatten_singleton, List.append_assoc, passedOf]
        _ = v.passedOf i ++ w.content i := by rw [hbatches, take_append_leftover]
        _ = stream i ++ c.samples (micIds i) := by
          rw [hcontent, hsame, hkept, ← List.append_assoc, hold]
    · calc
        ((v.drop.reserve c.wavLen).lenIn + c.wavLen) % batchSize =
            (v.lenIn % batchSize + c.wavLen) % batchSize := by rw [hlenIn, hleft]
        _ = (length + c.wavLen) % batchSize := by rw [h.left, Nat.mod_add_mod]

/-- The stream of a selected channel. -/
def stream (micIds : Fin micNum → ℕ) (calls : List (VtCall F)) (i : Fin micNum) : List F :=
  calls.flatMap fun c ↦ c.samples (micIds i)

theorem inv_run (E : VtEngine σ F micNum) (micIds : Fin micNum → ℕ) (engine : σ)
    (calls : List (VtCall F)) :
    (run (fun v c ↦ (process E micIds v c).1) (create engine) calls).Inv (stream micIds calls)
      (calls.map VtCall.wavLen).sum := by
  induction calls using List.reverseRecOn with
  | nil => exact create_inv engine
  | append_singleton calls c ih =>
      have hstep := ih.process E micIds c
      have hstream : stream micIds (calls ++ [c]) =
          fun i ↦ stream micIds calls i ++ c.samples (micIds i) := by
        funext i
        simp [stream]
      rw [run_append, run_cons, run_nil, hstream, List.map_append, List.sum_append,
        List.map_singleton, List.sum_singleton]
      exact hstep

/-- **The batches are the stream.**  For any split of the stream into calls the engine has been given
the longest beginning that is made up of whole batches, and `GetLeftPos` is the length of the rest. -/
theorem passed_run (E : VtEngine σ F micNum) (micIds : Fin micNum → ℕ) (engine : σ)
    (calls : List (VtCall F)) :
    (∀ i, (run (fun v c ↦ (process E micIds v c).1) (create engine) calls).passedOf i =
        (stream micIds calls i).take
          ((stream micIds calls i).length / batchSize * batchSize)) ∧
      (run (fun v c ↦ (process E micIds v c).1) (create engine) calls).getLeftPos =
        (calls.map VtCall.wavLen).sum % batchSize ∧
      ∀ i, (stream micIds calls i).length = (calls.map VtCall.wavLen).sum := by
  have hinv := inv_run (F := F) E micIds engine calls
  generalize run (fun v c ↦ (process E micIds v c).1) (create engine) calls = v at hinv
  refine ⟨fun i ↦ ?_, hinv.left, hinv.length_eq⟩
  have hleft : (leftover batchSize (v.content i)).length =
      (stream micIds calls i).length % batchSize := by
    rw [leftover_length, hinv.fits.length_content, hinv.left, hinv.length_eq]
  have hlen := congrArg List.length (hinv.stream_eq i)
  have hdiv := Nat.div_add_mod' (stream micIds calls i).length batchSize
  rw [List.length_append] at hlen
  have hcount : (stream micIds calls i).length / batchSize * batchSize = (v.passedOf i).length := by
    omega
  rw [hcount, ← hinv.stream_eq i, List.take_left]

end ZVt

end Vsys.Vbv
