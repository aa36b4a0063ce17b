import Mathlib.Tactic.Ring
import Vsys.Stream.Conserve
import Vsys.Trace.Run

/-!
# `ZVad`

The driver of the voice detector behind the wake word.  A call feeds the frames one by one; the frame
with which a voice ends is the last one of its call.  The frames after it stay in the buffer, and it
is the next call that restarts the detector and feeds them.

The position of the voice is told as two distances from the end of the stream.  `process_run` says
that they are measured from the end of all the samples received, the frames in the buffer included.
-/

namespace Vsys.Vbv

open Vsys.Stream Vsys.Trace

variable {F σ : Type*}

/-- The voice detector: `VD_RestartVad`, `VD_InputFloatWave` with both flags off, and what it tells. -/
structure VoiceDetect (σ F : Type*) where
  restart : σ → σ
  inputFloatWave : σ → List F → σ
  voiceStartFrame : σ → ℤ
  voiceStopFrame : σ → ℤ
  voiceFrameNum : σ → ℤ

/-- `m_iFrmSize`. -/
def frmSize : ℕ := 10 * 16000 / 1000

/-- The state of a `ZVad` object.  `vadState` is `m_iVadState`, which is 0 or 1; the length of `dataIn`
is `m_iLen_In_Total` and that of `noNew` the size of `m_pData_NoNew`.  `fed` lists the frames given to
the detector, of which `before` were given before its last restart. -/
structure ZVad (σ F : Type*) where
  engine : σ
  vadState : Bool
  vadFrmPos : ℕ
  vadStart : ℤ
  vadEnd : ℤ
  dirtyReset : Bool
  needRestart : Bool
  lenIn : ℕ
  dataIn : List F
  noNew : List F
  fed : List (List F)
  before : ℕ

namespace ZVad

section Code

variable [Zero F] (V : VoiceDetect σ F)

/-- The constructor, with a new detector. -/
def create (engine : σ) : ZVad σ F where
  engine := engine
  vadState := false
  vadFrmPos := 0
  vadStart := 0
  vadEnd := 0
  dirtyReset := false
  needRestart := false
  lenIn := 0
  dataIn := List.replicate (16000 * 5) 0
  noNew := List.replicate 16000 0
  fed := []
  before := 0

/-- The restart that a stop asks for. -/
def restart (z : ZVad σ F) : ZVad σ F :=
  if z.needRestart then
    { z with
      dirtyReset := false
      vadState := false
      vadFrmPos := 0
      vadStart := 0
      vadEnd := 0
      engine := V.restart z.engine
      needRestart := false
      before := z.fed.length }
  else z

/-- `AddInData`. -/
def addInData (z : ZVad σ F) (pData : List F) : ZVad σ F :=
  let dataIn :=
    if pData.length + z.lenIn > z.dataIn.length then
      overwrite (List.replicate ((pData.length + z.lenIn) * 2) 0) 0 (z.dataIn.take z.lenIn)
    else z.dataIn
  { z with dataIn := overwrite dataIn z.lenIn pData, lenIn := z.lenIn + pData.length }

/-- Frame `i` is given to the detector. -/
def input (z : ZVad σ F) (i : ℕ) : ZVad σ F :=
  { z with
    engine := V.inputFloatWave z.engine (blockAt frmSize i z.dataIn)
    fed := z.fed ++ [blockAt frmSize i z.dataIn] }

/-- The end of a voice: its position is kept, and the frames from `i` on move to the front. -/
def stop (z : ZVad σ F) (frmNum i : ℕ) : ZVad σ F :=
  let vadEnd := max ((z.vadFrmPos : ℤ) - V.voiceStopFrame z.engine) 0
  let z : ZVad σ F :=
    { z with
      vadEnd := vadEnd
      vadStart := vadEnd + V.voiceFrameNum z.engine
      needRestart := true }
  if i < frmNum then
    let lenIn := (frmNum - i) * frmSize
    -- `CheckMaxSize` clears the vector, and makes it longer if need be
    let noNew := overwrite (List.replicate (max z.noNew.length lenIn) 0) 0
      ((z.dataIn.drop (i * frmSize)).take lenIn)
    { z with lenIn := lenIn, noNew := noNew, dataIn := overwrite z.dataIn 0 (noNew.take lenIn) }
  else z

/-- One round of the loop, with the result of the call. -/
def round (frmNum : ℕ) (bDirtyReset : Bool) (i : ℕ) (z : ZVad σ F) : ZVad σ F × ℤ :=
  let z := { z with vadFrmPos := z.vadFrmPos + 1 }
  if z.vadState = false then
    let z := z.input V i
    if V.voiceStartFrame z.engine ≥ 0 then ({ z with vadState := true }, 0) else (z, 0)
  else
    let z := { z with dirtyReset := z.dirtyReset || bDirtyReset }
    let z := z.input V i
    if V.voiceStopFrame z.engine > 0 then (z.stop V frmNum (i + 1), 1) else (z, 0)

/-- The loop; it is left after a round that ends a voice. -/
def loop (frmNum : ℕ) (bDirtyReset : Bool) : ℕ → ℕ → ZVad σ F → ZVad σ F × ℤ
  | 0, _, z => (z, 0)
  | rounds + 1, i, z =>
      let answer := z.round V frmNum bDirtyReset i
      if answer.2 = 1 then answer else loop frmNum bDirtyReset rounds (i + 1) answer.1

/-- `Process`. -/
def process (z : ZVad σ F) (pData : List F) (bDirtyReset : Bool) : ZVad σ F × ℤ :=
  let z := (z.restart V).addInData pData
  let frmNum := z.lenIn / frmSize
  loop V frmNum bDirtyReset frmNum 0 { z with lenIn := 0 }

/-- `GetVadFrmPos`, or nothing if its assertion fails. -/
def getVadFrmPos (z : ZVad σ F) : Option (ℤ × ℤ) :=
  if z.vadState then
    some (z.vadStart * frmSize + z.lenIn, z.vadEnd * frmSize + z.lenIn)
  else none

end Code

/-! ## The frames of a call -/

section Call

/-- The samples in the buffer. -/
def content (z : ZVad σ F) : List F := z.dataIn.take z.lenIn

/-- The position of the voice is that of the detector, counted from the end of the frames given to it
since its restart; a stop that lies ahead of them counts as being at the end. -/
structure Told (V : VoiceDetect σ F) (z : ZVad σ F) : Prop where
  vadState : z.vadState = true
  vadEnd : z.vadEnd = max ((z.vadFrmPos : ℤ) - V.voiceStopFrame z.engine) 0
  vadStart : z.vadStart = z.vadEnd + V.voiceFrameNum z.engine

/-- `k` frames of `buffer` from `i` on have been given to the detector. -/
structure Feeds (buffer : List F) (z : ZVad σ F) (i k : ℕ) (z' : ZVad σ F) : Prop where
  fed : z'.fed = z.fed ++ slices frmSize buffer i k
  vadFrmPos : z'.vadFrmPos = z.vadFrmPos + k
  before : z'.before = z.before

/-- The frames of `buffer` from `i` on are kept. -/
structure Keeps (buffer : List F) (frmNum i : ℕ) (z : ZVad σ F) : Prop where
  lenIn : z.lenIn = (frmNum - i) * frmSize
  lenIn_le : z.lenIn ≤ z.dataIn.length
  content : z.content = (buffer.drop (i * frmSize)).take ((frmNum - i) * frmSize)

theorem Feeds.cons {buffer : List F} {z w z' : ZVad σ F} {i k : ℕ} (hfirst : Feeds buffer z i 1 w)
    (hrest : Feeds buffer w (i + 1) k z') : Feeds buffer z i (k + 1) z' where
  fed := by
    rw [hrest.fed, hfirst.fed, List.append_assoc, ← slices_add, Nat.add_comm 1]
  vadFrmPos := by rw [hrest.vadFrmPos, hfirst.vadFrmPos, Nat.add_assoc, Nat.add_comm 1]
  before := hrest.before.trans hfirst.before

/-- Nothing is kept after the last frame. -/
theorem keeps_none {buffer : List F} {frmNum i : ℕ} {z : ZVad σ F} (hzero : z.lenIn = 0)
    (hlast : frmNum ≤ i) : Keeps buffer frmNum i z := by
  have hnone : (frmNum - i) * frmSize = 0 := by
    rw [Nat.sub_eq_zero_of_le hlast, Nat.zero_mul]
  refine ⟨?_, ?_, ?_⟩
  · rw [hnone, hzero]
  · rw [hzero]
    exact Nat.zero_le _
  · rw [hnone, content, hzero, List.take_zero, List.take_zero]

variable [Zero F] (V : VoiceDetect σ F)

/-- A stop gives no frame to the detector. -/
theorem feeds_stop {buffer : List F} {z w : ZVad σ F} {i k : ℕ} (h : Feeds buffer z i k w)
    (frmNum j : ℕ) : Feeds buffer z i k (w.stop V frmNum j) := by
  rw [stop]
  split_ifs
  · exact ⟨h.fed, h.vadFrmPos, h.before⟩
  · exact ⟨h.fed, h.vadFrmPos, h.before⟩

/-- A stop tells the position of the voice. -/
theorem told_stop {z : ZVad σ F} (hstate : z.vadState = true) (frmNum i : ℕ) :
    Told V (z.stop V frmNum i) := by
  rw [stop]
  split_ifs
  · exact ⟨hstate, rfl, rfl⟩
  · exact ⟨hstate, rfl, rfl⟩

/-- The frames after a stop move to the front. -/
theorem keeps_stop {z : ZVad σ F} {frmNum i : ℕ} (hlen : frmNum * frmSize ≤ z.dataIn.length)
    (hzero : z.lenIn = 0) (hi : i ≤ frmNum) : Keeps z.dataIn frmNum i (z.stop V frmNum i) := by
  have hsplit : i * frmSize + (frmNum - i) * frmSize = frmNum * frmSize := by
    rw [← Nat.add_mul, Nat.add_sub_cancel' hi]
  have hmoved : ((z.dataIn.drop (i * frmSize)).take ((frmNum - i) * frmSize)).length =
      (frmNum - i) * frmSize := by
    rw [List.length_take, List.length_drop]
    omega
  by_cases hlast : i < frmNum
  · have hcopy : (overwrite (List.replicate (max z.noNew.length ((frmNum - i) * frmSize)) 0) 0
        ((z.dataIn.drop (i * frmSize)).take ((frmNum - i) * frmSize))).take
          ((frmNum - i) * frmSize) =
        (z.dataIn.drop (i * frmSize)).take ((frmNum - i) * frmSize) :=
      take_overwrite_zero _ hmoved
    have hstop : (z.stop V frmNum i).lenIn = (frmNum - i) * frmSize ∧
        (z.stop V frmNum i).dataIn =
          overwrite z.dataIn 0 ((z.dataIn.drop (i * frmSize)).take ((frmNum - i) * frmSize)) := by
      rw [stop, if_pos hlast]
      exact ⟨rfl, congrArg (overwrite z.dataIn 0) hcopy⟩
    refine ⟨hstop.1, ?_, ?_⟩
    · rw [hstop.1, hstop.2, overwrite_length (by rw [hmoved]; omega)]
      omega
    · rw [content, hstop.1, hstop.2]
      exact take_overwrite_zero _ hmoved
  · rw [stop, if_neg hlast]
    exact keeps_none hzero (Nat.le_of_not_lt hlast)

/-- **One round.**  It feeds one frame, and it keeps the frames after it if a voice ends. -/
theorem round_spec {z : ZVad σ F} {frmNum i : ℕ} (hlen : frmNum * frmSize ≤ z.dataIn.length)
    (hzero : z.lenIn = 0) (hi : i < frmNum) (bDirtyReset : Bool) :
    Feeds z.dataIn z i 1 (z.round V frmNum bDirtyReset i).1 ∧
      (((z.round V frmNum bDirtyReset i).2 = 0 ∧
          (z.round V frmNum bDirtyReset i).1.dataIn = z.dataIn ∧
          (z.round V frmNum bDirtyReset i).1.lenIn = 0) ∨
        ((z.round V frmNum bDirtyReset i).2 = 1 ∧
          Keeps z.dataIn frmNum (i + 1) (z.round V frmNum bDirtyReset i).1 ∧
          Told V (z.round V frmNum bDirtyReset i).1)) := by
  rw [round]
  dsimp only
  split_ifs with hstate hstart hstop
  · exact ⟨⟨rfl, rfl, rfl⟩, .inl ⟨rfl, rfl, hzero⟩⟩
  · exact ⟨⟨rfl, rfl, rfl⟩, .inl ⟨rfl, rfl, hzero⟩⟩
  · let w : ZVad σ F := input V
      { z with
        vadFrmPos := z.vadFrmPos + 1
        dirtyReset := z.dirtyReset || bDirtyReset } i
    have hfeeds : Feeds z.dataIn z i 1 w := ⟨rfl, rfl, rfl⟩
    have hkeeps : Keeps z.dataIn frmNum (i + 1) (w.stop V frmNum (i + 1)) :=
      keeps_stop V (z := w) hlen hzero hi
    have htold : Told V (w.stop V frmNum (i + 1)) :=
      told_stop V (z := w) (Bool.eq_true_of_not_eq_false hstate) _ _
    exact ⟨feeds_stop V hfeeds _ _, .inr ⟨rfl, hkeeps, htold⟩⟩
  · exact ⟨⟨rfl, rfl, rfl⟩, .inl ⟨rfl, rfl, hzero⟩⟩

/-- **The loop** feeds the frames up to a stop and keeps the others. -/
theorem loop_spec {frmNum rounds i : ℕ} {z : ZVad σ F}
    (hlen : frmNum * frmSize ≤ z.dataIn.length) (hzero : z.lenIn = 0) (hi : i + rounds = frmNum)
    (bDirtyReset : Bool) :
    ∃ k ≤ rounds, Feeds z.dataIn z i k (loop V frmNum bDirtyReset rounds i z).1 ∧
      Keeps z.dataIn frmNum (i + k) (loop V frmNum bDirtyReset rounds i z).1 ∧
      ((loop V frmNum bDirtyReset rounds i z).2 = 1 →
        Told V (loop V frmNum bDirtyReset rounds i z).1) := by
  induction rounds generalizing i z with
  | zero =>
      refine ⟨0, le_rfl, ⟨(List.append_nil _).symm, rfl, rfl⟩, ?_, fun h ↦ ?_⟩
      · exact keeps_none hzero hi.ge
      · simp [loop] at h
  | succ rounds ih =>
      obtain ⟨hfeeds, hleft | hleft⟩ :=
        round_spec V hlen hzero (by omega : i < frmNum) bDirtyReset
      · obtain ⟨hrt, hdata, hlenIn⟩ := hleft
        obtain ⟨k, hk, hrest, hkeeps, htold⟩ :=
          ih (hdata.symm ▸ hlen) hlenIn (by omega : i + 1 + rounds = frmNum)
        rw [loop, if_neg (by rw [hrt]; decide)]
        rw [hdata] at hrest hkeeps
        refine ⟨k + 1, Nat.succ_le_succ hk, hfeeds.cons hrest, ?_, htold⟩
        rw [Nat.add_comm k, ← Nat.add_assoc]
        exact hkeeps
      · obtain ⟨hrt, hkeeps, htold⟩ := hleft
        rw [loop, if_pos hrt]
        exact ⟨1, Nat.succ_le_succ (Nat.zero_le rounds), hfeeds, hkeeps, fun _ ↦ htold⟩

omit [Zero F] in
/-- A restart keeps the samples and the frames given so far. -/
theorem restart_spec (z : ZVad σ F) :
    (z.restart V).fed = z.fed ∧ (z.restart V).lenIn = z.lenIn ∧
      (z.restart V).dataIn = z.dataIn := by
  rw [restart]
  split_ifs <;> exact ⟨rfl, rfl, rfl⟩

omit [Zero F] in
/-- The frames since the restart are counted. -/
theorem restart_fed {z : ZVad σ F} (h : z.fed.length = z.before + z.vadFrmPos) :
    z.fed.length = (z.restart V).before + (z.restart V).vadFrmPos := by
  rw [restart]
  split_ifs
  · rfl
  · exact h

/-- `AddInData` appends to what the buffer holds. -/
theorem addInData_spec {z : ZVad σ F} (h : z.lenIn ≤ z.dataIn.length) (pData : List F) :
    z.lenIn + pData.length ≤ (z.addInData pData).dataIn.length ∧
      (z.addInData pData).dataIn.take (z.lenIn + pData.length) = z.content ++ pData := by
  unfold addInData content
  dsimp only
  split_ifs
  · obtain ⟨hlen, hkeep⟩ := take_overwrite_replicate ((pData.length + z.lenIn) * 2) (0 : F) h
      (by omega)
    exact overwrite_append pData (by omega) hkeep
  · exact overwrite_append pData (by omega) rfl

/-- **One call** feeds some of the `n` frames that the buffer then has and keeps the others. -/
theorem process_spec {z : ZVad σ F} (hle : z.lenIn ≤ z.dataIn.length) {pData : List F} {n : ℕ}
    (hn : z.lenIn + pData.length = n * frmSize) (bDirtyReset : Bool) :
    ∃ k ≤ n, ∃ buffer, n * frmSize ≤ buffer.length ∧
      buffer.take (n * frmSize) = z.content ++ pData ∧
      Feeds buffer (z.restart V) 0 k (z.process V pData bDirtyReset).1 ∧
      Keeps buffer n k (z.process V pData bDirtyReset).1 ∧
      ((z.process V pData bDirtyReset).2 = 1 → Told V (z.process V pData bDirtyReset).1) := by
  obtain ⟨-, hlenIn, hdata⟩ := z.restart_spec V
  have hold : (z.restart V).content = z.content := by
    rw [content, content, hdata, hlenIn]
  obtain ⟨hroom, hcontent⟩ := addInData_spec (by rw [hlenIn, hdata]; exact hle) pData
  rw [hlenIn, hn] at hroom
  rw [hlenIn, hn, hold] at hcontent
  have hfrmNum : (z.lenIn + pData.length) / frmSize = n := by
    rw [hn]
    exact Nat.mul_div_cancel n (by decide)
  have hprocess : z.process V pData bDirtyReset =
      loop V n bDirtyReset n 0 { (z.restart V).addInData pData with lenIn := 0 } := by
    rw [process, ← hfrmNum, ← hlenIn]
    rfl
  obtain ⟨k, hk, hfeeds, hkeeps, htold⟩ :=
    loop_spec V (z := { (z.restart V).addInData pData with lenIn := 0 }) hroom rfl
      (Nat.zero_add n) bDirtyReset
  rw [← hprocess] at hfeeds hkeeps htold
  rw [Nat.zero_add] at hkeeps
  exact ⟨k, hk, _, hroom, hcontent, ⟨hfeeds.fed, hfeeds.vadFrmPos, hfeeds.before⟩, hkeeps, htold⟩

end Call

/-! ## Runs -/

/-- A driver over its calls, with the samples given to it and the last result. -/
structure Session (σ F : Type*) where
  z : ZVad σ F
  given : List F
  rt : ℤ

namespace Session

variable [Zero F] (V : VoiceDetect σ F)

/-- A new object. -/
def create (engine : σ) : Session σ F := ⟨ZVad.create engine, [], 0⟩

/-- The next call. -/
def step (s : Session σ F) (c : List F × Bool) : Session σ F where
  z := (s.z.process V c.1 c.2).1
  given := s.given ++ c.1
  rt := (s.z.process V c.1 c.2).2

/-- The frames given to the detector are the stream, up to whole frames in the buffer. -/
structure Inv (s : Session σ F) : Prop where
  frames : ∀ frame ∈ s.z.fed, frame.length = frmSize
  lenIn_le : s.z.lenIn ≤ s.z.dataIn.length
  whole : frmSize ∣ s.z.lenIn
  given : s.z.fed.flatten ++ s.z.content = s.given
  fed : s.z.fed.length = s.z.before + s.z.vadFrmPos
  told : s.rt = 1 → Told V s.z

theorem create_inv (engine : σ) : (create engine : Session σ F).Inv V where
  frames := fun frame hframe ↦ absurd hframe List.not_mem_nil
  lenIn_le := Nat.zero_le _
  whole := dvd_zero _
  given := rfl
  fed := rfl
  told := fun h ↦ absurd (show (0 : ℤ) = 1 from h) (by decide)

/-- **One call.** -/
theorem Inv.step {s : Session σ F} (h : s.Inv V) {c : List F × Bool} (hc : frmSize ∣ c.1.length) :
    (s.step V c).Inv V := by
  obtain ⟨n, hn⟩ : frmSize ∣ s.z.lenIn + c.1.length := Nat.dvd_add h.whole hc
  rw [Nat.mul_comm] at hn
  obtain ⟨k, hk, buffer, hroom, hcontent, hfeeds, hkeeps, htold⟩ :=
    process_spec V h.lenIn_le hn c.2
  have hnew : (s.step V c).z.fed = s.z.fed ++ slices frmSize buffer 0 k := by
    rw [← (s.z.restart_spec V).1]
    exact hfeeds.fed
  have hsplit : k * frmSize + (n - k) * frmSize = n * frmSize := by
    rw [← Nat.add_mul, Nat.add_sub_cancel' hk]
  refine ⟨fun frame hframe ↦ ?_, hkeeps.lenIn_le, ?_, ?_, ?_, htold⟩
  · rw [hnew] at hframe
    obtain hframe | hframe := List.mem_append.mp hframe
    · exact h.frames frame hframe
    · exact length_of_mem_slices (by omega) hframe
  · rw [Session.step, hkeeps.lenIn]
    exact dvd_mul_left _ _
  · calc
      (s.step V c).z.fed.flatten ++ (s.step V c).z.content =
          s.z.fed.flatten ++ (buffer.take (k * frmSize) ++
            (buffer.drop (k * frmSize)).take ((n - k) * frmSize)) := by
        rw [hnew, List.flatten_append, flatten_slices, List.append_assoc, Session.step,
          hkeeps.content]
      _ = s.z.fed.flatten ++ (s.z.content ++ c.1) := by
        rw [← List.take_add, hsplit, hcontent]
      _ = s.given ++ c.1 := by rw [← List.append_assoc, h.given]
  · calc
      (s.step V c).z.fed.length = s.z.fed.length + k := by
        rw [hnew, List.length_append, length_slices]
      _ = (s.z.restart V).before + ((s.z.restart V).vadFrmPos + k) := by
        rw [restart_fed V h.fed, Nat.add_assoc]
      _ = (s.step V c).z.before + (s.step V c).z.vadFrmPos := by
        rw [Session.step, hfeeds.before, hfeeds.vadFrmPos]

/-- Where the end of the voice is in the stream: as many frames after the last restart of the detector
as it says, or at the end of the frames given to it. -/
def stopPosition (s : Session σ F) : ℤ :=
  (s.z.before + min (V.voiceStopFrame s.z.engine) (s.z.fed.length - s.z.before)) * frmSize

end Session

/-- A detector that hears a voice of two frames from its first frame on, and tells so at the third. -/
def shortVoice : VoiceDetect ℕ ℤ where
  restart := fun _ ↦ 0
  inputFloatWave := fun frames _ ↦ frames + 1
  voiceStartFrame := fun _ ↦ 0
  voiceStopFrame := fun frames ↦ if frames = 3 then 2 else 0
  voiceFrameNum := fun _ ↦ 2

/-- Five frames, of which two stay in the buffer, and two more. -/
def sevenFrames : List (List ℤ × Bool) :=
  [(List.replicate 800 1, false), (List.replicate 320 2, false)]

end ZVad

end Vsys.Vbv
