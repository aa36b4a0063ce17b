import Vsys.Audio.Vad
import Vsys.Stream.Conserve
import Vsys.Trace.Run

/-!
# The stream that reaches the voice detector

Both drivers keep the samples that do not make up a frame for the next call.  They also keep whole
frames when a voice ends before the last of them, and there they go wrong: `check_voice_activity`
moves the rest from `i * num_frames` instead of `i * frame_size`, and `r2mem_vad2::process` moves it
a second time, from behind the last frame, and counts it without the incomplete frame.

`VadSession` and `Vad2Session` follow a driver over its calls, with the samples given to it.  As long
as no call comes to such a move, the detector is given the stream (`VadSession.aligned_lossless`,
`Vad2Session.unbroken_lossless`).
-/

namespace Vsys.Audio

open Vsys.Stream Vsys.Trace

/-! ## When a voice ends -/

/-- Voice is on before frame `i`. -/
def heard (hasVad : Bool) (answers : ℕ → VadAnswer) (i : ℕ) : Bool :=
  hasVad || (List.range i).any fun j ↦ decide ((answers j).voiceStartFrame ≥ 0)

/-- A voice ends with frame `i`. -/
def stopsAt (hasVad : Bool) (answers : ℕ → VadAnswer) (i : ℕ) : Bool :=
  heard hasVad answers i && decide ((answers i).voiceStopFrame > 0)

/-- No voice ends before the last of `n` frames. -/
def NoEarlyStop (hasVad : Bool) (answers : ℕ → VadAnswer) (n : ℕ) : Prop :=
  ∀ i < n - 1, stopsAt hasVad answers i = false

instance (hasVad : Bool) (answers : ℕ → VadAnswer) (n : ℕ) :
    Decidable (NoEarlyStop hasVad answers n) :=
  inferInstanceAs (Decidable (∀ i < n - 1, _))

theorem heard_succ (hasVad : Bool) (answers : ℕ → VadAnswer) (i : ℕ) :
    heard hasVad answers (i + 1) =
      (heard hasVad answers i || decide ((answers i).voiceStartFrame ≥ 0)) := by
  simp [heard, List.range_succ, Bool.or_assoc]

/-! ## `check_voice_activity` -/

namespace VadLoop

variable {answers : ℕ → VadAnswer}

/-- The detector has been given the next `k` frames, and the buffer is as it was. -/
structure Feeds (l l' : VadLoop) (k : ℕ) : Prop where
  i : l'.i = l.i + k
  fed : l'.front.fed = l.front.fed ++ slices frameSize l.front.vadInput l.i k
  vadInput : l'.front.vadInput = l.front.vadInput
  vadInputOffset : l'.front.vadInputOffset = l.front.vadInputOffset

theorem Feeds.refl (l : VadLoop) : l.Feeds l 0 where
  i := rfl
  fed := (List.append_nil _).symm
  vadInput := rfl
  vadInputOffset := rfl

theorem Feeds.cons {l m l' : VadLoop} {k : ℕ} (hfirst : l.Feeds m 1) (hrest : m.Feeds l' k) :
    l.Feeds l' (k + 1) where
  i := by rw [hrest.i, hfirst.i, Nat.add_assoc, Nat.add_comm 1]
  fed := by
    rw [hrest.fed, hfirst.fed, hfirst.i, hfirst.vadInput, List.append_assoc, slices_succ,
      slices_succ]
    rfl
  vadInput := hrest.vadInput.trans hfirst.vadInput
  vadInputOffset := hrest.vadInputOffset.trans hfirst.vadInputOffset

/-- A round feeds one frame. -/
theorem feeds_round (answer : VadAnswer) (l : VadLoop) : l.Feeds (l.round answer) 1 := by
  have hinput : l.Feeds l.input 1 := by
    unfold input
    dsimp only
    split_ifs <;> exact ⟨rfl, rfl, rfl, rfl⟩
  have hjudge : ∀ {m : VadLoop}, l.Feeds m 1 → l.Feeds (m.judge answer) 1 := by
    intro m hm
    unfold judge
    split_ifs <;> exact ⟨hm.i, hm.fed, hm.vadInput, hm.vadInputOffset⟩
  have hcollect : ∀ {m : VadLoop}, l.Feeds m 1 → l.Feeds (m.collect answer) 1 := by
    intro m hm
    unfold collect
    dsimp only
    split_ifs <;> exact ⟨hm.i, hm.fed, hm.vadInput, hm.vadInputOffset⟩
  exact hcollect (hjudge hinput)

/-- The loop feeds some of the frames. -/
theorem feeds_loop (answers : ℕ → VadAnswer) (rounds : ℕ) (l : VadLoop) :
    ∃ k ≤ rounds, l.Feeds (l.loop answers rounds) k := by
  induction rounds generalizing l with
  | zero => exact ⟨0, le_rfl, Feeds.refl l⟩
  | succ rounds ih =>
      have hround := feeds_round (answers l.i) l
      unfold VadLoop.loop
      dsimp only
      split_ifs
      · exact ⟨1, Nat.succ_le_succ (Nat.zero_le rounds), hround⟩
      · obtain ⟨k, hk, hrest⟩ := ih (l.round (answers l.i))
        exact ⟨k + 1, Nat.succ_le_succ hk, hround.cons hrest⟩

/-- Without an early stop the loop feeds all frames. -/
theorem feeds_loop_of_noEarlyStop {hasVad : Bool} {n rounds : ℕ}
    (hstop : NoEarlyStop hasVad answers n) {l : VadLoop} (hn : l.i + rounds = n)
    (hoff : l.off = false) (hvad : l.front.hasVad = heard hasVad answers l.i) :
    l.Feeds (l.loop answers rounds) rounds := by
  induction rounds generalizing l with
  | zero => exact Feeds.refl l
  | succ rounds ih =>
      have hround := feeds_round (answers l.i) l
      obtain ⟨-, hoff', hvad'⟩ := round_bits (answers l.i) l hoff
      unfold VadLoop.loop
      dsimp only
      split_ifs with hleft
      · have hzero : rounds = 0 := by
          by_contra hne
          have hquiet := hstop l.i (by omega)
          rw [hoff', hvad] at hleft
          exact Bool.false_ne_true (hquiet.symm.trans hleft)
        subst hzero
        exact hround
      · refine hround.cons (ih ?_ (by simpa using hleft) ?_)
        · rw [hround.i]
          omega
        · have hgoes : (l.front.hasVad && decide ((answers l.i).voiceStopFrame > 0)) = false := by
            rw [← hoff']
            simpa using hleft
          rw [hvad', hgoes, hround.i, heard_succ, hvad, Bool.not_false, Bool.and_true]

end VadLoop

/-- `write_to_buffer` appends to what the buffer holds. -/
theorem writeToBuffer_spec {buffer : List ℚ} {offset : ℕ} (h : offset ≤ buffer.length)
    (data : List ℚ) :
    (writeToBuffer buffer offset data).2 = offset + data.length ∧
      offset + data.length ≤ (writeToBuffer buffer offset data).1.length ∧
      (writeToBuffer buffer offset data).1.take (offset + data.length) =
        buffer.take offset ++ data := by
  have hfront : (buffer.take offset).length = offset := by
    rw [List.length_take]
    exact min_eq_left h
  rw [writeToBuffer]
  split_ifs with hnil hgrow
  · obtain rfl := List.eq_nil_of_length_eq_zero hnil
    exact ⟨rfl, h, (List.append_nil _).symm⟩
  · have hboth : (buffer.take offset ++ data).length = offset + data.length := by
      rw [List.length_append, hfront]
    exact ⟨rfl, hboth.ge, List.take_of_length_le hboth.le⟩
  · refine ⟨rfl, ?_, take_overwrite h data rfl⟩
    rw [overwrite_length (by omega)]
    omega

/-- What a call does: `k` of its frames are fed, and the rest is moved to the front. -/
structure CheckSpec (answers : ℕ → VadAnswer) (front front' : VadFront) (input : List ℚ)
    (n k : ℕ) (buffer : List ℚ) : Prop where
  whole : n * frameSize ≤ front.vadInputOffset + input.length
  le : k ≤ n
  all : NoEarlyStop front.hasVad answers n → k = n
  length_le : front.vadInputOffset + input.length ≤ buffer.length
  take_eq : buffer.take (front.vadInputOffset + input.length) =
    front.vadInput.take front.vadInputOffset ++ input
  fed : front'.fed = front.fed ++ slices frameSize buffer 0 k
  vadInputOffset : front'.vadInputOffset = front.vadInputOffset + input.length - k * frameSize
  vadInput : front'.vadInput = overwrite buffer 0
    ((buffer.drop (k * n)).take (front.vadInputOffset + input.length - k * frameSize))

theorem checkVoiceActivity_spec (answers : ℕ → VadAnswer) {front : VadFront}
    (h : front.vadInputOffset ≤ front.vadInput.length) (input : List ℚ) (forceStart : Bool) :
    ∃ k buffer, CheckSpec answers front (checkVoiceActivity answers front input forceStart).1 input
      ((input.length + front.vadInputOffset) / frameSize) k buffer := by
  obtain ⟨hoffset, hlen, htake⟩ := writeToBuffer_spec h input
  let start : VadLoop :=
    { front := { front with
        vadInput := (writeToBuffer front.vadInput front.vadInputOffset input).1
        vadInputOffset := (writeToBuffer front.vadInput front.vadInputOffset input).2 }
      forceStart := forceStart }
  obtain ⟨k, hk, hfeeds⟩ := VadLoop.feeds_loop answers
    ((input.length + front.vadInputOffset) / frameSize) start
  refine ⟨k, (writeToBuffer front.vadInput front.vadInputOffset input).1, ?_, hk, fun hstop ↦ ?_,
    hlen, htake, hfeeds.fed, ?_, ?_⟩
  · rw [Nat.add_comm front.vadInputOffset]
    exact Nat.div_mul_le_self _ _
  · have hall : start.Feeds _ _ :=
      VadLoop.feeds_loop_of_noEarlyStop hstop (Nat.zero_add _) rfl (by simp [start, heard])
    exact Nat.add_left_cancel (hfeeds.i.symm.trans hall.i)
  · calc
      (checkVoiceActivity answers front input forceStart).1.vadInputOffset =
          (VadLoop.loop answers _ start).front.vadInputOffset -
            (VadLoop.loop answers _ start).i * frameSize := rfl
      _ = start.front.vadInputOffset - (start.i + k) * frameSize := by
        rw [hfeeds.vadInputOffset, hfeeds.i]
      _ = front.vadInputOffset + input.length - k * frameSize := by
        rw [show start.front.vadInputOffset = _ from hoffset, show start.i = 0 from rfl,
          Nat.zero_add]
  · calc
      (checkVoiceActivity answers front input forceStart).1.vadInput =
          overwrite (VadLoop.loop answers _ start).front.vadInput 0
            (((VadLoop.loop answers _ start).front.vadInput.drop
              ((VadLoop.loop answers _ start).i * _)).take
                ((VadLoop.loop answers _ start).front.vadInputOffset -
                  (VadLoop.loop answers _ start).i * frameSize)) := rfl
      _ = _ := by
        rw [hfeeds.vadInputOffset, hfeeds.vadInput, hfeeds.i,
          show start.front.vadInputOffset = _ from hoffset, show start.i = 0 from rfl, Nat.zero_add]

/-- A driver over its calls, with the samples given to it. -/
structure VadSession where
  front : VadFront
  given : List ℚ

/-- A call of `check_voice_activity`, with the answers of the detector. -/
structure VadCall where
  answers : ℕ → VadAnswer
  input : List ℚ
  forceStart : Bool

namespace VadSession

/-- A new object. -/
def create : VadSession := ⟨VadFront.create, []⟩

/-- The next call. -/
def step (s : VadSession) (c : VadCall) : VadSession where
  front := (checkVoiceActivity c.answers s.front c.input c.forceStart).1
  given := s.given ++ c.input

/-- The whole frames a call begins with. -/
def numFrames (s : VadSession) (c : VadCall) : ℕ :=
  (c.input.length + s.front.vadInputOffset) / frameSize

/-- Nothing is moved to the front, or `num_frames` happens to be `frame_size`: there is no whole
frame, or as many as a frame has samples, or all the samples make up frames and no voice ends before
the last of them. -/
def Aligned (s : VadSession) (c : VadCall) : Prop :=
  s.numFrames c = 0 ∨ s.numFrames c = frameSize ∨
    ((c.input.length + s.front.vadInputOffset) % frameSize = 0 ∧
      NoEarlyStop s.front.hasVad c.answers (s.numFrames c))

instance (s : VadSession) (c : VadCall) : Decidable (s.Aligned c) :=
  inferInstanceAs (Decidable (_ ∨ _ ∨ (_ ∧ _)))

/-- The frames given to the detector are the stream, up to the samples held back. -/
def Lossless (s : VadSession) : Prop :=
  (∀ frame ∈ s.front.fed, frame.length = frameSize) ∧
    Conserves s.given s.front.fed.flatten s.front.vadInputOffset

instance (s : VadSession) : Decidable s.Lossless := inferInstanceAs (Decidable (_ ∧ _))

/-- What the buffer holds is what the detector has not been given. -/
structure Inv (s : VadSession) : Prop where
  frames : ∀ frame ∈ s.front.fed, frame.length = frameSize
  offset_le : s.front.vadInputOffset ≤ s.front.vadInput.length
  given : s.front.fed.flatten ++ s.front.vadInput.take s.front.vadInputOffset = s.given

theorem create_inv : create.Inv where
  frames := by simp [create, VadFront.create]
  offset_le := Nat.zero_le _
  given := rfl

theorem Inv.lossless {s : VadSession} (h : s.Inv) : s.Lossless := by
  refine ⟨h.frames, conserves_of_append h.given ?_⟩
  rw [List.length_take]
  exact min_eq_left h.offset_le

/-- **One call.** -/
theorem Inv.step {s : VadSession} (h : s.Inv) {c : VadCall} (hc : s.Aligned c) :
    (s.step c).Inv := by
  obtain ⟨k, buffer, hspec⟩ :=
    checkVoiceActivity_spec c.answers h.offset_le c.input c.forceStart
  have hlen := hspec.length_le
  have hle : k * frameSize ≤ s.front.vadInputOffset + c.input.length :=
    (Nat.mul_le_mul_right _ hspec.le).trans hspec.whole
  -- the move is from the right place, or there is nothing to move
  have hplace : k * s.numFrames c = k * frameSize ∨
      s.front.vadInputOffset + c.input.length - k * frameSize = 0 := by
    obtain hnone | hsame | ⟨hmod, hstop⟩ := hc
    · have hk := hspec.le
      rw [← numFrames, hnone] at hk
      obtain rfl := Nat.le_zero.mp hk
      exact .inl (by rw [Nat.zero_mul, Nat.zero_mul])
    · exact .inl (by rw [hsame])
    · have hdiv := Nat.div_add_mod' (c.input.length + s.front.vadInputOffset) frameSize
      rw [hmod, ← hspec.all hstop] at hdiv
      exact .inr (by omega)
  have hrest : (s.step c).front.vadInput.take (s.step c).front.vadInputOffset =
      (buffer.drop (k * frameSize)).take
        (s.front.vadInputOffset + c.input.length - k * frameSize) := by
    rw [VadSession.step, hspec.vadInput, hspec.vadInputOffset, ← numFrames]
    obtain hsrc | hnone := hplace
    · rw [hsrc]
      apply take_overwrite_zero
      rw [List.length_take, List.length_drop]
      omega
    · rw [hnone, List.take_zero, List.take_zero]
  have hfed : (s.step c).front.fed = s.front.fed ++ slices frameSize buffer 0 k := hspec.fed
  refine ⟨fun frame hframe ↦ ?_, ?_, ?_⟩
  · rw [hfed] at hframe
    obtain hold | hnew := List.mem_append.mp hframe
    · exact h.frames frame hold
    · exact length_of_mem_slices (hle.trans hlen) hnew
  · rw [VadSession.step, hspec.vadInput, hspec.vadInputOffset, overwrite, List.length_append,
      List.length_append, List.length_take, List.length_drop, List.length_take, List.length_drop]
    omega
  · calc
      (s.step c).front.fed.flatten ++
            (s.step c).front.vadInput.take (s.step c).front.vadInputOffset =
          s.front.fed.flatten ++ (buffer.take (k * frameSize) ++
            (buffer.drop (k * frameSize)).take
              (s.front.vadInputOffset + c.input.length - k * frameSize)) := by
        rw [hfed, hrest, List.flatten_append, flatten_slices, List.append_assoc]
      _ = s.front.fed.flatten ++ (s.front.vadInput.take s.front.vadInputOffset ++ c.input) := by
        rw [← List.take_add, Nat.add_sub_cancel' hle, hspec.take_eq]
      _ = s.given ++ c.input := by rw [← List.append_assoc, h.given]

/-- **The stream reaches the detector.**  In a run whose calls never come to the wrong move, the
detector is given the stream at every moment, up to the samples held back. -/
theorem aligned_lossless {calls : List VadCall} (hcalls : Along step Aligned create calls) :
    Throughout step Lossless create calls :=
  throughout_of_along (fun _ _ hs hc ↦ hs.step hc) (fun _ hs ↦ hs.lossless) create_inv hcalls

end VadSession

/-- A detector that hears nothing. -/
def silence : ℕ → VadAnswer := fun _ ↦ ⟨-1, 0, 0, []⟩

/-- A detector that hears a voice from the first frame on, which ends with frame `i`. -/
def voiceUntil (i : ℕ) : ℕ → VadAnswer := fun j ↦ ⟨0, if j = i then 1 else 0, j + 1, []⟩

/-- Part of a frame, the rest of it, and two frames with a voice that ends with the second. -/
def alignedCalls : List VadCall :=
  [⟨silence, List.replicate 100 1, false⟩, ⟨silence, List.replicate 60 2, false⟩,
    ⟨voiceUntil 1, List.replicate 320 3, false⟩]

theorem lossless_of_alignedCalls :
    Throughout VadSession.step VadSession.Lossless VadSession.create alignedCalls :=
  VadSession.aligned_lossless (by decide +kernel)

/-- A frame and one sample, and what is missing to the next frame. -/
def overhang : List VadCall :=
  [⟨silence, List.replicate 160 0 ++ [1], false⟩, ⟨silence, List.replicate 159 0, false⟩]

/-- **The wrong move.**  After one frame the sample that is left over is replaced by the second
sample of that frame. -/
theorem not_lossless_of_overhang : ¬ (run VadSession.step VadSession.create overhang).Lossless := by
  decide +kernel

/-! ## `r2mem_vad2` -/

namespace Vad2

namespace Loop

/-- The detector has been given the next `k` frames, and the buffer and the number of samples held
back are as they were. -/
structure Feeds (l l' : Loop) (k : ℕ) : Prop where
  i : l'.i = l.i + k
  fed : l'.v.fed = l.v.fed ++ slices frameSize l.v.dataIn l.i k
  dataIn : l'.v.dataIn = l.v.dataIn
  lenIn : l'.v.lenIn = l.v.lenIn

theorem Feeds.refl (l : Loop) : l.Feeds l 0 where
  i := rfl
  fed := (List.append_nil _).symm
  dataIn := rfl
  lenIn := rfl

theorem Feeds.cons {l m l' : Loop} {k : ℕ} (hfirst : l.Feeds m 1) (hrest : m.Feeds l' k) :
    l.Feeds l' (k + 1) where
  i := by rw [hrest.i, hfirst.i, Nat.add_assoc, Nat.add_comm 1]
  fed := by
    rw [hrest.fed, hfirst.fed, hfirst.i, hfirst.dataIn, List.append_assoc, slices_succ,
      slices_succ]
    rfl
  dataIn := hrest.dataIn.trans hfirst.dataIn
  lenIn := hrest.lenIn.trans hfirst.lenIn

theorem Feeds.collect {l m : Loop} {k : ℕ} (h : l.Feeds m k) (answer : VadAnswer) :
    l.Feeds (m.collect answer) k := by
  unfold Loop.collect
  split_ifs
  · exact ⟨h.i, h.fed, h.dataIn, h.lenIn⟩
  · exact h

/-- A stop after the last frame moves nothing. -/
theorem Feeds.stop {l m : Loop} {k frmNum : ℕ} (h : l.Feeds m k) (hlast : frmNum ≤ m.i) :
    l.Feeds (m.stop frmNum) k := by
  rw [Loop.stop, if_neg (Nat.not_lt.mpr hlast)]
  exact ⟨h.i, h.fed, h.dataIn, h.lenIn⟩

/-- A round that does not end a voice before the last frame. -/
theorem feeds_round {frmNum : ℕ} (forceStart : Bool) (answer : VadAnswer) {l : Loop}
    (hlast : l.v.vadState = true → answer.voiceStopFrame > 0 → frmNum ≤ l.i + 1) :
    l.Feeds (l.round frmNum forceStart answer) 1 := by
  have hinput : l.Feeds l.input 1 := ⟨rfl, rfl, rfl, rfl⟩
  unfold Loop.round
  by_cases hstate : l.v.vadState = false
  · have hforced : l.Feeds
        (if forceStart then { l with v := l.v.setVadEndParam 2000 } else l).input 1 := by
      cases forceStart
      · exact hinput
      · refine ⟨rfl, ?_, ?_, ?_⟩ <;> simp [input, setVadEndParam, slices]
    rw [if_pos hstate]
    dsimp only
    generalize (if forceStart then { l with v := l.v.setVadEndParam 2000 } else l).input = m
      at hforced ⊢
    split_ifs
    · apply Feeds.collect
      exact ⟨hforced.i, hforced.fed, hforced.dataIn, hforced.lenIn⟩
    · exact hforced
  · have hcollect := hinput.collect answer
    rw [if_neg hstate]
    dsimp only
    split_ifs with hstop
    · refine hcollect.stop ?_
      rw [hcollect.i]
      exact hlast (by simpa using hstate) hstop
    · exact hcollect

/-- Without an early stop the loop feeds all frames. -/
theorem feeds_loop {hasVad : Bool} {answers : ℕ → VadAnswer} {frmNum rounds : ℕ}
    (hstop : NoEarlyStop hasVad answers frmNum) (forceStart : Bool) {l : Loop}
    (hn : l.i + rounds = frmNum) (hoff : l.off = false)
    (hvad : l.v.vadState = heard hasVad answers l.i) :
    l.Feeds (l.loop frmNum forceStart answers rounds) rounds := by
  induction rounds generalizing l with
  | zero => exact Feeds.refl l
  | succ rounds ih =>
      have hearly : rounds ≠ 0 →
          (l.v.vadState && decide ((answers l.i).voiceStopFrame > 0)) = false := by
        intro hne
        rw [hvad]
        exact hstop l.i (by omega)
      have hround := @feeds_round frmNum forceStart (answers l.i) l (by
        intro hstate hpos
        by_contra hlt
        have hquiet := hearly (by omega)
        rw [hstate, Bool.true_and, decide_eq_false_iff_not] at hquiet
        exact hquiet hpos)
      obtain ⟨-, hoff', hvad'⟩ := round_bits frmNum forceStart (answers l.i) l hoff
      unfold Loop.loop
      dsimp only
      split_ifs with hleft
      · have hzero : rounds = 0 := by
          by_contra hne
          rw [hoff', hearly hne] at hleft
          exact Bool.false_ne_true hleft
        subst hzero
        exact hround
      · refine hround.cons (ih ?_ (by simpa using hleft) ?_)
        · rw [hround.i]
          omega
        · have hgoes : (l.v.vadState && decide ((answers l.i).voiceStopFrame > 0)) = false := by
            rw [← hoff']
            simpa using hleft
          rw [hvad', hgoes, hround.i, heard_succ, hvad, Bool.not_false, Bool.and_true]

end Loop

/-- `AddInData` appends to what the buffer holds. -/
theorem addInData_spec {v : Vad2} (h : v.lenIn ≤ v.dataIn.length) (data : List ℚ) :
    v.lenIn + data.length ≤ (v.addInData data).dataIn.length ∧
      (v.addInData data).dataIn.take (v.lenIn + data.length) = v.dataIn.take v.lenIn ++ data := by
  unfold addInData
  dsimp only
  split_ifs
  · obtain ⟨hlen, hkeep⟩ := take_overwrite_replicate ((data.length + v.lenIn) * 2) (0 : ℚ) h
      (by omega)
    exact overwrite_append data (by omega) hkeep
  · exact overwrite_append data (by omega) rfl

/-- What a call does that ends no voice before its last frame. -/
structure ProcessSpec (v v' : Vad2) (data : List ℚ) (n : ℕ) (buffer : List ℚ) : Prop where
  whole : n * frameSize ≤ v.lenIn + data.length
  length_le : v.lenIn + data.length ≤ buffer.length
  take_eq : buffer.take (v.lenIn + data.length) = v.dataIn.take v.lenIn ++ data
  fed : v'.fed = v.fed ++ slices frameSize buffer 0 n
  lenIn : v'.lenIn = v.lenIn + data.length - n * frameSize
  dataIn : v'.dataIn =
    if 0 < v'.lenIn ∧ 0 < n then
      overwrite buffer 0 ((buffer.drop (n * frameSize)).take v'.lenIn)
    else buffer

theorem process_spec {answers : ℕ → VadAnswer} {v : Vad2} (h : v.lenIn ≤ v.dataIn.length)
    {data : List ℚ} (forceStart : Bool)
    (hstop : NoEarlyStop v.vadState answers ((data.length + v.lenIn) / frameSize)) :
    ∃ buffer, ProcessSpec v (process answers v data forceStart).1 data
      ((data.length + v.lenIn) / frameSize) buffer := by
  obtain ⟨hlen, htake⟩ := addInData_spec h data
  let n := (data.length + v.lenIn) / frameSize
  let start : Loop :=
    { v := { v.addInData data with lenIn := data.length + v.lenIn - n * frameSize } }
  have hfeeds : start.Feeds (start.loop n forceStart answers n) n :=
    Loop.feeds_loop hstop forceStart (Nat.zero_add n) rfl (by simp [start, heard, addInData])
  have hlenIn : (process answers v data forceStart).1.lenIn =
      v.lenIn + data.length - n * frameSize := by
    calc
      (process answers v data forceStart).1.lenIn =
          (start.loop n forceStart answers n).v.lenIn := rfl
      _ = data.length + v.lenIn - n * frameSize := hfeeds.lenIn
      _ = v.lenIn + data.length - n * frameSize := by rw [Nat.add_comm v.lenIn]
  refine ⟨(v.addInData data).dataIn, ?_, hlen, htake, hfeeds.fed, hlenIn, ?_⟩
  · rw [Nat.add_comm v.lenIn]
    exact Nat.div_mul_le_self _ _
  · calc
      (process answers v data forceStart).1.dataIn =
          if (start.loop n forceStart answers n).v.lenIn > 0 ∧ n > 0 then
            overwrite (start.loop n forceStart answers n).v.dataIn 0
              (((start.loop n forceStart answers n).v.dataIn.drop (frameSize * n)).take
                (start.loop n forceStart answers n).v.lenIn)
          else (start.loop n forceStart answers n).v.dataIn := rfl
      _ = _ := by
        rw [hfeeds.dataIn, Nat.mul_comm frameSize n]
        rfl

end Vad2

/-- A driver over its calls, with the samples given to it. -/
structure Vad2Session where
  v : Vad2
  given : List ℚ

namespace Vad2Session

/-- A new object. -/
def create : Vad2Session := ⟨Vad2.create, []⟩

/-- The next call. -/
def step (s : Vad2Session) (c : VadCall) : Vad2Session where
  v := (Vad2.process c.answers s.v c.input c.forceStart).1
  given := s.given ++ c.input

/-- No voice ends before the last whole frame. -/
def Unbroken (s : Vad2Session) (c : VadCall) : Prop :=
  NoEarlyStop s.v.vadState c.answers ((c.input.length + s.v.lenIn) / frameSize)

instance (s : Vad2Session) (c : VadCall) : Decidable (s.Unbroken c) :=
  inferInstanceAs (Decidable (NoEarlyStop _ _ _))

/-- The frames given to the detector are the stream, up to the samples held back. -/
def Lossless (s : Vad2Session) : Prop :=
  (∀ frame ∈ s.v.fed, frame.length = frameSize) ∧ Conserves s.given s.v.fed.flatten s.v.lenIn

instance (s : Vad2Session) : Decidable s.Lossless := inferInstanceAs (Decidable (_ ∧ _))

/-- What the buffer holds is what the detector has not been given. -/
structure Inv (s : Vad2Session) : Prop where
  frames : ∀ frame ∈ s.v.fed, frame.length = frameSize
  lenIn_le : s.v.lenIn ≤ s.v.dataIn.length
  given : s.v.fed.flatten ++ s.v.dataIn.take s.v.lenIn = s.given

theorem create_inv : create.Inv where
  frames := by simp [create, Vad2.create]
  lenIn_le := Nat.zero_le _
  given := rfl

theorem Inv.lossless {s : Vad2Session} (h : s.Inv) : s.Lossless := by
  refine ⟨h.frames, conserves_of_append h.given ?_⟩
  rw [List.length_take]
  exact min_eq_left h.lenIn_le

/-- **One call.** -/
theorem Inv.step {s : Vad2Session} (h : s.Inv) {c : VadCall} (hc : s.Unbroken c) :
    (s.step c).Inv := by
  obtain ⟨buffer, hspec⟩ := Vad2.process_spec h.lenIn_le c.forceStart hc
  generalize (c.input.length + s.v.lenIn) / frameSize = n at hspec
  have hlen := hspec.length_le
  have hwhole := hspec.whole
  have hfed : (s.step c).v.fed = s.v.fed ++ slices frameSize buffer 0 n := hspec.fed
  have hlenIn : (s.step c).v.lenIn = s.v.lenIn + c.input.length - n * frameSize := hspec.lenIn
  have hdataIn : (s.step c).v.dataIn =
      if 0 < (s.step c).v.lenIn ∧ 0 < n then
        overwrite buffer 0 ((buffer.drop (n * frameSize)).take (s.step c).v.lenIn)
      else buffer := hspec.dataIn
  have hmoved : ((buffer.drop (n * frameSize)).take (s.step c).v.lenIn).length =
      (s.step c).v.lenIn := by
    rw [List.length_take, List.length_drop, hlenIn]
    omega
  have hrest : (s.step c).v.dataIn.take (s.step c).v.lenIn =
      (buffer.drop (n * frameSize)).take (s.step c).v.lenIn := by
    rw [hdataIn]
    split_ifs with hmove
    · exact take_overwrite_zero buffer hmoved
    · obtain hnone | hnone : (s.step c).v.lenIn = 0 ∨ n = 0 := by omega
      · rw [hnone, List.take_zero, List.take_zero]
      · rw [hnone, Nat.zero_mul, List.drop_zero]
  refine ⟨fun frame hframe ↦ ?_, ?_, ?_⟩
  · rw [hfed] at hframe
    obtain hold | hnew := List.mem_append.mp hframe
    · exact h.frames frame hold
    · exact length_of_mem_slices (hwhole.trans hlen) hnew
  · have hkept := congrArg List.length hrest
    rw [hmoved, List.length_take] at hkept
    omega
  · calc
      (s.step c).v.fed.flatten ++ (s.step c).v.dataIn.take (s.step c).v.lenIn =
          s.v.fed.flatten ++ (buffer.take (n * frameSize) ++
            (buffer.drop (n * frameSize)).take
              (s.v.lenIn + c.input.length - n * frameSize)) := by
        rw [hrest, hfed, hlenIn, List.flatten_append, flatten_slices, List.append_assoc]
      _ = s.v.fed.flatten ++ (s.v.dataIn.take s.v.lenIn ++ c.input) := by
        rw [← List.take_add, Nat.add_sub_cancel' hwhole, hspec.take_eq]
      _ = s.given ++ c.input := by rw [← List.append_assoc, h.given]

/-- **The stream reaches the detector.**  In a run in which no call ends a voice before its last
frame, the detector is given the stream at every moment, up to the samples held back. -/
theorem unbroken_lossless {calls : List VadCall} (hcalls : Along step Unbroken create calls) :
    Throughout step Lossless create calls :=
  throughout_of_along (fun _ _ hs hc ↦ hs.step hc) (fun _ hs ↦ hs.lossless) create_inv hcalls

end Vad2Session

/-- Calls with incomplete frames and a voice that ends with the last whole frame of a call. -/
def unbrokenCalls : List VadCall :=
  [⟨silence, List.replicate 250 1, false⟩, ⟨voiceUntil 1, List.replicate 300 2, false⟩,
    ⟨silence, List.replicate 10 3, false⟩]

theorem lossless_of_unbrokenCalls :
    Throughout Vad2Session.step Vad2Session.Lossless Vad2Session.create unbrokenCalls :=
  Vad2Session.unbroken_lossless (by decide +kernel)

/-- A voice that ends with the second of three frames, and a call without samples. -/
def brokenCalls : List VadCall :=
  [⟨voiceUntil 1, List.replicate 320 0 ++ List.replicate 160 1, false⟩, ⟨silence, [], false⟩]

/-- **The second move.**  The frame that was kept is overwritten with what stands behind it. -/
theorem not_lossless_of_brokenCalls :
    ¬ (run Vad2Session.step Vad2Session.create brokenCalls).Lossless := by
  decide +kernel

end Vsys.Audio
