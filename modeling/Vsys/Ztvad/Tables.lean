import Vsys.Ztvad.VoiceDetector

/-!
# The tables of the voice detector

The wave buffer, the table of the VAD and the tables of the detector are moved separately.  Each has
a predicate that says which frames it holds, and one lemma for each function that changes it:
`VadAt` for the VAD, `WaveAt` for the buffer, `PitchAt` for the pitch and `ProbsAt` for the results
of the detector.
-/

namespace Vsys.Ztvad

open Vsys.Stream

variable {F σ π α : Type}

/-! ## The VAD -/

/-- The results as they lie in `m_frameProbs2`. -/
def flat (results : List (F × F)) : List F := results.flatMap fun p ↦ [p.1, p.2]

@[simp]
theorem length_flat (results : List (F × F)) : (flat results).length = 2 * results.length := by
  simp [flat, Nat.mul_comm]

theorem flat_concat (results : List (F × F)) (p : F × F) :
    flat (results ++ [p]) = flat results ++ [p.1] ++ [p.2] := by
  simp [flat]

theorem drop_flat (results : List (F × F)) (n : ℕ) :
    (flat results).drop (2 * n) = flat (results.drop n) := by
  induction n generalizing results with
  | zero => rfl
  | succ n ih =>
      cases results with
      | nil => simp [flat]
      | cons p results => exact ih results

theorem flat_getElem? (results : List (F × F)) (n : ℕ) :
    (flat results)[2 * n]? = results[n]?.map Prod.fst ∧
      (flat results)[2 * n + 1]? = results[n]?.map Prod.snd := by
  induction n generalizing results with
  | zero =>
      cases results with
      | nil => exact ⟨rfl, rfl⟩
      | cons p results => exact ⟨rfl, rfl⟩
  | succ n ih =>
      cases results with
      | nil => exact ⟨rfl, rfl⟩
      | cons p results => exact ih results

/-- The VAD has the results of the frames from `off` on. -/
structure VadAt (v : VAD F σ) (results : List (F × F)) (off : ℕ) : Prop where
  offset : v.nOffsetFrameNum = off
  curMax : v.nCurMaxFrame2 = off + results.length
  table : Tabulates v.frameProbs2 (flat results)

namespace VadAt

variable {V : FrameVad F σ} {v : VAD F σ} {results : List (F × F)} {off : ℕ}

/-- Judging frames appends their results. -/
theorem doEnergyVad (h : VadAt v results off) (nIsAec : Bool) (frames : List (List F))
    (hle : results.length + frames.length ≤ 6000) :
    ∃ next, VAD.doEnergyVad V nIsAec v frames = some next ∧
      VadAt next (results ++ V.judge nIsAec v.state frames) off := by
  induction frames generalizing v results with
  | nil => exact ⟨v, rfl, by simpa [FrameVad.judge] using h⟩
  | cons frame frames ih =>
      rw [List.length_cons] at hle
      have hindex : (v.nCurMaxFrame2 - v.nOffsetFrameNum) * outDim = (flat results).length := by
        rw [h.curMax, h.offset, length_flat, outDim]
        omega
      have hroom : (v.nCurMaxFrame2 - v.nOffsetFrameNum) * outDim + 1 < maxSpeech * outDim := by
        rw [hindex, length_flat, maxSpeech, outDim]
        omega
      obtain ⟨first, hfirst, htable⟩ := h.table.store hindex ((Int.lt_succ _).trans hroom)
        (V.frame v.state nIsAec frame).2.1
      have hindex' : (v.nCurMaxFrame2 - v.nOffsetFrameNum) * outDim + 1 =
          (flat results ++ [(V.frame v.state nIsAec frame).2.1]).length := by
        rw [hindex, List.length_append]
        rfl
      obtain ⟨second, hsecond, htable⟩ := htable.store hindex' hroom
        (V.frame v.state nIsAec frame).2.2
      rw [← flat_concat] at htable
      have hnext : VadAt
          { v with
            frameProbs2 := second
            nCurMaxFrame2 := v.nCurMaxFrame2 + 1
            nCurFeMaxFrame2 := v.nCurFeMaxFrame2 + 1
            state := (V.frame v.state nIsAec frame).1 }
          (results ++ [(V.frame v.state nIsAec frame).2]) off := by
        refine ⟨h.offset, ?_, htable⟩
        show v.nCurMaxFrame2 + 1 = _
        rw [h.curMax, List.length_append, List.length_singleton]
        omega
      have hle' : (results ++ [(V.frame v.state nIsAec frame).2]).length + frames.length ≤ 6000 := by
        rw [List.length_append, List.length_singleton]
        omega
      obtain ⟨last, hlast, hat⟩ := ih hnext hle'
      refine ⟨last, ?_, ?_⟩
      · simp only [VAD.doEnergyVad, hfirst, hsecond, Option.bind_eq_bind, Option.bind_some]
        exact hlast
      · simpa [FrameVad.judge] using hat

/-- Dropping frames. -/
theorem offsetFrame (h : VadAt v results off) {nFrame : ℤ} {n : ℕ} (hn : nFrame = n)
    (hle : n ≤ results.length) (hmax : results.length ≤ 6000) :
    ∃ next, v.offsetFrame nFrame = some next ∧ VadAt next (results.drop n) (off + n) := by
  have hleft : nFrame ≤ v.nCurMaxFrame2 - v.nOffsetFrameNum := by
    rw [h.curMax, h.offset]
    omega
  have hsource : nFrame * outDim = (2 * n : ℕ) := by
    rw [outDim]
    omega
  have hcount : nFrame * outDim + (v.nCurMaxFrame2 - v.nOffsetFrameNum - nFrame) * outDim =
      (flat results).length := by
    rw [h.curMax, h.offset, length_flat, outDim]
    omega
  have hroom : nFrame * outDim + (v.nCurMaxFrame2 - v.nOffsetFrameNum - nFrame) * outDim ≤
      maxSpeech * outDim := by
    rw [hcount, length_flat, maxSpeech, outDim]
    omega
  have hwithin : 2 * n ≤ (flat results).length := by
    rw [length_flat]
    omega
  obtain ⟨table, htable, hdrop⟩ := h.table.memmove hsource hwithin hcount hroom
  rw [drop_flat] at hdrop
  refine ⟨{ v with frameProbs2 := table, nOffsetFrameNum := v.nOffsetFrameNum + nFrame }, ?_, ?_⟩
  · simp only [VAD.offsetFrame, if_pos hleft, htable, Option.bind_eq_bind, Option.bind_some]
  · refine ⟨?_, ?_, hdrop⟩
    · show v.nOffsetFrameNum + nFrame = _
      rw [h.offset, hn, Nat.cast_add]
    · show v.nCurMaxFrame2 = _
      rw [h.curMax, List.length_drop]
      omega

/-- What `GetFrameProb` returns for a frame that has been judged. -/
theorem getFrameProb [Zero F] (h : VadAt v results off) {k : ℕ} {p : F × F}
    (hk : results[k]? = some p) :
    v.getFrameProb (k + off) 0 = p.1 ∧ v.getFrameProb (k + off) 1 = p.2 := by
  have hlt : k < results.length := (List.getElem?_eq_some_iff.mp hk).1
  obtain ⟨hfst, hsnd⟩ := flat_getElem? results k
  rw [hk] at hfst hsnd
  have hlocal : (k : ℤ) + off - v.nOffsetFrameNum = k := by
    rw [h.offset]
    omega
  have hmax : ¬ v.getMaxFrame ≤ k := by
    rw [VAD.getMaxFrame, h.curMax]
    omega
  have hfirst : v.frameProbs2 ((2 * k : ℕ) : ℤ) = p.1 := h.table _ _ hfst
  have hsecond : v.frameProbs2 ((2 * k + 1 : ℕ) : ℤ) = p.2 := h.table _ _ hsnd
  have hzero : (k : ℤ) * 2 + 0 = (2 * k : ℕ) := by omega
  have hone : (k : ℤ) * 2 + 1 = (2 * k + 1 : ℕ) := by omega
  constructor
  · have hin : ¬ ((k : ℤ) < 0 ∨ (0 : ℤ) < 0 ∨ outDim ≤ 0 ∨ v.getMaxFrame ≤ k) := by
      rw [outDim]
      omega
    simp only [VAD.getFrameProb, hlocal, if_neg hin]
    rw [outDim, hzero, hfirst]
  · have hin : ¬ ((k : ℤ) < 0 ∨ (1 : ℤ) < 0 ∨ outDim ≤ 1 ∨ v.getMaxFrame ≤ k) := by
      rw [outDim]
      omega
    simp only [VAD.getFrameProb, hlocal, if_neg hin]
    rw [outDim, hone, hsecond]

end VadAt

/-! ## The wave buffers -/

/-- A wave buffer is empty until it is allocated, and then has room for 6000 frames. -/
structure ByteBuffer.Sound (b : ByteBuffer α) : Prop where
  empty : b.allocated = false → b.bytes = []
  size : b.allocated = true → b.bufSize = waveBufSize
  fits : b.bytes.length ≤ waveBufSize

namespace ByteBuffer

variable {b : ByteBuffer α}

theorem sound_new : (new : ByteBuffer α).Sound :=
  ⟨fun _ ↦ rfl, fun h ↦ absurd h Bool.false_ne_true, Nat.zero_le _⟩

theorem sound_init (b : ByteBuffer α) : (b.init waveBufSize).Sound :=
  ⟨fun _ ↦ rfl, fun _ ↦ rfl, Nat.zero_le _⟩

theorem Sound.clear (h : b.Sound) : b.clear.Sound :=
  ⟨fun _ ↦ rfl, h.size, Nat.zero_le _⟩

/-- What is in the buffer after `Feed`: as much as there is room for. -/
theorem Sound.feed_bytes (h : b.Sound) (halloc : b.allocated = true) (data : List α) :
    (b.feed data).bytes = (b.bytes ++ data).take waveBufSize := by
  have hsize := h.size halloc
  have hfits := h.fits
  rw [feed, if_pos halloc]
  show b.bytes ++ data.take _ = _
  rw [List.take_append, List.take_of_length_le hfits, hsize]
  congr 1
  split
  · rfl
  · rw [List.take_length, List.take_of_length_le]
    omega

theorem Sound.feed (h : b.Sound) (halloc : b.allocated = true) (data : List α) :
    (b.feed data).Sound := by
  have hbytes := h.feed_bytes halloc data
  have hsame : (b.feed data).allocated = true ∧ (b.feed data).bufSize = b.bufSize := by
    rw [ByteBuffer.feed, if_pos halloc]
    exact ⟨halloc, rfl⟩
  refine ⟨fun hnot ↦ ?_, fun _ ↦ hsame.2.trans (h.size halloc), ?_⟩
  · exact absurd (hnot.symm.trans hsame.1) Bool.false_ne_true
  · rw [hbytes]
    exact List.length_take_le _ _

theorem Sound.shift_bytes (h : b.Sound) (n : ℕ) : (b.shift n).bytes = b.bytes.drop n := by
  rw [ByteBuffer.shift]
  split
  case isTrue halloc =>
      rw [h.empty (by simpa using halloc), List.drop_nil]
  case isFalse =>
      split
      case isTrue hzero => rw [hzero, List.drop_zero]
      case isFalse =>
          split
          case isTrue hle => exact (List.drop_of_length_le hle).symm
          case isFalse => rfl

theorem shift_same (b : ByteBuffer α) (n : ℕ) :
    (b.shift n).allocated = b.allocated ∧ (b.shift n).bufSize = b.bufSize := by
  rw [ByteBuffer.shift]
  split
  case isTrue => exact ⟨rfl, rfl⟩
  case isFalse =>
      split
      case isTrue => exact ⟨rfl, rfl⟩
      case isFalse =>
          split
          case isTrue => exact ⟨rfl, rfl⟩
          case isFalse => exact ⟨rfl, rfl⟩

theorem Sound.shift (h : b.Sound) (n : ℕ) : (b.shift n).Sound := by
  obtain ⟨halloc, hsize⟩ := b.shift_same n
  refine ⟨fun hnot ↦ ?_, fun hyes ↦ ?_, ?_⟩
  · rw [h.shift_bytes, h.empty (halloc ▸ hnot), List.drop_nil]
  · rw [hsize]
    exact h.size (halloc ▸ hyes)
  · rw [h.shift_bytes, List.length_drop]
    exact (Nat.sub_le _ _).trans h.fits

end ByteBuffer

namespace VoiceDetector

variable {isFloat : Bool} {d : VoiceDetector F σ π}

@[simp]
theorem waveBuf_setWaveBuf (d : VoiceDetector F σ π) (b : ByteBuffer (Sample F isFloat)) :
    (d.setWaveBuf isFloat b).waveBuf isFloat = b := by
  cases isFloat with
  | false => rfl
  | true => rfl

theorem waveBuf_congr {e : VoiceDetector F σ π} (hwave : e.bbWave = d.bbWave)
    (hfloat : e.bbFloatWave = d.bbFloatWave) : e.waveBuf isFloat = d.waveBuf isFloat := by
  cases isFloat with
  | false => exact hwave
  | true => exact hfloat

/-- What a call takes of its samples, as the VAD sees them. -/
def accepts [IntCast F] (isFloat : Bool) (data : List (Sample F isFloat))
    (d : VoiceDetector F σ π) : List F :=
  ((((d.allocWave isFloat).feedWave isFloat data).waveBuf isFloat).bytes.drop
    (d.waveBuf isFloat).bytes.length).map Sample.toFloat

/-- The wave buffer of the run begins at frame `off` of the accepted samples. -/
structure WaveAt [IntCast F] (isFloat : Bool) (d : VoiceDetector F σ π) (accepted : List F)
    (off : ℕ) : Prop where
  sound : d.bbWave.Sound
  soundFloat : d.bbFloatWave.Sound
  other : isFloat = true → d.bbWave.bytes = []
  wave : (d.waveBuf isFloat).bytes.map Sample.toFloat = accepted.drop (frameSize * off)
  le : frameSize * off ≤ accepted.length

namespace WaveAt

variable [IntCast F] {accepted : List F} {off : ℕ}

theorem congr {e : VoiceDetector F σ π} (h : WaveAt isFloat d accepted off)
    (hwave : e.bbWave = d.bbWave) (hfloat : e.bbFloatWave = d.bbFloatWave) :
    WaveAt isFloat e accepted off := by
  have hbuf : e.waveBuf isFloat = d.waveBuf isFloat := waveBuf_congr hwave hfloat
  exact ⟨hwave ▸ h.sound, hfloat ▸ h.soundFloat, hwave ▸ h.other, hbuf ▸ h.wave, h.le⟩

theorem sound_waveBuf (h : WaveAt isFloat d accepted off) : (d.waveBuf isFloat).Sound := by
  cases isFloat with
  | false => exact h.sound
  | true => exact h.soundFloat

/-- Another content of the run's own buffer. -/
theorem setWaveBuf (h : WaveAt isFloat d accepted off) {b : ByteBuffer (Sample F isFloat)}
    (hb : b.Sound) {accepted' : List F} {off' : ℕ}
    (hwave : b.bytes.map Sample.toFloat = accepted'.drop (frameSize * off'))
    (hle : frameSize * off' ≤ accepted'.length) :
    WaveAt isFloat (d.setWaveBuf isFloat b) accepted' off' := by
  have hbuf : ((d.setWaveBuf isFloat b).waveBuf isFloat).bytes.map Sample.toFloat =
      accepted'.drop (frameSize * off') := by
    rw [waveBuf_setWaveBuf]
    exact hwave
  cases isFloat with
  | false => exact ⟨hb, h.soundFloat, fun hnot ↦ absurd hnot Bool.false_ne_true, hbuf, hle⟩
  | true => exact ⟨h.sound, hb, h.other, hbuf, hle⟩

/-- The samples in the buffer. -/
theorem length_bytes (h : WaveAt isFloat d accepted off) :
    (d.waveBuf isFloat).bytes.length = accepted.length - frameSize * off := by
  have hlength := congrArg List.length h.wave
  rwa [List.length_map, List.length_drop] at hlength

/-- The whole frames in the buffer. -/
theorem waveFrameNum_eq (h : WaveAt isFloat d accepted off) :
    d.waveFrameNum isFloat = accepted.length / frameSize - off := by
  rw [waveFrameNum, h.length_bytes, Nat.sub_mul_div]

/-- No more than 6000 frames fit. -/
theorem waveFrameNum_le (h : WaveAt isFloat d accepted off) : d.waveFrameNum isFloat ≤ 6000 :=
  Nat.div_le_of_le_mul h.sound_waveBuf.fits

theorem alloc (h : WaveAt isFloat d accepted off) :
    WaveAt isFloat (d.allocWave isFloat) accepted off ∧
      ((d.allocWave isFloat).waveBuf isFloat).allocated = true ∧
      ((d.allocWave isFloat).waveBuf isFloat).bytes = (d.waveBuf isFloat).bytes := by
  rw [allocWave]
  split
  case isTrue halloc => exact ⟨h, halloc, rfl⟩
  case isFalse halloc =>
      have hempty := h.sound_waveBuf.empty (Bool.not_eq_true _ ▸ halloc)
      have hwave := h.wave
      rw [hempty] at hwave ⊢
      exact ⟨h.setWaveBuf (ByteBuffer.sound_init _) hwave h.le, by rw [waveBuf_setWaveBuf]; rfl,
        by rw [waveBuf_setWaveBuf]; rfl⟩

/-- A call appends what it takes. -/
theorem feed (h : WaveAt isFloat d accepted off) (data : List (Sample F isFloat)) :
    WaveAt isFloat ((d.allocWave isFloat).feedWave isFloat data)
      (accepted ++ d.accepts isFloat data) off := by
  obtain ⟨hat, halloc, hbytes⟩ := h.alloc
  have hfed := hat.sound_waveBuf.feed_bytes halloc data
  have hkept : (((d.allocWave isFloat).waveBuf isFloat).feed data).bytes.take
      (d.waveBuf isFloat).bytes.length = (d.waveBuf isFloat).bytes := by
    rw [hfed, List.take_take, Nat.min_eq_left h.sound_waveBuf.fits, hbytes, List.take_left]
  apply hat.setWaveBuf (hat.sound_waveBuf.feed halloc data)
  · rw [List.drop_append_of_le_length h.le, ← h.wave, accepts, feedWave, waveBuf_setWaveBuf,
      ← List.map_append]
    congr 1
    conv_lhs => rw [← List.take_append_drop (d.waveBuf isFloat).bytes.length
      (((d.allocWave isFloat).waveBuf isFloat).feed data).bytes, hkept]
  · rw [List.length_append]
    exact Nat.le_add_right_of_le h.le

/-- The buffer is moved by whole frames. -/
theorem shiftWave (h : WaveAt isFloat d accepted off) {n : ℕ}
    (hle : frameSize * (off + n) ≤ accepted.length) :
    WaveAt isFloat (d.shiftWave n) accepted (off + n) := by
  have hdrop : ((d.waveBuf isFloat).bytes.drop (frameSize * n)).map Sample.toFloat =
      accepted.drop (frameSize * (off + n)) := by
    rw [List.map_drop, h.wave, List.drop_drop, Nat.mul_add]
  rw [VoiceDetector.shiftWave]
  split
  case isTrue hsome =>
      cases isFloat with
      | false =>
          refine h.setWaveBuf (h.sound.shift _) ?_ hle
          rw [h.sound.shift_bytes]
          exact hdrop
      | true => exact absurd (congrArg List.length (h.other rfl)) hsome
  case isFalse hnone =>
      cases isFloat with
      | false =>
          have hnil : d.bbWave.bytes = [] := by
            simpa using hnone
          have hempty : (d.waveBuf false).bytes = [] := hnil
          refine ⟨h.sound, h.soundFloat.shift _, h.other, ?_, hle⟩
          show (d.waveBuf false).bytes.map Sample.toFloat = _
          rw [← hdrop, hempty, List.drop_nil]
      | true =>
          refine h.setWaveBuf (h.soundFloat.shift _) ?_ hle
          rw [h.soundFloat.shift_bytes]
          exact hdrop

end WaveAt

/-! ## The table of the pitch -/

/-- The number of entries is within the table. -/
def PitchAt (d : VoiceDetector F σ π) : Prop :=
  0 ≤ d.nCurPitchProbFrameNum ∧ d.nCurPitchProbFrameNum ≤ maxFrameNum

theorem shiftPitch_spec (h : PitchAt d) {nFrame : ℤ} (hpos : 0 ≤ nFrame) :
    ∃ table n, d.shiftPitch nFrame =
        some { d with pitchprobs := table, nCurPitchProbFrameNum := n } ∧
      0 ≤ n ∧ n ≤ maxFrameNum := by
  obtain ⟨hnonneg, hle⟩ := h
  rw [shiftPitch]
  split
  case isTrue hlt =>
      have hin : 0 ≤ nFrame ∧ 0 ≤ d.nCurPitchProbFrameNum - nFrame ∧
          nFrame + (d.nCurPitchProbFrameNum - nFrame) ≤ maxFrameNum := by omega
      obtain ⟨table, htable⟩ := exists_memmove d.pitchprobs hin
      refine ⟨table, d.nCurPitchProbFrameNum - nFrame, ?_, by omega, by omega⟩
      rw [htable]
      rfl
  case isFalse => exact ⟨d.pitchprobs, 0, rfl, le_rfl, hnonneg.trans hle⟩

theorem pushPitchProbs_spec (h : PitchAt d) (probs : List F) :
    ∃ table n, d.pushPitchProbs probs =
        some { d with pitchprobs := table, nCurPitchProbFrameNum := n } ∧
      0 ≤ n ∧ n ≤ maxFrameNum := by
  induction probs generalizing d with
  | nil => exact ⟨d.pitchprobs, d.nCurPitchProbFrameNum, rfl, h⟩
  | cons prob probs ih =>
      obtain ⟨hnonneg, hle⟩ := h
      rw [pushPitchProbs]
      split
      case isTrue hlt =>
          have hin : 0 ≤ d.nCurPitchProbFrameNum ∧ d.nCurPitchProbFrameNum < maxFrameNum :=
            ⟨hnonneg, hlt⟩
          rw [store, if_pos hin]
          refine ih (d := { d with
            pitchprobs := Function.update d.pitchprobs d.nCurPitchProbFrameNum prob
            nCurPitchProbFrameNum := d.nCurPitchProbFrameNum + 1 }) ⟨?_, ?_⟩
          · exact Int.le_add_one hnonneg
          · exact hlt
      case isFalse => exact ih ⟨hnonneg, hle⟩

theorem pitchLoop_spec (P : PitchExtr F π) (h : PitchAt d) (curFrame : ℕ)
    (frames : List (List F)) :
    ∃ extr table n, d.pitchLoop P curFrame frames =
        some { d with pitchExtr := extr, pitchprobs := table, nCurPitchProbFrameNum := n } ∧
      0 ≤ n ∧ n ≤ maxFrameNum := by
  induction frames generalizing d curFrame with
  | nil => exact ⟨d.pitchExtr, d.pitchprobs, d.nCurPitchProbFrameNum, rfl, h⟩
  | cons frame frames ih =>
      let extr := P.acceptWaveform (P.process d.pitchExtr frame).1 (P.process d.pitchExtr frame).2
      let ready := (List.range' curFrame (P.numFramesReady extr - curFrame)).map (P.prob extr)
      obtain ⟨table, n, hpush, hn⟩ := pushPitchProbs_spec (d := { d with pitchExtr := extr }) h ready
      obtain ⟨last, table', n', hlast, hn'⟩ := ih
        (d := { d with pitchExtr := extr, pitchprobs := table, nCurPitchProbFrameNum := n }) hn
        (P.numFramesReady extr)
      refine ⟨last, table', n', ?_, hn'⟩
      calc d.pitchLoop P curFrame (frame :: frames)
          = (pushPitchProbs { d with pitchExtr := extr } ready).bind fun e ↦
              e.pitchLoop P (P.numFramesReady extr) frames := rfl
        _ = some { d with pitchExtr := last, pitchprobs := table', nCurPitchProbFrameNum := n' } := by
          rw [hpush]
          exact hlast

theorem calcPitchFeature_spec (P : PitchExtr F π) (cfg : Config F) (isFloat : Bool)
    (h : PitchAt d) (frames : List (List F)) :
    ∃ extr table n, d.calcPitchFeature P cfg isFloat frames =
        some { d with pitchExtr := extr, pitchprobs := table, nCurPitchProbFrameNum := n } ∧
      0 ≤ n ∧ n ≤ maxFrameNum := by
  rw [calcPitchFeature]
  split
  case isTrue => exact ⟨d.pitchExtr, d.pitchprobs, d.nCurPitchProbFrameNum, rfl, h⟩
  case isFalse =>
      split
      case isTrue =>
          exact pitchLoop_spec (d := { d with pitchExtr := d.recreatedExtr P }) P h 0 frames
      case isFalse => exact pitchLoop_spec P h _ frames

theorem inputPitch_spec (P : PitchExtr F π) (cfg : Config F) (isFloat : Bool) (h : PitchAt d)
    (frames : List (List F)) :
    ∃ extr table n, d.inputPitch P cfg isFloat frames =
        some { d with pitchExtr := extr, pitchprobs := table, nCurPitchProbFrameNum := n } ∧
      0 ≤ n ∧ n ≤ maxFrameNum := by
  rw [inputPitch]
  split
  case isTrue => exact calcPitchFeature_spec P cfg isFloat h frames
  case isFalse => exact ⟨d.pitchExtr, d.pitchprobs, d.nCurPitchProbFrameNum, rfl, h⟩

/-! ## The tables of the results -/

section Probs

variable [LinearOrder F]

/-- The voice flag of a frame. -/
def voice (p : F × F) : Bool := decide (p.1 ≤ p.2)

/-- The detector has the results of the frames from `off` on. -/
structure ProbsAt (d : VoiceDetector F σ π) (results : List (F × F)) (off : ℕ) : Prop where
  offset : d.nOffsetFrame = off
  cur : d.nCurProbFrameNum = results.length
  probs : Tabulates d.probs results
  bprobs : Tabulates d.bprobs (results.map voice)

variable {results : List (F × F)} {off : ℕ}

theorem shiftProbs_spec (h : ProbsAt d results off) {nFrame : ℤ} {n : ℕ} (hn : nFrame = n)
    (hle : n ≤ results.length) (hmax : results.length ≤ 6000) :
    ∃ probs bprobs, d.shiftProbs nFrame =
        some { d with
          probs := probs
          bprobs := bprobs
          nCurProbFrameNum := (results.drop n).length } ∧
      Tabulates probs (results.drop n) ∧ Tabulates bprobs ((results.drop n).map voice) := by
  have hcount : nFrame + (d.nCurProbFrameNum - nFrame) = results.length := by
    rw [h.cur]
    omega
  have hroom : nFrame + (d.nCurProbFrameNum - nFrame) ≤ maxFrameNum := by
    rw [hcount, maxFrameNum]
    omega
  have hlength : ((results.drop n).length : ℤ) = d.nCurProbFrameNum - nFrame := by
    rw [List.length_drop, h.cur]
    omega
  rw [shiftProbs]
  split
  case isTrue =>
      obtain ⟨probs, hprobs, htable⟩ := h.probs.memmove hn hle hcount hroom
      have hcount' : nFrame + (d.nCurProbFrameNum - nFrame) = (results.map voice).length := by
        rw [hcount, List.length_map]
      have hle' : n ≤ (results.map voice).length := by
        rw [List.length_map]
        exact hle
      obtain ⟨bprobs, hbprobs, htable'⟩ := h.bprobs.memmove hn hle' hcount' hroom
      rw [← List.map_drop] at htable'
      refine ⟨probs, bprobs, ?_, htable, htable'⟩
      rw [hprobs, hbprobs, hlength]
      rfl
  case isFalse hall =>
      have hempty : results.drop n = [] := by
        apply List.drop_of_length_le
        rw [h.cur, hn] at hall
        omega
      refine ⟨d.probs, d.bprobs, ?_, ?_, ?_⟩
      · rw [hempty]
        rfl
      · rw [hempty]
        exact tabulates_nil _
      · rw [hempty]
        exact tabulates_nil _

end Probs

section Copy

variable [Field F] [LinearOrder F] {results : List (F × F)} {off : ℕ}

/-- The loop copies the results that the detector does not have yet. -/
theorem probLoop_spec (more : List (F × F)) (hvad : VadAt d.vad (results ++ more) off)
    (hoff : d.nOffsetFrame = off) (hprobs : Tabulates d.probs results)
    (hbprobs : Tabulates d.bprobs (results.map voice))
    (hmax : results.length + more.length ≤ 6000) :
    ∃ probs bprobs, probLoop more.length results.length d =
        some { d with probs := probs, bprobs := bprobs } ∧
      Tabulates probs (results ++ more) ∧ Tabulates bprobs ((results ++ more).map voice) := by
  induction more generalizing d results with
  | nil =>
      refine ⟨d.probs, d.bprobs, rfl, ?_, ?_⟩
      · simpa using hprobs
      · simpa using hbprobs
  | cons p more ih =>
      rw [List.length_cons] at hmax
      have happend : results ++ p :: more = results ++ [p] ++ more := by simp
      have hget : (results ++ p :: more)[results.length]? = some p := by simp
      obtain ⟨hfst, hsnd⟩ := hvad.getFrameProb hget
      rw [← hoff] at hfst hsnd
      have hroom : (results.length : ℤ) < maxFrameNum := by
        rw [maxFrameNum]
        omega
      obtain ⟨probs, hstore, htable⟩ := hprobs.store rfl hroom p
      have hindex : (results.length : ℤ) = (results.map voice).length := by
        rw [List.length_map]
      obtain ⟨bprobs, hstore', htable'⟩ := hbprobs.store hindex hroom (decide (p.1 ≤ p.2))
      have hmap : results.map voice ++ [decide (p.1 ≤ p.2)] = (results ++ [p]).map voice := by
        simp [voice]
      rw [hmap] at htable'
      have hmax' : (results ++ [p]).length + more.length ≤ 6000 := by
        rw [List.length_append, List.length_singleton]
        omega
      obtain ⟨probs', bprobs', hloop, hresult⟩ := ih (happend ▸ hvad)
        (d := { d with probs := probs, bprobs := bprobs }) hoff htable htable' hmax'
      have hnext : ((results ++ [p]).length : ℤ) = results.length + 1 := by
        rw [List.length_append, List.length_singleton, Nat.cast_add_one]
      rw [hnext] at hloop
      refine ⟨probs', bprobs', ?_, happend ▸ hresult⟩
      rw [List.length_cons, probLoop]
      simp only [hfst, hsnd, Prod.mk.eta, hstore, hstore', Option.bind_eq_bind, Option.bind_some]
      exact hloop

theorem copyProbs_spec {more : List (F × F)} (h : ProbsAt d results off)
    (hvad : VadAt d.vad (results ++ more) off) (hmax : (results ++ more).length ≤ 6000) :
    ∃ probs bprobs, d.copyProbs =
        some { d with
          probs := probs
          bprobs := bprobs
          nCurProbFrameNum := (results ++ more).length } ∧
      Tabulates probs (results ++ more) ∧ Tabulates bprobs ((results ++ more).map voice) := by
  have hlength : (results ++ more).length = results.length + more.length := List.length_append
  have hframes : d.vad.getMaxFrame - d.nOffsetFrame = (results ++ more).length := by
    rw [VAD.getMaxFrame, hvad.curMax, h.offset]
    omega
  have hfits : ¬ maxFrameNum < ((results ++ more).length : ℤ) := by
    rw [maxFrameNum]
    omega
  have hcount : (((results ++ more).length : ℤ) - results.length).toNat = more.length := by
    omega
  obtain ⟨probs, bprobs, hloop, htables⟩ := probLoop_spec more hvad h.offset h.probs h.bprobs
    (hlength ▸ hmax)
  refine ⟨probs, bprobs, ?_, htables⟩
  rw [copyProbs]
  simp only [hframes, if_neg hfits, hcount, h.cur, hloop, Option.bind_eq_bind, Option.bind_some]

end Copy

end VoiceDetector

end Vsys.Ztvad
