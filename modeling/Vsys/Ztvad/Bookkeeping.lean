import Vsys.Trace.Run
import Vsys.Ztvad.Tables

/-!
# The frames of the voice detector

A session remembers what the buffer and the tables of a detector stand for: the samples that were
accepted since the last `Restart` and the frames the VAD has judged.  After every call of every run
all of them begin at the same absolute frame and end at the same one (`frames_in_step`), and nothing
was written outside of a table, since the run has not failed.
-/

namespace Vsys.Ztvad

open Vsys.Stream

variable {F σ π : Type}

namespace VoiceDetector

variable {isFloat : Bool} {d : VoiceDetector F σ π}

/-! ## All tables together -/

section Books

variable [Field F] [LinearOrder F]

/-- The buffer and all tables begin at frame `off` and hold the frames up to the last whole one;
`results` are the results of all frames since the last `Restart`. -/
structure Books (isFloat : Bool) (d : VoiceDetector F σ π) (accepted : List F)
    (results : List (F × F)) (off : ℕ) : Prop where
  wave : WaveAt isFloat d accepted off
  whole : accepted.length / frameSize = results.length
  vad : VadAt d.vad (results.drop off) off
  probs : ProbsAt d (results.drop off) off
  pitch : PitchAt d

/-- The positions of the voice are the same. -/
structure SameVoice (d e : VoiceDetector F σ π) : Prop where
  start : e.nVocStartFrame = d.nVocStartFrame
  stop : e.nVocStopFrame = d.nVocStopFrame
  startOffset : e.nVocStartOffset = d.nVocStartOffset
  isEnd : e.bIsEnd = d.bIsEnd

omit [Field F] [LinearOrder F] in
theorem SameVoice.refl (d : VoiceDetector F σ π) : SameVoice d d := ⟨rfl, rfl, rfl, rfl⟩

namespace Books

variable {accepted : List F} {results : List (F × F)} {off : ℕ}

theorem off_le (h : Books isFloat d accepted results off) : off ≤ results.length := by
  rw [← h.whole, Nat.le_div_iff_mul_le (by decide), Nat.mul_comm]
  exact h.wave.le

/-- The frames in the tables are those in the buffer. -/
theorem waveFrameNum_eq (h : Books isFloat d accepted results off) :
    d.waveFrameNum isFloat = (results.drop off).length := by
  rw [h.wave.waveFrameNum_eq, h.whole, List.length_drop]

theorem length_le (h : Books isFloat d accepted results off) : (results.drop off).length ≤ 6000 :=
  h.waveFrameNum_eq ▸ h.wave.waveFrameNum_le

/-- The positions of the voice are not part of the books. -/
theorem setVoice (h : Books isFloat d accepted results off) (start stop offset : ℤ) (isEnd : Bool) :
    Books isFloat
      { d with
        nVocStartFrame := start
        nVocStopFrame := stop
        nVocStartOffset := offset
        bIsEnd := isEnd }
      accepted results off :=
  ⟨h.wave.congr rfl rfl, h.whole, h.vad,
    ⟨h.probs.offset, h.probs.cur, h.probs.probs, h.probs.bprobs⟩, h.pitch⟩

/-- Nor is the state in which the VAD judges. -/
theorem setState (h : Books isFloat d accepted results off) (state : σ) :
    Books isFloat { d with vad := { d.vad with state := state } } accepted results off :=
  ⟨h.wave.congr rfl rfl, h.whole, ⟨h.vad.offset, h.vad.curMax, h.vad.table⟩,
    ⟨h.probs.offset, h.probs.cur, h.probs.probs, h.probs.bprobs⟩, h.pitch⟩

end Books

omit [Field F] [LinearOrder F] in
theorem shiftWave_eq (d : VoiceDetector F σ π) (n : ℕ) :
    ∃ wave floatWave, d.shiftWave n = { d with bbWave := wave, bbFloatWave := floatWave } := by
  rw [shiftWave]
  split
  case isTrue => exact ⟨_, _, rfl⟩
  case isFalse => exact ⟨_, _, rfl⟩

variable {accepted : List F} {results : List (F × F)} {off : ℕ}

/-- **Frames are dropped from the buffer and all tables at once.** -/
theorem offsetWaveFrame_spec (h : Books isFloat d accepted results off) {nFrame : ℤ} {n : ℕ}
    (hn : nFrame = n) (hpos : 0 < n) (hle : n ≤ (results.drop off).length) :
    ∃ e, d.offsetWaveFrame nFrame = some e ∧ Books isFloat e accepted results (off + n) ∧
      SameVoice d e := by
  have hdrop : (results.drop off).drop n = results.drop (off + n) := List.drop_drop
  have hmax := h.length_le
  have hframes : frameSize * (off + n) ≤ accepted.length := by
    rw [List.length_drop] at hle
    rw [Nat.mul_comm, ← Nat.le_div_iff_mul_le (by decide), h.whole]
    have hoff := h.off_le
    omega
  have hwave := h.wave.shiftWave hframes
  obtain ⟨wave, floatWave, hshift⟩ := d.shiftWave_eq n
  obtain ⟨probs, bprobs, hprobs, htable, htable'⟩ := shiftProbs_spec
    (d := { d with bbWave := wave, bbFloatWave := floatWave })
    ⟨h.probs.offset, h.probs.cur, h.probs.probs, h.probs.bprobs⟩ hn hle hmax
  obtain ⟨pitchprobs, count, hpitch, hcount⟩ := shiftPitch_spec
    (d := { d with
      bbWave := wave
      bbFloatWave := floatWave
      probs := probs
      bprobs := bprobs
      nCurProbFrameNum := ((results.drop off).drop n).length }) h.pitch (hn ▸ Int.natCast_nonneg n)
  obtain ⟨vad, hvad, hvadAt⟩ := h.vad.offsetFrame hn hle hmax
  have hzero : ¬ nFrame ≤ 0 := by omega
  have hcur : ¬ d.nCurProbFrameNum < nFrame := by
    rw [h.probs.cur]
    omega
  have hnat : nFrame.toNat = n := by omega
  refine ⟨{ d with
    bbWave := wave
    bbFloatWave := floatWave
    probs := probs
    bprobs := bprobs
    nCurProbFrameNum := ((results.drop off).drop n).length
    pitchprobs := pitchprobs
    nCurPitchProbFrameNum := count
    vad := vad
    nOffsetFrame := d.nOffsetFrame + nFrame }, ?_, ⟨?_, h.whole, ?_, ?_, hcount⟩, ⟨rfl, rfl, rfl, rfl⟩⟩
  · rw [offsetWaveFrame, if_neg hzero, if_neg hcur, hnat, hshift]
    simp only [hprobs, hpitch, hvad, Option.bind_eq_bind, Option.bind_some]
  · exact (hshift ▸ hwave).congr rfl rfl
  · rw [← hdrop]
    exact hvadAt
  · rw [← hdrop]
    refine ⟨?_, rfl, htable, htable'⟩
    show d.nOffsetFrame + nFrame = _
    rw [h.probs.offset, hn, Nat.cast_add]

/-- Whatever it is asked to drop. -/
theorem offsetWaveFrame_books (h : Books isFloat d accepted results off) (nFrame : ℤ) :
    ∃ e off', d.offsetWaveFrame nFrame = some e ∧ Books isFloat e accepted results off' ∧
      SameVoice d e := by
  by_cases hpos : nFrame ≤ 0
  · exact ⟨d, off, if_pos hpos, h, .refl d⟩
  by_cases hcur : d.nCurProbFrameNum < nFrame
  · refine ⟨d, off, ?_, h, .refl d⟩
    rw [offsetWaveFrame, if_neg hpos, if_pos hcur]
  · rw [h.probs.cur] at hcur
    have hnat : nFrame = nFrame.toNat := by omega
    obtain ⟨e, he, hbooks, hsame⟩ := offsetWaveFrame_spec h hnat (by omega) (by omega)
    exact ⟨e, off + nFrame.toNat, he, hbooks, hsame⟩

/-! ## The two judges -/

variable (V : FrameVad F σ) (cfg : Config F) (nIsAec : Bool)

/-- A voice whose start is in the tables, found while the input goes on: the tables begin with it. -/
theorem beginVoice_spec (h : Books isFloat d accepted results off) (hend : d.bIsEnd = false)
    {start : ℤ} (hstart : start ≤ (results.drop off).length) (offset : ℤ) :
    ∃ e, d.beginVoice V nIsAec start offset = some e ∧
      Books isFloat e accepted results (off + start.toNat) ∧
      e.nVocStartFrame = 0 ∧ e.nVocStartOffset = offset - start.toNat ∧
      e.nVocStopFrame = d.nVocStopFrame ∧ e.bIsEnd = false := by
  have hclip : (if start < 0 then 0 else start) = start.toNat := by
    split
    · omega
    · omega
  have hset := h.setVoice start.toNat d.nVocStopFrame offset d.bIsEnd
  by_cases hpos : 0 < start
  · obtain ⟨e, he, hbooks, hsame⟩ := offsetWaveFrame_spec hset (n := start.toNat) rfl
      (by omega) (by omega)
    have hcond : d.bIsEnd = false ∧ (0 : ℤ) < start.toNat := ⟨hend, by omega⟩
    refine ⟨_, ?_, (hbooks.setVoice 0 e.nVocStopFrame (e.nVocStartOffset - start.toNat)
      e.bIsEnd).setState (V.freeze e.vad.state true nIsAec), rfl, ?_, hsame.stop, ?_⟩
    · rw [beginVoice]
      simp only [hclip, if_pos hcond, he, Option.bind_eq_bind, Option.bind_some]
      rfl
    · show e.nVocStartOffset - _ = _
      rw [hsame.startOffset]
    · exact hsame.isEnd.trans hend
  · have hzero : start.toNat = 0 := by omega
    have hcond : ¬ (d.bIsEnd = false ∧ (0 : ℤ) < (0 : ℕ)) := by simp
    rw [hzero] at hset hclip ⊢
    refine ⟨_, ?_, hset.setState (V.freeze d.vad.state true nIsAec), rfl, ?_, rfl, hend⟩
    · rw [beginVoice]
      simp only [hclip, if_neg hcond, Option.bind_eq_bind, Option.bind_some]
      rfl
    · show offset = _
      omega

/-- Wherever a voice is said to begin. -/
theorem beginVoice_books (h : Books isFloat d accepted results off) (start offset : ℤ) :
    ∃ e off', d.beginVoice V nIsAec start offset = some e ∧
      Books isFloat e accepted results off' := by
  let clipped := if start < 0 then 0 else start
  have hset := h.setVoice clipped d.nVocStopFrame offset d.bIsEnd
  rw [beginVoice]
  by_cases hcond : d.bIsEnd = false ∧ 0 < clipped
  · obtain ⟨e, off', he, hbooks, -⟩ := offsetWaveFrame_books hset clipped
    refine ⟨_, off', ?_, (hbooks.setVoice 0 e.nVocStopFrame (e.nVocStartOffset - clipped)
      e.bIsEnd).setState (V.freeze e.vad.state true nIsAec)⟩
    simp only [clipped] at hcond he ⊢
    simp only [if_pos hcond, he, Option.bind_eq_bind, Option.bind_some]
    rfl
  · refine ⟨_, off, ?_, hset.setState (V.freeze d.vad.state true nIsAec)⟩
    simp only [clipped] at hcond ⊢
    rw [if_neg hcond]
    rfl

theorem setStart_books (h : Books isFloat d accepted results off) :
    ∃ e off', (d.setStart V nIsAec).map Prod.fst = some e ∧
      Books isFloat e accepted results off' := by
  rw [setStart]
  split
  case isTrue => exact ⟨d, off, rfl, h⟩
  case isFalse =>
      obtain ⟨e, off', he, hbooks⟩ := beginVoice_books V nIsAec h (d.nCurProbFrameNum - 1)
        (d.nCurProbFrameNum - 1)
      refine ⟨e, off', ?_, hbooks⟩
      rw [he]
      rfl

theorem judgeVoiceEnd_books (h : Books isFloat d accepted results off) :
    Books isFloat (d.judgeVoiceEnd cfg) accepted results off := by
  rw [judgeVoiceEnd]
  split
  case isTrue => exact h
  case isFalse =>
      split
      case isTrue => exact h
      case isFalse =>
          split
          case h_1 => exact h
          case h_2 i _ => exact h.setVoice d.nVocStartFrame i d.nVocStartOffset d.bIsEnd

theorem detectEnd_books (h : Books isFloat d accepted results off) (bIsEnd : Bool) :
    Books isFloat (d.detectEnd cfg bIsEnd) accepted results off := by
  have hjudged := judgeVoiceEnd_books cfg h
  rw [detectEnd]
  split
  case isTrue =>
      dsimp only
      split
      case isTrue => exact hjudged.setVoice _ _ _ true
      case isFalse =>
          split
          case isTrue => exact hjudged.setVoice _ (d.judgeVoiceEnd cfg).nCurProbFrameNum _ _
          case isFalse => exact hjudged
  case isFalse => exact h

theorem detectBegin_books [FloorRing F] (h : Books isFloat d accepted results off) :
    ∃ e off', d.detectBegin V cfg nIsAec = some e ∧ Books isFloat e accepted results off' := by
  have hjudge : ∃ e off', d.judgeVoiceBegin cfg V nIsAec = some e ∧
      Books isFloat e accepted results off' := by
    rw [judgeVoiceBegin]
    split
    case isTrue => exact ⟨d, off, rfl, h⟩
    case isFalse =>
        split
        case h_1 => exact ⟨d, off, rfl, h⟩
        case h_2 i _ => exact beginVoice_books V nIsAec h _ i
  obtain ⟨e, off', he, hbooks⟩ := hjudge
  rw [detectBegin]
  split
  case isTrue =>
      rw [he]
      simp only [Option.bind_eq_bind, Option.bind_some]
      split
      case isTrue =>
          split
          case isTrue =>
              obtain ⟨e', off'', he', hbooks', -⟩ := offsetWaveFrame_books hbooks _
              exact ⟨e', off'', he', hbooks'⟩
          case isFalse => exact ⟨e, off', rfl, hbooks⟩
      case isFalse => exact ⟨e, off', rfl, hbooks⟩
  case isFalse => exact ⟨d, off, rfl, h⟩

end Books

/-! ## A call -/

section Call

/-- The detector when a call has saved its samples. -/
def fed (isFloat : Bool) (data : List (Sample F isFloat)) (d : VoiceDetector F σ π) :
    VoiceDetector F σ π :=
  (d.allocWave isFloat).feedWave isFloat data

theorem framesFrom_congr [IntCast F] {e : VoiceDetector F σ π}
    (h : e.waveBuf isFloat = d.waveBuf isFloat) (n : ℕ) :
    e.framesFrom isFloat n = d.framesFrom isFloat n := by
  simp only [framesFrom, waveFrameNum, h]

/-- The frames that a call completes. -/
def newFrames [IntCast F] (isFloat : Bool) (data : List (Sample F isFloat))
    (d : VoiceDetector F σ π) : List (List F) :=
  (d.fed isFloat data).framesFrom isFloat ((d.allocWave isFloat).waveFrameNum isFloat)

theorem setWaveBuf_eq (d : VoiceDetector F σ π) (b : ByteBuffer (Sample F isFloat)) :
    ∃ wave floatWave, d.setWaveBuf isFloat b =
      { d with bbWave := wave, bbFloatWave := floatWave } := by
  cases isFloat with
  | false => exact ⟨_, _, rfl⟩
  | true => exact ⟨_, _, rfl⟩

theorem allocWave_eq (isFloat : Bool) (d : VoiceDetector F σ π) :
    ∃ wave floatWave, d.allocWave isFloat =
      { d with bbWave := wave, bbFloatWave := floatWave } := by
  rw [allocWave]
  split
  case isTrue => exact ⟨_, _, rfl⟩
  case isFalse => exact d.setWaveBuf_eq _

theorem fed_eq (data : List (Sample F isFloat)) (d : VoiceDetector F σ π) :
    ∃ wave floatWave, d.fed isFloat data =
      { d with bbWave := wave, bbFloatWave := floatWave } := by
  obtain ⟨wave, floatWave, halloc⟩ := d.allocWave_eq isFloat
  obtain ⟨wave', floatWave', hset⟩ := (d.allocWave isFloat).setWaveBuf_eq
    (((d.allocWave isFloat).waveBuf isFloat).feed data)
  refine ⟨wave', floatWave', ?_⟩
  rw [fed, feedWave, hset, halloc]

/-- The VAD gets the frames of the buffer as numbers, whatever the samples are. -/
theorem inputVad_eq [Field F] [LinearOrder F] (V : FrameVad F σ) (nIsAec : Bool)
    (d : VoiceDetector F σ π) (nPrevFrameNum : ℕ) :
    d.inputVad V nIsAec nPrevFrameNum (d.waveFrameNum isFloat - nPrevFrameNum) isFloat =
      VAD.doEnergyVad V nIsAec d.vad (d.framesFrom isFloat nPrevFrameNum) := by
  cases isFloat with
  | false =>
      show d.vad.inputWave V _ _ _ = _
      rw [VAD.inputWave]
      split
      case isTrue hzero =>
          rw [framesFrom, hzero]
          rfl
      case isFalse => rfl
  | true =>
      have hid : (Sample.toFloat : Sample F true → F) = id := rfl
      rw [framesFrom, hid, List.map_id]
      rfl

theorem frameOf_drop (wave : List F) (n i : ℕ) :
    VAD.frameOf (wave.drop (frameSize * n)) i = VAD.frameOf wave (n + i) := by
  rw [VAD.frameOf, VAD.frameOf, List.drop_drop, Nat.mul_add]

/-- A whole frame is not changed by later samples. -/
theorem frameOf_append (wave later : List F) {i : ℕ} (hi : i < wave.length / frameSize) :
    VAD.frameOf (wave ++ later) i = VAD.frameOf wave i := by
  have hend : frameSize * (i + 1) ≤ wave.length := by
    rw [Nat.mul_comm]
    exact (Nat.le_div_iff_mul_le (by decide)).mp hi
  rw [Nat.mul_add, Nat.mul_one] at hend
  rw [VAD.frameOf, VAD.frameOf, List.drop_append_of_le_length (by omega),
    List.take_append_of_le_length]
  rw [List.length_drop]
  omega

/-- The frames of a call follow those of the calls before. -/
theorem frames_append (accepted later : List F) :
    (List.range (accepted.length / frameSize)).map (VAD.frameOf accepted) ++
        (List.range' (accepted.length / frameSize)
          ((accepted ++ later).length / frameSize - accepted.length / frameSize)).map
          (VAD.frameOf (accepted ++ later)) =
      (List.range ((accepted ++ later).length / frameSize)).map
        (VAD.frameOf (accepted ++ later)) := by
  have hle : accepted.length / frameSize ≤ (accepted ++ later).length / frameSize := by
    apply Nat.div_le_div_right
    rw [List.length_append]
    exact Nat.le_add_right _ _
  have hold : (List.range (accepted.length / frameSize)).map (VAD.frameOf accepted) =
      (List.range (accepted.length / frameSize)).map (VAD.frameOf (accepted ++ later)) := by
    apply List.map_congr_left
    intro i hi
    exact (frameOf_append accepted later (List.mem_range.mp hi)).symm
  have hsplit := List.range'_append_1 (s := 0) (m := accepted.length / frameSize)
    (n := (accepted ++ later).length / frameSize - accepted.length / frameSize)
  rw [Nat.zero_add, Nat.add_sub_cancel' hle] at hsplit
  rw [hold, ← List.map_append, List.range_eq_range', hsplit, List.range_eq_range']

variable [IntCast F] {accepted : List F} {off : ℕ}

/-- The new frames are the next whole frames of the accepted samples. -/
theorem WaveAt.newFrames_eq (h : WaveAt isFloat d accepted off) (data : List (Sample F isFloat)) :
    d.newFrames isFloat data =
      (List.range' (accepted.length / frameSize)
        ((accepted ++ d.accepts isFloat data).length / frameSize - accepted.length / frameSize)).map
        (VAD.frameOf (accepted ++ d.accepts isFloat data)) := by
  have hfed : WaveAt isFloat (d.fed isFloat data) (accepted ++ d.accepts isFloat data) off :=
    h.feed data
  have hoff : off ≤ accepted.length / frameSize := by
    rw [Nat.le_div_iff_mul_le (by decide), Nat.mul_comm]
    exact h.le
  have hprev := h.alloc.1.waveFrameNum_eq
  have hstart : frameSize * off + (accepted.length / frameSize - off) * frameSize =
      frameSize * (accepted.length / frameSize) := by
    rw [Nat.mul_comm _ frameSize, ← Nat.mul_add, Nat.add_sub_cancel' hoff]
  have hcount : (d.fed isFloat data).waveFrameNum isFloat - (accepted.length / frameSize - off) =
      (accepted ++ d.accepts isFloat data).length / frameSize - accepted.length / frameSize := by
    rw [hfed.waveFrameNum_eq]
    omega
  rw [newFrames, framesFrom, List.range'_eq_map_range, List.map_map]
  simp only [hcount, hprev, List.map_drop, hfed.wave, List.drop_drop, hstart]
  apply List.map_congr_left
  intro i _
  exact frameOf_drop _ _ i

end Call

section Input

@[simp]
theorem length_judge (V : FrameVad F σ) (nIsAec : Bool) (s : σ) (frames : List (List F)) :
    (V.judge nIsAec s frames).length = frames.length := by
  induction frames generalizing s with
  | nil => rfl
  | cons frame frames ih => simp [FrameVad.judge, ih]

variable [Field F] [LinearOrder F] {accepted : List F} {results : List (F × F)} {off : ℕ}

/-- The results of the new frames enter the tables of the VAD and of the detector. -/
theorem calcProbs_spec (V : FrameVad F σ) (P : PitchExtr F π) (cfg : Config F) (nIsAec : Bool)
    (hwave : WaveAt isFloat d accepted off) (hvad : VadAt d.vad results off)
    (hprobs : ProbsAt d results off) (hpitch : PitchAt d) (nPrevFrameNum : ℕ)
    (hroom : results.length + (d.framesFrom isFloat nPrevFrameNum).length ≤ 6000) :
    ∃ e, d.calcProbs V P cfg isFloat nIsAec nPrevFrameNum = some e ∧
      WaveAt isFloat e accepted off ∧
      VadAt e.vad
        (results ++ V.judge nIsAec d.vad.state (d.framesFrom isFloat nPrevFrameNum)) off ∧
      ProbsAt e
        (results ++ V.judge nIsAec d.vad.state (d.framesFrom isFloat nPrevFrameNum)) off ∧
      PitchAt e ∧ SameVoice d e := by
  let frames := d.framesFrom isFloat nPrevFrameNum
  obtain ⟨vad, hjudge, hvadAt⟩ := hvad.doEnergyVad nIsAec frames hroom (V := V)
  have hframes : framesFrom isFloat nPrevFrameNum { d with vad := vad } = frames :=
    framesFrom_congr (waveBuf_congr rfl rfl) _
  obtain ⟨extr, table, n, hextr, hn⟩ := inputPitch_spec (d := { d with vad := vad }) P cfg isFloat
    hpitch frames
  have hmax : (results ++ V.judge nIsAec d.vad.state frames).length ≤ 6000 := by
    rw [List.length_append, length_judge]
    exact hroom
  obtain ⟨probs, bprobs, hcopy, htable, htable'⟩ := copyProbs_spec
    (d := { d with
      vad := vad
      pitchExtr := extr
      pitchprobs := table
      nCurPitchProbFrameNum := n })
    ⟨hprobs.offset, hprobs.cur, hprobs.probs, hprobs.bprobs⟩ hvadAt hmax
  refine ⟨{ d with
    vad := vad
    pitchExtr := extr
    pitchprobs := table
    nCurPitchProbFrameNum := n
    probs := probs
    bprobs := bprobs
    nCurProbFrameNum := (results ++ V.judge nIsAec d.vad.state frames).length },
    ?_, hwave.congr rfl rfl, hvadAt, ⟨hprobs.offset, rfl, htable, htable'⟩, hn,
    ⟨rfl, rfl, rfl, rfl⟩⟩
  rw [calcProbs, inputVad_eq, hjudge]
  show (inputPitch P cfg isFloat { d with vad := vad }
    (framesFrom isFloat nPrevFrameNum { d with vad := vad })).bind copyProbs = _
  rw [hframes, hextr]
  exact hcopy

/-- What a call finds when it starts to judge: its frames are in all tables, the voice is where it
was, and the input has ended if the caller says so, the buffer is full or the voice too long. -/
structure Judging (V : FrameVad F σ) (cfg : Config F) (isFloat : Bool)
    (data : List (Sample F isFloat)) (bIsEnd nIsAec : Bool) (d : VoiceDetector F σ π)
    (accepted : List F) (results : List (F × F)) (off : ℕ) (e : VoiceDetector F σ π) : Prop where
  books : Books isFloat e (accepted ++ d.accepts isFloat data)
    (results ++ V.judge nIsAec d.vad.state (d.newFrames isFloat data)) off
  start : e.nVocStartFrame = d.nVocStartFrame
  stop : e.nVocStopFrame = d.nVocStopFrame
  startOffset : e.nVocStartOffset = d.nVocStartOffset
  isEnd : e.bIsEnd = (bIsEnd || ((d.fed isFloat data).waveBuf isFloat).isFull ||
    decide (cfg.nMaxSpeechFrameNum ≤ d.getVoiceFrameNum))

/-- The frames judged so far and the new ones are the whole frames of all samples. -/
theorem Books.length_newFrames (h : Books isFloat d accepted results off)
    (data : List (Sample F isFloat)) :
    results.length + (d.newFrames isFloat data).length =
      (accepted ++ d.accepts isFloat data).length / frameSize := by
  rw [h.wave.newFrames_eq, List.length_map, List.length_range', ← h.whole]
  apply Nat.add_sub_cancel'
  apply Nat.div_le_div_right
  rw [List.length_append]
  exact Nat.le_add_right _ _

/-- The results of the new frames fit into the tables. -/
theorem Books.room (h : Books isFloat d accepted results off) (data : List (Sample F isFloat)) :
    (results.drop off).length + (d.newFrames isFloat data).length ≤ 6000 := by
  have hfed : WaveAt isFloat (d.fed isFloat data) (accepted ++ d.accepts isFloat data) off :=
    h.wave.feed data
  have hoff := h.off_le
  have hle := hfed.waveFrameNum_le
  rw [hfed.waveFrameNum_eq, ← h.length_newFrames data] at hle
  rw [List.length_drop]
  omega

/-- Before the end a call saves its samples and judges. -/
theorem internalInputWave_of_open [FloorRing F] (V : FrameVad F σ) (P : PitchExtr F π)
    (cfg : Config F) (hend : d.bIsEnd = false) (data : List (Sample F isFloat))
    (bIsEnd nIsAec : Bool) {bEnd : Bool}
    (hbEnd : bEnd = (bIsEnd || ((d.fed isFloat data).waveBuf isFloat).isFull ||
      decide (cfg.nMaxSpeechFrameNum ≤ d.getVoiceFrameNum))) :
    d.internalInputWave V P cfg isFloat data bIsEnd nIsAec =
      (calcProbs V P cfg isFloat nIsAec ((d.allocWave isFloat).waveFrameNum isFloat)
        { d.fed isFloat data with bIsEnd := bEnd }).bind fun e ↦
          (e.detectBegin V cfg nIsAec).bind fun e' ↦ some (e'.detectEnd cfg bEnd) := by
  obtain ⟨wave, floatWave, heq⟩ := d.fed_eq data
  obtain ⟨_, _, halloc⟩ := d.allocWave_eq isFloat
  have hvoice : (d.fed isFloat data).getVoiceFrameNum = d.getVoiceFrameNum := by
    rw [heq]
    rfl
  have hclosed : ¬ (d.allocWave isFloat).bIsEnd = true := by
    rw [halloc, Bool.not_eq_true]
    exact hend
  rw [internalInputWave, if_neg hclosed, hbEnd, ← hvoice]
  rfl

/-- A call judges its new frames. -/
theorem Books.judging (V : FrameVad F σ) (P : PitchExtr F π) (cfg : Config F)
    (h : Books isFloat d accepted results off) (data : List (Sample F isFloat))
    (bIsEnd nIsAec : Bool) {bEnd : Bool}
    (hbEnd : bEnd = (bIsEnd || ((d.fed isFloat data).waveBuf isFloat).isFull ||
      decide (cfg.nMaxSpeechFrameNum ≤ d.getVoiceFrameNum))) :
    ∃ e, calcProbs V P cfg isFloat nIsAec ((d.allocWave isFloat).waveFrameNum isFloat)
        { d.fed isFloat data with bIsEnd := bEnd } = some e ∧
      Judging V cfg isFloat data bIsEnd nIsAec d accepted results off e := by
  have hfed : WaveAt isFloat (d.fed isFloat data) (accepted ++ d.accepts isFloat data) off :=
    h.wave.feed data
  obtain ⟨wave, floatWave, heq⟩ := d.fed_eq data
  have hdrop : (results ++ V.judge nIsAec d.vad.state (d.newFrames isFloat data)).drop off =
      results.drop off ++ V.judge nIsAec d.vad.state (d.newFrames isFloat data) :=
    List.drop_append_of_le_length h.off_le
  let f := { d with bbWave := wave, bbFloatWave := floatWave, bIsEnd := bEnd }
  have hset : ({ d.fed isFloat data with bIsEnd := bEnd } : VoiceDetector F σ π) = f := by
    rw [heq]
  have hframes : f.framesFrom isFloat ((d.allocWave isFloat).waveFrameNum isFloat) =
      d.newFrames isFloat data := by
    apply framesFrom_congr
    rw [heq]
    exact waveBuf_congr rfl rfl
  obtain ⟨e, he, hwave, hvadAt, hprobsAt, hpitchAt, hsame⟩ := calcProbs_spec (d := f) V P cfg nIsAec
    ((heq ▸ hfed).congr rfl rfl) h.vad
    ⟨h.probs.offset, h.probs.cur, h.probs.probs, h.probs.bprobs⟩ h.pitch
    ((d.allocWave isFloat).waveFrameNum isFloat) (hframes.symm ▸ h.room data)
  rw [hframes] at hvadAt hprobsAt
  refine ⟨e, hset ▸ he, ⟨hwave, ?_, hdrop.symm ▸ hvadAt, hdrop.symm ▸ hprobsAt, hpitchAt⟩,
    hsame.start, hsame.stop, hsame.startOffset, hsame.isEnd.trans hbEnd⟩
  rw [← h.length_newFrames data, List.length_append, length_judge]

/-- **A call.**  It saves its samples, judges the new frames, and then looks for the voice. -/
theorem internalInputWave_eq [FloorRing F] (V : FrameVad F σ) (P : PitchExtr F π) (cfg : Config F)
    (h : Books isFloat d accepted results off) (hend : d.bIsEnd = false)
    (data : List (Sample F isFloat)) (bIsEnd nIsAec : Bool) :
    ∃ e, Judging V cfg isFloat data bIsEnd nIsAec d accepted results off e ∧
      d.internalInputWave V P cfg isFloat data bIsEnd nIsAec =
        (e.detectBegin V cfg nIsAec).map fun e' ↦ e'.detectEnd cfg e.bIsEnd := by
  obtain ⟨e, he, hjudging⟩ := h.judging V P cfg data bIsEnd nIsAec rfl
  refine ⟨e, hjudging, ?_⟩
  rw [internalInputWave_of_open V P cfg hend data bIsEnd nIsAec rfl, he, hjudging.isEnd,
    Option.map_eq_bind]
  rfl

/-- After the end a call only sees to the buffer. -/
theorem internalInputWave_of_isEnd [FloorRing F] (V : FrameVad F σ) (P : PitchExtr F π)
    (cfg : Config F) (hend : d.bIsEnd = true) (data : List (Sample F isFloat))
    (bIsEnd nIsAec : Bool) :
    d.internalInputWave V P cfg isFloat data bIsEnd nIsAec = some (d.allocWave isFloat) := by
  obtain ⟨_, _, halloc⟩ := d.allocWave_eq isFloat
  have hclosed : (d.allocWave isFloat).bIsEnd = true := by
    rw [halloc]
    exact hend
  rw [internalInputWave, if_pos hclosed]

theorem allocWave_books (h : Books isFloat d accepted results off) :
    Books isFloat (d.allocWave isFloat) accepted results off := by
  have hwave := h.wave.alloc.1
  obtain ⟨_, _, halloc⟩ := d.allocWave_eq isFloat
  rw [halloc] at hwave ⊢
  exact ⟨hwave, h.whole, h.vad, ⟨h.probs.offset, h.probs.cur, h.probs.probs, h.probs.bprobs⟩,
    h.pitch⟩

/-- What a detector keeps whatever is done with it, and `Restart` needs. -/
structure Sound (d : VoiceDetector F σ π) : Prop where
  wave : d.bbWave.Sound
  floatWave : d.bbFloatWave.Sound
  pitch : PitchAt d

theorem Books.sound (h : Books isFloat d accepted results off) : d.Sound :=
  ⟨h.wave.sound, h.wave.soundFloat, h.pitch⟩

/-- `Restart` begins anew with empty tables. -/
theorem restart_books (V : FrameVad F σ) (P : PitchExtr F π) (cfg : Config F) (h : d.Sound)
    (isFloat : Bool) : Books isFloat (d.restart V P cfg) [] [] 0 := by
  have hempty : ∀ e : VoiceDetector F σ π, e.bbWave = d.bbWave.clear →
      e.bbFloatWave = d.bbFloatWave.clear → WaveAt isFloat e [] 0 := by
    intro e hwave hfloat
    refine ⟨hwave ▸ h.wave.clear, hfloat ▸ h.floatWave.clear, fun _ ↦ hwave ▸ rfl, ?_, le_rfl⟩
    cases isFloat with
    | false =>
        show e.bbWave.bytes.map _ = _
        rw [hwave]
        rfl
    | true =>
        show e.bbFloatWave.bytes.map _ = _
        rw [hfloat]
        rfl
  rw [restart]
  split
  case isTrue =>
      exact ⟨hempty _ rfl rfl, Nat.zero_div _, ⟨rfl, rfl, tabulates_nil _⟩,
        ⟨rfl, rfl, tabulates_nil _, tabulates_nil _⟩, le_rfl, Int.le.intro 6000 rfl⟩
  case isFalse =>
      exact ⟨hempty _ rfl rfl, Nat.zero_div _, ⟨rfl, rfl, tabulates_nil _⟩,
        ⟨rfl, rfl, tabulates_nil _, tabulates_nil _⟩, h.pitch⟩

/-- `Reset` too. -/
theorem reset_books (V : FrameVad F σ) (P : PitchExtr F π) (cfg : Config F) (h : d.Sound)
    (isFloat : Bool) : Books isFloat (d.reset V P cfg) [] [] 0 := by
  have hrestart := restart_books V P cfg h isFloat
  exact ⟨hrestart.wave.congr rfl rfl, hrestart.whole, ⟨rfl, rfl, tabulates_nil _⟩,
    ⟨hrestart.probs.offset, hrestart.probs.cur, hrestart.probs.probs, hrestart.probs.bprobs⟩,
    hrestart.pitch⟩

/-- And the constructor. -/
theorem new_books (V : FrameVad F σ) (P : PitchExtr F π) (cfg : Config F)
    (memory : VoiceDetector F σ π) (isFloat : Bool) :
    Books isFloat (new V P cfg memory) [] [] 0 := by
  apply reset_books
  exact ⟨ByteBuffer.sound_new, ByteBuffer.sound_new, le_rfl, Int.le.intro 6000 rfl⟩

end Input

end VoiceDetector

/-! ## Sessions -/

/-- A detector, the samples it has accepted since the last `Restart`, and the frames the VAD has
judged since then, each with its result. -/
structure Session (F σ π : Type) where
  det : VoiceDetector F σ π
  accepted : List F
  judged : List (List F × (F × F))

/-- The calls of a run, which gives all its samples as `short` or all as `float`. -/
inductive Op (F : Type) (isFloat : Bool)
  | input (data : List (Sample F isFloat)) (bIsEnd nIsAec : Bool)
  | setStart (nIsAec : Bool)
  | freeze (bFreeze : Bool) (nSampleNum : ℤ)
  | restart
  | reset

namespace Session

open VoiceDetector

variable [Field F] [LinearOrder F] [FloorRing F]

/-- A call; it fails if the detector does. -/
def step {isFloat : Bool} (V : FrameVad F σ) (P : PitchExtr F π) (cfg : Config F)
    (s : Session F σ π) : Op F isFloat → Option (Session F σ π)
  | .input data bIsEnd nIsAec =>
      (s.det.internalInputWave V P cfg isFloat data bIsEnd nIsAec).map fun det ↦
        if s.det.bIsEnd then { s with det := det }
        else
          { det := det
            accepted := s.accepted ++ s.det.accepts isFloat data
            judged := s.judged ++ (s.det.newFrames isFloat data).zip
              (V.judge nIsAec s.det.vad.state (s.det.newFrames isFloat data)) }
  | .setStart nIsAec => (s.det.setStart V nIsAec).map fun r ↦ { s with det := r.1 }
  | .freeze bFreeze nSampleNum => some { s with det := s.det.freeze V bFreeze nSampleNum }
  | .restart => some ⟨s.det.restart V P cfg, [], []⟩
  | .reset => some ⟨s.det.reset V P cfg, [], []⟩

/-- A call in a run, which goes on only if it has not failed. -/
def next {isFloat : Bool} (V : FrameVad F σ) (P : PitchExtr F π) (cfg : Config F)
    (s : Option (Session F σ π)) (op : Op F isFloat) : Option (Session F σ π) :=
  s.bind fun s ↦ s.step V P cfg op

def new (V : FrameVad F σ) (P : PitchExtr F π) (cfg : Config F) (memory : VoiceDetector F σ π) :
    Session F σ π :=
  ⟨VoiceDetector.new V P cfg memory, [], []⟩

/-- What every run keeps. -/
structure Inv (isFloat : Bool) (s : Session F σ π) : Prop where
  books : ∃ off, Books isFloat s.det s.accepted (s.judged.map Prod.snd) off
  frames : s.judged.map Prod.fst =
    (List.range (s.accepted.length / frameSize)).map (VAD.frameOf s.accepted)

variable {isFloat : Bool} {s : Session F σ π} (V : FrameVad F σ) (P : PitchExtr F π)
  (cfg : Config F)

/-- A call that is not ignored. -/
theorem Inv.input (h : Inv isFloat s) (hend : s.det.bIsEnd = false)
    (data : List (Sample F isFloat)) (bIsEnd nIsAec : Bool) :
    ∃ s', s.step V P cfg (.input data bIsEnd nIsAec) = some s' ∧ Inv isFloat s' := by
  obtain ⟨off, hbooks⟩ := h.books
  obtain ⟨e, hjudging, hcall⟩ := internalInputWave_eq V P cfg hbooks hend data bIsEnd nIsAec
  obtain ⟨e', off', hbegin, hbooks'⟩ := detectBegin_books V cfg nIsAec hjudging.books
  have hdone := detectEnd_books cfg hbooks' e.bIsEnd
  have hlength := length_judge V nIsAec s.det.vad.state (s.det.newFrames isFloat data)
  refine ⟨⟨e'.detectEnd cfg e.bIsEnd, s.accepted ++ s.det.accepts isFloat data,
    s.judged ++ (s.det.newFrames isFloat data).zip
      (V.judge nIsAec s.det.vad.state (s.det.newFrames isFloat data))⟩, ?_, ⟨off', ?_⟩, ?_⟩
  · simp only [step, hcall, hbegin, hend, Option.map_some, Bool.false_eq_true, if_false]
  · rw [List.map_append, List.map_snd_zip hlength.le]
    exact hdone
  · rw [List.map_append, List.map_fst_zip hlength.ge, h.frames, hbooks.wave.newFrames_eq]
    exact frames_append _ _

theorem Inv.step (h : Inv isFloat s) (op : Op F isFloat) :
    ∃ s', s.step V P cfg op = some s' ∧ Inv isFloat s' := by
  obtain ⟨off, hbooks⟩ := h.books
  cases op with
  | input data bIsEnd nIsAec =>
      cases hend : s.det.bIsEnd with
      | false => exact h.input V P cfg hend data bIsEnd nIsAec
      | true =>
          refine ⟨{ s with det := s.det.allocWave isFloat }, ?_, ⟨off, ?_⟩, h.frames⟩
          · simp only [Session.step, internalInputWave_of_isEnd V P cfg hend, hend,
              Option.map_some, if_true]
          · exact allocWave_books hbooks
  | setStart nIsAec =>
      obtain ⟨e, off', he, hbooks'⟩ := setStart_books V nIsAec hbooks
      refine ⟨{ s with det := e }, ?_, ⟨off', hbooks'⟩, h.frames⟩
      rw [Option.map_eq_some_iff] at he
      obtain ⟨r, hr, rfl⟩ := he
      simp only [Session.step, hr, Option.map_some]
  | freeze bFreeze nSampleNum => exact ⟨_, rfl, ⟨off, hbooks.setState _⟩, h.frames⟩
  | restart =>
      exact ⟨_, rfl, ⟨0, restart_books V P cfg hbooks.sound isFloat⟩, by simp⟩
  | reset =>
      exact ⟨_, rfl, ⟨0, reset_books V P cfg hbooks.sound isFloat⟩, by simp⟩

/-- **The frames are in step**: buffer and tables begin at the same absolute frame of the samples
that were accepted since the last `Restart`, and end at the same one. -/
structure InStep (isFloat : Bool) (s : Session F σ π) : Prop where
  offset : s.det.nOffsetFrame = s.det.vad.nOffsetFrameNum
  curProb : s.det.nCurProbFrameNum = s.det.vad.nCurMaxFrame2 - s.det.vad.nOffsetFrameNum
  inBuffer : s.det.nCurProbFrameNum = s.det.waveFrameNum isFloat
  le : s.det.nCurProbFrameNum ≤ 6000
  wave : ∀ off : ℕ, s.det.nOffsetFrame = off →
    (s.det.waveBuf isFloat).bytes.map Sample.toFloat = s.accepted.drop (frameSize * off)
  offset_le : 0 ≤ s.det.nOffsetFrame ∧ frameSize * s.det.nOffsetFrame ≤ s.accepted.length
  frames : s.judged.map Prod.fst =
    (List.range (s.accepted.length / frameSize)).map (VAD.frameOf s.accepted)
  probs : ∀ off i : ℕ, s.det.nOffsetFrame = off → i < s.det.nCurProbFrameNum → ∃ p : F × F,
    s.judged[off + i]? = some (VAD.frameOf s.accepted (off + i), p) ∧
      s.det.probs i = p ∧ s.det.bprobs i = voice p

omit [FloorRing F] in
theorem Inv.inStep (h : Inv isFloat s) : s.InStep isFloat := by
  obtain ⟨off, hbooks⟩ := h.books
  have hcur := hbooks.probs.cur
  refine ⟨?_, ?_, ?_, ?_, ?_, ?_, h.frames, ?_⟩
  · rw [hbooks.probs.offset, hbooks.vad.offset]
  · rw [hcur, hbooks.vad.curMax, hbooks.vad.offset]
    omega
  · rw [hcur, hbooks.waveFrameNum_eq]
  · rw [hcur]
    exact_mod_cast hbooks.length_le
  · intro off' hoff
    have heq : off' = off := by
      rw [hbooks.probs.offset] at hoff
      exact_mod_cast hoff.symm
    rw [heq]
    exact hbooks.wave.wave
  · rw [hbooks.probs.offset]
    exact ⟨Int.natCast_nonneg off, by exact_mod_cast hbooks.wave.le⟩
  · intro off' i hoff hi
    have heq : off' = off := by
      rw [hbooks.probs.offset] at hoff
      exact_mod_cast hoff.symm
    subst heq
    rw [hcur] at hi
    have hlt : i < ((s.judged.map Prod.snd).drop off').length := by exact_mod_cast hi
    have hlt' : off' + i < s.judged.length := by
      rw [List.length_drop, List.length_map] at hlt
      omega
    have hget : s.judged[off' + i]? = some s.judged[off' + i] := List.getElem?_eq_getElem hlt'
    have hframe : s.judged[off' + i].1 = VAD.frameOf s.accepted (off' + i) := by
      have hframes := congrArg (fun l ↦ l[off' + i]?) h.frames
      have hwhole : off' + i < s.accepted.length / frameSize := by
        rw [hbooks.whole, List.length_map]
        exact hlt'
      simpa [hget, List.getElem?_range hwhole] using hframes
    have hresult : ((s.judged.map Prod.snd).drop off')[i]? = some s.judged[off' + i].2 := by
      rw [List.getElem?_drop, List.getElem?_map, hget]
      rfl
    have hflag : (((s.judged.map Prod.snd).drop off').map voice)[i]? =
        some (voice s.judged[off' + i].2) := by
      rw [List.getElem?_map, hresult]
      rfl
    refine ⟨s.judged[off' + i].2, ?_, hbooks.probs.probs i _ hresult, hbooks.probs.bprobs i _ hflag⟩
    rw [hget, ← hframe]

end Session

end Vsys.Ztvad
