import Mathlib.Data.Rat.Floor
import Vsys.Stream.Delay
import Vsys.Ztvad.Endpoint
import Vsys.Ztvad.PitchRange

/-!
# The frames of the pitch

The pitch extractor is ahead of its results: it gives the pitch of a frame when four more frames have
come.  The table of the pitch is therefore four frames shorter than the tables of the results, and
`OffsetWaveFrame` moves it with them.

`PitchTable` says that the extractor has been given every band-passed frame of the stream and that
the table has the pitch of the frames from `m_nOffsetFrame` on.  It is kept by every call that does
not create the extractor anew and does not drop frames whose pitch has not come yet
(`pitch_aligned`).  A `SetStart` in the middle of the stream does drop such frames, and a call that
creates the extractor anew gives it frames twice (`calcPitchFeature_of_recreate`).
-/

namespace Vsys.Ztvad

open Vsys.Stream Vsys.Trace VoiceDetector

variable {F σ π φ : Type}

/-! ## The extractor -/

/-- The band-pass filter, and what a pitch feature says about one of the frames it was given. -/
structure PitchFeature (F φ : Type) where
  bpfProcess : φ → List F → φ × List F
  prob : List (List F) → ℕ → F

/-- The state of the filter, and the frames that were given to the current extractor. -/
structure PitchState (F φ : Type) where
  bpf : φ
  given : List (List F)

namespace PitchFeature

variable (Q : PitchFeature F φ)

/-- The extractor, which has a delay of four frames. -/
def extr : PitchExtr F (PitchState F φ) where
  recreate e := { e with given := [] }
  process e frame := ({ e with bpf := (Q.bpfProcess e.bpf frame).1 }, (Q.bpfProcess e.bpf frame).2)
  acceptWaveform e frame := { e with given := e.given ++ [frame] }
  numFramesReady e := e.given.length - 4
  prob e i := Q.prob e.given i

/-- The band-passed frames of a stream that finds the filter in state `bpf`. -/
def passed (bpf : φ) (frames : List (List F)) : List (List F) := (filtered Q.bpfProcess bpf frames).2

/-- What an extractor that is given the frames from `first` on says about frame `a` when four more
frames have come. -/
def probOf (passed : List (List F)) (first a : ℕ) : F :=
  Q.prob ((passed.take (a + 5)).drop first) (a - first)

/-- The extractor after a stream of which it was given every frame. -/
def after (bpf : φ) (frames : List (List F)) : PitchState F φ :=
  ⟨(filtered Q.bpfProcess bpf frames).1, Q.passed bpf frames⟩

/-- The pitch of the frames whose pitch is known. -/
def probs (bpf : φ) (frames : List (List F)) : List F := delayed 4 Q.prob (Q.passed bpf frames)

variable (bpf : φ) (frames : List (List F))

@[simp]
theorem length_passed : (Q.passed bpf frames).length = frames.length :=
  length_filtered Q.bpfProcess bpf frames

@[simp]
theorem length_probs : (Q.probs bpf frames).length = frames.length - 4 := by
  rw [probs, length_delayed, length_passed]

theorem numFramesReady_after : Q.extr.numFramesReady (Q.after bpf frames) = frames.length - 4 := by
  show (Q.passed bpf frames).length - 4 = _
  rw [length_passed]

/-- One more frame. -/
theorem after_concat (frame : List F) :
    Q.after bpf (frames ++ [frame]) =
      Q.extr.acceptWaveform (Q.extr.process (Q.after bpf frames) frame).1
        (Q.extr.process (Q.after bpf frames) frame).2 := by
  rw [after, passed, filtered_concat]
  rfl

/-- What becomes known with it. -/
theorem probs_concat (frame : List F) :
    Q.probs bpf (frames ++ [frame]) = Q.probs bpf frames ++
      (List.range' (frames.length - 4) ((frames ++ [frame]).length - 4 - (frames.length - 4))).map
        (Q.extr.prob (Q.after bpf (frames ++ [frame]))) := by
  have hpassed : Q.passed bpf (frames ++ [frame]) = Q.passed bpf frames ++
      [(Q.bpfProcess (filtered Q.bpfProcess bpf frames).1 frame).2] := by
    rw [passed, filtered_concat]
    rfl
  rw [probs, hpassed, delayed_concat, ← hpassed, length_passed, length_passed]
  rfl

end PitchFeature

/-! ## What leaves the pitch alone -/

namespace VoiceDetector

/-- The extractor, its table and the offset are the same. -/
structure SamePitch (d e : VoiceDetector F σ π) : Prop where
  offset : e.nOffsetFrame = d.nOffsetFrame
  extr : e.pitchExtr = d.pitchExtr
  cur : e.nCurPitchProbFrameNum = d.nCurPitchProbFrameNum
  table : e.pitchprobs = d.pitchprobs

namespace SamePitch

variable {d e e' : VoiceDetector F σ π}

theorem refl (d : VoiceDetector F σ π) : SamePitch d d := ⟨rfl, rfl, rfl, rfl⟩

theorem trans (h : SamePitch d e) (h' : SamePitch e e') : SamePitch d e' :=
  ⟨h'.offset.trans h.offset, h'.extr.trans h.extr, h'.cur.trans h.cur, h'.table.trans h.table⟩

end SamePitch

section Same

variable {d e : VoiceDetector F σ π} {isFloat : Bool}

theorem samePitch_allocWave (isFloat : Bool) (d : VoiceDetector F σ π) :
    SamePitch d (d.allocWave isFloat) := by
  obtain ⟨_, _, halloc⟩ := d.allocWave_eq isFloat
  rw [halloc]
  exact ⟨rfl, rfl, rfl, rfl⟩

theorem samePitch_fed (data : List (Sample F isFloat)) (d : VoiceDetector F σ π) :
    SamePitch d (d.fed isFloat data) := by
  obtain ⟨_, _, hfed⟩ := d.fed_eq data
  rw [hfed]
  exact ⟨rfl, rfl, rfl, rfl⟩

theorem samePitch_shiftWave (d : VoiceDetector F σ π) (n : ℕ) : SamePitch d (d.shiftWave n) := by
  obtain ⟨_, _, hshift⟩ := d.shiftWave_eq n
  rw [hshift]
  exact ⟨rfl, rfl, rfl, rfl⟩

theorem samePitch_shiftProbs {nFrame : ℤ} (h : d.shiftProbs nFrame = some e) : SamePitch d e := by
  rw [shiftProbs] at h
  split at h
  case isTrue =>
      obtain ⟨probs, -, h⟩ := Option.bind_eq_some_iff.mp h
      obtain ⟨bprobs, -, h⟩ := Option.bind_eq_some_iff.mp h
      rw [← Option.some.inj h]
      exact ⟨rfl, rfl, rfl, rfl⟩
  case isFalse =>
      rw [← Option.some.inj h]
      exact ⟨rfl, rfl, rfl, rfl⟩

theorem samePitch_probLoop [Field F] [LinearOrder F] {n : ℕ} {i : ℤ}
    (h : probLoop n i d = some e) : SamePitch d e := by
  induction n generalizing i d with
  | zero =>
      rw [← Option.some.inj h]
      exact .refl d
  | succ n ih =>
      obtain ⟨probs, -, h⟩ := Option.bind_eq_some_iff.mp h
      obtain ⟨bprobs, -, h⟩ := Option.bind_eq_some_iff.mp h
      have hsame := ih h
      exact ⟨hsame.offset, hsame.extr, hsame.cur, hsame.table⟩

theorem samePitch_copyProbs [Field F] [LinearOrder F] (h : d.copyProbs = some e) :
    SamePitch d e := by
  obtain ⟨f, hloop, h⟩ := Option.bind_eq_some_iff.mp h
  have hsame := samePitch_probLoop hloop
  rw [← Option.some.inj h]
  exact ⟨hsame.offset, hsame.extr, hsame.cur, hsame.table⟩

theorem samePitch_judgeVoiceEnd [Field F] [LinearOrder F] (cfg : Config F)
    (d : VoiceDetector F σ π) : SamePitch d (d.judgeVoiceEnd cfg) := by
  rw [judgeVoiceEnd]
  split
  case isTrue => exact .refl d
  case isFalse =>
      split
      case isTrue => exact .refl d
      case isFalse =>
          split
          case h_1 => exact .refl d
          case h_2 => exact ⟨rfl, rfl, rfl, rfl⟩

theorem samePitch_detectEnd [Field F] [LinearOrder F] (cfg : Config F) (bIsEnd : Bool)
    (d : VoiceDetector F σ π) : SamePitch d (d.detectEnd cfg bIsEnd) := by
  have hjudge := samePitch_judgeVoiceEnd cfg d
  rw [detectEnd]
  split
  case isTrue =>
      dsimp only
      split
      case isTrue => exact ⟨hjudge.offset, hjudge.extr, hjudge.cur, hjudge.table⟩
      case isFalse =>
          split
          case isTrue => exact ⟨hjudge.offset, hjudge.extr, hjudge.cur, hjudge.table⟩
          case isFalse => exact hjudge
  case isFalse => exact .refl d

/-- The frame at which a voice is found is in the tables. -/
theorem scanBegin_lt [Field F] [LinearOrder F] [FloorRing F] {cfg : Config F} {i : ℤ}
    (h : d.scanBegin cfg = some i) : i < 0 ∨ i < d.nCurProbFrameNum := by
  have hlt := slide_lt h
  omega

end Same

/-! ## The table -/

/-- The extractor has been given every frame of the stream, and the table has the pitch of the
frames from `off` on. -/
structure PitchTable (Q : PitchFeature F φ) (d : VoiceDetector F σ (PitchState F φ)) (bpf : φ)
    (frames : List (List F)) (off : ℕ) : Prop where
  offset : d.nOffsetFrame = off
  extr : d.pitchExtr = Q.after bpf frames
  le : off ≤ frames.length - 4
  room : frames.length ≤ off + 6000
  cur : d.nCurPitchProbFrameNum = ((Q.probs bpf frames).drop off).length
  table : Tabulates d.pitchprobs ((Q.probs bpf frames).drop off)

namespace PitchTable

variable {Q : PitchFeature F φ} {d e : VoiceDetector F σ (PitchState F φ)} {bpf : φ}
  {frames : List (List F)} {off : ℕ}

theorem congr (h : PitchTable Q d bpf frames off) (hsame : SamePitch d e) :
    PitchTable Q e bpf frames off :=
  ⟨hsame.offset.trans h.offset, hsame.extr.trans h.extr, h.le, h.room, hsame.cur.trans h.cur,
    hsame.table ▸ h.table⟩

/-- How many frames have a pitch. -/
theorem cur_eq (h : PitchTable Q d bpf frames off) :
    d.nCurPitchProbFrameNum = ((frames.length - 4 - off : ℕ) : ℤ) := by
  rw [h.cur, List.length_drop, PitchFeature.length_probs]

/-- `OffsetWaveFrame` moves the table of the pitch with the others, if it has so many entries. -/
theorem shiftPitch (h : PitchTable Q d bpf frames off) {nFrame : ℤ} {n : ℕ} (hn : nFrame = n)
    (hle : nFrame ≤ d.nCurPitchProbFrameNum) :
    ∃ table count, d.shiftPitch nFrame =
        some { d with pitchprobs := table, nCurPitchProbFrameNum := count } ∧
      count = ((Q.probs bpf frames).drop (off + n)).length ∧
      Tabulates table ((Q.probs bpf frames).drop (off + n)) := by
  have hcur := h.cur_eq
  have hroom := h.room
  have hlength : ((Q.probs bpf frames).drop (off + n)).length = d.nCurPitchProbFrameNum - nFrame := by
    rw [List.length_drop, PitchFeature.length_probs, hcur]
    omega
  rw [VoiceDetector.shiftPitch]
  split
  case isTrue =>
      have hcount : nFrame + (d.nCurPitchProbFrameNum - nFrame) =
          ((Q.probs bpf frames).drop off).length := by
        rw [← h.cur]
        omega
      have hbound : nFrame + (d.nCurPitchProbFrameNum - nFrame) ≤ maxFrameNum := by
        rw [hcur, maxFrameNum]
        omega
      obtain ⟨table, hmove, htable⟩ := h.table.memmove hn (by omega) hcount hbound
      rw [List.drop_drop] at htable
      refine ⟨table, d.nCurPitchProbFrameNum - nFrame, ?_, hlength.symm, htable⟩
      rw [hmove]
      rfl
  case isFalse =>
      have hempty : (Q.probs bpf frames).drop (off + n) = [] := by
        apply List.drop_of_length_le
        rw [PitchFeature.length_probs]
        omega
      refine ⟨d.pitchprobs, 0, rfl, ?_, ?_⟩
      · rw [hempty]
        rfl
      · rw [hempty]
        exact tabulates_nil _

/-- **Frames are dropped with their pitch.** -/
theorem offsetWaveFrame (h : PitchTable Q d bpf frames off) {nFrame : ℤ}
    (hle : nFrame ≤ 0 ∨ nFrame ≤ d.nCurPitchProbFrameNum)
    (he : d.offsetWaveFrame nFrame = some e) : ∃ off', PitchTable Q e bpf frames off' := by
  rw [VoiceDetector.offsetWaveFrame] at he
  split at he
  case isTrue =>
      rw [← Option.some.inj he]
      exact ⟨off, h⟩
  case isFalse hpos =>
      split at he
      case isTrue =>
          rw [← Option.some.inj he]
          exact ⟨off, h⟩
      case isFalse =>
          obtain ⟨d₁, hprobs, he⟩ := Option.bind_eq_some_iff.mp he
          have hsame := (samePitch_shiftWave d nFrame.toNat).trans (samePitch_shiftProbs hprobs)
          have hle := hle.resolve_left hpos
          have hnat : nFrame = nFrame.toNat := by omega
          have hcur := h.cur_eq
          have hroom := h.room
          obtain ⟨table, count, hpitch, hcount, htable⟩ := (h.congr hsame).shiftPitch hnat
            (hsame.cur.symm ▸ hle)
          obtain ⟨d₂, hd₂, he⟩ := Option.bind_eq_some_iff.mp he
          obtain rfl := Option.some.inj (hpitch.symm.trans hd₂)
          obtain ⟨vad, -, he⟩ := Option.bind_eq_some_iff.mp he
          rw [← Option.some.inj he]
          refine ⟨off + nFrame.toNat, ?_, hsame.extr.trans h.extr, ?_, ?_, hcount, htable⟩
          · show d₁.nOffsetFrame + nFrame = _
            rw [hsame.offset, h.offset]
            omega
          · omega
          · omega

/-! ### New frames -/

/-- The probabilities that have become ready are appended. -/
theorem pushPitchProbs {d : VoiceDetector F σ π} {results : List F}
    (htable : Tabulates d.pitchprobs results) (hcur : d.nCurPitchProbFrameNum = results.length)
    (probs : List F) (hroom : results.length + probs.length ≤ 6000) :
    ∃ table, d.pushPitchProbs probs =
        some { d with
          pitchprobs := table
          nCurPitchProbFrameNum := (results ++ probs).length } ∧
      Tabulates table (results ++ probs) := by
  induction probs generalizing d results with
  | nil =>
      rw [List.append_nil, ← hcur]
      exact ⟨d.pitchprobs, rfl, htable⟩
  | cons prob probs ih =>
      rw [List.length_cons] at hroom
      have hlt : d.nCurPitchProbFrameNum < maxFrameNum := by
        rw [hcur, maxFrameNum]
        omega
      obtain ⟨table, hstore, hnext⟩ := htable.store hcur hlt prob
      have hcount : d.nCurPitchProbFrameNum + 1 = (results ++ [prob]).length := by
        rw [hcur, List.length_append, List.length_singleton, Nat.cast_add_one]
      have hroom' : (results ++ [prob]).length + probs.length ≤ 6000 := by
        rw [List.length_append, List.length_singleton]
        omega
      obtain ⟨last, hpush, hlast⟩ := ih
        (d := { d with
          pitchprobs := table
          nCurPitchProbFrameNum := d.nCurPitchProbFrameNum + 1 }) hnext hcount hroom'
      rw [List.append_assoc] at hpush hlast
      refine ⟨last, ?_, hlast⟩
      rw [VoiceDetector.pushPitchProbs, if_pos hlt, hstore]
      exact hpush

/-- **One more frame** enters the extractor, and the table gets what becomes known with it. -/
theorem pitchLoop (h : PitchTable Q d bpf frames off) (new : List (List F))
    (hroom : frames.length + new.length ≤ off + 6000) :
    ∃ e, d.pitchLoop Q.extr (frames.length - 4) new = some e ∧
      PitchTable Q e bpf (frames ++ new) off := by
  induction new generalizing d frames with
  | nil =>
      rw [List.append_nil]
      exact ⟨d, rfl, h⟩
  | cons frame new ih =>
      rw [List.length_cons] at hroom
      let extr := Q.after bpf (frames ++ [frame])
      let ready := (List.range' (frames.length - 4)
        ((frames ++ [frame]).length - 4 - (frames.length - 4))).map (Q.extr.prob extr)
      have hlength : (frames ++ [frame]).length = frames.length + 1 := List.length_append
      have hdrop : (Q.probs bpf (frames ++ [frame])).drop off =
          (Q.probs bpf frames).drop off ++ ready := by
        rw [Q.probs_concat, List.drop_append_of_le_length]
        rw [PitchFeature.length_probs]
        exact h.le
      have hready : ((Q.probs bpf frames).drop off).length + ready.length ≤ 6000 := by
        rw [← List.length_append, ← hdrop, List.length_drop, PitchFeature.length_probs]
        omega
      obtain ⟨table, hpush, htable⟩ := pushPitchProbs (d := { d with pitchExtr := extr }) h.table
        h.cur ready hready
      rw [← hdrop] at hpush htable
      have hnext : PitchTable Q
          { d with
            pitchExtr := extr
            pitchprobs := table
            nCurPitchProbFrameNum := ((Q.probs bpf (frames ++ [frame])).drop off).length }
          bpf (frames ++ [frame]) off :=
        ⟨h.offset, rfl, h.le.trans (by omega), by omega, rfl, htable⟩
      obtain ⟨e, hloop, he⟩ := ih hnext (by omega)
      rw [List.append_assoc] at he
      refine ⟨e, ?_, he⟩
      have haccept : Q.extr.acceptWaveform (Q.extr.process d.pitchExtr frame).1
          (Q.extr.process d.pitchExtr frame).2 = extr := by
        rw [h.extr]
        exact (Q.after_concat bpf frames frame).symm
      have hnum : Q.extr.numFramesReady extr = (frames ++ [frame]).length - 4 :=
        Q.numFramesReady_after bpf _
      calc d.pitchLoop Q.extr (frames.length - 4) (frame :: new)
          = (VoiceDetector.pushPitchProbs { d with pitchExtr := extr } ready).bind fun e ↦
              e.pitchLoop Q.extr ((frames ++ [frame]).length - 4) new := by
            rw [VoiceDetector.pitchLoop]
            dsimp only
            rw [haccept, hnum]
            rfl
        _ = some e := by
          rw [hpush]
          exact hloop

/-- **The frames of a call** enter the extractor, which is not created anew. -/
theorem calcProbs [Field F] [LinearOrder F] (h : PitchTable Q d bpf frames off) (V : FrameVad F σ)
    {cfg : Config F} (hpitch : cfg.bEnablePitch = true)
    (hkept : Q.extr.numFramesReady d.pitchExtr < cfg.nPitchExtrRecreateFrameNum) {nIsAec : Bool}
    {nPrevFrameNum : ℕ} (hroom : frames.length + (d.framesFrom true nPrevFrameNum).length ≤ off + 6000)
    (he : d.calcProbs V Q.extr cfg true nIsAec nPrevFrameNum = some e) :
    PitchTable Q e bpf (frames ++ d.framesFrom true nPrevFrameNum) off := by
  obtain ⟨vad, -, he⟩ := Option.bind_eq_some_iff.mp he
  obtain ⟨f, hf, he⟩ := Option.bind_eq_some_iff.mp he
  have hframes : framesFrom true nPrevFrameNum { d with vad := vad } =
      d.framesFrom true nPrevFrameNum := framesFrom_congr (waveBuf_congr rfl rfl) _
  have hready : Q.extr.numFramesReady d.pitchExtr = frames.length - 4 := by
    rw [h.extr, Q.numFramesReady_after]
  have hsame : SamePitch d { d with vad := vad } := ⟨rfl, rfl, rfl, rfl⟩
  obtain ⟨g, hloop, hg⟩ := (h.congr hsame).pitchLoop (d.framesFrom true nPrevFrameNum) hroom
  have hinput : VoiceDetector.inputPitch Q.extr cfg true { d with vad := vad }
      (framesFrom true nPrevFrameNum { d with vad := vad }) = some g := by
    rw [hframes, inputPitch, if_pos hpitch, calcPitchFeature, Bool.not_true,
      if_neg Bool.false_ne_true, if_neg (not_le.mpr hkept), hready]
    exact hloop
  obtain rfl := Option.some.inj (hinput.symm.trans hf)
  exact hg.congr (samePitch_copyProbs he)

/-! ### The search -/

section Search

variable {V : FrameVad F σ} {cfg : Config F} {nIsAec : Bool}

/-- A voice that begins where the pitch is known. -/
theorem beginVoice (h : PitchTable Q d bpf frames off) {start offset : ℤ}
    (hstart : d.bIsEnd = false → start ≤ 0 ∨ start ≤ d.nCurPitchProbFrameNum)
    (he : d.beginVoice V nIsAec start offset = some e) :
    0 ≤ e.nVocStartFrame ∧ ∃ off', PitchTable Q e bpf frames off' := by
  obtain ⟨clipped, hclip⟩ : ∃ clipped, clipped = if start < 0 then 0 else start := ⟨_, rfl⟩
  have hpos : 0 ≤ clipped := by
    rw [hclip]
    split <;> omega
  have hset : PitchTable Q { d with nVocStartFrame := clipped, nVocStartOffset := offset } bpf frames
      off := h.congr ⟨rfl, rfl, rfl, rfl⟩
  rw [VoiceDetector.beginVoice, ← hclip] at he
  split at he
  case isTrue hcond =>
      obtain ⟨f, hf, he⟩ := Option.bind_eq_some_iff.mp he
      have hle : clipped ≤ 0 ∨ clipped ≤ d.nCurPitchProbFrameNum := by
        have hle := hstart hcond.1
        rw [hclip]
        split <;> omega
      obtain ⟨off', hmoved⟩ := hset.offsetWaveFrame hle hf
      rw [← Option.some.inj he]
      exact ⟨le_rfl, off', hmoved.congr ⟨rfl, rfl, rfl, rfl⟩⟩
  case isFalse =>
      rw [← Option.some.inj he]
      exact ⟨hpos, off, hset.congr ⟨rfl, rfl, rfl, rfl⟩⟩

/-- **`SetStart`** where it drops no frames. -/
theorem setStart (h : PitchTable Q d bpf frames off)
    (hkeeps : 0 ≤ d.nVocStartFrame ∨ d.bIsEnd = true ∨ d.nCurProbFrameNum ≤ 1)
    {r : VoiceDetector F σ (PitchState F φ) × ℤ} (hr : d.setStart V nIsAec = some r) :
    ∃ off', PitchTable Q r.1 bpf frames off' := by
  rw [VoiceDetector.setStart] at hr
  split at hr
  case isTrue =>
      rw [← Option.some.inj hr]
      exact ⟨off, h⟩
  case isFalse hstarted =>
      obtain ⟨f, hf, hr⟩ := Option.bind_eq_some_iff.mp hr
      rw [← Option.some.inj hr]
      refine (h.beginVoice (fun hend ↦ .inl ?_) hf).2
      have hfew := (hkeeps.resolve_left hstarted).resolve_left (Bool.not_eq_true _ ▸ hend)
      omega

variable [Field F] [LinearOrder F] [FloorRing F]

/-- **The search for the beginning** drops no frame whose pitch is not known, as it keeps enough
frames before the one at which the voice is found. -/
theorem detectBegin (h : PitchTable Q d bpf frames off)
    (hlead : 3 ≤ cfg.nMinVocFrameNum + cfg.nPreFrameNum)
    (hcur : d.nCurProbFrameNum ≤ d.nCurPitchProbFrameNum + 4)
    (he : d.detectBegin V cfg nIsAec = some e) : ∃ off', PitchTable Q e bpf frames off' := by
  rw [VoiceDetector.detectBegin] at he
  split at he
  case isTrue hnone =>
      obtain ⟨f, hf, hrest⟩ := Option.bind_eq_some_iff.mp he
      have hjudge : f = d ∨ 0 ≤ f.nVocStartFrame ∧ ∃ off', PitchTable Q f bpf frames off' := by
        rw [judgeVoiceBegin] at hf
        split at hf
        case isTrue => exact .inl (Option.some.inj hf).symm
        case isFalse =>
            split at hf
            case h_1 => exact .inl (Option.some.inj hf).symm
            case h_2 i hi =>
                refine .inr (h.beginVoice (fun _ ↦ ?_) hf)
                have hlt := scanBegin_lt hi
                have hpos := h.cur_eq
                omega
      obtain rfl | ⟨hfound, off', hmoved⟩ := hjudge
      · rw [if_pos hnone] at hrest
        split at hrest
        case isTrue hlong =>
            refine h.offsetWaveFrame (.inr ?_) hrest
            have hsil := hlong.1
            rw [silFrames, maxFrameNum] at hsil
            rw [silFrames]
            split at hsil <;> omega
        case isFalse =>
            rw [← Option.some.inj hrest]
            exact ⟨off, h⟩
      · have hstarted : ¬ f.nVocStartFrame = -1 := by omega
        rw [if_neg hstarted] at hrest
        rw [← Option.some.inj hrest]
        exact ⟨off', hmoved⟩
  case isFalse =>
      rw [← Option.some.inj he]
      exact ⟨off, h⟩

end Search

/-! ### Restarts -/

/-- `Restart` begins with an empty table and a new extractor; the filter goes on. -/
theorem restart (V : FrameVad F σ) (Q : PitchFeature F φ) {cfg : Config F}
    (hpitch : cfg.bEnablePitch = true) (d : VoiceDetector F σ (PitchState F φ)) :
    PitchTable Q (d.restart V Q.extr cfg) d.pitchExtr.bpf [] 0 := by
  rw [VoiceDetector.restart, if_pos hpitch]
  exact ⟨rfl, rfl, le_rfl, Nat.zero_le _, rfl, tabulates_nil _⟩

theorem reset (V : FrameVad F σ) (Q : PitchFeature F φ) {cfg : Config F}
    (hpitch : cfg.bEnablePitch = true) (d : VoiceDetector F σ (PitchState F φ)) :
    PitchTable Q (d.reset V Q.extr cfg) d.pitchExtr.bpf [] 0 :=
  (restart V Q hpitch d).congr ⟨rfl, rfl, rfl, rfl⟩

end PitchTable

/-! ## An extractor that is created anew -/

/-- The frames that a new extractor is given again: the last four of the buffer. -/
def lastFrames (d : VoiceDetector F σ π) : List (List F) :=
  let nBufFrameNum := d.bbFloatWave.bytes.length / frameSize
  let nPrevFrameNum := if nBufFrameNum < 4 then nBufFrameNum else 4
  (List.range' (nBufFrameNum - nPrevFrameNum) nPrevFrameNum).map (VAD.frameOf d.bbFloatWave.bytes)

section Recreate

variable {Q : PitchFeature F φ} {d e : VoiceDetector F σ (PitchState F φ)}

theorem foldl_acceptWaveform (extr : PitchState F φ) (frames : List (List F)) :
    frames.foldl Q.extr.acceptWaveform extr = { extr with given := extr.given ++ frames } := by
  induction frames generalizing extr with
  | nil => rw [List.foldl_nil, List.append_nil]
  | cons frame frames ih =>
      rw [List.foldl_cons, ih]
      show PitchState.mk extr.bpf (extr.given ++ [frame] ++ frames) = _
      rw [List.append_assoc]
      rfl

theorem recreatedExtr_eq (d : VoiceDetector F σ (PitchState F φ)) :
    d.recreatedExtr Q.extr = ⟨d.pitchExtr.bpf, d.lastFrames⟩ := by
  rw [recreatedExtr, ← List.foldl_map, foldl_acceptWaveform]
  rfl

theorem pushPitchProbs_extr {d e : VoiceDetector F σ π} {probs : List F}
    (h : d.pushPitchProbs probs = some e) : e.pitchExtr = d.pitchExtr := by
  induction probs generalizing d with
  | nil => rw [Option.some.inj h]
  | cons prob probs ih =>
      rw [pushPitchProbs] at h
      split at h
      case isTrue =>
          obtain ⟨table, -, h⟩ := Option.bind_eq_some_iff.mp h
          have hlast := ih h
          exact hlast
      case isFalse => exact ih h

/-- Each new frame is given to the extractor once, after those that it has. -/
theorem pitchLoop_given {curFrame : ℕ} {frames : List (List F)}
    (h : d.pitchLoop Q.extr curFrame frames = some e) :
    e.pitchExtr.given = d.pitchExtr.given ++ Q.passed d.pitchExtr.bpf frames := by
  induction frames generalizing d curFrame with
  | nil =>
      rw [Option.some.inj h]
      exact (List.append_nil _).symm
  | cons frame frames ih =>
      obtain ⟨f, hpush, hloop⟩ := Option.bind_eq_some_iff.mp h
      rw [ih hloop, pushPitchProbs_extr hpush]
      exact List.append_assoc _ _ _

/-- **A new extractor** is given the last frames of the buffer as they are, which are not
band-passed and among which are those of the call, and then the frames of the call. -/
theorem calcPitchFeature_of_recreate {cfg : Config F} {frames : List (List F)}
    (hrecreate : cfg.nPitchExtrRecreateFrameNum ≤ Q.extr.numFramesReady d.pitchExtr)
    (h : d.calcPitchFeature Q.extr cfg true frames = some e) :
    e.pitchExtr.given = d.lastFrames ++ Q.passed d.pitchExtr.bpf frames := by
  rw [calcPitchFeature, Bool.not_true, if_neg Bool.false_ne_true, if_pos hrecreate] at h
  rw [pitchLoop_given h]
  show (d.recreatedExtr Q.extr).given ++ Q.passed (d.recreatedExtr Q.extr).bpf frames = _
  rw [recreatedExtr_eq]

end Recreate

end VoiceDetector

/-! ## Runs -/

/-- A session of a detector with such an extractor, and the state of the filter at the last
`Restart`. -/
structure PitchSession (F σ φ : Type) where
  session : Session F σ (PitchState F φ)
  bpf : φ

namespace PitchSession

/-- The frames of the stream since the last `Restart`. -/
def frames (s : PitchSession F σ φ) : List (List F) := s.session.judged.map Prod.fst

/-- The state of the filter at the last `Restart`, after a call. -/
def bpfAfter (s : PitchSession F σ φ) : Op F true → φ
  | .restart => s.session.det.pitchExtr.bpf
  | .reset => s.session.det.pitchExtr.bpf
  | .input _ _ _ => s.bpf
  | .setStart _ => s.bpf
  | .freeze _ _ => s.bpf

section Calls

variable [Field F] [LinearOrder F] [FloorRing F] (V : FrameVad F σ) (Q : PitchFeature F φ)
  (cfg : Config F)

/-- A call; it fails if the detector does. -/
def step (s : PitchSession F σ φ) (op : Op F true) : Option (PitchSession F σ φ) :=
  (s.session.step V Q.extr cfg op).map fun session ↦ ⟨session, s.bpfAfter op⟩

/-- A call in a run, which goes on only if it has not failed. -/
def next (s : Option (PitchSession F σ φ)) (op : Op F true) : Option (PitchSession F σ φ) :=
  s.bind fun s ↦ s.step V Q cfg op

/-- A detector after a `Restart`. -/
def restarted (d : VoiceDetector F σ (PitchState F φ)) : PitchSession F σ φ :=
  ⟨Session.restarted V Q.extr cfg d, d.pitchExtr.bpf⟩

end Calls

/-- **The pitch is aligned.** The current extractor was given the band-passed frames of the stream
from one of them to the newest, and the entries of the table are what such an extractor says about
the frames from `m_nOffsetFrame` on. -/
structure Aligned (Q : PitchFeature F φ) (s : PitchSession F σ φ) : Prop where
  given : ∃ first, (first < s.frames.length ∨ s.frames = []) ∧
    s.session.det.pitchExtr.given = (Q.passed s.bpf s.frames).drop first
  probs : ∀ k : ℕ, k < s.session.det.nCurPitchProbFrameNum → ∃ a first : ℕ,
    (a : ℤ) = k + s.session.det.nOffsetFrame ∧ first ≤ a ∧ a + 4 < s.frames.length ∧
      s.session.det.pitchprobs k = Q.probOf (Q.passed s.bpf s.frames) first a

/-- The call does not create the extractor anew, and as `SetStart` it drops no frames. -/
def Keeps (Q : PitchFeature F φ) (cfg : Config F) (s : Option (PitchSession F σ φ)) :
    Op F true → Prop
  | .input _ _ _ => ∀ t ∈ s, t.session.det.bIsEnd = true ∨
      Q.extr.numFramesReady t.session.det.pitchExtr < cfg.nPitchExtrRecreateFrameNum
  | .setStart _ => ∀ t ∈ s, 0 ≤ t.session.det.nVocStartFrame ∨ t.session.det.bIsEnd = true ∨
      t.session.det.nCurProbFrameNum ≤ 1
  | .freeze _ _ => True
  | .restart => True
  | .reset => True

instance (Q : PitchFeature F φ) (cfg : Config F) (s : Option (PitchSession F σ φ)) :
    ∀ op : Op F true, Decidable (Keeps Q cfg s op)
  | .input _ _ _ => inferInstanceAs (Decidable (∀ t ∈ s, _ ∨ _))
  | .setStart _ => inferInstanceAs (Decidable (∀ t ∈ s, _ ∨ _))
  | .freeze _ _ => inferInstanceAs (Decidable True)
  | .restart => inferInstanceAs (Decidable True)
  | .reset => inferInstanceAs (Decidable True)

/-- What the runs keep. -/
structure Inv [Field F] [LinearOrder F] (Q : PitchFeature F φ) (s : PitchSession F σ φ) : Prop where
  session : s.session.Inv true
  pitch : ∃ off, PitchTable Q s.session.det s.bpf s.frames off

end PitchSession

namespace PitchSession

/-! ## What the calls keep -/

section Keep

variable {Q : PitchFeature F φ} {s : PitchSession F σ φ}

/-- The tables say that the pitch is aligned. -/
theorem aligned_of_pitchTable {off : ℕ} (h : PitchTable Q s.session.det s.bpf s.frames off) :
    Aligned Q s := by
  refine ⟨⟨0, ?_, ?_⟩, ?_⟩
  · by_cases hnone : s.frames = []
    · exact .inr hnone
    · exact .inl (List.length_pos_iff.mpr hnone)
  · rw [h.extr]
    rfl
  · intro k hk
    have hlt := h.cur_eq
    have hready : off + k + 4 < (Q.passed s.bpf s.frames).length := by
      rw [PitchFeature.length_passed]
      omega
    refine ⟨off + k, 0, ?_, Nat.zero_le _, ?_, ?_⟩
    · rw [h.offset]
      omega
    · rwa [PitchFeature.length_passed] at hready
    · apply h.table
      rw [List.getElem?_drop, PitchFeature.probs, delayed_getElem? hready]
      rfl

variable [Field F] [LinearOrder F]

theorem Inv.aligned (h : Inv Q s) : Aligned Q s := by
  obtain ⟨off, htable⟩ := h.pitch
  exact aligned_of_pitchTable htable

variable [FloorRing F] {cfg : Config F}

/-- A call of `InputFloatWave` that is not ignored. -/
theorem Inv.input (h : Inv Q s) (V : FrameVad F σ) (hpitch : cfg.bEnablePitch = true)
    (hlead : 3 ≤ cfg.nMinVocFrameNum + cfg.nPreFrameNum) (hend : s.session.det.bIsEnd = false)
    (hkept : Q.extr.numFramesReady s.session.det.pitchExtr < cfg.nPitchExtrRecreateFrameNum)
    (data : List (Sample F true)) (bIsEnd nIsAec : Bool) {det : VoiceDetector F σ (PitchState F φ)}
    (hdet : s.session.det.internalInputWave V Q.extr cfg true data bIsEnd nIsAec = some det) :
    ∃ off, PitchTable Q det s.bpf (s.frames ++ s.session.det.newFrames true data) off := by
  obtain ⟨off, hbooks⟩ := h.session.books
  obtain ⟨off', htable⟩ := h.pitch
  have hoff : off' = off := by
    have hoffset := htable.offset
    rw [hbooks.probs.offset] at hoffset
    exact_mod_cast hoffset.symm
  subst hoff
  obtain ⟨e, he, hjudging⟩ := hbooks.judging V Q.extr cfg data bIsEnd nIsAec rfl
  rw [internalInputWave_of_open V Q.extr cfg hend data bIsEnd nIsAec rfl, he,
    Option.bind_some] at hdet
  obtain ⟨e', he', hdet⟩ := Option.bind_eq_some_iff.mp hdet
  have hlength : s.frames.length = (s.session.judged.map Prod.snd).length := by
    rw [frames, List.length_map, List.length_map]
  have hframes : s.frames.length + (s.session.det.newFrames true data).length ≤ off' + 6000 := by
    have hroom := hbooks.room data
    rw [List.length_drop] at hroom
    omega
  -- the state that the call judges has the samples, and the pitch as before
  have hfed := samePitch_fed data s.session.det
  have hjudged := (htable.congr hfed).congr (e := { s.session.det.fed true data with
    bIsEnd := bIsEnd || ((s.session.det.fed true data).waveBuf true).isFull ||
      decide (cfg.nMaxSpeechFrameNum ≤ s.session.det.getVoiceFrameNum) }) ⟨rfl, rfl, rfl, rfl⟩
  have hnew : PitchTable Q e s.bpf (s.frames ++ s.session.det.newFrames true data) off' :=
    hjudged.calcProbs V hpitch (by rw [← hfed.extr] at hkept; exact hkept) hframes he
  have hcur := hjudging.books.probs.cur
  rw [List.length_drop, List.length_append, length_judge, ← hlength] at hcur
  have hpitchcur := hnew.cur_eq
  rw [List.length_append] at hpitchcur
  obtain ⟨off, hbegin⟩ := hnew.detectBegin hlead (by omega) he'
  rw [← Option.some.inj hdet]
  exact ⟨off, hbegin.congr (samePitch_detectEnd cfg _ e')⟩

/-- Any call that meets the condition. -/
theorem Inv.step (h : Inv Q s) (V : FrameVad F σ) (hpitch : cfg.bEnablePitch = true)
    (hlead : 3 ≤ cfg.nMinVocFrameNum + cfg.nPreFrameNum) {op : Op F true}
    (hop : Keeps Q cfg (some s) op) : ∃ s', s.step V Q cfg op = some s' ∧ Inv Q s' := by
  obtain ⟨next, hnext, hsession⟩ := h.session.step V Q.extr cfg op
  obtain ⟨off, htable⟩ := h.pitch
  refine ⟨⟨next, s.bpfAfter op⟩, ?_, hsession, ?_⟩
  · rw [PitchSession.step, hnext]
    rfl
  · cases op with
    | input data bIsEnd nIsAec =>
        obtain ⟨det, hdet, rfl⟩ := Option.map_eq_some_iff.mp hnext
        cases hend : s.session.det.bIsEnd with
        | true =>
            rw [internalInputWave_of_isEnd V Q.extr cfg hend] at hdet
            rw [if_pos rfl, ← Option.some.inj hdet]
            exact ⟨off, htable.congr (samePitch_allocWave true s.session.det)⟩
        | false =>
            have hclosed : ¬ s.session.det.bIsEnd = true := Bool.not_eq_true _ ▸ hend
            have hkept := (hop s rfl).resolve_left hclosed
            obtain ⟨off', hdone⟩ := h.input V hpitch hlead hend hkept data bIsEnd nIsAec hdet
            have hlength := length_judge V nIsAec s.session.det.vad.state
              (s.session.det.newFrames true data)
            refine ⟨off', ?_⟩
            rw [if_neg Bool.false_ne_true, frames]
            dsimp only
            rw [List.map_append, List.map_fst_zip hlength.ge]
            exact hdone
    | setStart nIsAec =>
        obtain ⟨r, hr, rfl⟩ := Option.map_eq_some_iff.mp hnext
        exact htable.setStart (hop s rfl) hr
    | freeze bFreeze nSampleNum =>
        rw [← Option.some.inj hnext]
        exact ⟨off, htable.congr ⟨rfl, rfl, rfl, rfl⟩⟩
    | restart =>
        rw [← Option.some.inj hnext]
        exact ⟨0, .restart V Q hpitch s.session.det⟩
    | reset =>
        rw [← Option.some.inj hnext]
        exact ⟨0, .reset V Q hpitch s.session.det⟩

omit [FloorRing F] in
theorem inv_restarted (V : FrameVad F σ) (Q : PitchFeature F φ) (hpitch : cfg.bEnablePitch = true)
    {d : VoiceDetector F σ (PitchState F φ)} (hd : d.Sound) : Inv Q (restarted V Q cfg d) :=
  ⟨⟨⟨0, restart_books V Q.extr cfg hd true⟩, by simp [restarted, Session.restarted]⟩,
    0, .restart V Q hpitch d⟩

/-- **The alignment of the pitch.** In every run since a `Restart` in which no call creates the
extractor anew and no `SetStart` drops frames, the pitch is aligned in every state. -/
theorem pitch_aligned (V : FrameVad F σ) (Q : PitchFeature F φ) (hpitch : cfg.bEnablePitch = true)
    (hlead : 3 ≤ cfg.nMinVocFrameNum + cfg.nPreFrameNum)
    {d : VoiceDetector F σ (PitchState F φ)} (hd : d.Sound) {ops : List (Op F true)}
    (hops : Along (next V Q cfg) (Keeps Q cfg) (some (restarted V Q cfg d)) ops) :
    Throughout (next V Q cfg) (fun s ↦ ∃ t, s = some t ∧ Aligned Q t)
      (some (restarted V Q cfg d)) ops := by
  have hkeep : ∀ (s : Option (PitchSession F σ φ)) (op : Op F true), (∃ t, s = some t ∧ Inv Q t) →
      Keeps Q cfg s op → ∃ t, next V Q cfg s op = some t ∧ Inv Q t := by
    rintro _ op ⟨t, rfl, ht⟩ hop
    exact ht.step V hpitch hlead hop
  refine throughout_of_along hkeep ?_ ⟨_, rfl, inv_restarted V Q hpitch hd⟩ hops
  rintro s ⟨t, rfl, ht⟩
  exact ⟨t, rfl, ht.aligned⟩

end Keep

/-! ## A `SetStart` in the middle of the stream -/

/-- A filter that lets every frame through, and a feature that knows a frame by its first sample. -/
def firstSample : PitchFeature ℚ Unit where
  bpfProcess _ frame := ((), frame)
  prob given i := (given[i]?.bind List.head?).getD 0

theorem firstSample_probOf (passed : List (List ℚ)) {first a : ℕ} (hfirst : first ≤ a) :
    firstSample.probOf passed first a = (passed[a]?.bind List.head?).getD 0 := by
  show ((((passed.take (a + 5)).drop first)[a - first]?).bind List.head?).getD 0 = _
  rw [List.getElem?_drop, Nat.add_sub_cancel' hfirst, List.getElem?_take_of_lt (by omega)]

/-- A detector before its first `Restart`. -/
def blank : VoiceDetector ℚ Unit (PitchState ℚ Unit) where
  vad := ⟨fun _ ↦ 0, 0, 0, 0, ()⟩
  bbWave := .new
  bbFloatWave := .new
  nCurProbFrameNum := 0
  probs := fun _ ↦ (0, 0)
  bprobs := fun _ ↦ false
  nVocStartFrame := 0
  nVocStopFrame := 0
  nOffsetFrame := 0
  nVocStartOffset := 0
  bIsEnd := false
  pitchExtr := ⟨(), []⟩
  nCurPitchProbFrameNum := 0
  pitchprobs := fun _ ↦ 0

theorem blank_sound : blank.Sound :=
  ⟨ByteBuffer.sound_new, ByteBuffer.sound_new, le_rfl, Int.le.intro 6000 rfl⟩

/-- Six frames in two calls, and a `SetStart` before them. -/
def startThenFrames : List (Op ℚ true) :=
  [.setStart false, .input (levels [0, 1, 2]) false false, .input (levels [3, 4, 5]) false false]

theorem pitch_aligned_startThenFrames :
    Throughout (next loudVad firstSample Config.new) (fun s ↦ ∃ t, s = some t ∧ Aligned firstSample t)
      (some (restarted loudVad firstSample Config.new blank)) startThenFrames :=
  pitch_aligned loudVad firstSample rfl (by decide) blank_sound (by decide +kernel)

/-- Ten frames, a `SetStart`, and five frames more: the table then begins with the pitch of frame 6
for frame 9. -/
theorem not_aligned_of_setStart :
    ¬ Throughout (next loudVad firstSample Config.new)
      (fun s ↦ ∃ t, s = some t ∧ Aligned firstSample t)
      (some (restarted loudVad firstSample Config.new blank))
      [.input (levels [0, 1, 2, 3, 4, 5, 6, 7, 8, 9]) false false, .setStart false,
        .input (levels [10, 11, 12, 13, 14]) false false] := by
  have hfacts : (run (next loudVad firstSample Config.new)
      (some (restarted loudVad firstSample Config.new blank))
      [.input (levels [0, 1, 2, 3, 4, 5, 6, 7, 8, 9]) false false, .setStart false,
        .input (levels [10, 11, 12, 13, 14]) false false]).map (fun t ↦
          (t.session.det.nCurPitchProbFrameNum, t.session.det.nOffsetFrame,
            t.session.det.pitchprobs (0 : ℕ),
            ((firstSample.passed t.bpf t.frames)[9]?.bind List.head?).getD 0)) =
      some (5, 9, 6, 9) := by
    decide +kernel
  intro h
  obtain ⟨t, hrun, halign⟩ := h _ List.prefix_rfl
  rw [hrun, Option.map_some] at hfacts
  simp only [Option.some.injEq, Prod.mk.injEq] at hfacts
  obtain ⟨hcur, hoffset, hentry, hframe⟩ := hfacts
  obtain ⟨a, first, ha, hfirst, -, hprob⟩ := halign.probs 0 (by rw [hcur]; decide)
  have hnine : a = 9 := by
    rw [hoffset] at ha
    omega
  rw [firstSample_probOf _ hfirst, hnine, hframe, hentry] at hprob
  exact absurd hprob (by decide)

end PitchSession

end Vsys.Ztvad
