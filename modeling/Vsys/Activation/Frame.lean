import Vsys.Audio.Vad
import Vsys.Trace.Session
import Vsys.Vt.Word

/-!
# `VoiceActivation::processfrm`

The state machine of the activation library: wake words and voice edges go in, events for the
client go out.  One call of `processfrm` is cut into the phases of its body, in order; `control`
is what the client does to the machine between frames.

The engines around the machine are inputs.  A `FrameIn` holds what they answer during one frame:
the result of the wake-word engine and the word it detected, the output of the beam former for the
frame and for the replayed audio, and the answers of the voice detector.  Events are collected in
`events`; the energies the detector attaches to each of them are left out.
-/

namespace Vsys.Activation

open Vsys.Audio Vsys.Trace Vsys.Vt

/-- `VOICE_EVENT_*`, with the data `send_event` fills in. -/
inductive VoiceEvent
  | localWake
  | localSleep
  | vtInfo (word : List Char) (first last : ℤ) (energy : ℚ)
  | hotword
  | wakeNocmd
  | vadComing (soundLocation : ℤ)
  | vadStart
  | vadData (data : List UInt8)
  | vadEnd
  | vadCancel
  deriving DecidableEq

/-- The session event an event stands for, if any. -/
def VoiceEvent.session? : VoiceEvent → Option SessionEvent
  | vadStart => some .start
  | vadData _ => some .data
  | vadEnd => some .stop
  | vadCancel => some .cancel
  | _ => none

/-- The two bits of `vad_flag`. -/
structure VadFlag where
  on : Bool := false
  off : Bool := false

/-- The members of `VoiceActivation` that `processfrm` works on. -/
structure VoiceActivation where
  vadEnable : Bool
  vadFlag : VadFlag
  needAsr : Bool
  dataOutput : Bool
  awaked : Bool
  canceled : Bool
  cod : Cod Unit
  front : VadFront
  slInfo : ℚ × ℚ
  wordInfo : Option WordInfo
  wordDetInfo : Option WordDetInfo
  events : List VoiceEvent

/-- What the engines answer during one frame. -/
structure FrameIn where
  vbvResult : VtResult
  detWord : WordInfo
  detInfo : WordDetInfo
  formed : List ℚ
  formedReplay : List ℚ
  vad : ℕ → VadAnswer

/-- `active_action`; every other value is refused. -/
inductive Action
  | awake
  | sleep
  | other
  deriving DecidableEq

namespace VoiceActivation

/-- The encoder's `scaling` is 32768 for 16-bit and 24-bit input and 16384 otherwise. -/
def encoder (format : AudioFormat) : Encoder Unit :=
  Encoder.pcm16 (if format = .pcm16 ∨ format = .pcm24 then 32768 else 16384)

variable (E : Encoder Unit)

/-- The object after its constructor and `init`. -/
def create (vadEnable : Bool) : VoiceActivation where
  vadEnable := vadEnable
  vadFlag := {}
  needAsr := false
  dataOutput := false
  awaked := false
  canceled := false
  cod := Cod.create E
  front := VadFront.create
  slInfo := (0, 0)
  wordInfo := none
  wordDetInfo := none
  events := []

/-- `control`. -/
def control (s : VoiceActivation) : Action → VoiceActivation × ℤ
  | .awake => ({ s with needAsr := true }, 0)
  | .sleep => ({ s with awaked := false, needAsr := false }, 0)
  | .other => (s, -1)

/-! ## Events -/

/-- `get_sl_info`: the azimuth in whole degrees, brought into `[0, 360)`. -/
def getSlInfo (s : VoiceActivation) : ℤ :=
  let pi : ℚ := 31415936 / 10000000
  let degrees : ℚ := (s.slInfo.1 - pi) * 180 / pi + 1 / 10
  (if 0 ≤ degrees then ⌊degrees⌋ else ⌈degrees⌉) % 360

/-- `get_vt_info`. -/
def getVtInfo (s : VoiceActivation) : VoiceEvent :=
  match s.wordInfo, s.wordDetInfo with
  | some word, some det =>
      let first : ℤ := 20 * frameSize
      .vtInfo word.contentUtf8 first (first + det.wordPosStart - det.wordPosEnd) det.energy
  | _, _ => .vtInfo [] 0 0 0

/-- `send_event`, for an event whose data is already known. -/
def send (s : VoiceActivation) (event : VoiceEvent) : VoiceActivation :=
  { s with events := s.events ++ [event] }

/-- `send_event(VOICE_EVENT_VAD_DATA)`: the data are all bytes not yet fetched. -/
def sendData (s : VoiceActivation) : VoiceActivation :=
  let fetched := s.cod.getData2 E
  ({ s with cod := fetched.1 } : VoiceActivation).send (.vadData fetched.2)

/-- `set_vad_frame_num`. -/
def setVadFrameNum (s : VoiceActivation) (frameNum : ℤ) : VoiceActivation :=
  { s with front := s.front.setVadFrameNum frameNum }

/-! ## The phases of `processfrm` -/

/-- `reset_asr`, in the order of the source: `canceled` is cleared before it is tested. -/
def resetAsr (s : VoiceActivation) : VoiceActivation :=
  let s := { s with vadFlag := {}, awaked := false, canceled := false, needAsr := false,
                    front := s.front.vadReset, cod := s.cod.reset E }
  let s := if s.dataOutput && !s.canceled then s.send .vadCancel else s
  if s.vadEnable then { s with dataOutput := false } else s

/-- `awake_pre`. -/
def awakePre (input : FrameIn) : Bool := input.vbvResult.pre && !input.vbvResult.cancel

/-- A wake word: reset, remember the word and steer towards it. -/
def wake (s : VoiceActivation) (input : FrameIn) : VoiceActivation :=
  if awakePre input then
    { resetAsr E s with
      wordInfo := some input.detWord
      wordDetInfo := some input.detInfo
      slInfo := (input.detInfo.azimuth, input.detInfo.elevation) }
  else s

/-- The samples given to the voice detector: the replayed audio of a wake word, unless a sleep
word was decided at once, and otherwise the frame. -/
def voiceInput (input : FrameIn) : List ℚ :=
  if awakePre input &&
      !(input.vbvResult.detNocmd && decide (input.detWord.wordType = .sleep)) then
    input.formedReplay
  else input.formed

/-- The flags computed from the result of the wake-word engine. -/
structure WakeFlags where
  awakePre : Bool
  awake : Bool
  awakeCmd : Bool
  awakeNocmd : Bool
  sleepCmd : Bool
  sleepNocmd : Bool
  hotwordCmd : Bool
  hotwordNocmd : Bool

namespace WakeFlags

def cmd (flags : WakeFlags) : Bool := flags.awakeCmd || flags.sleepCmd || flags.hotwordCmd

def nocmd (flags : WakeFlags) : Bool := flags.awakeNocmd || flags.sleepNocmd || flags.hotwordNocmd

end WakeFlags

/-- `pWordInfo->iWordType == wordType`. -/
def isWord (s : VoiceActivation) (wordType : WordType) : Bool :=
  decide (s.wordInfo.map WordInfo.wordType = some wordType)

/-- Every flag asks for `awake_pre` in the same frame. -/
def wakeFlags (s : VoiceActivation) (input : FrameIn) : WakeFlags :=
  let pre := awakePre input
  let rt := input.vbvResult
  { awakePre := pre
    awake := pre && s.isWord .awake
    awakeCmd := pre && rt.detCmd && s.isWord .awake
    awakeNocmd := pre && rt.detNocmd && s.isWord .awake
    sleepCmd := pre && rt.detCmd && s.isWord .sleep
    sleepNocmd := pre && rt.detNocmd && s.isWord .sleep
    hotwordCmd := pre && rt.detCmd && s.isWord .hotword
    hotwordNocmd := pre && rt.detNocmd && s.isWord .hotword }

/-- A voice start. -/
def voiceOn (s : VoiceActivation) (awake : Bool) (vad : VadResult) : VoiceActivation :=
  if vad.on then
    let s := { s with vadFlag := { on := vad.on, off := vad.off }, awaked := false,
                      canceled := false, dataOutput := false, cod := s.cod.reset E }
    if awake then
      let s := { s with awaked := true, needAsr := true }
      let s := s.send (.vadComing s.getSlInfo)
      s.send s.getVtInfo
    else s
  else s

/-- Tell the client about the decided word, and restore the detector's patience. -/
def notify (s : VoiceActivation) (flags : WakeFlags) : VoiceActivation :=
  let patience : ℤ := if s.vadEnable then -1 else 2000
  let s :=
    if flags.nocmd then
      let s := if flags.sleepNocmd then s.send .localSleep else s
      let s := if flags.awakeNocmd then s.send .wakeNocmd else s
      let s := if flags.hotwordNocmd then s.send .hotword else s
      if !flags.sleepNocmd then s.setVadFrameNum patience else s
    else s
  if flags.cmd then
    let s := s.setVadFrameNum patience
    if flags.awakeCmd then s.send .localWake else s
  else s

/-- Open a session, or begin one that is canceled from the start. -/
def openSession (s : VoiceActivation) (flags : WakeFlags) : VoiceActivation :=
  if !s.dataOutput then
    if flags.cmd || flags.nocmd then
      let s := { s with dataOutput := true }
      if flags.cmd then s.send .vadStart
      else { s with canceled := true, cod := s.cod.pause }
    else if s.needAsr && !s.awaked then
      let s := { s with dataOutput := true }
      let s := if !s.vadEnable then s.setVadFrameNum 2000 else s
      s.send .vadStart
    else s
  else s

/-- Cancel an open session that is too long or no longer wanted. -/
def cancelSession (s : VoiceActivation) : VoiceActivation :=
  if !s.canceled then
    let s := if s.vadEnable && s.cod.isTooLong then { s with canceled := true } else s
    let s := if !s.awaked && !s.needAsr then { s with canceled := true } else s
    if s.canceled then
      let s :=
        if !s.vadEnable then
          ({ s with vadFlag := {}, dataOutput := false } : VoiceActivation).setVadFrameNum (-1)
        else s
      ({ s with cod := s.cod.pause } : VoiceActivation).send .vadCancel
    else s
  else s

/-- Resume a canceled session when enough voice has come in since. -/
def resumeSession (s : VoiceActivation) : VoiceActivation :=
  if s.vadEnable && s.canceled && s.awaked then
    if s.cod.isNeedResume then
      ({ s with canceled := false, cod := s.cod.resume } : VoiceActivation).send .vadStart
    else s
  else s

/-- `__cod->getdatalen() > bound` and, if so, a data event. -/
def sendIfMore (s : VoiceActivation) (bound : ℕ) : VoiceActivation :=
  let pending := s.cod.getDataLen E
  let s := { s with cod := pending.1 }
  if pending.2 > bound then s.sendData E else s

/-- Send the bytes of an open session. -/
def dataSession (s : VoiceActivation) (awakePre vadOff : Bool) : VoiceActivation :=
  if !s.canceled then
    let s := if !awakePre then s.sendIfMore E 100 else s
    if vadOff then s.sendIfMore E 0 else s
  else s

/-- What is done while voice is on. -/
def voiceSession (s : VoiceActivation) (flags : WakeFlags) (vad : VadResult) : VoiceActivation :=
  if s.vadFlag.on then
    let s := ({ s with cod := s.cod.process vad.data } : VoiceActivation).openSession flags
    if s.dataOutput then
      (s.cancelSession.resumeSession).dataSession E flags.awakePre vad.off
    else s
  else s

/-- A voice stop. -/
def voiceOff (s : VoiceActivation) (vad : VadResult) : VoiceActivation :=
  if vad.off then
    let s := { s with vadFlag := {} }
    let s := if s.vadEnable then { s with needAsr := false } else s
    let s := if s.vadEnable && s.dataOutput && !s.canceled then s.send .vadEnd else s
    { s with dataOutput := false }
  else s

/-- `processfrm`. -/
def processfrm (s : VoiceActivation) (input : FrameIn) : VoiceActivation :=
  let s := s.wake E input
  let flags := s.wakeFlags input
  let (front, vad) := checkVoiceActivity input.vad s.front (voiceInput input) flags.awake
  let s := ({ s with front := front } : VoiceActivation).voiceOn E flags.awake vad
  let s := s.notify flags
  (s.voiceSession E flags vad).voiceOff vad

end VoiceActivation

end Vsys.Activation
