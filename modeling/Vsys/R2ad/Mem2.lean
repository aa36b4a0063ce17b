import Vsys.Audio.Vad
import Vsys.R2ad.Vbv3
import Vsys.Trace.Session

/-!
# `r2mem2`

The second stage of the `r2ad3` front end.  `ProcessData` takes a block of audio and the client's
flags and leaves its messages in a list; `GetMsgLst` hands the list over and runs the built-in
checker `m_iAsrMsgCheckFlag` over it.  One call of `ProcessData` is cut into the phases of its
body, in order.

The engines are inputs, as for the activation library: a `Mem2In` holds what they answer during
one call.  The text `getinfo_sl` prints is represented by its two numbers.
-/

namespace Vsys.R2ad

open Vsys.Audio Vsys.Trace Vsys.Vt

/-- `r2ad_msg`: the messages `r2mem2` sends. -/
inductive MsgId
  | vadStart
  | vadData
  | vadEnd
  | vadCancel
  | awakePre
  | awakeNocmd
  | awakeCmd
  | sleep
  | hotword
  | debugAudio
  deriving DecidableEq, Repr

/-- `pMsgData`. -/
inductive MsgData
  | none
  | text (info : List Char)
  | slInfo (azimuth : ℤ) (elevation : ℚ)
  | audio (data : List UInt8)
  deriving DecidableEq

/-- `r2ad_msg_block`. -/
structure Msg where
  msgId : MsgId
  msgData : MsgData := .none
  deriving DecidableEq

/-- The session event a message stands for, if any. -/
def MsgId.session? : MsgId → Option SessionEvent
  | vadStart => some .start
  | vadData => some .data
  | vadEnd => some .stop
  | vadCancel => some .cancel
  | _ => Option.none

/-- What the client passes to one call of `ProcessData`, and what the engines answer during it. -/
structure Mem2In where
  lenIn : ℕ
  aecFlag : ℤ
  awakeFlag : ℤ
  sleepFlag : ℤ
  asrFlag : ℤ
  hotwordFlag : ℤ
  lenMul : ℕ
  micFixed : Bool
  vbvResult : VtResult
  detWord : WordInfo
  detInfo : WordDetInfo
  formed : List ℚ
  formedReplay : List ℚ
  vad : ℕ → VadAnswer
  checkSl : Bool

/-- The state of an `r2mem2` object.  `slInfo` is the direction of `m_pMem_Bf`, and
`checkHeld` records that no `ERROR` branch of the message checker was taken. -/
structure Mem2 (σ : Type*) where
  asr : Bool
  vadStart : Bool
  dataOutput : Bool
  canceled : Bool
  awake : Bool
  firstFrm : Bool
  awakeInfo : List Char
  slInfo : ℚ × ℚ
  vbv : Vbv3
  vad2 : Vad2
  cod : Cod σ
  msgLst : List Msg
  asrMsgCheckFlag : Bool
  checkHeld : Bool

namespace Mem2

variable {σ : Type*} (E : Encoder σ)

/-- The constructor. -/
def create : Mem2 σ where
  asr := false
  vadStart := false
  dataOutput := false
  canceled := false
  awake := false
  firstFrm := true
  awakeInfo := []
  slInfo := (0, 0)
  vbv := {}
  vad2 := Vad2.create
  cod := Cod.create E
  msgLst := []
  asrMsgCheckFlag := false
  checkHeld := true

/-! ## Messages -/

/-- `AddMsg`. -/
def addMsg (s : Mem2 σ) (msgId : MsgId) (msgData : MsgData := .none) : Mem2 σ :=
  { s with msgLst := s.msgLst ++ [⟨msgId, msgData⟩] }

/-- `getinfo_sl`: azimuth in whole degrees brought into `[0, 360)`, and elevation in degrees. -/
def slData (s : Mem2 σ) : MsgData :=
  let pi : ℚ := 31415936 / 10000000
  let degrees : ℚ := (s.slInfo.1 - pi) * 180 / pi + 1 / 10
  .slInfo ((if 0 ≤ degrees then ⌊degrees⌋ else ⌈degrees⌉) % 360) (s.slInfo.2 * 180 / pi)

/-- `AddMsgWithSlInfo(iMsgId, m_pMem_Bf->getinfo_sl())`. -/
def addMsgSl (s : Mem2 σ) (msgId : MsgId) : Mem2 σ := s.addMsg msgId s.slData

/-- `AddMsgWithAudio`: the data are all bytes not yet fetched. -/
def addMsgWithAudio (s : Mem2 σ) (msgId : MsgId) : Mem2 σ :=
  let fetched := s.cod.getData2 E
  ({ s with cod := fetched.1 } : Mem2 σ).addMsg msgId (.audio fetched.2)

/-- `ClearMsgLst`. -/
def clearMsgLst (s : Mem2 σ) : Mem2 σ := { s with msgLst := [] }

/-- `PrintMsgInfo`: a start expects the flag down, the other session messages expect it up. -/
def printMsgInfo (s : Mem2 σ) (msg : Msg) : Mem2 σ :=
  match msg.msgId with
  | .vadStart =>
      { s with checkHeld := s.checkHeld && !s.asrMsgCheckFlag, asrMsgCheckFlag := true }
  | .vadData => { s with checkHeld := s.checkHeld && s.asrMsgCheckFlag }
  | .vadEnd | .vadCancel =>
      { s with checkHeld := s.checkHeld && s.asrMsgCheckFlag, asrMsgCheckFlag := false }
  | _ => s

/-- `GetMsgLst`. -/
def getMsgLst (s : Mem2 σ) : Mem2 σ × List Msg := (s.msgLst.foldl printMsgInfo s, s.msgLst)

/-! ## The phases of `ProcessData` -/

/-- `ResetAsr`: a session that is open is canceled first. -/
def resetAsr (s : Mem2 σ) : Mem2 σ :=
  let s := if s.dataOutput && !s.canceled then s.addMsg .vadCancel else s
  { s with asr := false, vadStart := false, dataOutput := false, canceled := false, awake := false,
           vad2 := s.vad2.reset, cod := s.cod.reset E, slInfo := (0, 0) }

/-- The part before the wake-word engine: the flag, and new engines if a microphone is broken. -/
def prepare (s : Mem2 σ) (input : Mem2In) : Mem2 σ :=
  let s := if input.asrFlag = 1 then { s with asr := true } else s
  if s.firstFrm ∧ input.lenMul > 0 then
    let s := { s with firstFrm := false }
    if input.micFixed then { s with vbv := {}, slInfo := (0, 0) } else s
  else s

/-- `m_pMem_Vbv3->Process`. -/
def detect (s : Mem2 σ) (input : Mem2In) : Mem2 σ :=
  { s with vbv := s.vbv.process input.vbvResult input.detWord input.detInfo }

/-- `bPre`. -/
def bPre (input : Mem2In) : Bool := input.vbvResult.pre && !input.vbvResult.cancel

/-- The flags computed from the result of the wake-word engine and the client's flags. -/
structure WakeFlags where
  pre : Bool
  awakePre : Bool
  awakeCmd : Bool
  awakeNoCmd : Bool
  sleepCmd : Bool
  sleepNoCmd : Bool
  hotwordCmd : Bool
  hotwordNoCmd : Bool

namespace WakeFlags

def cmd (flags : WakeFlags) : Bool := flags.awakeCmd || flags.sleepCmd || flags.hotwordCmd

def noCmd (flags : WakeFlags) : Bool := flags.awakeNoCmd || flags.sleepNoCmd || flags.hotwordNoCmd

end WakeFlags

/-- `m_pMem_Vbv3->m_pWordInfo->iWordType == wordType`. -/
def isWord (s : Mem2 σ) (wordType : WordType) : Bool :=
  decide (s.vbv.wordInfo.map WordInfo.wordType = some wordType)

/-- The decision bits count in whatever frame they come. -/
def wakeFlags (s : Mem2 σ) (input : Mem2In) : WakeFlags :=
  let rt := input.vbvResult
  let bAwake := decide (input.awakeFlag = 1)
  let bSleep := decide (input.sleepFlag = 1)
  let bHotWord := decide (input.hotwordFlag = 1)
  { pre := bPre input
    awakePre := bAwake && bPre input && s.isWord .awake
    awakeCmd := bAwake && (rt.detCmd && s.isWord .awake)
    awakeNoCmd := bAwake && (rt.detNocmd && s.isWord .awake)
    sleepCmd := bSleep && (rt.detCmd && s.isWord .sleep)
    sleepNoCmd := bSleep && (rt.detNocmd && s.isWord .sleep)
    hotwordCmd := bHotWord && (rt.detCmd && s.isWord .hotword)
    hotwordNoCmd := bHotWord && (rt.detNocmd && s.isWord .hotword) }

/-- A wake word: reset and steer towards it. -/
def wake (s : Mem2 σ) (input : Mem2In) : Mem2 σ :=
  if bPre input then
    let det := s.vbv.wordDetInfo.getD {}
    { resetAsr E s with slInfo := (det.azimuth, det.elevation) }
  else s

/-- The samples given to the voice detector; the first 15 replayed frames are skipped. -/
def voiceInput (input : Mem2In) : List ℚ :=
  if bPre input then input.formedReplay.drop (15 * frameSize) else input.formed

/-- A voice start. -/
def voiceOn (s : Mem2 σ) (bAsr : Bool) (flags : WakeFlags) (vad : VadResult) : Mem2 σ :=
  if vad.on then
    let s := { s with asr := bAsr, vadStart := true, dataOutput := false, canceled := false,
                      awake := false, cod := s.cod.reset E }
    if flags.awakePre then
      let s := ({ s with awake := true } : Mem2 σ).addMsgSl .awakePre
      { s with awakeInfo := (s.vbv.wordInfo.map WordInfo.contentUtf8).getD [] }
    else s
  else s

/-- `m_pMem_Vad2->setvadendparam(-1)`. -/
def restorePatience (s : Mem2 σ) : Mem2 σ := { s with vad2 := s.vad2.setVadEndParam (-1) }

/-- Tell the client about the decided word. -/
def notify (s : Mem2 σ) (flags : WakeFlags) : Mem2 σ :=
  let s :=
    if flags.noCmd then
      let s := if flags.sleepNoCmd then s.addMsgSl .sleep else s
      let s := if flags.awakeNoCmd then s.addMsgSl .awakeNocmd else s
      let s := if flags.hotwordNoCmd then s.addMsgSl .hotword else s
      s.restorePatience
    else s
  if flags.cmd then
    let s := if flags.awakeCmd then s.addMsgSl .awakeCmd else s
    s.restorePatience
  else s

/-- Open a session, or begin one that is canceled from the start. -/
def openSession (s : Mem2 σ) (flags : WakeFlags) (checkSl : Bool) : Mem2 σ :=
  if !s.dataOutput then
    if flags.cmd || flags.noCmd then
      let s := { s with dataOutput := true }
      if flags.cmd then s.addMsg .vadStart (.text s.awakeInfo)
      else { s with canceled := true, cod := s.cod.pause }
    else if s.asr && !s.awake then
      if checkSl then ({ s with dataOutput := true } : Mem2 σ).addMsg .vadStart (.text []) else s
    else s
  else s

/-- Cancel an open session that is too long or no longer wanted. -/
def cancelSession (s : Mem2 σ) (bAsr : Bool) : Mem2 σ :=
  if !s.canceled then
    let s := if !s.awake && s.cod.isTooLong then { s with canceled := true } else s
    let s := if !s.awake && !bAsr then { s with canceled := true } else s
    if s.canceled then ({ s with cod := s.cod.pause } : Mem2 σ).addMsg .vadCancel else s
  else s

/-- Resume a canceled session when enough voice has come in since. -/
def resumeSession (s : Mem2 σ) : Mem2 σ :=
  if s.canceled && s.awake then
    if s.cod.isNeedResume then
      ({ s with canceled := false, cod := s.cod.resume } : Mem2 σ).addMsg .vadStart
        (.text s.awakeInfo)
    else s
  else s

/-- `getdatalen() > bound` and, if so, a data message. -/
def addIfMore (s : Mem2 σ) (bound : ℕ) : Mem2 σ :=
  let pending := s.cod.getDataLen E
  let s := { s with cod := pending.1 }
  if pending.2 > bound then s.addMsgWithAudio E .vadData else s

/-- Send the bytes of an open session. -/
def dataSession (s : Mem2 σ) (pre vadOff : Bool) : Mem2 σ :=
  if !s.canceled then
    let s := if !pre then s.addIfMore E 100 else s
    if vadOff then s.addIfMore E 0 else s
  else s

/-- What is done while voice is on. -/
def voiceSession (s : Mem2 σ) (bAsr : Bool) (flags : WakeFlags) (checkSl : Bool)
    (vad : VadResult) : Mem2 σ :=
  if s.vadStart then
    let s := ({ s with cod := s.cod.process vad.data } : Mem2 σ).openSession flags checkSl
    if s.dataOutput then
      ((s.cancelSession bAsr).resumeSession).dataSession E flags.pre vad.off
    else s
  else s

/-- A voice stop. -/
def voiceOff (s : Mem2 σ) (vad : VadResult) : Mem2 σ :=
  if vad.off then
    let s := s.restorePatience
    let s := if s.dataOutput && !s.canceled then s.addMsg .vadEnd else s
    let s :=
      if s.awake then
        ({ s with cod := s.cod.pause.resume } : Mem2 σ).addMsgWithAudio E .debugAudio
      else s
    { s with awake := false, asr := false, vadStart := false, dataOutput := false,
             canceled := false }
  else s

/-- `ProcessData` behind the test for an empty block. -/
def processBlock (s : Mem2 σ) (input : Mem2In) : Mem2 σ :=
  let bAsr := decide (input.asrFlag = 1)
  let s := (s.prepare input).detect input
  let flags := s.wakeFlags input
  let s := s.wake E input
  let (vad2, vad) := s.vad2.process input.vad (voiceInput input) flags.pre
  let s := ({ s with vad2 := vad2 } : Mem2 σ).voiceOn E bAsr flags vad
  let s := s.notify flags
  (s.voiceSession E bAsr flags input.checkSl vad).voiceOff E vad

/-- `ProcessData`. -/
def processData (s : Mem2 σ) (input : Mem2In) : Mem2 σ :=
  let s := s.clearMsgLst
  if input.lenIn = 0 then s else s.processBlock E input

/-- `reset`: it leaves `m_bCanceled` and `m_bAwake` alone and sends nothing. -/
def reset (s : Mem2 σ) : Mem2 σ :=
  { s with vad2 := s.vad2.reset, cod := s.cod.reset E, asr := false, dataOutput := false,
           vadStart := false }

end Mem2

end Vsys.R2ad
