import Mathlib.Data.List.Basic
import Vsys.Ciu98.Crc
import Vsys.Trace.Run

/-!
# Exchanges with the secure element over SPI

`proto_spi_handle` of `ciu98/src/proto/proto_spi.c` sends the frame of a command and polls for the
frame of the response; in between it answers requests for more time, repeats frames that the
element did not understand, and asks for frames again that do not check.

A `Poll` is one pass through its loop: what the hardware gives for the head of a frame, whether the
timer has run out by then, what it gives for the rest of the frame, and what it returns for a frame
that is sent.  Nothing is assumed of them: the element and the bus may do anything.
-/

namespace Vsys.Ciu98

open Vsys.Trace

/-- The frames of the protocol: `PIB_INFORMATION_FRAME` and `PIB_PROCESS_FRAME`. -/
def pibInformationFrame : UInt8 := 0x0E
def pibProcessFrame : UInt8 := 0x09
def pibProcessFrameNakCrcInfo : UInt8 := 0x3C
def pibProcessFrameNakOtherInfo : UInt8 := 0x3D
def pibProcessFrameWtxInfo : UInt8 := 0x60

/-- `cNAK_HED_SE`. -/
def nakFrame : List UInt8 := [0x09, 0x00, 0x03, 0x3C, 0xD4, 0x3A]

/-- `cWTX_HED_SE`. -/
def wtxFrame : List UInt8 := [0x09, 0x00, 0x03, 0x60, 0xD3, 0x4C]

def frameLenMax : ℕ := 4101
def protoSpiRetryNum : ℕ := 3

/-- The codes of `error.h` that an exchange ends with, and those of the hardware. -/
inductive SeError
  | paramInvalid
  | len
  | timeout
  | lrcCrc
  | comm
  | hardware (code : ℕ)
  deriving DecidableEq

/-- `SPI_FRMAE_TYPE`, as far as `proto_spi_handle` sets it. -/
inductive FrameType
  | wtx
  | info
  deriving DecidableEq

/-- The head of a frame: `PIB` and the two bytes of the length. -/
structure Head where
  pib : UInt8
  lenHigh : UInt8
  lenLow : UInt8
  deriving DecidableEq

namespace Head

/-- `*outbuf_len` of `proto_spi_receive_frame_head`. -/
def len (h : Head) : ℕ := h.lenHigh.toNat * 256 + h.lenLow.toNat

def bytes (h : Head) : List UInt8 := [h.pib, h.lenHigh, h.lenLow]

end Head

/-- One pass through the loop.  `rest` are the bytes that `proto_spi_receive_frame_data` puts over
the `0xff` it fills the buffer with. -/
structure Poll where
  head : Except ℕ Head
  expired : Bool
  rest : Except ℕ (List UInt8)
  sending : Except ℕ Unit

/-- The variables of `proto_spi_handle`, the frames it has sent, and how it has returned. -/
structure Exchange where
  type : FrameType
  sendNakCount : ℕ
  recNakCount : ℕ
  reTranCount : ℕ
  sent : List (List UInt8)
  result : Option (Except SeError (List UInt8))

namespace Exchange

def fail (s : Exchange) (e : SeError) : Exchange := { s with result := some (.error e) }

/-- `proto_spi_send_frame`, and the return where it fails. -/
def send (s : Exchange) (p : Poll) (frame : List UInt8) : Exchange :=
  let s := { s with sent := s.sent ++ [frame] }
  match p.sending with
  | .ok _ => s
  | .error code => s.fail (.hardware code)

end Exchange

/-- The buffer behind the head. -/
def fillRest (len : ℕ) (rest : List UInt8) : List UInt8 :=
  (List.range len).map fun i ↦ rest.getD i 0xFF

/-- A frame that checks. -/
def onFrame (inbuf : List UInt8) (s : Exchange) (p : Poll) (frame : List UInt8) : Exchange :=
  let s := { s with sendNakCount := 0 }
  let pib := frame.getD 0 0
  let info := frame.getD 3 0
  if pib = pibProcessFrame ∧
      (info = pibProcessFrameNakCrcInfo ∨ info = pibProcessFrameNakOtherInfo) then
    match s.type with
    | .info =>
        if s.recNakCount + 1 > protoSpiRetryNum then
          { s with recNakCount := s.recNakCount + 1 }.fail .lrcCrc
        else { s with recNakCount := s.recNakCount + 1 }.send p inbuf
    | .wtx => s.send p wtxFrame
  else if pib = pibProcessFrame ∧ info = pibProcessFrameWtxInfo then
    { s with type := .wtx }.send p wtxFrame
  else if pib = pibInformationFrame then { s with result := some (.ok frame) }
  else s.fail .paramInvalid

/-- A frame that does not check. -/
def onBadFrame (s : Exchange) (p : Poll) : Exchange :=
  if s.sendNakCount + 1 > protoSpiRetryNum then
    { s with sendNakCount := s.sendNakCount + 1 }.fail .lrcCrc
  else { s with sendNakCount := s.sendNakCount + 1 }.send p nakFrame

/-- One pass through the loop of `proto_spi_handle`. -/
def spiStep (inbuf : List UInt8) (s : Exchange) (p : Poll) : Exchange :=
  if s.result.isSome then s
  else
    match p.head with
    | .error code => s.fail (.hardware code)
    | .ok head =>
        if p.expired then
          if s.reTranCount + 1 = 1 then
            -- what `proto_spi_send_frame` returns is not looked at here
            { s with reTranCount := s.reTranCount + 1, sent := s.sent ++ [inbuf] }
          else { s with reTranCount := s.reTranCount + 1 }.fail .timeout
        else if head.pib = pibInformationFrame ∨ head.pib = pibProcessFrame then
          let s := { s with reTranCount := 0 }
          if head.len > frameLenMax - 5 + 2 then s.fail .len
          else if head.len = 0 then s.fail .paramInvalid
          else
            match p.rest with
            | .error code => s.fail (.hardware code)
            | .ok rest =>
                let frame := head.bytes ++ fillRest head.len rest
                if edcGood frame then onFrame inbuf s p frame else onBadFrame s p
        else s

/-- `proto_spi_handle` up to its loop. -/
def spiStart (inbuf : List UInt8) (sending : Except ℕ Unit) : Exchange :=
  let s : Exchange :=
    { type := .info, sendNakCount := 0, recNakCount := 0, reTranCount := 0, sent := [],
      result := none }
  if inbuf.length > frameLenMax then s.fail .paramInvalid
  else
    match sending with
    | .ok _ => { s with sent := [inbuf] }
    | .error code => { s with sent := [inbuf] }.fail (.hardware code)

/-- `proto_spi_handle`. -/
def spiHandle (inbuf : List UInt8) (sending : Except ℕ Unit) (polls : List Poll) : Exchange :=
  run (spiStep inbuf) (spiStart inbuf sending) polls

/-- The contents of the queue behind `proto_spi_queue_in`. -/
def spiQueueIn (payload : List UInt8) : List UInt8 :=
  let frameLen := (payload.length + 2) % 2 ^ 16
  let framed := pibInformationFrame :: UInt8.ofNat (frameLen / 256) :: UInt8.ofNat frameLen ::
    payload
  framed ++ edcBytes (spiCrc16 .b framed)

/-- What `proto_spi_transceive` leaves of a response: three bytes are popped from the front of the
queue and two from its rear. -/
def spiStrip (frame : List UInt8) : List UInt8 := (frame.drop 3).take (frame.length - 5)

/-! ## What one pass does -/

/-- The frame that comes in, in time and with a length that fits. -/
def Poll.frame (p : Poll) : Option (List UInt8) :=
  match p.head, p.rest with
  | .ok head, .ok rest =>
      if p.expired = false ∧ (head.pib = pibInformationFrame ∨ head.pib = pibProcessFrame) ∧
          0 < head.len ∧ head.len ≤ 4098 then
        some (head.bytes ++ fillRest head.len rest)
      else none
  | _, _ => none

/-- A frame comes in that checks. -/
def Poll.checks (p : Poll) : Bool := p.frame.any edcGood

/-- The element has not understood the last frame. -/
def Naks (frame : List UInt8) : Prop :=
  frame.getD 0 0 = pibProcessFrame ∧
    (frame.getD 3 0 = pibProcessFrameNakCrcInfo ∨ frame.getD 3 0 = pibProcessFrameNakOtherInfo)

instance (frame : List UInt8) : Decidable (Naks frame) := by
  unfold Naks
  infer_instance

/-- A frame comes in that checks and says so. -/
def Poll.naks (p : Poll) : Bool := p.frame.any fun frame ↦ edcGood frame && decide (Naks frame)

/-- A frame comes in that does not check. -/
def Poll.asks (p : Poll) : Bool := p.frame.any fun frame ↦ !edcGood frame

/-- The pass does not only wait. -/
def Poll.Busy (p : Poll) : Prop :=
  match p.head with
  | .error _ => True
  | .ok head => p.expired = true ∨ head.pib = pibInformationFrame ∨ head.pib = pibProcessFrame

instance (p : Poll) : Decidable p.Busy := by
  unfold Poll.Busy
  cases p.head <;> infer_instance

variable {inbuf frame : List UInt8} {s : Exchange} {p : Poll}

/-- The ways an exchange goes on. -/
inductive Moves (inbuf : List UInt8) (s : Exchange) (p : Poll) : Exchange → Prop
  | wait (h : ¬ p.Busy) : Moves inbuf s p s
  | stop {s' : Exchange} {e : SeError} (hresult : s'.result = some (.error e))
      (hsent : s'.sent = s.sent) : Moves inbuf s p s'
  | stopSending {s' : Exchange} {e : SeError} {more : List UInt8}
      (hresult : s'.result = some (.error e)) (hsent : s'.sent = s.sent ++ [more])
      (hcause : more = inbuf ∧ s.type = .info ∧ s.recNakCount < 3 ∧ p.checks = true ∧
          p.naks = true ∨
        more = wtxFrame ∧ p.checks = true ∨
        more = nakFrame ∧ s.sendNakCount < 3 ∧ p.asks = true) :
      Moves inbuf s p s'
  | late (hexpired : p.expired = true) (hcount : s.reTranCount = 0) :
      Moves inbuf s p { s with reTranCount := 1, sent := s.sent ++ [inbuf] }
  | answer {frame : List UInt8} (hframe : p.frame = some frame) (hgood : edcGood frame = true)
      (hpib : frame.getD 0 0 = pibInformationFrame) :
      Moves inbuf s p { s with reTranCount := 0, sendNakCount := 0, result := some (.ok frame) }
  | nakInfo {frame : List UInt8} (hframe : p.frame = some frame) (hgood : edcGood frame = true)
      (hnaks : Naks frame) (htype : s.type = .info) (hcount : s.recNakCount < 3) :
      Moves inbuf s p
        { s with
          reTranCount := 0
          sendNakCount := 0
          recNakCount := s.recNakCount + 1
          sent := s.sent ++ [inbuf] }
  | wtx {frame : List UInt8} (hframe : p.frame = some frame) (hgood : edcGood frame = true) :
      Moves inbuf s p
        { s with type := .wtx, reTranCount := 0, sendNakCount := 0, sent := s.sent ++ [wtxFrame] }
  | bad {frame : List UInt8} (hframe : p.frame = some frame) (hbad : edcGood frame = false)
      (hcount : s.sendNakCount < 3) :
      Moves inbuf s p
        { s with
          reTranCount := 0
          sendNakCount := s.sendNakCount + 1
          sent := s.sent ++ [nakFrame] }

/-- A frame is sent, or the exchange stops because that fails. -/
theorem moves_send {s' : Exchange} {more : List UInt8} (hsent : s'.sent = s.sent)
    (hcause : more = inbuf ∧ s.type = .info ∧ s.recNakCount < 3 ∧ p.checks = true ∧
        p.naks = true ∨
      more = wtxFrame ∧ p.checks = true ∨
      more = nakFrame ∧ s.sendNakCount < 3 ∧ p.asks = true)
    (hmoves : Moves inbuf s p { s' with sent := s.sent ++ [more] }) :
    Moves inbuf s p (s'.send p more) := by
  rw [Exchange.send]
  cases p.sending with
  | ok _ =>
      dsimp only
      rw [hsent]
      exact hmoves
  | error code => exact .stopSending rfl (congrArg (· ++ [more]) hsent) hcause

theorem Poll.checks_of_frame (hframe : p.frame = some frame) (hgood : edcGood frame = true) :
    p.checks = true := by
  rw [Poll.checks, hframe]
  exact hgood

theorem Poll.naks_of_frame (hframe : p.frame = some frame) (hgood : edcGood frame = true)
    (hnaks : Naks frame) : p.naks = true := by
  rw [Poll.naks, hframe, Option.any_some, hgood, Bool.true_and]
  exact decide_eq_true hnaks

theorem Poll.asks_of_frame (hframe : p.frame = some frame) (hbad : edcGood frame = false) :
    p.asks = true := by
  rw [Poll.asks, hframe, Option.any_some, hbad, Bool.not_false]

theorem moves_onFrame (hframe : p.frame = some frame) (hgood : edcGood frame = true) :
    Moves inbuf s p (onFrame inbuf { s with reTranCount := 0 } p frame) := by
  obtain ⟨type, sendNakCount, recNakCount, reTranCount, sent, result⟩ := s
  have hchecks := p.checks_of_frame hframe hgood
  rw [onFrame]
  dsimp only
  split
  · rename_i hnaks
    cases type with
    | info =>
        dsimp only
        split
        · exact .stop rfl rfl
        · rename_i hcount
          have hlt : recNakCount < 3 := by
            rw [protoSpiRetryNum] at hcount
            omega
          have hpoll := p.naks_of_frame hframe hgood hnaks
          exact moves_send rfl (.inl ⟨rfl, rfl, hlt, hchecks, hpoll⟩)
            (.nakInfo hframe hgood hnaks rfl hlt)
    | wtx => exact moves_send rfl (.inr (.inl ⟨rfl, hchecks⟩)) (.wtx hframe hgood)
  · split
    · exact moves_send rfl (.inr (.inl ⟨rfl, hchecks⟩)) (.wtx hframe hgood)
    · split
      · rename_i hpib
        exact .answer hframe hgood hpib
      · exact .stop rfl rfl

theorem moves_onBadFrame (hframe : p.frame = some frame) (hbad : edcGood frame = false) :
    Moves inbuf s p (onBadFrame { s with reTranCount := 0 } p) := by
  rw [onBadFrame]
  split
  · exact .stop rfl rfl
  · rename_i hcount
    have hlt : s.sendNakCount < 3 := by
      rw [protoSpiRetryNum] at hcount
      dsimp only at hcount
      omega
    have hasks := p.asks_of_frame hframe hbad
    exact moves_send rfl (.inr (.inr ⟨rfl, hlt, hasks⟩)) (.bad hframe hbad hlt)

/-- **One pass.** -/
theorem moves_spiStep (inbuf : List UInt8) (p : Poll) (hrunning : s.result = none) :
    Moves inbuf s p (spiStep inbuf s p) := by
  obtain ⟨type, sendNakCount, recNakCount, reTranCount, sent, result⟩ := s
  obtain rfl : result = none := hrunning
  rw [spiStep, if_neg (by simp)]
  cases hhead : p.head with
  | error code => exact .stop rfl rfl
  | ok head =>
      dsimp only
      split
      · rename_i hexpired
        split
        · rename_i hcount
          obtain rfl : reTranCount = 0 := by
            omega
          exact .late hexpired rfl
        · exact .stop rfl rfl
      · rename_i hexpired
        split
        · rename_i hpib
          split
          · exact .stop rfl rfl
          · rename_i hlong
            split
            · exact .stop rfl rfl
            · rename_i hzero
              cases hrest : p.rest with
              | error code => exact .stop rfl rfl
              | ok rest =>
                  have hframe : p.frame = some (head.bytes ++ fillRest head.len rest) := by
                    rw [frameLenMax] at hlong
                    rw [Poll.frame, hhead, hrest]
                    exact if_pos ⟨by simpa using hexpired, hpib, by omega, by omega⟩
                  dsimp only
                  split
                  · rename_i hgood
                    exact moves_onFrame (s := ⟨type, sendNakCount, recNakCount, reTranCount, sent,
                      none⟩) hframe hgood
                  · rename_i hbad
                    exact moves_onBadFrame (s := ⟨type, sendNakCount, recNakCount, reTranCount,
                      sent, none⟩) hframe (by simpa using hbad)
        · rename_i hpib
          refine .wait fun hbusy ↦ ?_
          rw [Poll.Busy, hhead] at hbusy
          exact hbusy.elim (fun h ↦ hexpired h) hpib

end Vsys.Ciu98
