import Mathlib.Algebra.Order.Field.Rat
import Mathlib.Algebra.Order.Floor.Defs
import Mathlib.Data.Rat.Floor

/-!
# The speech coder `r2mem_cod`

Both front ends collect the samples of a voice segment in `r2mem_cod`, which encodes them in
frames of `lenFrmCod` samples when its output is asked for.  The encoder behind it is a parameter:
the activation library stores 16-bit samples (`Encoder.pcm16`), the `r2ad3` library raw floats or
Opus packets.

`m_iLen_In` and `m_iLen_Out` are the lengths of the lists `dataIn` and `dataOut`.  The two
assertions of the class are recorded in `assertsHeld`, which stays `true` as long as none of them
has failed.
-/

namespace Vsys.Audio

/-- The encoder that turns one frame of samples into bytes. -/
structure Encoder (σ : Type*) where
  create : σ
  encode : σ → List ℚ → σ × List UInt8

/-- `(short)x`: truncation towards zero, kept modulo `2^16`, low byte first. -/
def shortBytes (x : ℚ) : List UInt8 :=
  let value : ℤ := if 0 ≤ x then ⌊x⌋ else ⌈x⌉
  let bits : ℕ := (value % 65536).toNat
  [UInt8.ofNat (bits % 256), UInt8.ofNat (bits / 256)]

/-- The activation library's encoder: every sample times `scaling`, stored as a short. -/
def Encoder.pcm16 (scaling : ℚ) : Encoder Unit where
  create := ()
  encode := fun engine frame ↦ (engine, frame.flatMap fun x ↦ shortBytes (x * scaling))

/-- `R2_AUDIO_SAMPLE_RATE`. -/
def audioSampleRate : ℕ := 16000

/-- `R2_AUDIO_FRAME_MS`. -/
def audioFrameMs : ℕ := 10

/-- `m_iLen_Frm_Cod`. -/
def lenFrmCod : ℕ := audioSampleRate / 1000 * audioFrameMs * 2

/-- `m_iLen_Am`. -/
def lenAm : ℕ := lenFrmCod * 3

/-- `m_iShield_TooLong`. -/
def shieldTooLong : ℕ := audioSampleRate * 6

/-- `m_iShield_Resume`. -/
def shieldResume : ℕ := audioSampleRate / 2

/-- The state of an `r2mem_cod` object. -/
structure Cod (σ : Type*) where
  dataIn : List ℚ
  lenCod : ℕ
  dataOut : List UInt8
  lenOutCur : ℕ
  paused : Bool
  lenPause : ℕ
  shieldAm : ℚ
  engine : σ
  assertsHeld : Bool

namespace Cod

variable {σ : Type*} (E : Encoder σ)

/-- The constructor. -/
def create : Cod σ where
  dataIn := []
  lenCod := 0
  dataOut := []
  lenOutCur := 0
  paused := false
  lenPause := 0
  shieldAm := 1
  engine := E.create
  assertsHeld := true

def reset (c : Cod σ) : Cod σ :=
  { c with dataIn := [], lenCod := 0, dataOut := [], lenOutCur := 0, paused := false,
           engine := E.create }

def pause (c : Cod σ) : Cod σ :=
  { c with lenOutCur := 0, paused := true, lenPause := c.dataIn.length }

def resume (c : Cod σ) : Cod σ :=
  { c with paused := false, assertsHeld := c.assertsHeld && c.paused }

def process (c : Cod σ) (data : List ℚ) : Cod σ :=
  { c with dataIn := c.dataIn ++ data.map (· / 32768) }

/-- The gain that brings a mean amplitude down to `0.3`. -/
def gainOf (total : ℚ) : ℚ := if 3 / 10 < total then 3 / 10 / total else 1

/-- The largest sum over the windows of `lenAm` samples, as the source's loop finds it. -/
def windowMax (data : List ℚ) : ℚ :=
  ((List.range data.length).foldl (fun (acc : ℚ × ℚ) i ↦
    if i < lenAm then (acc.1 + |data.getD i 0|, acc.2)
    else
      let total := acc.1 + (|data.getD i 0| - |data.getD (i - lenAm) 0|)
      (total, if acc.2 < total then total else acc.2)) (0, 0)).2

/-- The first half of `processdata`: choose the gain before the first frame is encoded. -/
def updateShield (c : Cod σ) : Cod σ :=
  if c.lenCod = 0 ∧ lenFrmCod < c.dataIn.length then
    if c.dataIn.length < lenAm then
      { c with shieldAm := gainOf ((c.dataIn.map (|·|)).sum / c.dataIn.length) }
    else
      { c with shieldAm := gainOf (windowMax c.dataIn / lenAm) }
  else c

/-- One round of the encoding loop. -/
def encodeFrm (c : Cod σ) : Cod σ :=
  let dataIn :=
    if c.shieldAm < 1 then
      c.dataIn.take c.lenCod ++ ((c.dataIn.drop c.lenCod).take lenFrmCod).map (· * c.shieldAm) ++
        c.dataIn.drop (c.lenCod + lenFrmCod)
    else c.dataIn
  let coded := E.encode c.engine ((dataIn.drop c.lenCod).take lenFrmCod)
  { c with dataIn := dataIn, engine := coded.1, dataOut := c.dataOut ++ coded.2,
           lenCod := c.lenCod + lenFrmCod }

/-- The encoding loop, with the number of rounds it may still take. -/
def encodeLoop : ℕ → Cod σ → Cod σ
  | 0, c => c
  | rounds + 1, c =>
      if c.lenCod + lenFrmCod < c.dataIn.length then encodeLoop rounds (encodeFrm E c) else c

/-- `processdata`.  A round encodes a whole frame, so the input length bounds their number. -/
def processData (c : Cod σ) : Cod σ :=
  let c := { c with assertsHeld := c.assertsHeld && !c.paused }
  encodeLoop E c.dataIn.length (updateShield c)

/-- `getdatalen`: encode what is pending and report the bytes not yet fetched. -/
def getDataLen (c : Cod σ) : Cod σ × ℕ :=
  let c := processData E c
  (c, c.dataOut.length - c.lenOutCur)

/-- `getdata2`: encode what is pending and fetch all bytes not yet fetched. -/
def getData2 (c : Cod σ) : Cod σ × List UInt8 :=
  let c := processData E c
  ({ c with lenOutCur := c.dataOut.length }, c.dataOut.drop c.lenOutCur)

/-- `istoolong`. -/
def isTooLong (c : Cod σ) : Bool := decide (shieldTooLong < c.dataIn.length)

/-- `isneedresume`. -/
def isNeedResume (c : Cod σ) : Bool :=
  c.paused && decide (c.dataIn.length < shieldTooLong) &&
    decide (shieldResume + c.lenPause < c.dataIn.length)

/-! ## What the operations do to the pause flag and the assertions -/

@[simp] theorem reset_paused (c : Cod σ) : (reset E c).paused = false := rfl
@[simp] theorem reset_assertsHeld (c : Cod σ) : (reset E c).assertsHeld = c.assertsHeld := rfl
@[simp] theorem pause_paused (c : Cod σ) : (pause c).paused = true := rfl
@[simp] theorem pause_assertsHeld (c : Cod σ) : (pause c).assertsHeld = c.assertsHeld := rfl
@[simp] theorem resume_paused (c : Cod σ) : (resume c).paused = false := rfl
@[simp] theorem resume_assertsHeld (c : Cod σ) :
    (resume c).assertsHeld = (c.assertsHeld && c.paused) := rfl
@[simp] theorem process_paused (c : Cod σ) (data : List ℚ) :
    (process c data).paused = c.paused := rfl
@[simp] theorem process_assertsHeld (c : Cod σ) (data : List ℚ) :
    (process c data).assertsHeld = c.assertsHeld := rfl

theorem updateShield_frame (c : Cod σ) :
    (updateShield c).paused = c.paused ∧ (updateShield c).assertsHeld = c.assertsHeld ∧
      (updateShield c).dataIn = c.dataIn := by
  unfold updateShield
  split_ifs <;> exact ⟨rfl, rfl, rfl⟩

theorem encodeLoop_frame (rounds : ℕ) (c : Cod σ) :
    (encodeLoop E rounds c).paused = c.paused ∧
      (encodeLoop E rounds c).assertsHeld = c.assertsHeld := by
  induction rounds generalizing c with
  | zero => exact ⟨rfl, rfl⟩
  | succ rounds ih =>
      unfold encodeLoop
      split_ifs
      · exact ih (encodeFrm E c)
      · exact ⟨rfl, rfl⟩

@[simp] theorem processData_paused (c : Cod σ) : (processData E c).paused = c.paused := by
  unfold processData
  rw [(encodeLoop_frame E _ _).1, (updateShield_frame _).1]

@[simp] theorem processData_assertsHeld (c : Cod σ) :
    (processData E c).assertsHeld = (c.assertsHeld && !c.paused) := by
  unfold processData
  rw [(encodeLoop_frame E _ _).2, (updateShield_frame _).2.1]

@[simp] theorem getDataLen_paused (c : Cod σ) : (getDataLen E c).1.paused = c.paused :=
  processData_paused E c

@[simp] theorem getDataLen_assertsHeld (c : Cod σ) :
    (getDataLen E c).1.assertsHeld = (c.assertsHeld && !c.paused) :=
  processData_assertsHeld E c

@[simp] theorem getData2_paused (c : Cod σ) : (getData2 E c).1.paused = c.paused :=
  processData_paused E c

@[simp] theorem getData2_assertsHeld (c : Cod σ) :
    (getData2 E c).1.assertsHeld = (c.assertsHeld && !c.paused) :=
  processData_assertsHeld E c

theorem encodeFrm_dataIn_length (c : Cod σ) (h : c.lenCod + lenFrmCod ≤ c.dataIn.length) :
    (encodeFrm E c).dataIn.length = c.dataIn.length := by
  unfold encodeFrm
  dsimp only
  split_ifs
  · simp only [List.length_append, List.length_take, List.length_map, List.length_drop]
    omega
  · rfl

/-- The loop stops for want of input, never for want of rounds. -/
theorem encodeLoop_done (rounds : ℕ) (c : Cod σ) (h : c.dataIn.length ≤ c.lenCod + rounds) :
    (encodeLoop E rounds c).dataIn.length ≤ (encodeLoop E rounds c).lenCod + lenFrmCod := by
  induction rounds generalizing c with
  | zero =>
      change c.dataIn.length ≤ c.lenCod + lenFrmCod
      omega
  | succ rounds ih =>
      unfold encodeLoop
      split_ifs with hmore
      · apply ih
        rw [encodeFrm_dataIn_length E c hmore.le]
        change c.dataIn.length ≤ c.lenCod + lenFrmCod + rounds
        have : 1 ≤ lenFrmCod := by decide
        omega
      · omega

/-- `processdata` leaves less than one whole frame and one sample to encode. -/
theorem processData_done (c : Cod σ) :
    (processData E c).dataIn.length ≤ (processData E c).lenCod + lenFrmCod := by
  unfold processData
  apply encodeLoop_done
  rw [(updateShield_frame _).2.2]
  exact Nat.le_add_left _ _

end Cod

end Vsys.Audio
