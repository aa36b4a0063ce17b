import Vsys.Stream.Windows
import Mathlib.Data.List.Range
import Mathlib.Logic.Function.Basic

/-!
# `r2mem1`

The first stage of the `r2ad3` front end: `r2mem_i` cuts the interleaved bytes into a row of samples
for each microphone, `r2mem_rs2` resamples the rows, `r2mem_rdc` measures the first second of them
and judges the microphones by it, `r2mem_aec` cancels the echo, `r2mem_o` interleaves the rows
again, and `r2mem_buff` keeps the bytes until they are read.  The first frame that leaves the stage
carries, in place of its samples, a mark for each microphone.

A `float` is given by its bits.  The float arithmetic, the resampler and the canceller are
parameters.  Memory is a function on indices; `inBounds` records that every assertion on the
length of the input held and that `r2mem_i` never wrote behind its rows.
-/

namespace Vsys.R2ad

open Vsys.Stream

/-! ## Samples and bytes -/

/-- The bits of a `float`. -/
abbrev Word := UInt32

/-- `float**`: a row of samples for each microphone. -/
abbrev Rows := ℕ → ℕ → Word

/-- `R2_AUDIO_SAMPLE_RATE`. -/
def sampleRate : ℕ := 16000

/-- `x != 0.0f`. -/
def nonzero (x : Word) : Bool := x &&& 0x7FFFFFFF != 0

/-- `fabs(x) < 0.5f`. -/
def belowHalf (x : Word) : Bool := decide (x &&& 0x7FFFFFFF < 0x3F000000)

/-- Byte `k` of a sample in memory. -/
def byteOf (x : Word) (k : ℕ) : UInt8 := (x >>> UInt32.ofNat (8 * k)).toUInt8

/-- The four bytes of a sample. -/
def bytesOf (x : Word) : List UInt8 := (List.range 4).map (byteOf x)

/-- The sample at a place in memory. -/
def wordAt (p : ℕ → UInt8) (pos : ℕ) : Word :=
  (p pos).toUInt32 ||| (p (pos + 1)).toUInt32 <<< 8 ||| (p (pos + 2)).toUInt32 <<< 16 |||
    (p (pos + 3)).toUInt32 <<< 24

/-- `r2_int24::toint`. -/
def int24At (p : ℕ → UInt8) (pos : ℕ) : Word :=
  (p pos).toUInt32 ||| (p (pos + 1)).toUInt32 <<< 8 ||| (p (pos + 2)).toUInt32 <<< 16 |||
    (if p (pos + 2) &&& 0x80 ≠ 0 then 0xFF000000 else 0)

/-- The arithmetic on `float`, and on `double` for the sums of squares. -/
structure FloatOps (D : Type*) where
  /-- An `int` divided by `4.0f`. -/
  intDiv4 : Word → Word
  /-- An `int` divided by `1024.0f`. -/
  intDiv1024 : Word → Word
  add : Word → Word → Word
  sub : Word → Word → Word
  div64 : Word → Word
  mul64 : Word → Word
  zero : D
  addSquare : D → Word → D
  /-- A sum divided by a number of samples. -/
  mean : Word → ℕ → Word
  /-- The deviation from the sum of squares, the mean and the number of samples. -/
  deviation : D → Word → ℕ → D
  /-- `> 200000`. -/
  tooLarge : D → Bool

/-- The first `n` entries of a microphone's row are written. -/
def writeRow (rows : Rows) (mic n : ℕ) (value : ℕ → Word) : Rows :=
  Function.update rows mic fun i ↦ if i < n then value i else rows mic i

/-- A loop over the microphones of a list, with their places in it. -/
def forMics (ids : List ℕ) (body : Rows → ℕ → ℕ → Rows) (rows : Rows) : Rows :=
  ids.zipIdx.foldl (fun rows mic ↦ body rows mic.1 mic.2) rows

/-- The last microphone comes last. -/
theorem forMics_concat (ids : List ℕ) (last : ℕ) (body : Rows → ℕ → ℕ → Rows) (rows : Rows) :
    forMics (ids ++ [last]) body rows = body (forMics ids body rows) last ids.length := by
  simp [forMics, List.zipIdx_append]

/-! ## `r2mem_i` -/

/-- `r2_in_type`. -/
inductive InType
  | int24
  | int32
  | int32x10
  | float32
  deriving DecidableEq, Repr

namespace InType

/-- The bytes of a sample. -/
def size : InType → ℕ
  | int24 => 3
  | _ => 4

/-- Sample number `k` of the input. -/
def sample {D : Type*} (F : FloatOps D) : InType → (ℕ → UInt8) → ℕ → Word
  | int24, p, k => F.intDiv4 (int24At p (3 * k))
  | int32, p, k => F.intDiv1024 (wordAt p (4 * k))
  | int32x10, p, k => F.intDiv4 (wordAt p (4 * k))
  | float32, p, k => wordAt p (4 * k)

/-- The input is a whole number of frames, and the rows have room for them. -/
def fits (inType : InType) (ids : List ℕ) (lenIn : ℕ) : Bool :=
  0 < inType.size * ids.length && lenIn % (inType.size * ids.length) == 0 &&
    lenIn / (inType.size * ids.length) ≤ sampleRate

/-- `r2mem_i::process`: the rows and the number of samples in each of them. -/
def process {D : Type*} (F : FloatOps D) (inType : InType) (ids : List ℕ) (dataOut : Rows)
    (pData : ℕ → UInt8) (lenIn : ℕ) : Rows × ℕ :=
  let len := lenIn / (inType.size * ids.length)
  (forMics ids (fun rows mic j ↦
    writeRow rows mic len fun i ↦ inType.sample F pData (i * ids.length + j)) dataOut, len)

end InType

/-! ## `r2mem_rs2` -/

/-- `r2_rs_create`, `r2_rs_reset` and `r2_rs_process_float` for one rate. -/
structure Resampler (ρ : Type*) where
  create : ℕ → ρ
  reset : ρ → ρ
  process : ρ → Rows → ℕ → ρ × Rows × ℕ

/-- `r2mem_rs2` without the delay of every second microphone. -/
structure Rs2 (ρ : Type*) where
  hRs : ρ
  dataOut : Rows
  lenOutTotal : ℕ

namespace Rs2

variable {ρ : Type*} (R : Resampler ρ) (ids : List ℕ)

/-- The constructor. -/
def create : Rs2 ρ := ⟨R.create ids.length, fun _ _ ↦ 0, 16000⟩

/-- `reset`. -/
def reset (s : Rs2 ρ) : Rs2 ρ := { s with hRs := R.reset s.hRs }

/-- The output rows are made longer; what they held is lost. -/
def reserve (s : Rs2 ρ) (len : ℕ) : Rs2 ρ :=
  if s.lenOutTotal < len then { s with lenOutTotal := len * 2, dataOut := fun _ _ ↦ 0 } else s

/-- `process`; the result is in `dataOut`. -/
def process (s : Rs2 ρ) (data : Rows) (len : ℕ) : Rs2 ρ × ℕ :=
  let answer := R.process s.hRs (fun i ↦ data (ids.getD i 0)) len
  let s := reserve { s with hRs := answer.1 } answer.2.2
  ({ s with dataOut := forMics ids (fun rows mic i ↦
      writeRow rows mic answer.2.2 (answer.2.1 i)) s.dataOut }, answer.2.2)

end Rs2

/-! ## `r2mem_rdc` -/

/-- `r2mem_rdc`; the sums and verdicts go by the place of a microphone in the list. -/
structure Rdc (D : Type*) where
  curLen : ℕ
  rdc : ℕ → Word
  rdcVar : ℕ → D
  micOk : ℕ → ℕ

namespace Rdc

variable {D : Type*} (F : FloatOps D) (ids refs : List ℕ) (maxLen : ℕ)

/-- The constructor. -/
def create : Rdc D := ⟨0, fun _ ↦ 0, fun _ ↦ F.zero, fun _ ↦ 1⟩

/-- `reset`; the verdicts stay. -/
def reset (s : Rdc D) : Rdc D :=
  { s with rdc := fun _ ↦ 0, rdcVar := fun _ ↦ F.zero, curLen := 0 }

/-- Something is played: a reference row is not silent. -/
def played (data : Rows) (len : ℕ) : Bool :=
  refs.any fun mic ↦ (List.range len).any fun j ↦ nonzero (data mic j)

/-- The first samples join the sums. -/
def collect (s : Rdc D) (data : Rows) (iCur : ℕ) : Rdc D :=
  { s with
    rdc := fun i ↦ (List.range iCur).foldl (fun sum j ↦ F.add sum (data (ids.getD i 0) j)) (s.rdc i)
    rdcVar := fun i ↦
      (List.range iCur).foldl (fun sum j ↦ F.addSquare sum (data (ids.getD i 0) j)) (s.rdcVar i)
    curLen := s.curLen + iCur }

/-- Mean, deviation and verdict, once there are enough samples. -/
def judge (s : Rdc D) : Rdc D :=
  if s.curLen = maxLen then
    let mean := fun i ↦ F.mean (s.rdc i) s.curLen
    let deviation := fun i ↦ F.deviation (s.rdcVar i) (mean i) s.curLen
    { s with
      rdc := mean
      rdcVar := deviation
      micOk := fun i ↦ if F.tooLarge (deviation i) then 0 else 1 }
  else s

/-- The samples that were not measured move to the front, without their mean; the row of a bad
microphone is silenced. -/
def remove (s : Rdc D) (iCur left : ℕ) (data : Rows) : Rows :=
  forMics ids (fun rows mic i ↦ writeRow rows mic left fun j ↦
    if s.micOk i = 0 then 0 else F.sub (rows mic (j + iCur)) (s.rdc i)) data

/-- `process`: the rows are changed in place. -/
def process (s : Rdc D) (data : Rows) (len : ℕ) : Rdc D × Rows × ℕ :=
  let iCur := min (maxLen - s.curLen) len
  if s.curLen < maxLen ∧ played refs data len then (s.reset F, data, 0)
  else
    let s := if s.curLen < maxLen then (s.collect F ids data iCur).judge F maxLen else s
    let left := len - iCur
    (s, if 0 < left then s.remove F ids iCur left data else data, left)

end Rdc

/-! ## `r2mem_aec` -/

/-- The echo canceller: `r2ssp_aec_buffer_farend` and `r2ssp_aec_process`, whose last result says
that something is played. -/
structure AecEngine (ε : Type*) where
  create : ε
  bufferFarend : ε → (ℕ → Word) → ε
  process : ε → (ℕ → Word) → ε × (ℕ → Word) × Bool

/-- `r2mem_aec`, without the copy of its last input, which nothing reads. -/
structure Aec (ε : Type*) where
  engine : ε
  dataIn : Rows
  lenIn : ℕ
  dataOut : Rows
  lenOut : ℕ
  lenOutTotal : ℕ
  rt : Bool

namespace Aec

/-- `m_iFrmLen_Aec`. -/
def frmLenAec : ℕ := 256

/-- `m_iFrmLen_Out`. -/
def frmLenOut : ℕ := 160

variable {D ε : Type*} (F : FloatOps D) (E : AecEngine ε) (ids refs : List ℕ)

/-- The constructor. -/
def create : Aec ε := ⟨E.create, fun _ _ ↦ 0, 0, fun _ _ ↦ 0, 0, sampleRate, false⟩

/-- `reset`. -/
def reset (s : Aec ε) : Aec ε := { s with lenIn := 0, lenOut := 0 }

/-- The output that did not make up a frame moves to the front. -/
def carry (s : Aec ε) : Aec ε :=
  let left := s.lenOut % frmLenOut
  { s with
    rt := false
    dataOut := forMics (ids ++ refs) (fun rows mic _ ↦
      writeRow rows mic left fun j ↦ rows mic (s.lenOut - left + j)) s.dataOut
    lenOut := left }

/-- The output rows are made longer, with the output so far. -/
def reserve (s : Aec ε) (len : ℕ) : Aec ε :=
  if s.lenOutTotal < len + s.lenIn + s.lenOut then
    { s with
      lenOutTotal := (len + s.lenIn + s.lenOut) * 2
      dataOut := fun mic j ↦ if j < s.lenOut then s.dataOut mic j else 0 }
  else s

/-- A piece of the input joins the frame. -/
def fill (s : Aec ε) (piece : List (ℕ → Word)) : Aec ε :=
  { s with
    dataIn := forMics (ids ++ refs) (fun rows mic _ ↦
      Function.update rows mic (writeAt (rows mic) s.lenIn (piece.map fun sample ↦ sample mic)))
      s.dataIn
    lenIn := s.lenIn + piece.length }

/-- `processfrm`, after which the frame is empty. -/
def processFrm (s : Aec ε) : Aec ε :=
  let frame := fun (mics : List ℕ) (k : ℕ) ↦
    F.div64 (s.dataIn (mics.getD (k / frmLenAec) 0) (k % frmLenAec))
  let answer := E.process (E.bufferFarend s.engine (frame refs)) (frame ids)
  { s with
    engine := answer.1
    rt := s.rt || !answer.2.2
    dataOut := forMics ids (fun rows mic j ↦ fun row k ↦
      if row = mic ∧ s.lenOut ≤ k ∧ k < s.lenOut + frmLenAec then
        F.mul64 (answer.2.1 (j * frmLenAec + (k - s.lenOut)))
      else rows row k) s.dataOut
    lenOut := s.lenOut + frmLenAec
    lenIn := 0 }

/-- `process`: the result is in `dataOut`; only whole frames of it are given out. -/
def process (s : Aec ε) (data : Rows) (len : ℕ) : Aec ε × ℕ :=
  let columns := (List.range len).map fun j mic ↦ data mic j
  let s := windowLoop frmLenAec lenIn (fill ids refs) (processFrm F E ids refs) len columns
    ((s.carry ids refs).reserve len)
  (s, s.lenOut / frmLenOut * frmLenOut)

end Aec

/-! ## `r2mem_o` and `r2mem_buff` -/

/-- `r2mem_o::process` for `r2_out_float_32`: sample `i` of the microphone at place `j` becomes
sample `i * iMicNum + j` of the output. -/
def interleave (ids : List ℕ) (data : Rows) : ℕ → UInt8 := fun p ↦
  byteOf (data (ids.getD (p / 4 % ids.length) 0) (p / 4 / ids.length)) (p % 4)

/-- `r2mem_buff`. -/
structure Buff where
  data : ℕ → UInt8
  len : ℕ
  lenCur : ℕ
  lenTotal : ℕ

namespace Buff

/-- The constructor. -/
def create : Buff := ⟨fun _ ↦ 0, 0, 0, 1000⟩

/-- `reset`. -/
def reset (b : Buff) : Buff := { b with len := 0, lenCur := 0 }

/-- The buffer is made larger.  What is unread moves to the front, and the length stays: `m_iLen_Cur`
is zero already when it is subtracted. -/
def reserve (b : Buff) (len : ℕ) : Buff :=
  if b.lenTotal < b.len + len then
    { data := fun p ↦ if p < b.len - b.lenCur then b.data (b.lenCur + p) else 0
      len := b.len - 0
      lenCur := 0
      lenTotal := (b.len + len) * 2 }
  else b

/-- `put`. -/
def put (b : Buff) (pData : ℕ → UInt8) (len : ℕ) : Buff :=
  let b := b.reserve len
  { b with
    data := fun p ↦ if b.len ≤ p ∧ p < b.len + len then pData (p - b.len) else b.data p
    len := b.len + len }

/-- What is unread. -/
def pending (b : Buff) : List UInt8 := (List.range (b.len - b.lenCur)).map fun p ↦ b.data (b.lenCur + p)

/-- `getdata`: the bytes copied to the caller. -/
def getData (b : Buff) (len : ℕ) : Buff × List UInt8 :=
  let ll := min (b.len - b.lenCur) len
  let b' := { b with lenCur := b.lenCur + ll }
  (if b'.lenCur = b'.len then b'.reset else b', (List.range ll).map fun p ↦ b.data (b.lenCur + p))

end Buff

/-! ## The stage -/

/-- What `r2mem1` takes from `r2sto1`. -/
structure Sto1 where
  micNum : ℕ
  sampleBytes : ℕ
  bAec : Bool
  micInfoRs : List ℕ
  micInfoAec : List ℕ
  micInfoAecRef : List ℕ

namespace Sto1

/-- `r2_getdefaultmicinfo`. -/
def micInfoIn (sto : Sto1) : List ℕ := List.range sto.micNum

/-- The type of the input. -/
def inType (sto : Sto1) : InType :=
  if sto.sampleBytes = 3 then .int24 else if sto.micNum = 10 then .int32x10 else .int32

end Sto1

/-- The libraries of the first stage. -/
structure Engines (D ρ ε : Type*) where
  ops : FloatOps D
  rs : Resampler ρ
  aec : AecEngine ε

/-- `r2mem1`. -/
structure Mem1 (D ρ ε : Type*) where
  memIn : Rows
  memRs : Rs2 ρ
  memRdc : Rdc D
  memAec : Aec ε
  memBuff : Buff
  firstFrm : Bool
  inBounds : Bool

namespace Mem1

variable {D ρ ε : Type*} (L : Engines D ρ ε) (sto : Sto1)

/-- The constructor. -/
def create : Mem1 D ρ ε where
  memIn := fun _ _ ↦ 0
  memRs := Rs2.create L.rs sto.micInfoRs
  memRdc := Rdc.create L.ops
  memAec := Aec.create L.aec
  memBuff := Buff.create
  firstFrm := true
  inBounds := true

/-- In, resampling and removal of the mean; the rows are those of `m_pMem_Rs`. -/
def measure (s : Mem1 D ρ ε) (pData : ℕ → UInt8) (lenIn : ℕ) : Mem1 D ρ ε × ℕ :=
  let input := sto.inType.process L.ops sto.micInfoIn s.memIn pData lenIn
  let rs := s.memRs.process L.rs sto.micInfoRs input.1 input.2
  let rdc := s.memRdc.process L.ops sto.micInfoAec sto.micInfoAecRef 16000 rs.1.dataOut rs.2
  ({ s with
      memIn := input.1
      memRs := { rs.1 with dataOut := rdc.2.1 }
      memRdc := rdc.1
      inBounds := s.inBounds && sto.inType.fits sto.micInfoIn lenIn }, rdc.2.2)

/-- The echo is cancelled, if so configured. -/
def cancel (s : Mem1 D ρ ε) (len : ℕ) : Mem1 D ρ ε × ℕ :=
  if sto.bAec then
    let aec := s.memAec.process L.ops L.aec sto.micInfoAec sto.micInfoAecRef s.memRs.dataOut len
    ({ s with memAec := aec.1 }, aec.2)
  else (s, len)

/-- The rows `pData_Mul` points at after the cancellation. -/
def rows (s : Mem1 D ρ ε) : Rows := if sto.bAec then s.memAec.dataOut else s.memRs.dataOut

/-- These rows are changed. -/
def setRows (s : Mem1 D ρ ε) (data : Rows) : Mem1 D ρ ε :=
  if sto.bAec then { s with memAec := { s.memAec with dataOut := data } }
  else { s with memRs := { s.memRs with dataOut := data } }

/-- The mark of the microphone at a place: `1.0f` or `0.0f`. -/
def mark (micOk : ℕ → ℕ) (i : ℕ) : Word := if micOk i = 1 then 0x3F800000 else 0

/-- "fix mic": the first sample of every row becomes the mark of its microphone. -/
def fixMic (s : Mem1 D ρ ε) (len : ℕ) : Mem1 D ρ ε :=
  if 0 < len ∧ s.firstFrm then
    { s.setRows sto (forMics sto.micInfoAec (fun rows mic i ↦
        writeRow rows mic 1 fun _ ↦ mark s.memRdc.micOk i) (s.rows sto)) with firstFrm := false }
  else s

/-- `ProcessData`, with the output put into `m_pMem_Buff`. -/
def processData (s : Mem1 D ρ ε) (pData : ℕ → UInt8) (lenIn : ℕ) : Mem1 D ρ ε :=
  let measured := s.measure L sto pData lenIn
  let cancelled := measured.1.cancel L sto measured.2
  let fixed := cancelled.1.fixMic sto cancelled.2
  { fixed with
    memBuff := fixed.memBuff.put (interleave sto.micInfoAec (fixed.rows sto))
      (cancelled.2 * 4 * sto.micInfoAec.length) }

/-- `reset`; neither `m_pMem_RDc` nor `m_bFirstFrm` is touched. -/
def reset (s : Mem1 D ρ ε) : Mem1 D ρ ε :=
  { s with
    memRs := s.memRs.reset L.rs
    memAec := s.memAec.reset
    memBuff := s.memBuff.reset }

end Mem1

/-! ## The second stage -/

/-- A pass of the loop in `r2_fixerrmix`; the state is the list and `iCur`. -/
def fixErrMixStep (errs : List ℕ) (st : List ℕ × ℕ) (i : ℕ) : List ℕ × ℕ :=
  let id := st.1.getD i 0
  if errs.contains id then st
  else (if i = st.2 then st.1 else st.1.set st.2 id, st.2 + 1)

/-- `r2_fixerrmix`: the list as it is left, and whether something was removed. -/
def fixErrMix (micInfo : List ℕ) : Option (List ℕ) → List ℕ × Bool
  | none => (micInfo, false)
  | some errs =>
      let st := (List.range micInfo.length).foldl (fixErrMixStep errs) (micInfo, 0)
      if st.2 = micInfo.length then (st.1, false) else (st.1.take st.2, true)

/-- The part of `r2mem2` and of `r2mem3` in front of the beam former.  `micErr` is the answer of
`geterrorinfo`. -/
structure MicStage where
  memIn : Rows := fun _ _ ↦ 0
  firstFrm : Bool := true
  micInfoBf : List ℕ
  micErr : Option (List ℕ) := none
  inBounds : Bool := true

namespace MicStage

variable {D : Type*} (F : FloatOps D) (micInfoIn : List ℕ)

/-- `geterrorinfo`. -/
def getErrorInfo (data : Rows) : Option (List ℕ) :=
  let errorMic := micInfoIn.filter fun mic ↦ belowHalf (data mic 0)
  if 0 < errorMic.length then some errorMic else none

/-- "In" and "fix mic". -/
def fixMic (s : MicStage) (chunk : List UInt8) : MicStage :=
  let input := InType.float32.process F micInfoIn s.memIn (fun p ↦ chunk.getD p 0) chunk.length
  let s := { s with
    memIn := input.1
    inBounds := s.inBounds && InType.float32.fits micInfoIn chunk.length }
  if s.firstFrm ∧ 0 < input.2 then
    { s with
      firstFrm := false
      micErr := getErrorInfo micInfoIn input.1
      micInfoBf := (fixErrMix s.micInfoBf (getErrorInfo micInfoIn input.1)).1 }
  else s

/-- `r2mem2::ProcessData`, as far as the microphones are concerned. -/
def processData2 (s : MicStage) (chunk : List UInt8) : MicStage :=
  if chunk.length = 0 then s else s.fixMic F micInfoIn chunk

/-- `r2mem3::ProcessData`, as far as the microphones are concerned. -/
def processData3 (s : MicStage) (chunk : List UInt8) : MicStage := s.fixMic F micInfoIn chunk

end MicStage

end Vsys.R2ad
