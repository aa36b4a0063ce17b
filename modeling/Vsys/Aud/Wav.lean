import Vsys.Align.Best
import Vsys.Audio.Converter
import Vsys.Io.Reads
import Vsys.Stream.Interleave

/-!
# WAV files

`r2_aud_out` takes the mean off every channel, scales everything down if it is too loud, and writes
three headers and the interleaved samples.  `ReadWav` takes the shape of the audio from the headers.

The header has 16 bits for the number of channels, and the size of the samples is an `int`.
`readWav_r2AudOut` is the round trip within these limits.

The arithmetic is exact.  What the program has not written, such as a local structure before
`fread` or a buffer behind the end of a short file, is arbitrary memory.
-/

namespace Vsys.Aud

open Vsys.Align Vsys.Audio Vsys.Io Vsys.Stream

/-- `r2_aud`; the sample rate is the 32 bits of an `int`. -/
@[ext] structure R2Aud where
  sr : BitVec 32
  len : ℕ
  data : List (List ℚ)
  rows : ∀ row ∈ data, row.length = len

/-- `cn`. -/
def R2Aud.cn (aud : R2Aud) : ℕ := aud.data.length

/-! ## Headers -/

/-- `WAVEFORM`. -/
structure Waveform where
  wFormatTag : ℕ
  nChannels : ℕ
  nSamplesPerSec : ℕ
  nAvgBytesPerSec : ℕ
  nBlockAlign : ℕ
  wBitsPerSample : ℕ

/-- `RIFF`. -/
structure Riff where
  riffID : List UInt8
  riffSIZE : ℕ
  riffFORMAT : List UInt8

/-- `FMT`. -/
structure Fmt where
  fmtID : List UInt8
  fmtSIZE : ℕ
  fmtFORMAT : Waveform

/-- `DATA`. -/
structure Data where
  dataID : List UInt8
  dataSIZE : ℕ

def Waveform.bytes (f : Waveform) : List UInt8 :=
  leBytes 2 f.wFormatTag ++ (leBytes 2 f.nChannels ++ (leBytes 4 f.nSamplesPerSec ++
    (leBytes 4 f.nAvgBytesPerSec ++ (leBytes 2 f.nBlockAlign ++ leBytes 2 f.wBitsPerSample))))

def Riff.bytes (r : Riff) : List UInt8 := r.riffID ++ (leBytes 4 r.riffSIZE ++ r.riffFORMAT)

def Fmt.bytes (f : Fmt) : List UInt8 := f.fmtID ++ (leBytes 4 f.fmtSIZE ++ f.fmtFORMAT.bytes)

def Data.bytes (d : Data) : List UInt8 := d.dataID ++ leBytes 4 d.dataSIZE

/-- The four characters at the beginning of a header. -/
def id4 : Reader UInt8 (List UInt8) := fread (List.replicate 4 0)

def Waveform.parse : Reader UInt8 Waveform := do
  let wFormatTag ← word 2
  let nChannels ← word 2
  let nSamplesPerSec ← word 4
  let nAvgBytesPerSec ← word 4
  let nBlockAlign ← word 2
  let wBitsPerSample ← word 2
  pure ⟨wFormatTag, nChannels, nSamplesPerSec, nAvgBytesPerSec, nBlockAlign, wBitsPerSample⟩

def Riff.parse : Reader UInt8 Riff := do
  let riffID ← id4
  let riffSIZE ← word 4
  let riffFORMAT ← id4
  pure ⟨riffID, riffSIZE, riffFORMAT⟩

def Fmt.parse : Reader UInt8 Fmt := do
  let fmtID ← id4
  let fmtSIZE ← word 4
  let fmtFORMAT ← Waveform.parse
  pure ⟨fmtID, fmtSIZE, fmtFORMAT⟩

def Data.parse : Reader UInt8 Data := do
  let dataID ← id4
  let dataSIZE ← word 4
  pure ⟨dataID, dataSIZE⟩

/-! ## The writer -/

/-- A conversion to an integer type, towards zero. -/
def truncate (x : ℚ) : ℤ := x.num.tdiv x.den

/-- The loop that takes the mean off every channel. -/
def R2Aud.removeMean (aud : R2Aud) : R2Aud where
  sr := aud.sr
  len := aud.len
  data := aud.data.map fun row ↦ row.map fun x ↦ x - row.sum / aud.len
  rows := by
    simp only [List.mem_map]
    rintro _ ⟨row, hrow, rfl⟩
    rw [List.length_map, aud.rows row hrow]

/-- `maxdata`. -/
def R2Aud.maxdata (aud : R2Aud) : ℚ :=
  greatest (fun x ↦ |x|) 1 (interleaved 0 aud.len aud.data)

/-- `scale`. -/
def R2Aud.scale (aud : R2Aud) : ℚ := if 32000 < aud.maxdata then 32000 / aud.maxdata else 1

/-- `pData`. -/
def R2Aud.shorts (aud : R2Aud) : List ℤ :=
  (interleaved 0 aud.len aud.data).map fun x ↦ truncate (x * aud.scale)

/-- What `r2_aud_out` stores in `riff`, for samples of `size` bytes. -/
def riffOut (size : ℕ) : Riff := ⟨ascii "RIFF", 12 + 24 + 8 + size - 8, ascii "WAVE"⟩

/-- What it stores in `fmt`. -/
def fmtOut (cn : ℕ) (sr : BitVec 32) : Fmt where
  fmtID := ascii "fmt "
  fmtSIZE := 16
  fmtFORMAT :=
    { wFormatTag := 1
      nChannels := cn % 2 ^ 16
      nSamplesPerSec := sr.toNat
      nBlockAlign := 2 * cn % 2 ^ 16
      nAvgBytesPerSec := (2 * cn % 2 ^ 16) * sr.toNat % 2 ^ 32
      wBitsPerSample := 16 }

/-- What it stores in `data`. -/
def dataOut (size : ℕ) : Data := ⟨ascii "data", size⟩

/-- The three headers for `cn` channels of `len` samples. -/
def wavHeaders (cn len : ℕ) (sr : BitVec 32) : List UInt8 :=
  (riffOut (2 * cn * len)).bytes ++ ((fmtOut cn sr).bytes ++ (dataOut (2 * cn * len)).bytes)

/-- `r2_aud_out`: the audio without its mean, and the file; `none` if the size of the samples is
not an `int`. -/
def r2AudOut (aud : R2Aud) : Option (R2Aud × List UInt8) :=
  let flat := aud.removeMean
  if 2 * flat.cn * flat.len < 2 ^ 31 then
    some (flat, wavHeaders flat.cn flat.len flat.sr ++ flat.shorts.flatMap (intBytes 2))
  else none

/-! ## The reader -/

/-- `ulaw2Linear_SG`. -/
def ulaw2LinearSG : List ℤ :=
  [-32124, -31100, -30076, -29052, -28028, -27004, -25980, -24956, -23932, -22908, -21884,
    -20860, -19836, -18812, -17788, -16764, -15996, -15484, -14972, -14460, -13948, -13436,
    -12924, -12412, -11900, -11388, -10876, -10364, -9852, -9340, -8828, -8316, -7932, -7676,
    -7420, -7164, -6908, -6652, -6396, -6140, -5884, -5628, -5372, -5116, -4860, -4604, -4348,
    -4092, -3900, -3772, -3644, -3516, -3388, -3260, -3132, -3004, -2876, -2748, -2620, -2492,
    -2364, -2236, -2108, -1980, -1884, -1820, -1756, -1692, -1628, -1564, -1500, -1436, -1372,
    -1308, -1244, -1180, -1116, -1052, -988, -924, -876, -844, -812, -780, -748, -716, -684, -652,
    -620, -588, -556, -524, -492, -460, -428, -396, -372, -356, -340, -324, -308, -292, -276,
    -260, -244, -228, -212, -196, -180, -164, -148, -132, -120, -112, -104, -96, -88, -80, -72,
    -64, -56, -48, -40, -32, -24, -16, -8, 0, 32124, 31100, 30076, 29052, 28028, 27004, 25980,
    24956, 23932, 22908, 21884, 20860, 19836, 18812, 17788, 16764, 15996, 15484, 14972, 14460,
    13948, 13436, 12924, 12412, 11900, 11388, 10876, 10364, 9852, 9340, 8828, 8316, 7932, 7676,
    7420, 7164, 6908, 6652, 6396, 6140, 5884, 5628, 5372, 5116, 4860, 4604, 4348, 4092, 3900,
    3772, 3644, 3516, 3388, 3260, 3132, 3004, 2876, 2748, 2620, 2492, 2364, 2236, 2108, 1980,
    1884, 1820, 1756, 1692, 1628, 1564, 1500, 1436, 1372, 1308, 1244, 1180, 1116, 1052, 988, 924,
    876, 844, 812, 780, 748, 716, 684, 652, 620, 588, 556, 524, 492, 460, 428, 396, 372, 356, 340,
    324, 308, 292, 276, 260, 244, 228, 212, 196, 180, 164, 148, 132, 120, 112, 104, 96, 88, 80,
    72, 64, 56, 48, 40, 32, 24, 16, 8, 0]

/-- `Alaw2Linear_SG`. -/
def alaw2LinearSG : List ℤ :=
  [-5504, -5248, -6016, -5760, -4480, -4224, -4992, -4736, -7552, -7296, -8064, -7808, -6528,
    -6272, -7040, -6784, -2752, -2624, -3008, -2880, -2240, -2112, -2496, -2368, -3776, -3648,
    -4032, -3904, -3264, -3136, -3520, -3392, -22016, -20992, -24064, -23040, -17920, -16896,
    -19968, -18944, -30208, -29184, -32256, -31232, -26112, -25088, -28160, -27136, -11008,
    -10496, -12032, -11520, -8960, -8448, -9984, -9472, -15104, -14592, -16128, -15616, -13056,
    -12544, -14080, -13568, -344, -328, -376, -360, -280, -264, -312, -296, -472, -456, -504,
    -488, -408, -392, -440, -424, -88, -72, -120, -104, -24, -8, -56, -40, -216, -200, -248, -232,
    -152, -136, -184, -168, -1376, -1312, -1504, -1440, -1120, -1056, -1248, -1184, -1888, -1824,
    -2016, -1952, -1632, -1568, -1760, -1696, -688, -656, -752, -720, -560, -528, -624, -592,
    -944, -912, -1008, -976, -816, -784, -880, -848, 5504, 5248, 6016, 5760, 4480, 4224, 4992,
    4736, 7552, 7296, 8064, 7808, 6528, 6272, 7040, 6784, 2752, 2624, 3008, 2880, 2240, 2112,
    2496, 2368, 3776, 3648, 4032, 3904, 3264, 3136, 3520, 3392, 22016, 20992, 24064, 23040, 17920,
    16896, 19968, 18944, 30208, 29184, 32256, 31232, 26112, 25088, 28160, 27136, 11008, 10496,
    12032, 11520, 8960, 8448, 9984, 9472, 15104, 14592, 16128, 15616, 13056, 12544, 14080, 13568,
    344, 328, 376, 360, 280, 264, 312, 296, 472, 456, 504, 488, 408, 392, 440, 424, 88, 72, 120,
    104, 24, 8, 56, 40, 216, 200, 248, 232, 152, 136, 184, 168, 1376, 1312, 1504, 1440, 1120,
    1056, 1248, 1184, 1888, 1824, 2016, 1952, 1632, 1568, 1760, 1696, 688, 656, 752, 720, 560,
    528, 624, 592, 944, 912, 1008, 976, 816, 784, 880, 848]

/-- In both tables the upper half is the lower one with the other sign. -/
theorem linearSG_neg :
    ∀ table ∈ [ulaw2LinearSG, alaw2LinearSG], table.drop 128 = (table.take 128).map (-·) := by
  decide

/-- The bytes of a sample and what is made of them, for each pair of bits and tag; `none` is an
error in the format.  Rows of another width stay as they are allocated. -/
def sampleFormat (bits tag : ℕ) : Option (ℕ × (List UInt8 → ℚ)) :=
  if bits = 8 then
    if tag = 6 then some (1, fun cell ↦ alaw2LinearSG.getD (natOf cell) 0)
    else if tag = 7 then some (1, fun cell ↦ ulaw2LinearSG.getD (natOf cell) 0)
    else if tag = 1 then some (1, fun cell ↦ (((natOf cell : ℤ) - 128) * 256 : ℤ))
    else none
  else if bits = 16 then some (2, fun cell ↦ intOf cell)
  else if bits = 32 then
    if tag = 1 then some (4, fun cell ↦ (intOf cell).tdiv 32768)
    else if tag = 2 then some (4, fun cell ↦ floatValue (natOf cell) * 32768)
    else none
  else some (1, fun _ ↦ 0)

/-- The rows of `cn` channels of `len` samples in a buffer. -/
def rowsOf (cn len : ℕ) (cells : List ℚ) : List (List ℚ) :=
  (List.range cn).map fun i ↦ channel 0 cn len i cells

theorem length_of_mem_rowsOf {cn len : ℕ} {cells : List ℚ} :
    ∀ row ∈ rowsOf cn len cells, row.length = len := by
  intro row hrow
  obtain ⟨i, -, rfl⟩ := List.mem_map.mp hrow
  exact channel_length 0 cn len i cells

/-- The part of `ReadWav` behind the headers; a division by zero and a negative length end it. -/
def readSamples (format : Waveform) (dataSIZE : ℕ) : Reader UInt8 R2Aud :=
  let cn := format.nChannels
  let bits := format.wBitsPerSample
  let len := dataSIZE / (bits / 8 * cn)
  if bits / 8 * cn = 0 ∨ 2 ^ 31 ≤ len then failure
  else do
    let pBuff ← fread (List.replicate dataSIZE 0)
    match sampleFormat bits format.wFormatTag with
    | none => failure
    | some (width, toSample) =>
        pure
          { sr := BitVec.ofNat 32 format.nSamplesPerSec
            len
            data := rowsOf cn len ((blocks width pBuff).map toSample)
            rows := length_of_mem_rowsOf }

/-- The headers from the data header on: two bytes of a longer format and a fact header may stand
in front of it. -/
def readData (fmtSIZE : ℕ) (memory : List UInt8) : Reader UInt8 Data := do
  if fmtSIZE = 18 then skip 2
  let data ← readStruct Data.parse memory
  if data.dataID = ascii "fact" then do
    skip data.dataSIZE
    readStruct Data.parse data.bytes
  else pure data

/-- `ReadWav`; the locals `riff`, `fmt` and `data` are so much of the stack. -/
def readWav (stack : Fin 44 → UInt8) : Reader UInt8 R2Aud := do
  let riff ← readStruct Riff.parse ((List.ofFn stack).take 12)
  let fmt ← readStruct Fmt.parse (((List.ofFn stack).drop 12).take 24)
  if riff.riffID = ascii "RIFF" ∧ riff.riffFORMAT = ascii "WAVE" ∧
      fmt.fmtID = ascii "fmt " then do
    let data ← readData fmt.fmtSIZE ((List.ofFn stack).drop 36)
    if data.dataID = ascii "data" then readSamples fmt.fmtFORMAT data.dataSIZE else failure
  else failure

/-- The part of `ReadWav` in front of the samples: the format and the size of the data chunk. -/
def wavHeader (stack : Fin 44 → UInt8) : Reader UInt8 (Waveform × ℕ) := do
  let riff ← readStruct Riff.parse ((List.ofFn stack).take 12)
  let fmt ← readStruct Fmt.parse (((List.ofFn stack).drop 12).take 24)
  if riff.riffID = ascii "RIFF" ∧ riff.riffFORMAT = ascii "WAVE" ∧
      fmt.fmtID = ascii "fmt " then do
    let data ← readData fmt.fmtSIZE ((List.ofFn stack).drop 36)
    if data.dataID = ascii "data" then pure (fmt.fmtFORMAT, data.dataSIZE) else failure
  else failure

theorem readWav_eq_bind (stack : Fin 44 → UInt8) :
    readWav stack = wavHeader stack >>= fun header ↦ readSamples header.1 header.2 := by
  simp only [readWav, wavHeader, bind_assoc]
  congr 1
  funext riff
  congr 1
  funext fmt
  by_cases hformat : riff.riffID = ascii "RIFF" ∧ riff.riffFORMAT = ascii "WAVE" ∧
      fmt.fmtID = ascii "fmt "
  · rw [if_pos hformat, if_pos hformat, bind_assoc]
    congr 1
    funext data
    by_cases hdata : data.dataID = ascii "data"
    · rw [if_pos hdata, if_pos hdata, pure_bind]
    · rw [if_neg hdata, if_neg hdata]
      rfl
  · rw [if_neg hformat, if_neg hformat]
    rfl

/-! ## One header after the other -/

/-- The fields of a header fit. -/
structure Waveform.Fits (f : Waveform) : Prop where
  tag : f.wFormatTag < 2 ^ 16
  channels : f.nChannels < 2 ^ 16
  samples : f.nSamplesPerSec < 2 ^ 32
  average : f.nAvgBytesPerSec < 2 ^ 32
  align : f.nBlockAlign < 2 ^ 16
  bits : f.wBitsPerSample < 2 ^ 16

theorem id4_reads {id : List UInt8} (h : id.length = 4) : Reads id4 id id :=
  fread_reads (by rw [h, List.length_replicate])

theorem word2_reads {n : ℕ} (h : n < 2 ^ 16) : Reads (word 2) (leBytes 2 n) n :=
  word_reads h

theorem word4_reads {n : ℕ} (h : n < 2 ^ 32) : Reads (word 4) (leBytes 4 n) n :=
  word_reads h

theorem Waveform.parse_reads {f : Waveform} (h : f.Fits) : Reads Waveform.parse f.bytes f :=
  (word2_reads h.tag).bind <| (word2_reads h.channels).bind <| (word4_reads h.samples).bind <|
    (word4_reads h.average).bind <| (word2_reads h.align).bind <| (word2_reads h.bits).bind_pure _

theorem Riff.parse_reads {r : Riff} (hid : r.riffID.length = 4) (hsize : r.riffSIZE < 2 ^ 32)
    (hformat : r.riffFORMAT.length = 4) : Reads Riff.parse r.bytes r :=
  (id4_reads hid).bind <| (word4_reads hsize).bind <| (id4_reads hformat).bind_pure _

theorem Fmt.parse_reads {f : Fmt} (hid : f.fmtID.length = 4) (hsize : f.fmtSIZE < 2 ^ 32)
    (hformat : f.fmtFORMAT.Fits) : Reads Fmt.parse f.bytes f :=
  (id4_reads hid).bind <| (word4_reads hsize).bind <| (Waveform.parse_reads hformat).bind_pure _

theorem Data.parse_reads {d : Data} (hid : d.dataID.length = 4) (hsize : d.dataSIZE < 2 ^ 32) :
    Reads Data.parse d.bytes d :=
  (id4_reads hid).bind <| (word4_reads hsize).bind_pure _

/-- A data header right behind a plain format. -/
theorem readData_reads {fmtSIZE : ℕ} {memory : List UInt8} {d : Data} (hplain : fmtSIZE ≠ 18)
    (hmemory : memory.length = 8) (hid : d.dataID.length = 4) (hsize : d.dataSIZE < 2 ^ 32)
    (hfact : d.dataID ≠ ascii "fact") : Reads (readData fmtSIZE memory) d.bytes d := by
  have hlength : d.bytes.length = memory.length := by
    rw [Data.bytes, List.length_append, hid, leBytes_length, hmemory]
  have hread : Reads (readStruct Data.parse memory >>= fun data ↦
      if data.dataID = ascii "fact" then do
        skip data.dataSIZE
        readStruct Data.parse data.bytes
      else pure data) (d.bytes ++ []) d := by
    apply (readStruct_reads (Data.parse_reads hid hsize) hlength).bind
    rw [if_neg hfact]
    exact Reads.pure d
  rw [List.append_nil] at hread
  simpa only [readData, if_neg hplain, pure_bind] using hread

/-! ## Samples that are not changed -/

theorem truncate_intCast (n : ℤ) : truncate n = n := by
  rw [truncate, Rat.num_intCast, Rat.den_intCast, Nat.cast_one, Int.tdiv_one]

/-- Without a mean nothing is taken off. -/
theorem R2Aud.removeMean_of_sum {aud : R2Aud} (hmean : ∀ row ∈ aud.data, row.sum = 0) :
    aud.removeMean = aud := by
  apply R2Aud.ext
  · rfl
  · rfl
  · calc
      aud.removeMean.data = aud.data.map fun row ↦ row := by
        apply List.map_congr_left
        intro row hrow
        rw [hmean row hrow, zero_div]
        exact (List.map_congr_left fun x _ ↦ sub_zero x).trans (List.map_id' row)
      _ = aud.data := List.map_id' _

/-- Nothing is scaled that is not too loud. -/
theorem R2Aud.scale_of_le {aud : R2Aud} (hloud : ∀ row ∈ aud.data, ∀ x ∈ row, |x| ≤ 32000) :
    aud.scale = 1 := by
  rw [scale, if_neg]
  rw [not_lt, maxdata, greatest_le_iff]
  refine ⟨by norm_num, ?_⟩
  intro x hx
  obtain ⟨row, hrow, hmem⟩ := (mem_interleaved_iff 0 aud.rows).mp hx
  exact hloud row hrow x hmem

/-- What the writer stores of integer samples, the reader makes the samples of again. -/
theorem R2Aud.map_shorts {aud : R2Aud} (hloud : ∀ row ∈ aud.data, ∀ x ∈ row, |x| ≤ 32000)
    (hint : ∀ row ∈ aud.data, ∀ x ∈ row, ∃ n : ℤ, x = n) :
    (aud.shorts.map (intBytes 2)).map (fun cell ↦ (intOf cell : ℚ)) =
      interleaved 0 aud.len aud.data := by
  rw [shorts, R2Aud.scale_of_le hloud, List.map_map, List.map_map]
  refine (List.map_congr_left fun x hx ↦ ?_).trans (List.map_id _)
  obtain ⟨row, hrow, hmem⟩ := (mem_interleaved_iff 0 aud.rows).mp hx
  obtain ⟨n, rfl⟩ := hint row hrow x hmem
  have hbound := hloud row hrow _ hmem
  rw [← Int.cast_abs] at hbound
  have hrange : |n| ≤ 32000 := by exact_mod_cast hbound
  obtain ⟨hlow, hhigh⟩ := abs_le.mp hrange
  have hwidth : ((256 ^ 2 : ℕ) : ℤ) = 65536 := by norm_num
  rw [Function.comp_apply, Function.comp_apply, mul_one, truncate_intCast, id,
    intOf_intBytes (by rw [hwidth]; omega) (by rw [hwidth]; omega)]

theorem shorts_length (aud : R2Aud) : aud.shorts.length = aud.len * aud.cn := by
  rw [R2Aud.shorts, List.length_map, interleaved_length, R2Aud.cn]

/-- The samples of a file behind headers that fit to the audio. -/
theorem readSamples_reads {aud : R2Aud} {format : Waveform} (hcn : 0 < aud.cn)
    (hlen : aud.len < 2 ^ 31) (hchannels : format.nChannels = aud.cn)
    (hrate : format.nSamplesPerSec = aud.sr.toNat) (hbits : format.wBitsPerSample = 16)
    (hloud : ∀ row ∈ aud.data, ∀ x ∈ row, |x| ≤ 32000)
    (hint : ∀ row ∈ aud.data, ∀ x ∈ row, ∃ n : ℤ, x = n) :
    Reads (readSamples format (2 * aud.cn * aud.len)) (aud.shorts.flatMap (intBytes 2)) aud := by
  have hdiv : 2 * aud.cn * aud.len / (16 / 8 * aud.cn) = aud.len :=
    Nat.mul_div_cancel_left aud.len (by omega)
  have hbuffer : (aud.shorts.flatMap (intBytes 2)).length =
      (List.replicate (2 * aud.cn * aud.len) (0 : UInt8)).length := by
    rw [length_flatMap_const (intBytes_length 2), shorts_length, List.length_replicate]
    ring
  have hcells : (blocks 2 (aud.shorts.flatMap (intBytes 2))).map (fun cell ↦ (intOf cell : ℚ)) =
      interleaved 0 aud.len aud.data := by
    rw [blocks_flatMap (by decide) (intBytes_length 2), R2Aud.map_shorts hloud hint]
  have hformat : sampleFormat 16 format.wFormatTag = some (2, fun cell ↦ (intOf cell : ℚ)) := rfl
  have hrows : rowsOf aud.cn aud.len (interleaved 0 aud.len aud.data) = aud.data :=
    channels_interleaved 0 aud.rows
  have haud : R2Aud.mk (BitVec.ofNat 32 format.nSamplesPerSec) aud.len
      (rowsOf aud.cn aud.len
        ((blocks 2 (aud.shorts.flatMap (intBytes 2))).map fun cell ↦ (intOf cell : ℚ)))
      length_of_mem_rowsOf = aud := by
    apply R2Aud.ext
    · rw [hrate, BitVec.ofNat_toNat, BitVec.setWidth_eq]
    · rfl
    · exact (congrArg (rowsOf aud.cn aud.len) hcells).trans hrows
  simp only [readSamples, hchannels, hbits, hdiv]
  rw [if_neg (by omega), ← List.append_nil (aud.shorts.flatMap (intBytes 2))]
  apply (fread_reads hbuffer).bind
  rw [hformat]
  dsimp only
  rw [haud]
  exact Reads.pure aud

theorem fmtOut_fits (cn : ℕ) (sr : BitVec 32) : (fmtOut cn sr).fmtFORMAT.Fits where
  tag := (by decide : 1 < 2 ^ 16)
  channels := Nat.mod_lt _ (by decide)
  samples := sr.isLt
  average := Nat.mod_lt _ (by decide)
  align := Nat.mod_lt _ (by decide)
  bits := (by decide : 16 < 2 ^ 16)

theorem dataOut_dataID (size : ℕ) : (dataOut size).dataID = ascii "data" := rfl

theorem wavHeader_reads {cn len : ℕ} {sr : BitVec 32} (stack : Fin 44 → UInt8)
    (hsize : 2 * cn * len < 2 ^ 31) :
    Reads (wavHeader stack) (wavHeaders cn len sr) ((fmtOut cn sr).fmtFORMAT, 2 * cn * len) := by
  have hriff : Reads (readStruct Riff.parse ((List.ofFn stack).take 12))
      (riffOut (2 * cn * len)).bytes (riffOut (2 * cn * len)) :=
    readStruct_reads (Riff.parse_reads rfl (by simp only [riffOut]; omega) rfl)
      (by simp [Riff.bytes, riffOut, ascii])
  have hfmt : Reads (readStruct Fmt.parse (((List.ofFn stack).drop 12).take 24))
      (fmtOut cn sr).bytes (fmtOut cn sr) :=
    readStruct_reads (Fmt.parse_reads rfl (by decide : 16 < 2 ^ 32) (fmtOut_fits cn sr))
      (by simp [Fmt.bytes, Waveform.bytes, fmtOut, ascii])
  have hdata : Reads (readData 16 ((List.ofFn stack).drop 36))
      (dataOut (2 * cn * len)).bytes (dataOut (2 * cn * len)) :=
    readData_reads (by decide) (by simp) rfl (by simp only [dataOut]; omega)
      (by simp only [dataOut]; decide)
  have hend : Reads (if (dataOut (2 * cn * len)).dataID = ascii "data" then
      pure ((fmtOut cn sr).fmtFORMAT, (dataOut (2 * cn * len)).dataSIZE) else failure :
        Reader UInt8 (Waveform × ℕ)) [] ((fmtOut cn sr).fmtFORMAT, 2 * cn * len) := by
    rw [if_pos (dataOut_dataID _)]
    exact Reads.pure _
  rw [wavHeaders, ← List.append_nil (dataOut (2 * cn * len)).bytes]
  apply hriff.bind
  apply hfmt.bind
  rw [if_pos ⟨rfl, rfl, rfl⟩]
  exact hdata.bind hend

/-- The whole file. -/
theorem readWav_reads {aud : R2Aud} (stack : Fin 44 → UInt8) (hcn : 0 < aud.cn)
    (hchannels : aud.cn < 2 ^ 16) (hsize : 2 * aud.cn * aud.len < 2 ^ 31)
    (hloud : ∀ row ∈ aud.data, ∀ x ∈ row, |x| ≤ 32000)
    (hint : ∀ row ∈ aud.data, ∀ x ∈ row, ∃ n : ℤ, x = n) :
    Reads (readWav stack)
      (wavHeaders aud.cn aud.len aud.sr ++ aud.shorts.flatMap (intBytes 2)) aud := by
  have hlen : aud.len < 2 ^ 31 := by nlinarith
  rw [readWav_eq_bind]
  apply (wavHeader_reads stack hsize).bind
  exact readSamples_reads hcn hlen (Nat.mod_eq_of_lt hchannels) rfl rfl hloud hint

/-- **The round trip of a WAV file.** Within the limits of the header and of an `int`, integer
samples without a mean that are not too loud come back as they are, and so does the shape of the
audio. -/
theorem readWav_r2AudOut (aud : R2Aud) (stack : Fin 44 → UInt8) (hcn : 0 < aud.cn)
    (hchannels : aud.cn < 2 ^ 16) (hsize : 2 * aud.cn * aud.len < 2 ^ 31)
    (hint : ∀ row ∈ aud.data, ∀ x ∈ row, ∃ n : ℤ, x = n)
    (hmean : ∀ row ∈ aud.data, row.sum = 0)
    (hloud : ∀ row ∈ aud.data, ∀ x ∈ row, |x| ≤ 32000) :
    ∃ file, (r2AudOut aud).map Prod.snd = some file ∧ (readWav stack).run' file = some aud := by
  refine ⟨wavHeaders aud.cn aud.len aud.sr ++ aud.shorts.flatMap (intBytes 2), ?_, ?_⟩
  · rw [r2AudOut, R2Aud.removeMean_of_sum hmean]
    simp only [hsize, if_true, Option.map_some]
  · calc
      _ = Prod.fst <$> (readWav stack).run
          (wavHeaders aud.cn aud.len aud.sr ++ aud.shorts.flatMap (intBytes 2)) := rfl
      _ = some aud := by
        rw [(readWav_reads stack hcn hchannels hsize hloud hint).whole]
        rfl

/-- Two channels of two samples. -/
def stereoAud : R2Aud where
  sr := 48000
  len := 2
  data := [[32000, -32000], [-1, 1]]
  rows := by simp

theorem readWav_stereoAud :
    ∃ file, (r2AudOut stereoAud).map Prod.snd = some file ∧
      (readWav fun _ ↦ 0).run' file = some stereoAud := by
  refine readWav_r2AudOut stereoAud (fun _ ↦ 0) (by decide) (by decide) (by decide) ?_ ?_ ?_
  · have hint : ∀ row ∈ stereoAud.data, ∀ x ∈ row, x = (x.num : ℚ) := by decide +kernel
    exact fun row hrow x hx ↦ ⟨x.num, hint row hrow x hx⟩
  · decide +kernel
  · decide +kernel

/-- An audio of `cn` channels without samples. -/
def emptyAud (cn : ℕ) : R2Aud where
  sr := 16000
  len := 0
  data := List.replicate cn []
  rows := by
    intro row hrow
    rw [List.eq_of_mem_replicate hrow, List.length_nil]

theorem r2AudOut_emptyAud (cn : ℕ) :
    (r2AudOut (emptyAud cn)).map Prod.snd = some (wavHeaders cn 0 16000) := by
  have hmean : ∀ row ∈ (emptyAud cn).data, row.sum = 0 := by
    intro row hrow
    rw [List.eq_of_mem_replicate hrow, List.sum_nil]
  have hcn : (emptyAud cn).cn = cn := List.length_replicate
  have hshorts : (emptyAud cn).shorts = [] := by
    rw [← List.length_eq_zero_iff, shorts_length]
    exact Nat.zero_mul _
  rw [r2AudOut, R2Aud.removeMean_of_sum hmean]
  simp only [hcn, hshorts, List.flatMap_nil, List.append_nil]
  rfl

/-- 65536 channels are none in the header, and the reader divides by zero. -/
theorem not_readWav_r2AudOut :
    ¬∀ (aud : R2Aud) (stack : Fin 44 → UInt8), 0 < aud.cn →
      (∀ row ∈ aud.data, ∀ x ∈ row, ∃ n : ℤ, x = n) → (∀ row ∈ aud.data, row.sum = 0) →
      (∀ row ∈ aud.data, ∀ x ∈ row, |x| ≤ 32000) →
      ∃ file, (r2AudOut aud).map Prod.snd = some file ∧ (readWav stack).run' file = some aud := by
  intro h
  have hempty : ∀ row ∈ (emptyAud 65536).data, row = [] := fun row hrow ↦
    List.eq_of_mem_replicate hrow
  obtain ⟨file, hfile, hread⟩ := h (emptyAud 65536) (fun _ ↦ 0)
    (by rw [R2Aud.cn, emptyAud, List.length_replicate]; decide)
    (fun row hrow x hx ↦ absurd hx (by rw [hempty row hrow]; exact List.not_mem_nil))
    (fun row hrow ↦ by rw [hempty row hrow, List.sum_nil])
    (fun row hrow x hx ↦ absurd hx (by rw [hempty row hrow]; exact List.not_mem_nil))
  rw [r2AudOut_emptyAud, Option.some_inj] at hfile
  subst hfile
  have hnone : ((readWav fun _ ↦ 0).run' (wavHeaders 65536 0 16000)).isNone = true := by
    decide +kernel
  rw [hread] at hnone
  cases hnone

end Vsys.Aud
