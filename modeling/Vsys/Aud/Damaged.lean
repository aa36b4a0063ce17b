import Vsys.Aud.Wav

/-!
# WAV files that promise too much

`ReadWav` takes what the headers say as it is.  It divides by the size of a frame, allocates a
buffer of the promised size that is filled with zeros, and decodes the buffer however much of it
has been read.  Errors in the format are only looked for in samples of 8 and of 32 bits, and samples
of any other width than 8, 16 and 32 bits are not decoded at all.

`decodeWav` is the reader with the ways in which it does not come back.  `decodeWav_present_iff`
says for which files all samples stand in the file.
-/

namespace Vsys.Aud

open Vsys.Io Vsys.Stream

/-- Why `ReadWav` does not come back. -/
inductive Fault where
  /-- The size of a frame is zero. -/
  | division
  /-- The number of samples is negative, and so large a memory is not allocated. -/
  | allocation
  /-- The place of a sample in the buffer is not an `int`. -/
  | index
deriving DecidableEq

/-! ## The reader -/

/-- `len`. -/
def Waveform.len (format : Waveform) (dataSIZE : ℕ) : ℕ :=
  dataSIZE / (format.wBitsPerSample / 8 * format.nChannels)

/-- There is a branch of `ReadWav` that decodes samples of so many bits. -/
def Decoded (bits : ℕ) : Prop := bits = 8 ∨ bits = 16 ∨ bits = 32

instance (bits : ℕ) : Decidable (Decoded bits) := inferInstanceAs (Decidable (_ ∨ _ ∨ _))

/-- `pBuff` behind `fread`. -/
def pBuff (dataSIZE : ℕ) (file : List UInt8) : List UInt8 :=
  file.take dataSIZE ++ (List.replicate dataSIZE 0).drop file.length

/-- `pAud` behind the loops of a branch with its size of a sample and its decoding. -/
def decodedAud (format : Waveform) (dataSIZE : ℕ) (file : List UInt8) (width : ℕ)
    (toSample : List UInt8 → ℚ) : R2Aud where
  sr := BitVec.ofNat 32 format.nSamplesPerSec
  len := format.len dataSIZE
  data := rowsOf format.nChannels (format.len dataSIZE)
    ((blocks width (pBuff dataSIZE file)).map toSample)
  rows := length_of_mem_rowsOf

/-- The part of `ReadWav` behind the headers. -/
def decodeSamples (format : Waveform) (dataSIZE : ℕ) (file : List UInt8) :
    Except Fault (Option R2Aud) :=
  let cn := format.nChannels
  let bits := format.wBitsPerSample
  if bits / 8 * cn = 0 then throw .division
  else
    if 2 ^ 31 ≤ format.len dataSIZE then throw .allocation
    else
      match sampleFormat bits format.wFormatTag with
      | none => pure none
      | some (width, toSample) =>
          if Decoded bits ∧ 2 ^ 31 < cn * format.len dataSIZE then throw .index
          else pure (some (decodedAud format dataSIZE file width toSample))

/-- `ReadWav` with its faults; the audio is `none` for `NULL`. -/
def decodeWav (stack : Fin 44 → UInt8) (file : List UInt8) : Except Fault (Option R2Aud) :=
  match (wavHeader stack).run file with
  | none => pure none
  | some ((format, dataSIZE), rest) => decodeSamples format dataSIZE rest

theorem readSamples_of_decodeSamples {format : Waveform} {dataSIZE : ℕ} {file : List UInt8}
    {r : Option R2Aud} (h : decodeSamples format dataSIZE file = .ok r) :
    (readSamples format dataSIZE).run' file = r := by
  simp only [decodeSamples] at h
  by_cases hzero : format.wBitsPerSample / 8 * format.nChannels = 0
  · rw [if_pos hzero] at h
    cases h
  rw [if_neg hzero] at h
  by_cases hlen : 2 ^ 31 ≤ format.len dataSIZE
  · rw [if_pos hlen] at h
    cases h
  rw [if_neg hlen] at h
  have hpass : ¬(format.wBitsPerSample / 8 * format.nChannels = 0 ∨
      2 ^ 31 ≤ dataSIZE / (format.wBitsPerSample / 8 * format.nChannels)) := not_or.mpr ⟨hzero, hlen⟩
  have hbuffer : (fread (List.replicate dataSIZE 0)).run file =
      some (pBuff dataSIZE file, file.drop dataSIZE) := by
    rw [StateT.run, fread, List.length_replicate]
    rfl
  simp only [readSamples]
  rw [if_neg hpass, run'_bind_some hbuffer]
  cases hformat : sampleFormat format.wBitsPerSample format.wFormatTag with
  | none =>
      rw [hformat] at h
      cases h
      rfl
  | some f =>
      rw [hformat] at h
      dsimp only at h
      split_ifs at h with hindex
      cases h
      rfl

/-- Where `ReadWav` comes back, it comes back with this. -/
theorem readWav_of_decodeWav {stack : Fin 44 → UInt8} {file : List UInt8} {r : Option R2Aud}
    (h : decodeWav stack file = .ok r) : (readWav stack).run' file = r := by
  rw [readWav_eq_bind]
  rw [decodeWav] at h
  cases hheader : (wavHeader stack).run file with
  | none =>
      rw [hheader] at h
      cases h
      exact run'_bind_none hheader
  | some header =>
      rw [hheader] at h
      rw [run'_bind_some hheader]
      exact readSamples_of_decodeSamples h

/-! ## Samples that stand in the file -/

/-- The size of a sample and its decoding, for the widths that are decoded. -/
def codec (bits tag : ℕ) : Option (ℕ × (List UInt8 → ℚ)) :=
  if Decoded bits then sampleFormat bits tag else none

/-- Sample `j` of channel `i` is what stands in its bytes of the chunk, and they are all there. -/
def R2Aud.SampleFrom (aud : R2Aud) (format : Waveform) (chunk : List UInt8) (i j : ℕ) : Prop :=
  ∃ width toSample, codec format.wBitsPerSample format.wFormatTag = some (width, toSample) ∧
    (j * aud.cn + i + 1) * width ≤ chunk.length ∧
    ∃ row, aud.data[i]? = some row ∧
      row[j]? = some (toSample (blockAt width (j * aud.cn + i) chunk))

/-- `ReadWav` comes back, and every sample it comes back with stands in the data chunk of the
file. -/
def Present (stack : Fin 44 → UInt8) (file : List UInt8) : Except Fault (Option R2Aud) → Prop
  | .error _ => False
  | .ok none => True
  | .ok (some aud) =>
      ∃ format dataSIZE rest, (wavHeader stack).run file = some ((format, dataSIZE), rest) ∧
        ∀ i < aud.cn, ∀ j < aud.len, aud.SampleFrom format (rest.take dataSIZE) i j

/-- What the headers promise is kept by the bytes behind them. -/
structure Kept (format : Waveform) (dataSIZE : ℕ) (rest : List UInt8) : Prop where
  frame : 0 < format.wBitsPerSample / 8 * format.nChannels
  length : format.len dataSIZE < 2 ^ 31
  samples : sampleFormat format.wBitsPerSample format.wFormatTag = none ∨
    format.len dataSIZE = 0 ∨
    Decoded format.wBitsPerSample ∧ format.nChannels * format.len dataSIZE ≤ 2 ^ 31 ∧
      format.nChannels * format.len dataSIZE * (format.wBitsPerSample / 8) ≤ rest.length

theorem codec_width {bits tag width : ℕ} {toSample : List UInt8 → ℚ}
    (h : sampleFormat bits tag = some (width, toSample)) (hbits : Decoded bits) :
    width = bits / 8 := by
  unfold sampleFormat at h
  rcases hbits with rfl | rfl | rfl
  · split_ifs at h <;> simp_all
  · split_ifs at h <;> simp_all
  · split_ifs at h <;> simp_all

/-- The samples fit into the promised size. -/
theorem Waveform.len_mul_le (format : Waveform) (dataSIZE : ℕ) :
    format.nChannels * format.len dataSIZE * (format.wBitsPerSample / 8) ≤ dataSIZE :=
  calc
    _ = format.wBitsPerSample / 8 * format.nChannels * format.len dataSIZE := by ring
    _ ≤ dataSIZE := Nat.mul_div_le _ _

theorem pBuff_length (dataSIZE : ℕ) (file : List UInt8) : (pBuff dataSIZE file).length = dataSIZE := by
  rw [pBuff, List.length_append, List.length_take, List.length_drop, List.length_replicate]
  omega

/-- What has been read stands in the buffer. -/
theorem blockAt_pBuff {width k dataSIZE : ℕ} {file : List UInt8}
    (h : (k + 1) * width ≤ (file.take dataSIZE).length) :
    blockAt width k (pBuff dataSIZE file) = blockAt width k (file.take dataSIZE) := by
  rw [Nat.succ_mul] at h
  rw [blockAt, pBuff, List.drop_append_of_le_length (by omega),
    List.take_append_of_le_length (by rw [List.length_drop]; omega), blockAt]

theorem getElem?_blocks {α : Type*} {width k : ℕ} {l : List α} (hwidth : 0 < width)
    (h : (k + 1) * width ≤ l.length) : (blocks width l)[k]? = some (blockAt width k l) := by
  rw [blocks, List.getElem?_map, List.getElem?_range]
  · rfl
  · exact (Nat.le_div_iff_mul_le hwidth).mpr h

/-- Entry `j` of row `i`. -/
theorem getElem?_rowsOf {cn len i j : ℕ} {cells : List ℚ} (hi : i < cn) (hj : j < len) :
    ∃ row, (rowsOf cn len cells)[i]? = some row ∧ row[j]? = some (cells.getD (j * cn + i) 0) := by
  refine ⟨channel 0 cn len i cells, ?_, ?_⟩
  · rw [rowsOf, List.getElem?_map, List.getElem?_range hi]
    rfl
  · rw [channel, List.getElem?_map, List.getElem?_range hj]
    rfl

/-- The places of the samples: each is in front of the number of them, and the last is the one
before it. -/
theorem place_lt {cn len i j : ℕ} (hi : i < cn) (hj : j < len) : j * cn + i + 1 ≤ cn * len := by
  calc
    j * cn + i + 1 ≤ j * cn + cn := by omega
    _ = (j + 1) * cn := by ring
    _ ≤ len * cn := Nat.mul_le_mul_right cn hj
    _ = cn * len := Nat.mul_comm _ _

theorem place_last {cn len : ℕ} (hcn : 0 < cn) (hlen : 0 < len) :
    (len - 1) * cn + (cn - 1) + 1 = cn * len := by
  obtain ⟨cn, rfl⟩ : ∃ n, cn = n + 1 := ⟨cn - 1, by omega⟩
  obtain ⟨len, rfl⟩ : ∃ n, len = n + 1 := ⟨len - 1, by omega⟩
  rw [Nat.add_sub_cancel, Nat.add_sub_cancel]
  ring

theorem decodedAud_cn (format : Waveform) (dataSIZE : ℕ) (file : List UInt8) (width : ℕ)
    (toSample : List UInt8 → ℚ) :
    (decodedAud format dataSIZE file width toSample).cn = format.nChannels := by
  simp only [R2Aud.cn, decodedAud, rowsOf, List.length_map, List.length_range]

/-- The samples of a decoded width, one by one. -/
theorem sampleFrom_iff {format : Waveform} {dataSIZE width i j : ℕ} {rest : List UInt8}
    {toSample : List UInt8 → ℚ} (hwidth : 0 < width)
    (hcodec : codec format.wBitsPerSample format.wFormatTag = some (width, toSample))
    (hi : i < format.nChannels) (hj : j < format.len dataSIZE) :
    (decodedAud format dataSIZE rest width toSample).SampleFrom format (rest.take dataSIZE) i j ↔
      (j * format.nChannels + i + 1) * width ≤ (rest.take dataSIZE).length := by
  rw [R2Aud.SampleFrom, decodedAud_cn]
  constructor
  · rintro ⟨width', toSample', hcodec', hplace, -⟩
    rw [hcodec, Option.some_inj, Prod.mk.injEq] at hcodec'
    rwa [hcodec'.1]
  · intro hplace
    refine ⟨width, toSample, hcodec, hplace, ?_⟩
    have hbuffer : (j * format.nChannels + i + 1) * width ≤ (pBuff dataSIZE rest).length := by
      rw [pBuff_length]
      exact hplace.trans (List.length_take_le _ _)
    obtain ⟨row, hrow, hsample⟩ := @getElem?_rowsOf format.nChannels (format.len dataSIZE) i j
      ((blocks width (pBuff dataSIZE rest)).map toSample) hi hj
    refine ⟨row, hrow, ?_⟩
    rw [hsample, List.getD_eq_getElem?_getD, List.getElem?_map,
      getElem?_blocks hwidth hbuffer, blockAt_pBuff hplace]
    rfl

/-- All samples of a decoded width stand in the chunk if the bytes of all of them do. -/
theorem forall_sampleFrom_iff {format : Waveform} {dataSIZE width : ℕ} {rest : List UInt8}
    {toSample : List UInt8 → ℚ} (hframe : 0 < width * format.nChannels)
    (hfit : format.nChannels * format.len dataSIZE * width ≤ dataSIZE)
    (hcodec : codec format.wBitsPerSample format.wFormatTag = some (width, toSample)) :
    (∀ i < format.nChannels, ∀ j < format.len dataSIZE,
        (decodedAud format dataSIZE rest width toSample).SampleFrom format (rest.take dataSIZE) i j) ↔
      format.nChannels * format.len dataSIZE * width ≤ rest.length := by
  have hwidth : 0 < width := Nat.pos_of_mul_pos_right hframe
  have hcn : 0 < format.nChannels := Nat.pos_of_mul_pos_left hframe
  constructor
  · intro h
    rcases Nat.eq_zero_or_pos (format.len dataSIZE) with hlen | hlen
    · rw [hlen, Nat.mul_zero, Nat.zero_mul]
      exact Nat.zero_le _
    · have hi := Nat.sub_lt hcn Nat.one_pos
      have hj := Nat.sub_lt hlen Nat.one_pos
      have hlast := (sampleFrom_iff hwidth hcodec hi hj).mp (h _ hi _ hj)
      rw [place_last hcn hlen, List.length_take] at hlast
      exact hlast.trans (min_le_right _ _)
  · intro h i hi j hj
    apply (sampleFrom_iff hwidth hcodec hi hj).mpr
    rw [List.length_take]
    calc
      (j * format.nChannels + i + 1) * width ≤ format.nChannels * format.len dataSIZE * width :=
        Nat.mul_le_mul_right width (place_lt hi hj)
      _ ≤ min dataSIZE rest.length := le_min hfit h

/-- What comes back is sound as long as its samples are. -/
theorem present_iff {stack : Fin 44 → UInt8} {file rest : List UInt8} {format : Waveform}
    {dataSIZE width : ℕ} {toSample : List UInt8 → ℚ}
    (hheader : (wavHeader stack).run file = some ((format, dataSIZE), rest)) :
    Present stack file (.ok (some (decodedAud format dataSIZE rest width toSample))) ↔
      ∀ i < format.nChannels, ∀ j < format.len dataSIZE,
        (decodedAud format dataSIZE rest width toSample).SampleFrom format
          (rest.take dataSIZE) i j := by
  rw [Present, decodedAud_cn]
  constructor
  · rintro ⟨format', dataSIZE', rest', hheader', h⟩
    rw [hheader] at hheader'
    cases hheader'
    exact h
  · intro h
    exact ⟨format, dataSIZE, rest, hheader, h⟩

/-- What is kept if the format is one without an error. -/
theorem Kept.of_format {format : Waveform} {dataSIZE : ℕ} {rest : List UInt8}
    {f : ℕ × (List UInt8 → ℚ)} (h : Kept format dataSIZE rest)
    (hformat : sampleFormat format.wBitsPerSample format.wFormatTag = some f) :
    format.len dataSIZE = 0 ∨
      Decoded format.wBitsPerSample ∧ format.nChannels * format.len dataSIZE ≤ 2 ^ 31 ∧
        format.nChannels * format.len dataSIZE * (format.wBitsPerSample / 8) ≤ rest.length := by
  apply h.samples.resolve_left
  rw [hformat]
  exact Option.some_ne_none f

section Formats

variable {stack : Fin 44 → UInt8} {file rest : List UInt8} {format : Waveform} {dataSIZE width : ℕ}
  {toSample : List UInt8 → ℚ}

/-- Samples of a width that is decoded. -/
theorem present_decoded_iff (hheader : (wavHeader stack).run file = some ((format, dataSIZE), rest))
    (hframe : 0 < format.wBitsPerSample / 8 * format.nChannels)
    (hlen : format.len dataSIZE < 2 ^ 31)
    (hformat : sampleFormat format.wBitsPerSample format.wFormatTag = some (width, toSample))
    (hbits : Decoded format.wBitsPerSample)
    (hindex : format.nChannels * format.len dataSIZE ≤ 2 ^ 31) :
    Present stack file (.ok (some (decodedAud format dataSIZE rest width toSample))) ↔
      Kept format dataSIZE rest := by
  have hcodec : codec format.wBitsPerSample format.wFormatTag = some (width, toSample) := by
    rw [codec, if_pos hbits, hformat]
  have hwidth := codec_width hformat hbits
  subst hwidth
  calc
    _ ↔ format.nChannels * format.len dataSIZE * (format.wBitsPerSample / 8) ≤ rest.length :=
      (present_iff hheader).trans
        (forall_sampleFrom_iff hframe (format.len_mul_le dataSIZE) hcodec)
    _ ↔ Kept format dataSIZE rest := by
      constructor
      · intro h
        exact ⟨hframe, hlen, .inr (.inr ⟨hbits, hindex, h⟩)⟩
      · intro h
        rcases h.of_format hformat with hempty | ⟨-, -, hrest⟩
        · rw [hempty, Nat.mul_zero, Nat.zero_mul]
          exact Nat.zero_le _
        · exact hrest

/-- Samples of any other width are not decoded. -/
theorem present_undecoded_iff
    (hheader : (wavHeader stack).run file = some ((format, dataSIZE), rest))
    (hframe : 0 < format.wBitsPerSample / 8 * format.nChannels)
    (hlen : format.len dataSIZE < 2 ^ 31)
    (hformat : sampleFormat format.wBitsPerSample format.wFormatTag = some (width, toSample))
    (hbits : ¬ Decoded format.wBitsPerSample) :
    Present stack file (.ok (some (decodedAud format dataSIZE rest width toSample))) ↔
      Kept format dataSIZE rest := by
  refine (present_iff hheader).trans ?_
  constructor
  · intro h
    have hempty : format.len dataSIZE = 0 := by
      by_contra hsome
      obtain ⟨_, _, hcodec, -⟩ := h 0 (Nat.pos_of_mul_pos_left hframe) 0
        (Nat.pos_of_ne_zero hsome)
      rw [codec, if_neg hbits] at hcodec
      cases hcodec
    exact ⟨hframe, hlen, .inr (.inl hempty)⟩
  · intro h i _ j hj
    rcases h.of_format hformat with hempty | ⟨hdecoded, -⟩
    · exact absurd hj (by rw [hempty]; exact Nat.not_lt_zero j)
    · exact absurd hdecoded hbits

/-- What `ReadWav` makes of the part behind the headers. -/
theorem decodeSamples_present_iff
    (hheader : (wavHeader stack).run file = some ((format, dataSIZE), rest)) :
    Present stack file (decodeSamples format dataSIZE rest) ↔ Kept format dataSIZE rest := by
  simp only [decodeSamples]
  by_cases hzero : format.wBitsPerSample / 8 * format.nChannels = 0
  · rw [if_pos hzero]
    exact iff_of_false id fun h ↦ h.frame.ne' hzero
  rw [if_neg hzero]
  by_cases hlen : 2 ^ 31 ≤ format.len dataSIZE
  · rw [if_pos hlen]
    exact iff_of_false id fun h ↦ h.length.not_ge hlen
  rw [if_neg hlen]
  have hframe := Nat.pos_of_ne_zero hzero
  cases hformat : sampleFormat format.wBitsPerSample format.wFormatTag with
  | none => exact iff_of_true trivial ⟨hframe, not_le.mp hlen, .inl hformat⟩
  | some f =>
      dsimp only
      by_cases hbits : Decoded format.wBitsPerSample
      · by_cases hindex : 2 ^ 31 < format.nChannels * format.len dataSIZE
        · rw [if_pos ⟨hbits, hindex⟩]
          refine iff_of_false id fun h ↦ ?_
          rcases h.of_format hformat with hempty | ⟨-, hplaces, -⟩
          · rw [hempty, Nat.mul_zero] at hindex
            exact Nat.not_lt_zero _ hindex
          · exact hplaces.not_gt hindex
        · rw [if_neg fun h ↦ hindex h.2]
          exact present_decoded_iff hheader hframe (not_le.mp hlen) hformat hbits
            (not_lt.mp hindex)
      · rw [if_neg fun h ↦ hbits h.1]
        exact present_undecoded_iff hheader hframe (not_le.mp hlen) hformat hbits

end Formats

/-- **Damaged files.** All samples that `ReadWav` comes back with stand in the file, and it comes
back, exactly if the headers are not those of a WAV file or what they promise is kept: a frame has
a size, the number of samples is an `int`, and if the format is one without an error and the file
has samples, then their width is decoded, their places are `int`s and all their bytes are there. -/
theorem decodeWav_present_iff (stack : Fin 44 → UInt8) (file : List UInt8) :
    Present stack file (decodeWav stack file) ↔
      ∀ format dataSIZE rest, (wavHeader stack).run file = some ((format, dataSIZE), rest) →
        Kept format dataSIZE rest := by
  rw [decodeWav]
  cases hheader : (wavHeader stack).run file with
  | none =>
      apply iff_of_true trivial
      intro format dataSIZE rest h
      cases h
  | some header =>
      obtain ⟨⟨format, dataSIZE⟩, rest⟩ := header
      refine (decodeSamples_present_iff hheader).trans ?_
      constructor
      · intro h format' dataSIZE' rest' heq
        cases heq
        exact h
      · intro h
        exact h format dataSIZE rest rfl

/-- Headers for one sample, and nothing behind them: the sample that comes back is the zero of the
buffer. -/
theorem not_decodeWav_present :
    ¬∀ (stack : Fin 44 → UInt8) (file : List UInt8), Present stack file (decodeWav stack file) := by
  intro h
  have hpresent := h (fun _ ↦ 0) (wavHeaders 1 1 16000)
  have hheader : ((wavHeader fun _ ↦ 0).run (wavHeaders 1 1 16000)) =
      some (((fmtOut 1 16000).fmtFORMAT, 2), []) :=
    (wavHeader_reads _ (by decide)).whole
  have hkept : Kept (fmtOut 1 16000).fmtFORMAT 2 [] := by
    rw [← decodeSamples_present_iff hheader]
    rwa [decodeWav, hheader] at hpresent
  rcases hkept.samples with hnone | hempty | ⟨-, -, hrest⟩
  · cases hnone
  · cases hempty
  · cases hrest

end Vsys.Aud
