import Vsys.Num.Lfsr

/-!
# The checksum of the secure element's frames

`proto_spi_crc16` of `ciu98/src/proto/proto_spi.c` computes the checksum a byte at a time.  It is a
shift register of sixteen bits that is clocked with the bits of the data, the lowest bit of each
byte first.  The frames carry the checksum of ISO 3309 behind the data, the low byte first.
-/

namespace Vsys.Ciu98

open Vsys.Num.Lfsr

/-- `CRC_A` is ITU-V.41, `CRC_B` is ISO 3309. -/
inductive CrcType
  | a
  | b
  deriving DecidableEq

/-- The body of the loop of `proto_spi_crc16`. -/
def crc16Byte (wCrc : UInt16) (data : UInt8) : UInt16 :=
  let chBlock := data ^^^ wCrc.toUInt8
  let chBlock := chBlock ^^^ (chBlock <<< 4)
  (wCrc >>> 8) ^^^ (chBlock.toUInt16 <<< 8) ^^^ (chBlock.toUInt16 <<< 3) ^^^
    (chBlock.toUInt16 >>> 4)

/-- `proto_spi_crc16`; the data is not empty. -/
def spiCrc16 (crcType : CrcType) (data : List UInt8) : UInt16 :=
  let wCrc := data.foldl crc16Byte (if crcType = .a then 0x6363 else 0xFFFF)
  if crcType ≠ .a then ~~~wCrc else wCrc

/-- The checksum as it is sent. -/
def edcBytes (edc : UInt16) : List UInt8 := [edc.toUInt8, (edc >>> 8).toUInt8]

/-- The check of a received frame: its last two bytes are the checksum of the others. -/
def edcGood (frame : List UInt8) : Bool :=
  frame.drop (frame.length - 2) == edcBytes (spiCrc16 .b (frame.take (frame.length - 2)))

/-! ## The shift register -/

/-- The feedback. -/
def poly : BitVec 16 := 0x8408#16

/-- The bits of a byte, the lowest first. -/
def byteBits (b : UInt8) : List Bool := (List.range 8).map b.toBitVec.getLsbD

/-- The bits of a frame. -/
def frameBits (frame : List UInt8) : List Bool := frame.flatMap byteBits

@[simp]
theorem byteBits_length (b : UInt8) : (byteBits b).length = 8 := rfl

@[simp]
theorem frameBits_length (frame : List UInt8) : (frameBits frame).length = 8 * frame.length := by
  induction frame with
  | nil => rfl
  | cons b frame ih =>
      rw [frameBits, List.flatMap_cons, List.length_append, byteBits_length, List.length_cons]
      rw [frameBits] at ih
      rw [ih]
      ring

theorem pack_byteBits (b : UInt8) : pack 16 (byteBits b) = b.toBitVec.setWidth 16 := by
  apply BitVec.eq_of_getLsbD_eq
  intro i hi
  rw [getLsbD_pack (by simp), BitVec.getLsbD_setWidth]
  by_cases hi8 : i < 8
  · simp [byteBits, hi, hi8]
  · simp [byteBits, hi8, BitVec.getLsbD_of_ge b.toBitVec i (by omega)]

/-- The contribution of a byte to the register, as the source computes it. -/
def byteTerm (chBlock : BitVec 8) : BitVec 16 :=
  let chBlock := chBlock ^^^ (chBlock <<< 4)
  (chBlock.setWidth 16 <<< 8) ^^^ (chBlock.setWidth 16 <<< 3) ^^^ (chBlock.setWidth 16 >>> 4)

/-- It is what eight clocks make of the byte. -/
theorem clock_byte : ∀ b : BitVec 8, clock poly (b.setWidth 16) 8 = byteTerm b := by
  decide +kernel

/-- Eight clocks: those of the low byte, and the high byte is shifted down. -/
theorem clock_eight (c : BitVec 16) :
    clock poly c 8 = byteTerm (c.setWidth 8) ^^^ (c >>> 8) := by
  have hsplit : c = (c.setWidth 8).setWidth 16 ^^^ ((c >>> 8) <<< 8) := by
    apply BitVec.eq_of_getLsbD_eq
    intro i hi
    rw [BitVec.getLsbD_xor, BitVec.getLsbD_setWidth, BitVec.getLsbD_setWidth,
      BitVec.getLsbD_shiftLeft, BitVec.getLsbD_ushiftRight]
    by_cases hi8 : i < 8
    · simp [hi, hi8]
    · have hadd : 8 + (i - 8) = i := by omega
      simp [hi, hi8, hadd]
  have hhigh : clock poly ((c >>> 8) <<< 8) 8 = c >>> 8 := by
    rw [clock_of_clear]
    · apply BitVec.eq_of_getLsbD_eq
      intro i hi
      rw [BitVec.getLsbD_ushiftRight, BitVec.getLsbD_shiftLeft, BitVec.getLsbD_ushiftRight]
      by_cases hi8 : 8 + i < 16
      · simp [hi8]
      · simp [hi8, BitVec.getLsbD_of_ge c (8 + i) (by omega)]
    · intro i hi
      rw [BitVec.getLsbD_shiftLeft]
      simp [hi]
  conv_lhs => rw [hsplit]
  rw [clock_xor, clock_byte, hhigh]

/-- **One byte of the checksum** clocks the register with the bits of the byte. -/
theorem crc16Byte_toBitVec (wCrc : UInt16) (data : UInt8) :
    (crc16Byte wCrc data).toBitVec = feed poly wCrc.toBitVec (byteBits data) := by
  have hlow : (wCrc.toBitVec ^^^ data.toBitVec.setWidth 16).setWidth 8 =
      data.toBitVec ^^^ wCrc.toBitVec.setWidth 8 := by
    apply BitVec.eq_of_getLsbD_eq
    intro i hi
    simp [hi, Nat.lt_of_lt_of_le hi, Bool.xor_comm]
  have hhigh : (wCrc.toBitVec ^^^ data.toBitVec.setWidth 16) >>> 8 = wCrc.toBitVec >>> 8 := by
    apply BitVec.eq_of_getLsbD_eq
    intro i hi
    simp
  rw [feed_eq_clock (by simp), pack_byteBits, byteBits_length, clock_eight, hlow, hhigh]
  rw [BitVec.xor_comm]
  generalize hch : data.toBitVec ^^^ wCrc.toBitVec.setWidth 8 = chBlock
  simp only [crc16Byte, byteTerm, UInt16.toBitVec_xor, UInt16.toBitVec_shiftRight,
    UInt16.toBitVec_shiftLeft, UInt8.toBitVec_toUInt16, UInt8.toBitVec_xor,
    UInt8.toBitVec_shiftLeft, UInt16.toBitVec_toUInt8, hch, BitVec.xor_assoc]
  rfl

theorem foldl_crc16Byte (wCrc : UInt16) (data : List UInt8) :
    (data.foldl crc16Byte wCrc).toBitVec = feed poly wCrc.toBitVec (frameBits data) := by
  induction data generalizing wCrc with
  | nil => rfl
  | cons b data ih =>
      rw [List.foldl_cons, ih, crc16Byte_toBitVec, ← feed_append]
      rfl

/-- The checksum is the complement of the register. -/
theorem spiCrc16_toBitVec (data : List UInt8) :
    (spiCrc16 .b data).toBitVec = ~~~ feed poly 0xFFFF#16 (frameBits data) := by
  have hcrc : spiCrc16 .b data = ~~~ data.foldl crc16Byte 0xFFFF := rfl
  rw [hcrc, UInt16.toBitVec_not, foldl_crc16Byte]
  rfl

theorem frameBits_append (frame more : List UInt8) :
    frameBits (frame ++ more) = frameBits frame ++ frameBits more := List.flatMap_append

/-- Two bytes as a word, the low byte first. -/
theorem pack_two (lo hi : UInt8) :
    pack 16 (frameBits [lo, hi]) = hi.toBitVec ++ lo.toBitVec := by
  have hbits : frameBits [lo, hi] = byteBits lo ++ byteBits hi := by simp [frameBits]
  apply BitVec.eq_of_getLsbD_eq
  intro i hi16
  rw [getLsbD_pack (by simp [hbits]), hbits, BitVec.getLsbD_append]
  rw [List.getD_eq_getElem?_getD]
  by_cases hi8 : i < 8
  · rw [List.getElem?_append_left (by simpa using hi8)]
    simp [byteBits, hi8]
  · have hlt : i - 8 < 8 := by omega
    rw [List.getElem?_append_right (by simpa using hi8)]
    simp [byteBits, hi8, hlt]

/-- What is sent for a checksum. -/
theorem edcBytes_iff {lo hi : UInt8} {edc : UInt16} :
    [lo, hi] = edcBytes edc ↔ hi.toBitVec ++ lo.toBitVec = edc.toBitVec := by
  have hlow : (hi.toBitVec ++ lo.toBitVec).setWidth 8 = lo.toBitVec := by
    apply BitVec.eq_of_getLsbD_eq
    intro i hi8
    rw [BitVec.getLsbD_setWidth, BitVec.getLsbD_append]
    simp [hi8]
  have hhigh : ((hi.toBitVec ++ lo.toBitVec) >>> 8).setWidth 8 = hi.toBitVec := by
    apply BitVec.eq_of_getLsbD_eq
    intro i hi8
    rw [BitVec.getLsbD_setWidth, BitVec.getLsbD_ushiftRight, BitVec.getLsbD_append]
    simp [hi8]
  have hedc : edcBytes edc = [⟨edc.toBitVec.setWidth 8⟩, ⟨(edc.toBitVec >>> 8).setWidth 8⟩] := rfl
  rw [hedc]
  constructor
  · intro h
    obtain ⟨rfl, hrest⟩ := List.cons.inj h
    obtain ⟨rfl, -⟩ := List.cons.inj hrest
    apply BitVec.eq_of_getLsbD_eq
    intro i hi16
    rw [BitVec.getLsbD_append]
    by_cases hi8 : i < 8
    · simp [hi8]
    · have hlt : i - 8 < 8 := by omega
      have hadd : 8 + (i - 8) = i := by omega
      simp [hi8, hlt, hadd]
  · intro h
    rw [← h, hlow, hhigh]

/-- The register behind a frame that checks. -/
def residue : BitVec 16 := clock poly 0xFFFF#16 16

theorem poly_msb : poly.msb = true := by decide

/-- **The check of a frame** looks at what the register holds behind it. -/
theorem edcGood_iff {frame : List UInt8} (h : 2 ≤ frame.length) :
    edcGood frame = true ↔ feed poly 0xFFFF#16 (frameBits frame) = residue := by
  have hlength : (frame.drop (frame.length - 2)).length = 2 := by
    rw [List.length_drop]
    omega
  obtain ⟨lo, hi, htail⟩ := List.length_eq_two.mp hlength
  have hframe : frameBits frame =
      frameBits (frame.take (frame.length - 2)) ++ frameBits [lo, hi] := by
    rw [← frameBits_append, ← htail, List.take_append_drop]
  have hshort : (frameBits [lo, hi]).length ≤ 16 := by simp
  rw [edcGood, beq_iff_eq, htail, edcBytes_iff, spiCrc16_toBitVec, ← pack_two, hframe, feed_append,
    feed_eq_clock hshort]
  generalize feed poly 0xFFFF#16 (frameBits (frame.take (frame.length - 2))) = c
  have hself : c ^^^ ~~~c = 0xFFFF#16 := by
    change c ^^^ ~~~c = BitVec.allOnes 16
    apply BitVec.eq_of_getLsbD_eq
    intro i hi16
    rw [BitVec.getLsbD_xor, BitVec.getLsbD_not, BitVec.getLsbD_allOnes, decide_eq_true hi16]
    cases c.getLsbD i <;> rfl
  calc
    pack 16 (frameBits [lo, hi]) = ~~~c ↔ c ^^^ pack 16 (frameBits [lo, hi]) = 0xFFFF#16 := by
      rw [← hself, BitVec.xor_right_inj]
    _ ↔ clock poly (c ^^^ pack 16 (frameBits [lo, hi])) (frameBits [lo, hi]).length = residue :=
      (feed_injective poly_msb _).eq_iff.symm

end Vsys.Ciu98
