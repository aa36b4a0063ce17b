import Vsys.Audio.Coder
import Vsys.Trace.Run

/-!
# Opus packets in a byte stream

With `r2ad_cod_opu` the coder writes every packet behind one byte for its length.  The tool
`opu2wav` reads the stream back: it takes the byte as a plain `char`, whose sign is up to the
compiler, and walks over the stream by what it has read.

`reads_iff` says which streams of packets come back as they were written.
-/

namespace Vsys.Audio

open Vsys.Trace

/-! ## The writer -/

/-- A packet as it is stored: `m_pData_Cod[0]` is an `unsigned char`. -/
def framePacket (packet : List UInt8) : List UInt8 := UInt8.ofNat packet.length :: packet

/-- The encoder of `r2ad_cod_opu`, from what `opus_encode_float` does with a frame.  It also keeps
the packets it has written. -/
def Encoder.opus {σ : Type*} (start : σ) (opusEncode : σ → List ℚ → σ × List UInt8) :
    Encoder (σ × List (List UInt8)) where
  create := (start, [])
  encode := fun engine frame ↦
    let coded := opusEncode engine.1 frame
    ((coded.1, engine.2 ++ [coded.2]), framePacket coded.2)

/-! ## The reader -/

/-- One call of `opus_decode`: its bytes and `nPacketSize`. -/
structure DecodeCall where
  data : List UInt8
  nPacketSize : ℤ
  deriving DecidableEq, Repr

/-- The call for a packet as a whole. -/
def DecodeCall.ofPacket (packet : List UInt8) : DecodeCall := ⟨packet, packet.length⟩

/-- The value of a plain `char`. -/
def charValue (signed : Bool) (byte : UInt8) : ℤ :=
  if signed ∧ 128 ≤ byte.toNat then (byte.toNat : ℤ) - 256 else byte.toNat

/-- The largest value of a plain `char`. -/
def charMax (signed : Bool) : ℕ := if signed then 127 else 255

/-- `pBytes[i]`; outside of the file there is whatever is in the memory. -/
def byteAt (bytes : List UInt8) (stray : ℤ → UInt8) (i : ℤ) : UInt8 :=
  if 0 ≤ i then bytes.getD i.toNat (stray i) else stray i

/-- The loop of `opu2wav` from `cur` on, with the number of rounds it may take; `none` if it is not
over by then. -/
def opu2wav (signed : Bool) (stray : ℤ → UInt8) (bytes : List UInt8) :
    ℕ → ℤ → Option (List DecodeCall)
  | 0, _ => none
  | rounds + 1, cur =>
      if cur < bytes.length then
        let nPacketSize := charValue signed (byteAt bytes stray cur)
        let later := opu2wav signed stray bytes rounds (cur + (nPacketSize + 1))
        if cur + nPacketSize + 1 ≤ bytes.length then
          let data := (List.range nPacketSize.toNat).map fun k : ℕ ↦
            byteAt bytes stray (cur + 1 + (k : ℤ))
          later.map (⟨data, nPacketSize⟩ :: ·)
        else later
      else some []

/-! ## One packet -/

theorem charValue_le (signed : Bool) (n : ℕ) : charValue signed (UInt8.ofNat n) ≤ n := by
  have hmod : n % 256 ≤ n := Nat.mod_le n 256
  rw [charValue, UInt8.toNat_ofNat']
  split_ifs <;> omega

theorem charValue_le_charMax (signed : Bool) (byte : UInt8) :
    charValue signed byte ≤ charMax signed := by
  have hbyte := byte.toNat_lt
  rw [charValue, charMax]
  cases signed <;> simp <;> omega

theorem charValue_of_le {signed : Bool} {n : ℕ} (hn : n ≤ charMax signed) :
    charValue signed (UInt8.ofNat n) = n := by
  have hmod : n % 256 = n := by
    rw [charMax] at hn
    cases signed <;> simp at hn <;> omega
  rw [charValue, UInt8.toNat_ofNat', hmod, if_neg]
  rintro ⟨rfl, hbig⟩
  simp [charMax] at hn
  omega

theorem byteAt_natCast (bytes : List UInt8) (stray : ℤ → UInt8) (i : ℕ) :
    byteAt bytes stray i = bytes.getD i (stray i) := by
  rw [byteAt, if_pos (Int.natCast_nonneg i), Int.toNat_natCast]

section Packet

variable (signed : Bool) (stray : ℤ → UInt8) (before packet behind : List UInt8)

theorem byteAt_length :
    byteAt (before ++ framePacket packet ++ behind) stray before.length =
      UInt8.ofNat packet.length := by
  rw [byteAt_natCast, framePacket, List.getD_eq_getElem?_getD, List.append_assoc,
    List.getElem?_append_right (Nat.le_refl _), Nat.sub_self]
  rfl

/-- The bytes behind the length are those of the packet. -/
theorem map_byteAt :
    ((List.range packet.length).map fun k : ℕ ↦
      byteAt (before ++ framePacket packet ++ behind) stray
        ((before.length : ℤ) + 1 + (k : ℤ))) = packet := by
  apply List.ext_getElem?
  intro k
  by_cases hk : k < packet.length
  · have hcast : (before.length : ℤ) + 1 + (k : ℤ) = ((before.length + (k + 1) : ℕ) : ℤ) := by
      omega
    rw [List.getElem?_map, List.getElem?_range hk, Option.map_some, hcast, byteAt_natCast,
      List.getD_eq_getElem?_getD, List.append_assoc,
      List.getElem?_append_right (Nat.le_add_right _ _), Nat.add_sub_cancel_left, framePacket,
      List.cons_append, List.getElem?_cons_succ, List.getElem?_append_left hk,
      List.getElem?_eq_getElem hk]
    rfl
  · rw [List.getElem?_eq_none (by simpa using hk), List.getElem?_eq_none (by omega)]

/-- At the beginning of a packet the reader calls the decoder with the value of the length byte. -/
theorem opu2wav_packet (rounds : ℕ) :
    opu2wav signed stray (before ++ framePacket packet ++ behind) (rounds + 1) before.length =
      (opu2wav signed stray (before ++ framePacket packet ++ behind) rounds
        (before.length + (charValue signed (UInt8.ofNat packet.length) + 1))).map
        (⟨(List.range (charValue signed (UInt8.ofNat packet.length)).toNat).map fun k : ℕ ↦
            byteAt (before ++ framePacket packet ++ behind) stray
              ((before.length : ℤ) + 1 + (k : ℤ)),
          charValue signed (UInt8.ofNat packet.length)⟩ :: ·) := by
  have hle := charValue_le signed packet.length
  have hlen : (before ++ framePacket packet ++ behind).length =
      before.length + (packet.length + 1) + behind.length := by
    simp [framePacket]
    omega
  rw [opu2wav, byteAt_length, if_pos (by rw [hlen]; omega), if_pos (by rw [hlen]; omega)]

end Packet

/-! ## The whole stream -/

/-- The stream of a list of packets. -/
def frames (packets : List (List UInt8)) : List UInt8 := packets.flatMap framePacket

variable (signed : Bool) (stray : ℤ → UInt8)

theorem opu2wav_frames {packets : List (List UInt8)}
    (hshort : ∀ packet ∈ packets, packet.length ≤ charMax signed) (before : List UInt8) :
    opu2wav signed stray (before ++ frames packets) (packets.length + 1) before.length =
      some (packets.map DecodeCall.ofPacket) := by
  induction packets generalizing before with
  | nil => simp [opu2wav, frames]
  | cons packet packets ih =>
      have hvalue := charValue_of_le (hshort packet List.mem_cons_self)
      have hnext : (before.length : ℤ) + (packet.length + 1) =
          (before ++ framePacket packet).length := by
        simp [framePacket]
      rw [frames, List.flatMap_cons, ← List.append_assoc, List.length_cons, opu2wav_packet, hvalue,
        hnext, ← frames, ih fun p hp ↦ hshort p (List.mem_cons_of_mem packet hp), Int.toNat_natCast,
        map_byteAt]
      rfl

/-- A stream that comes back as it was written has short packets only. -/
theorem length_le_of_opu2wav {packets : List (List UInt8)} {before : List UInt8} {rounds : ℕ}
    (h : opu2wav signed stray (before ++ frames packets) rounds before.length =
      some (packets.map DecodeCall.ofPacket)) :
    ∀ packet ∈ packets, packet.length ≤ charMax signed := by
  induction packets generalizing before rounds with
  | nil => exact fun _ hmem ↦ nomatch hmem
  | cons packet packets ih =>
      cases rounds with
      | zero => exact nomatch h
      | succ rounds =>
          rw [frames, List.flatMap_cons, ← List.append_assoc, ← frames, opu2wav_packet,
            Option.map_eq_some_iff] at h
          obtain ⟨later, hlater, hcons⟩ := h
          obtain ⟨hhead, rfl⟩ := List.cons.inj hcons
          have hvalue : charValue signed (UInt8.ofNat packet.length) = packet.length :=
            congrArg DecodeCall.nPacketSize hhead
          have hnext : (before.length : ℤ) + (packet.length + 1) =
              (before ++ framePacket packet).length := by
            simp [framePacket]
          rw [hvalue, hnext] at hlater
          intro other hother
          obtain rfl | hother := List.mem_cons.mp hother
          · have hmax := charValue_le_charMax signed (UInt8.ofNat other.length)
            rw [hvalue] at hmax
            omega
          · exact ih hlater other hother

theorem opu2wav_frames_iff (packets : List (List UInt8)) :
    (∃ rounds, opu2wav signed stray (frames packets) rounds 0 =
        some (packets.map DecodeCall.ofPacket)) ↔
      ∀ packet ∈ packets, packet.length ≤ charMax signed := by
  constructor
  · rintro ⟨rounds, h⟩
    exact @length_le_of_opu2wav signed stray packets [] rounds h
  · intro hshort
    exact ⟨packets.length + 1, opu2wav_frames signed stray hshort []⟩

/-! ## The coder -/

/-- A call of the coder. -/
inductive CodOp
  | process (data : List ℚ)
  | processData
  | getData2
  | pause
  | resume
  | reset

/-- The effect of a call. -/
def CodOp.apply {σ : Type*} (E : Encoder σ) (c : Cod σ) : CodOp → Cod σ
  | .process data => c.process data
  | .processData => c.processData E
  | .getData2 => (c.getData2 E).1
  | .pause => c.pause
  | .resume => c.resume
  | .reset => c.reset E

section Coder

variable {σ : Type*} (start : σ) (opusEncode : σ → List ℚ → σ × List UInt8)

/-- The output is the stream of the packets written. -/
def Framed (c : Cod (σ × List (List UInt8))) : Prop := c.dataOut = frames c.engine.2

theorem Framed.encodeFrm {c : Cod (σ × List (List UInt8))} (h : Framed c) :
    Framed (c.encodeFrm (.opus start opusEncode)) := by
  have hframes : ∀ packets packet, frames (packets ++ [packet]) = frames packets ++ framePacket packet :=
    fun packets packet ↦ by simp [frames]
  unfold Cod.encodeFrm Framed
  dsimp only [Encoder.opus]
  rw [hframes, ← h]

theorem Framed.encodeLoop {c : Cod (σ × List (List UInt8))} (h : Framed c) (rounds : ℕ) :
    Framed (Cod.encodeLoop (.opus start opusEncode) rounds c) := by
  induction rounds generalizing c with
  | zero => exact h
  | succ rounds ih =>
      rw [Cod.encodeLoop]
      split_ifs
      · exact ih (h.encodeFrm start opusEncode)
      · exact h

theorem Framed.processData {c : Cod (σ × List (List UInt8))} (h : Framed c) :
    Framed (c.processData (.opus start opusEncode)) := by
  unfold Cod.processData
  refine Framed.encodeLoop start opusEncode ?_ _
  unfold Cod.updateShield
  split_ifs <;> exact h

theorem framed_run (ops : List CodOp) :
    Framed (run (CodOp.apply (.opus start opusEncode)) (.create (.opus start opusEncode)) ops) := by
  have hcreate : Framed (.create (.opus start opusEncode)) := rfl
  refine run_keeps (fun c op h ↦ ?_) hcreate ops
  cases op with
  | process data => exact h
  | processData => exact h.processData start opusEncode
  | getData2 => exact h.processData start opusEncode
  | pause | resume => exact h
  | reset => rfl

end Coder

/-! ## Every list of packets -/

/-- An encoder that returns given packets. -/
def scripted (packets : List (List UInt8)) (_ : List ℚ) :
    List (List UInt8) × List UInt8 :=
  (packets.tail, packets.headD [])

theorem encodeLoop_scripted {packets : List (List UInt8)} {start : List (List UInt8)} {rounds : ℕ}
    (hrounds : packets.length ≤ rounds) {c : Cod (List (List UInt8) × List (List UInt8))}
    (hengine : c.engine.1 = packets)
    (hlen : c.dataIn.length = c.lenCod + packets.length * lenFrmCod + 1) :
    (Cod.encodeLoop (.opus start scripted) rounds c).engine.2 = c.engine.2 ++ packets := by
  induction packets generalizing c rounds with
  | nil =>
      have hstop : ¬ c.lenCod + lenFrmCod < c.dataIn.length := by
        rw [hlen]
        simp [lenFrmCod, audioSampleRate, audioFrameMs]
      cases rounds with
      | zero => simp [Cod.encodeLoop]
      | succ rounds => simp [Cod.encodeLoop, hstop]
  | cons packet packets ih =>
      obtain ⟨rounds, rfl⟩ : ∃ n, rounds = n + 1 := ⟨rounds - 1, by simp at hrounds; omega⟩
      rw [List.length_cons, Nat.add_mul, Nat.one_mul] at hlen
      have hgo : c.lenCod + lenFrmCod < c.dataIn.length := by omega
      have hnext : (c.encodeFrm (.opus start scripted)).engine =
          (packets, c.engine.2 ++ [packet]) := by
        simp [Cod.encodeFrm, Encoder.opus, scripted, hengine]
      have hcod : (c.encodeFrm (.opus start scripted)).lenCod = c.lenCod + lenFrmCod := rfl
      rw [Cod.encodeLoop, if_pos hgo, ih (by simpa using hrounds) (by rw [hnext]) ?_, hnext]
      · simp
      · rw [Cod.encodeFrm_dataIn_length _ _ hgo.le, hlen, hcod]
        omega

/-- Samples for a number of packets, and the call that encodes them. -/
def samplesFor (count : ℕ) : List CodOp :=
  [.process (List.replicate (count * lenFrmCod + 1) 0), .processData]

/-- Every list of packets can be written. -/
theorem packets_samplesFor (packets : List (List UInt8)) :
    (run (CodOp.apply (.opus packets scripted)) (.create (.opus packets scripted))
      (samplesFor packets.length)).engine.2 = packets := by
  have hpos : 0 < lenFrmCod := by decide
  have hshield : ∀ c : Cod (List (List UInt8) × List (List UInt8)),
      (Cod.updateShield c).engine = c.engine ∧ (Cod.updateShield c).lenCod = c.lenCod := by
    intro c
    unfold Cod.updateShield
    split_ifs <;> exact ⟨rfl, rfl⟩
  simp only [samplesFor, run_cons, run_nil, CodOp.apply, Cod.processData]
  rw [@encodeLoop_scripted packets _ _ ?_ _ ?_ ?_, (hshield _).1]
  · rfl
  · simp [Cod.process, Cod.create]
    nlinarith
  · rw [(hshield _).1]
    rfl
  · rw [(hshield _).2, (Cod.updateShield_frame _).2.2]
    simp [Cod.process, Cod.create]

end Vsys.Audio
