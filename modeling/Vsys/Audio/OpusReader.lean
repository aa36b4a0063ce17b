import Vsys.Audio.Opus

/-!
# The reader of `opu2wav` on arbitrary bytes

`opu2wav` walks over a file by the length bytes it meets.  Nothing says that the file was written
by the coder, so every value of a byte has to take the walk further on, and a packet may be cut off
by the end of the file.

`walk_iff` says for which files the walk ends and hands nothing but pieces of the file to the
decoder.  Where a plain `char` has a sign, the byte `0xff` is a step of length 0.
-/

namespace Vsys.Audio

/-- The length bytes that a walk over the bytes meets, with every byte taken as it is. -/
def lengthBytes : List UInt8 → List UInt8
  | [] => []
  | byte :: rest => byte :: lengthBytes (rest.drop byte.toNat)
termination_by bytes => bytes.length
decreasing_by
  simp only [List.length_drop, List.length_cons]
  omega

/-- The call has a piece of the bytes. -/
def DecodeCall.InData (bytes : List UInt8) (call : DecodeCall) : Prop :=
  ∃ start size : ℕ,
    start + size ≤ bytes.length ∧ call = ⟨(bytes.drop start).take size, (size : ℤ)⟩

/-- The walk from `cur` on ends, and every call has a piece of the bytes. -/
def WalkOk (signed : Bool) (stray : ℤ → UInt8) (bytes : List UInt8) (cur : ℤ) : Prop :=
  ∃ rounds calls, opu2wav signed stray bytes rounds cur = some calls ∧
    ∀ call ∈ calls, call.InData bytes

/-! ## One step -/

theorem charValue_of_nonneg {signed : Bool} {byte : UInt8}
    (h : signed = false ∨ byte.toNat < 128) : charValue signed byte = byte.toNat := by
  rw [charValue, if_neg]
  rintro ⟨rfl, hbig⟩
  rcases h with h | h
  · cases h
  · omega

theorem framePacket_take {byte : UInt8} {rest : List UInt8} (h : byte.toNat ≤ rest.length) :
    framePacket (rest.take byte.toNat) ++ rest.drop byte.toNat = byte :: rest := by
  rw [framePacket, List.length_take, Nat.min_eq_left h, List.cons_append, List.take_append_drop,
    UInt8.ofNat_toNat]

section Step

variable {signed : Bool} (stray : ℤ → UInt8) (before : List UInt8)

/-- The walk is over at the end of the bytes, and behind it. -/
theorem opu2wav_of_le {bytes : List UInt8} {cur : ℤ} (h : (bytes.length : ℤ) ≤ cur) (rounds : ℕ) :
    opu2wav signed stray bytes (rounds + 1) cur = some [] := by
  rw [opu2wav, if_neg (not_lt.mpr h)]

/-- A packet that lies within the bytes. -/
theorem walkOk_packet_iff (packet behind : List UInt8)
    (hvalue : charValue signed (UInt8.ofNat packet.length) = packet.length) :
    WalkOk signed stray (before ++ framePacket packet ++ behind) before.length ↔
      WalkOk signed stray (before ++ framePacket packet ++ behind)
        (before ++ framePacket packet).length := by
  have hnext : ((before ++ framePacket packet).length : ℤ) =
      before.length + (packet.length + 1) := by
    simp [framePacket]
  have hcall : DecodeCall.InData (before ++ framePacket packet ++ behind)
      ⟨packet, (packet.length : ℤ)⟩ := by
    refine ⟨before.length + 1, packet.length, by simp [framePacket]; omega, ?_⟩
    have hdrop : (before ++ framePacket packet ++ behind).drop (before.length + 1) =
        packet ++ behind := by
      rw [List.append_assoc, ← List.drop_drop, List.drop_left, framePacket, List.cons_append,
        List.drop_one, List.tail_cons]
    rw [hdrop, List.take_left]
  have hround := opu2wav_packet signed stray before packet behind
  simp only [hvalue, Int.toNat_natCast, map_byteAt, ← hnext] at hround
  constructor
  · rintro ⟨rounds, calls, hwalk, hcalls⟩
    cases rounds with
    | zero => cases hwalk
    | succ rounds =>
        rw [hround, Option.map_eq_some_iff] at hwalk
        obtain ⟨later, hlater, rfl⟩ := hwalk
        exact ⟨rounds, later, hlater, (List.forall_mem_cons.mp hcalls).2⟩
  · rintro ⟨rounds, later, hlater, hcalls⟩
    refine ⟨rounds + 1, _ :: later, ?_, List.forall_mem_cons.mpr ⟨hcall, hcalls⟩⟩
    rw [hround, hlater, Option.map_some]

/-- A packet that is cut off by the end of the bytes is not decoded. -/
theorem walkOk_cut {byte : UInt8} {rest : List UInt8}
    (hvalue : charValue signed byte = byte.toNat) (hcut : rest.length < byte.toNat) :
    WalkOk signed stray (before ++ byte :: rest) before.length := by
  have hbyte : byteAt (before ++ byte :: rest) stray before.length = byte := by
    rw [byteAt_natCast, List.getD_eq_getElem?_getD, List.getElem?_append_right le_rfl, Nat.sub_self]
    rfl
  have hlength : (before ++ byte :: rest).length = before.length + (rest.length + 1) := by simp
  refine ⟨2, [], ?_, fun call hcall ↦ nomatch hcall⟩
  rw [opu2wav, hbyte, hvalue, if_pos (by omega), if_neg (by omega)]
  exact opu2wav_of_le stray (by omega) 0

/-- A negative length is a call that has no piece of the bytes. -/
theorem not_walkOk_negative {byte : UInt8} (rest : List UInt8) (hbig : 128 ≤ byte.toNat) :
    ¬WalkOk true stray (before ++ byte :: rest) before.length := by
  rintro ⟨rounds, calls, hwalk, hcalls⟩
  have hbyte : byteAt (before ++ byte :: rest) stray before.length = byte := by
    rw [byteAt_natCast, List.getD_eq_getElem?_getD, List.getElem?_append_right le_rfl, Nat.sub_self]
    rfl
  have hnegative : charValue true byte < 0 := by
    have hlt := byte.toNat_lt
    rw [charValue, if_pos ⟨rfl, hbig⟩]
    omega
  have hlength : (before ++ byte :: rest).length = before.length + (rest.length + 1) := by simp
  cases rounds with
  | zero => cases hwalk
  | succ rounds =>
      rw [opu2wav, hbyte, if_pos (by omega), if_pos (by omega), Option.map_eq_some_iff] at hwalk
      obtain ⟨later, -, rfl⟩ := hwalk
      obtain ⟨start, size, -, hcall⟩ := (List.forall_mem_cons.mp hcalls).1
      have hsize : charValue true byte = size := congrArg DecodeCall.nPacketSize hcall
      omega

end Step

/-! ## The whole walk -/

/-- The walk from the end of `before` on. -/
theorem walkOk_append_iff (signed : Bool) (stray : ℤ → UInt8) (before rest : List UInt8) :
    WalkOk signed stray (before ++ rest) before.length ↔
      signed = false ∨ ∀ byte ∈ lengthBytes rest, byte.toNat < 128 := by
  induction rest using lengthBytes.induct generalizing before with
  | case1 =>
      rw [lengthBytes, List.append_nil]
      refine iff_of_true ⟨1, [], opu2wav_of_le stray le_rfl 0, fun call hcall ↦ nomatch hcall⟩ ?_
      exact Or.inr fun byte hbyte ↦ nomatch hbyte
  | case2 byte rest ih =>
      rw [lengthBytes, List.forall_mem_cons]
      by_cases hbyte : signed = false ∨ byte.toNat < 128
      · have hvalue := charValue_of_nonneg hbyte
        have hhead : (signed = false ∨ byte.toNat < 128 ∧
              ∀ later ∈ lengthBytes (rest.drop byte.toNat), later.toNat < 128) ↔
            (signed = false ∨ ∀ later ∈ lengthBytes (rest.drop byte.toNat), later.toNat < 128) := by
          rw [or_and_left]
          exact and_iff_right hbyte
        rw [hhead]
        by_cases hfits : byte.toNat ≤ rest.length
        · have htake : (rest.take byte.toNat).length = byte.toNat := by
            rw [List.length_take, Nat.min_eq_left hfits]
          have hlength : charValue signed (UInt8.ofNat (rest.take byte.toNat).length) =
              (rest.take byte.toNat).length := by
            rw [htake, UInt8.ofNat_toNat, hvalue]
          have hpacket := walkOk_packet_iff stray before (rest.take byte.toNat)
            (rest.drop byte.toNat) hlength
          rw [ih, List.append_assoc, framePacket_take hfits] at hpacket
          exact hpacket
        · have hdrop : rest.drop byte.toNat = [] := List.drop_eq_nil_of_le (by omega)
          refine iff_of_true (walkOk_cut stray before hvalue (by omega)) (Or.inr ?_)
          rw [hdrop, lengthBytes]
          exact fun later hlater ↦ nomatch hlater
      · push Not at hbyte
        obtain ⟨hsigned, hbig⟩ := hbyte
        have htrue : signed = true := Bool.eq_true_of_not_eq_false hsigned
        subst htrue
        refine iff_of_false (not_walkOk_negative stray before rest hbig) ?_
        rintro (h | ⟨hsmall, -⟩)
        · cases h
        · omega

/-- **The walk of `opu2wav` ends and stays within the file exactly if no length byte is taken as a
negative number.** -/
theorem walk_iff (signed : Bool) (stray : ℤ → UInt8) (bytes : List UInt8) :
    WalkOk signed stray bytes 0 ↔
      signed = false ∨ ∀ byte ∈ lengthBytes bytes, byte.toNat < 128 :=
  walkOk_append_iff signed stray [] bytes

/-- The byte `0xff` is a step of length 0 where a `char` has a sign. -/
theorem opu2wav_stuck (stray : ℤ → UInt8) (rounds : ℕ) :
    opu2wav true stray [0xff] rounds 0 = none := by
  induction rounds with
  | zero => rfl
  | succ rounds ih =>
      have hbyte : byteAt [0xff] stray 0 = 0xff := rfl
      have hvalue : charValue true 0xff = -1 := by decide
      rw [opu2wav, hbyte, hvalue, if_pos (by decide), if_pos (by decide), neg_add_cancel, add_zero,
        ih, Option.map_none]

/-- A file of one byte that is read forever. -/
theorem not_walk_stuck :
    ¬∀ (signed : Bool) (stray : ℤ → UInt8) (bytes : List UInt8), WalkOk signed stray bytes 0 := by
  intro h
  obtain ⟨rounds, calls, hwalk, -⟩ := h true (fun _ ↦ 0) [0xff]
  rw [opu2wav_stuck] at hwalk
  cases hwalk

end Vsys.Audio
