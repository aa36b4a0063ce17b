import Mathlib.Data.List.Infix
import Vsys.Audio.Coder
import Vsys.Stream.Conserve
import Vsys.Trace.Run

/-!
# The byte stream of `r2mem_cod`

Without Opus the coder stores every sample by itself, as a 16-bit number in the activation library
and as a float in `r2ad3`.  Three cursors move over a voice segment: `m_iLen_In` with the samples
that come in, `m_iLen_Cod` with the frames that are encoded and `m_iLen_Out_Cur` with the bytes that
are fetched.

`returns_iff` says that the bytes always come in order, and when the last frame comes as well.
-/

namespace Vsys.Audio

open Vsys.Stream Vsys.Trace

/-! ## The operations -/

/-- How a sample is stored. -/
structure PcmCode where
  bytes : ℚ → List UInt8
  bytes_ne_nil : ∀ x, bytes x ≠ []

namespace PcmCode

/-- The activation library stores a sample times `scaling` as a short. -/
def short (scaling : ℚ) : PcmCode where
  bytes := fun x ↦ shortBytes (x * scaling)
  bytes_ne_nil := fun _ ↦ List.cons_ne_nil _ _

/-- `r2ad3` copies the four bytes of the float. -/
def float (floatBytes : ℚ → Fin 4 → UInt8) : PcmCode where
  bytes := fun x ↦ List.ofFn (floatBytes x)
  bytes_ne_nil := fun x h ↦ by simpa using congrArg List.length h

/-- `r2ad_cod_pcm`. -/
def encoder (code : PcmCode) : Encoder Unit where
  create := ()
  encode := fun engine frame ↦ (engine, frame.flatMap code.bytes)

theorem encoder_short (scaling : ℚ) : (short scaling).encoder = .pcm16 scaling := rfl

end PcmCode

/-- `getdata`: encode what is pending and fetch at most `iLen` bytes. -/
def Cod.getData {σ : Type*} (E : Encoder σ) (c : Cod σ) (iLen : ℕ) : Cod σ × List UInt8 :=
  let c := c.processData E
  let ll := min iLen (c.dataOut.length - c.lenOutCur)
  ({ c with lenOutCur := c.lenOutCur + ll }, (c.dataOut.drop c.lenOutCur).take ll)

/-- A call of the coder. -/
inductive CodCall
  | process (data : List ℚ)
  | getDataLen
  | getData (iLen : ℕ)
  | getData2
  | pause
  | resume
  | reset

/-- A coder with the samples since the last `reset` and the bytes it has returned since the last
`reset` or `pause`. -/
structure CodLog where
  cod : Cod Unit
  input : List ℚ
  returned : List UInt8

namespace CodLog

variable (code : PcmCode)

/-- A coder right after a `reset`. -/
def start (c : Cod Unit) : CodLog := ⟨c.reset code.encoder, [], []⟩

/-- The effect of a call. -/
def call (s : CodLog) : CodCall → CodLog
  | .process data => ⟨s.cod.process data, s.input ++ data, s.returned⟩
  | .getDataLen => { s with cod := (s.cod.getDataLen code.encoder).1 }
  | .getData iLen =>
      let got := s.cod.getData code.encoder iLen
      { s with cod := got.1, returned := s.returned ++ got.2 }
  | .getData2 =>
      let got := s.cod.getData2 code.encoder
      { s with cod := got.1, returned := s.returned ++ got.2 }
  | .pause => { s with cod := s.cod.pause, returned := [] }
  | .resume => { s with cod := s.cod.resume }
  | .reset => start code s.cod

/-- The samples as they are encoded, with the gain of the coder. -/
def scaled (s : CodLog) : List ℚ := s.input.map fun x ↦ x / 32768 * s.cod.shieldAm

/-- The encoded frames of the input. -/
def encoded (s : CodLog) : List UInt8 :=
  (blocks lenFrmCod s.scaled).flatMap fun frame ↦ (code.encoder.encode () frame).2

/-- The bytes have come in order, without loss or duplication, from the first sample on. -/
def Ordered (s : CodLog) : Prop := s.returned <+: s.encoded code

/-- Every complete frame has been returned. -/
def Complete (s : CodLog) : Prop := s.returned = s.encoded code

end CodLog

/-- The number of samples is not that of some complete frames. -/
def Uncut (samples : ℕ) : Prop := ¬ (0 < samples ∧ lenFrmCod ∣ samples)

instance (samples : ℕ) : Decidable (Uncut samples) := inferInstanceAs (Decidable (¬ _))

/-! ## Encoding -/

section Encoding

variable {code : PcmCode} {input : List ℚ} {c : Cod Unit}

/-- Where the cursor of the encoder stands: the samples before it are scaled and encoded. -/
structure Encoded (code : PcmCode) (input : List ℚ) (c : Cod Unit) : Prop where
  whole : lenFrmCod ∣ c.lenCod
  lenCod_lt : c.lenCod = 0 ∨ c.lenCod < input.length
  shieldAm_le : 0 < c.lenCod → c.shieldAm ≤ 1
  dataIn_eq : c.dataIn = (input.take c.lenCod).map (fun x ↦ x / 32768 * c.shieldAm) ++
    (input.drop c.lenCod).map (· / 32768)
  dataOut_eq : c.dataOut =
    ((input.take c.lenCod).map fun x ↦ x / 32768 * c.shieldAm).flatMap code.bytes

theorem Encoded.lenCod_le (h : Encoded code input c) : c.lenCod ≤ input.length := by
  obtain hzero | hlt := h.lenCod_lt
  · rw [hzero]
    exact Nat.zero_le _
  · exact hlt.le

theorem Encoded.length_dataIn (h : Encoded code input c) : c.dataIn.length = input.length := by
  rw [h.dataIn_eq, List.length_append, List.length_map, List.length_map, ← List.length_append,
    List.take_append_drop]

theorem gainOf_le_one (total : ℚ) : Cod.gainOf total ≤ 1 := by
  rw [Cod.gainOf]
  split_ifs with hloud
  · exact (div_le_one (by linarith)).mpr hloud.le
  · exact le_rfl

/-- The gain is chosen before the first frame, and it is at most 1. -/
theorem Encoded.updateShield (h : Encoded code input c) :
    Encoded code input c.updateShield ∧
      (lenFrmCod < input.length → c.updateShield.shieldAm ≤ 1) := by
  have hlength := h.length_dataIn
  obtain ⟨hwhole, hlt, hshield, hin, hout⟩ := h
  have hgain (total : ℚ) (hzero : c.lenCod = 0) :
      Encoded code input { c with shieldAm := Cod.gainOf total } := by
    refine ⟨hwhole, hlt, fun hpos ↦ absurd hzero hpos.ne', ?_, ?_⟩
    · rw [hin, hzero]
      rfl
    · rw [hout, hzero]
      rfl
  unfold Cod.updateShield
  split_ifs with hfirst hshort
  · exact ⟨hgain _ hfirst.1, fun _ ↦ gainOf_le_one _⟩
  · exact ⟨hgain _ hfirst.1, fun _ ↦ gainOf_le_one _⟩
  · refine ⟨⟨hwhole, hlt, hshield, hin, hout⟩, fun hlong ↦ hshield ?_⟩
    rw [hlength] at hfirst
    exact Nat.pos_of_ne_zero fun hzero ↦ hfirst ⟨hzero, hlong⟩

/-- A frame is scaled in place. -/
theorem Encoded.scale (h : Encoded code input c) (hshield : c.shieldAm ≤ 1) :
    (if c.shieldAm < 1 then
      c.dataIn.take c.lenCod ++ ((c.dataIn.drop c.lenCod).take lenFrmCod).map (· * c.shieldAm) ++
        c.dataIn.drop (c.lenCod + lenFrmCod)
    else c.dataIn) =
      (input.take c.lenCod).map (fun x ↦ x / 32768 * c.shieldAm) ++
        (((input.drop c.lenCod).take lenFrmCod).map (fun x ↦ x / 32768 * c.shieldAm) ++
          (input.drop (c.lenCod + lenFrmCod)).map (· / 32768)) := by
  have hfirst : ((input.take c.lenCod).map fun x ↦ x / 32768 * c.shieldAm).length = c.lenCod := by
    rw [List.length_map, List.length_take, min_eq_left h.lenCod_le]
  split_ifs with hloud
  · have hdrop : c.dataIn.drop c.lenCod = (input.drop c.lenCod).map (· / 32768) := by
      rw [h.dataIn_eq, List.drop_left' hfirst]
    have htake : c.dataIn.take c.lenCod =
        (input.take c.lenCod).map fun x ↦ x / 32768 * c.shieldAm := by
      rw [h.dataIn_eq, List.take_left' hfirst]
    rw [← List.drop_drop, hdrop, htake, ← List.map_take, List.map_map, ← List.map_drop,
      List.drop_drop, List.append_assoc]
    rfl
  · have hone : c.shieldAm = 1 := le_antisymm hshield (not_lt.mp hloud)
    rw [h.dataIn_eq, hone]
    simp only [mul_one]
    rw [← List.map_append, List.take_append_drop, ← List.drop_drop, ← List.map_append,
      List.take_append_drop, ← List.map_append, List.take_append_drop]

/-- One round of the loop. -/
theorem Encoded.encodeFrm (h : Encoded code input c) (hshield : c.shieldAm ≤ 1)
    (hmore : c.lenCod + lenFrmCod < input.length) :
    Encoded code input (c.encodeFrm code.encoder) := by
  have hscale := h.scale hshield
  have hfirst : ((input.take c.lenCod).map fun x ↦ x / 32768 * c.shieldAm).length = c.lenCod := by
    rw [List.length_map, List.length_take, min_eq_left h.lenCod_le]
  have hframe : (((input.drop c.lenCod).take lenFrmCod).map
      fun x ↦ x / 32768 * c.shieldAm).length = lenFrmCod := by
    rw [List.length_map, List.length_take, List.length_drop]
    omega
  have htake : input.take (c.lenCod + lenFrmCod) =
      input.take c.lenCod ++ (input.drop c.lenCod).take lenFrmCod := List.take_add
  unfold Cod.encodeFrm
  dsimp only [PcmCode.encoder]
  rw [hscale]
  refine ⟨Nat.dvd_add h.whole (dvd_refl _), .inr hmore, fun _ ↦ hshield, ?_, ?_⟩
  · dsimp only
    rw [htake, List.map_append, List.append_assoc]
  · dsimp only
    rw [List.drop_left' hfirst, List.take_left' hframe, h.dataOut_eq, htake, List.map_append,
      List.flatMap_append]

theorem Encoded.encodeLoop (h : Encoded code input c)
    (hshield : lenFrmCod < input.length → c.shieldAm ≤ 1) (rounds : ℕ) :
    Encoded code input (Cod.encodeLoop code.encoder rounds c) := by
  induction rounds generalizing c with
  | zero => exact h
  | succ rounds ih =>
      rw [Cod.encodeLoop]
      split_ifs with hmore
      · rw [h.length_dataIn] at hmore
        have hle := hshield (by omega)
        exact ih (h.encodeFrm hle hmore) fun _ ↦ hle
      · exact h

/-- **`processdata` encodes all frames but one that is just complete.** -/
theorem Encoded.processData (h : Encoded code input c) :
    Encoded code input (c.processData code.encoder) ∧
      input.length ≤ (c.processData code.encoder).lenCod + lenFrmCod := by
  have hcheck : Encoded code input { c with assertsHeld := c.assertsHeld && !c.paused } :=
    ⟨h.whole, h.lenCod_lt, h.shieldAm_le, h.dataIn_eq, h.dataOut_eq⟩
  obtain ⟨hshield, hle⟩ := hcheck.updateShield
  have hencoded : Encoded code input (c.processData code.encoder) := hshield.encodeLoop hle _
  refine ⟨hencoded, ?_⟩
  rw [← hencoded.length_dataIn]
  exact Cod.processData_done code.encoder c

end Encoding

/-! ## Returning -/

/-- The loop only appends to the output, and fetches nothing. -/
theorem encodeLoop_dataOut {σ : Type*} (E : Encoder σ) (rounds : ℕ) (c : Cod σ) :
    c.dataOut <+: (Cod.encodeLoop E rounds c).dataOut ∧
      (Cod.encodeLoop E rounds c).lenOutCur = c.lenOutCur := by
  induction rounds generalizing c with
  | zero => exact ⟨List.prefix_rfl, rfl⟩
  | succ rounds ih =>
      rw [Cod.encodeLoop]
      split_ifs with hmore
      · obtain ⟨hgrows, hcur⟩ := ih (c.encodeFrm E)
        exact ⟨(List.prefix_append _ _).trans hgrows, hcur⟩
      · exact ⟨List.prefix_rfl, rfl⟩

theorem processData_dataOut {σ : Type*} (E : Encoder σ) (c : Cod σ) :
    c.dataOut <+: (c.processData E).dataOut ∧ (c.processData E).lenOutCur = c.lenOutCur := by
  have hshield : (Cod.updateShield { c with assertsHeld := c.assertsHeld && !c.paused }).dataOut =
      c.dataOut ∧ (Cod.updateShield
        { c with assertsHeld := c.assertsHeld && !c.paused }).lenOutCur = c.lenOutCur := by
    unfold Cod.updateShield
    split_ifs <;> exact ⟨rfl, rfl⟩
  obtain ⟨hgrows, hcur⟩ := encodeLoop_dataOut E c.dataIn.length
    (Cod.updateShield { c with assertsHeld := c.assertsHeld && !c.paused })
  rw [hshield.1] at hgrows
  exact ⟨hgrows, hcur.trans hshield.2⟩

namespace CodLog

variable {code : PcmCode} {s : CodLog}

/-- The bytes returned are those before the cursor. -/
structure Fetched (code : PcmCode) (s : CodLog) : Prop where
  encoded : Encoded code s.input s.cod
  lenOutCur_le : s.cod.lenOutCur ≤ s.cod.dataOut.length
  returned_eq : s.returned = s.cod.dataOut.take s.cod.lenOutCur

theorem encoded_eq (code : PcmCode) (s : CodLog) :
    s.encoded code =
      (s.scaled.take (s.input.length / lenFrmCod * lenFrmCod)).flatMap code.bytes := by
  have hlength : s.scaled.length = s.input.length := List.length_map ..
  rw [CodLog.encoded, blocks, hlength, ← flatten_blockAt, List.flatten_eq_flatMap,
    List.flatMap_assoc]
  rfl

/-- The frames that have been encoded are the first ones. -/
theorem Fetched.dataOut_eq (h : Fetched code s) :
    s.cod.dataOut = (s.scaled.take s.cod.lenCod).flatMap code.bytes := by
  rw [h.encoded.dataOut_eq, scaled, List.map_take]

theorem Fetched.lenCod_le (h : Fetched code s) :
    s.cod.lenCod ≤ s.input.length / lenFrmCod * lenFrmCod := by
  obtain ⟨q, hq⟩ := h.encoded.whole
  have hle := h.encoded.lenCod_le
  rw [hq, Nat.mul_comm] at hle ⊢
  exact Nat.mul_le_mul_right _ ((Nat.le_div_iff_mul_le (by decide)).mpr hle)

theorem Fetched.ordered (h : Fetched code s) : Ordered code s := by
  rw [Ordered, encoded_eq, h.returned_eq]
  refine (List.take_prefix _ _).trans ?_
  rw [h.dataOut_eq]
  exact List.IsPrefix.flatMap (List.take_prefix_take_left h.lenCod_le) _

/-- A coder right after a `reset`. -/
theorem fetched_start (code : PcmCode) (c : Cod Unit) : Fetched code (start code c) where
  encoded := ⟨dvd_zero _, .inl rfl, fun hpos ↦ absurd rfl hpos.ne', rfl, rfl⟩
  lenOutCur_le := le_rfl
  returned_eq := rfl

theorem Fetched.process (h : Fetched code s) (data : List ℚ) :
    Fetched code (s.call code (.process data)) := by
  obtain ⟨⟨hwhole, hlt, hshield, hin, hout⟩, hcur, hreturned⟩ := h
  have hle : s.cod.lenCod ≤ s.input.length := by omega
  refine ⟨⟨hwhole, ?_, hshield, ?_, ?_⟩, hcur, hreturned⟩
  · refine hlt.imp_right fun hlt ↦ hlt.trans_le ?_
    exact (List.prefix_append s.input data).length_le
  · show s.cod.dataIn ++ data.map (· / 32768) =
      ((s.input ++ data).take s.cod.lenCod).map (fun x ↦ x / 32768 * s.cod.shieldAm) ++
        ((s.input ++ data).drop s.cod.lenCod).map (· / 32768)
    rw [hin, List.take_append_of_le_length hle, List.drop_append_of_le_length hle, List.map_append,
      List.append_assoc]
  · show s.cod.dataOut =
      (((s.input ++ data).take s.cod.lenCod).map fun x ↦ x / 32768 * s.cod.shieldAm).flatMap _
    rw [hout, List.take_append_of_le_length hle]

/-- A call that encodes what is pending and moves the cursor to `cur`. -/
theorem Fetched.fetch (h : Fetched code s) {cur : ℕ} (hle : s.cod.lenOutCur ≤ cur)
    (hcur : cur ≤ (s.cod.processData code.encoder).dataOut.length) :
    Fetched code
      { s with
        cod := { s.cod.processData code.encoder with lenOutCur := cur }
        returned := s.returned ++ ((s.cod.processData code.encoder).dataOut.drop
          s.cod.lenOutCur).take (cur - s.cod.lenOutCur) } := by
  obtain ⟨hencoded, hlen, hreturned⟩ := h
  obtain ⟨hwhole, hlt, hshield, hin, hout⟩ := hencoded.processData.1
  obtain ⟨⟨more, hmore⟩, -⟩ := processData_dataOut code.encoder s.cod
  refine ⟨⟨hwhole, hlt, hshield, hin, hout⟩, hcur, ?_⟩
  show s.returned ++ _ = (s.cod.processData code.encoder).dataOut.take cur
  have hold : s.returned = (s.cod.processData code.encoder).dataOut.take s.cod.lenOutCur := by
    rw [hreturned, ← hmore, List.take_append_of_le_length hlen]
  rw [hold, ← List.take_add, Nat.add_sub_cancel' hle]

/-- **Every call returns the bytes behind those returned before.** -/
theorem Fetched.call (h : Fetched code s) (op : CodCall) : Fetched code (s.call code op) := by
  obtain ⟨hgrows, hcur⟩ := processData_dataOut code.encoder s.cod
  have hlen := h.lenOutCur_le.trans hgrows.length_le
  cases op with
  | process data => exact h.process data
  | getDataLen =>
      have hfetch := h.fetch le_rfl hlen
      rw [Nat.sub_self, List.take_zero, List.append_nil] at hfetch
      obtain ⟨hencoded, hle, hreturned⟩ := hfetch
      refine ⟨h.encoded.processData.1, ?_, ?_⟩
      · show (s.cod.processData code.encoder).lenOutCur ≤ _
        rw [hcur]
        exact hle
      · show s.returned = (s.cod.processData code.encoder).dataOut.take
          (s.cod.processData code.encoder).lenOutCur
        rw [hcur]
        exact hreturned
  | getData iLen =>
      have hcopied : s.cod.lenOutCur +
          min iLen ((s.cod.processData code.encoder).dataOut.length - s.cod.lenOutCur) ≤
            (s.cod.processData code.encoder).dataOut.length := by omega
      have hfetch := h.fetch (Nat.le_add_right _ _) hcopied
      rw [Nat.add_sub_cancel_left] at hfetch
      simp only [CodLog.call, Cod.getData, hcur]
      exact hfetch
  | getData2 =>
      have hfetch := h.fetch hlen le_rfl
      rw [List.take_of_length_le (by rw [List.length_drop])] at hfetch
      simp only [CodLog.call, Cod.getData2, hcur]
      exact hfetch
  | pause =>
      obtain ⟨⟨hwhole, hlt, hshield, hin, hout⟩, -, -⟩ := h
      exact ⟨⟨hwhole, hlt, hshield, hin, hout⟩, Nat.zero_le _, rfl⟩
  | resume =>
      obtain ⟨⟨hwhole, hlt, hshield, hin, hout⟩, hle, hreturned⟩ := h
      exact ⟨⟨hwhole, hlt, hshield, hin, hout⟩, hle, hreturned⟩
  | reset => exact fetched_start code s.cod

/-! ## The last frame -/

/-- The cursor of the encoder stands behind the last complete frame, or one frame before. -/
theorem lenCod_eq_iff {n len cod : ℕ} (hwhole : n ∣ cod) (hlt : cod = 0 ∨ cod < len)
    (hdone : len ≤ cod + n) : cod = len / n * n ↔ ¬ (0 < len ∧ n ∣ len) := by
  constructor
  · rintro heq ⟨hpos, hdvd⟩
    rw [Nat.div_mul_cancel hdvd] at heq
    omega
  · intro hcut
    by_cases hzero : len = 0
    · rw [hzero, Nat.zero_div, Nat.zero_mul]
      omega
    · have hdvd : ¬ n ∣ len := fun hdvd ↦ hcut ⟨Nat.pos_of_ne_zero hzero, hdvd⟩
      have hne : len ≠ cod + n := fun heq ↦ hdvd (heq ▸ Nat.dvd_add hwhole (dvd_refl n))
      obtain ⟨q, rfl⟩ := hwhole
      have hdiv : len / n = q := by
        apply Nat.div_eq_of_lt_le
        · rw [Nat.mul_comm]
          omega
        · rw [Nat.add_mul, Nat.one_mul, Nat.mul_comm]
          omega
      rw [hdiv, Nat.mul_comm]

/-- More samples have more bytes. -/
theorem flatMap_take_eq_iff (code : PcmCode) {l : List ℚ} {a b : ℕ} (hab : a ≤ b)
    (hb : b ≤ l.length) :
    (l.take a).flatMap code.bytes = (l.take b).flatMap code.bytes ↔ a = b := by
  constructor
  · intro heq
    have hsplit : l.take b = l.take a ++ (l.drop a).take (b - a) := by
      rw [← List.take_add, Nat.add_sub_cancel' hab]
    rw [hsplit, List.flatMap_append, List.self_eq_append_right, List.flatMap_eq_nil_iff] at heq
    have hnil : (l.drop a).take (b - a) = [] :=
      List.eq_nil_iff_forall_not_mem.mpr fun x hx ↦ code.bytes_ne_nil x (heq x hx)
    have hlength := congrArg List.length hnil
    rw [List.length_take, List.length_drop, List.length_nil] at hlength
    omega
  · rintro rfl
    rfl

/-- **`getdata2` returns all complete frames exactly if the last one is not just complete.** -/
theorem Fetched.complete_iff (h : Fetched code s) :
    Complete code (s.call code .getData2) ↔ Uncut s.input.length := by
  have hdone := h.encoded.processData.2
  have h' := h.call .getData2
  have hcod : (s.call code .getData2).cod.lenCod =
      (s.cod.processData code.encoder).lenCod := rfl
  have hinput : (s.call code .getData2).input = s.input := rfl
  have hall : (s.call code .getData2).cod.lenOutCur =
      (s.call code .getData2).cod.dataOut.length := rfl
  rw [← hcod, ← hinput] at hdone
  rw [← hinput]
  generalize s.call code .getData2 = s' at h' hdone hall
  have hlength : s'.scaled.length = s'.input.length := List.length_map ..
  have hle : s'.input.length / lenFrmCod * lenFrmCod ≤ s'.scaled.length := by
    rw [hlength]
    exact Nat.div_mul_le_self _ _
  rw [Complete, encoded_eq, h'.returned_eq, hall, List.take_length, h'.dataOut_eq,
    flatMap_take_eq_iff code h'.lenCod_le hle,
    lenCod_eq_iff h'.encoded.whole h'.encoded.lenCod_lt hdone, Uncut]

/-- **The byte stream of the coder.**  For both ways to store a sample, after a `reset` in any state
and in any order of calls: the bytes returned since the last `reset` or `pause` are always the first
ones of the encoded frames, and every `getdata2` returns all complete frames exactly if in none of
them the samples since the last `reset` are a positive number of whole frames. -/
theorem returns_iff (code : PcmCode) (c : Cod Unit) (ops : List CodCall) :
    (Throughout (call code) (Ordered code) (start code c) ops ∧
      Along (call code) (fun s op ↦ op = .getData2 → Complete code (s.call code op))
        (start code c) ops) ↔
      Along (call code) (fun s op ↦ op = .getData2 → Uncut s.input.length) (start code c) ops := by
  have hordered : Throughout (call code) (Ordered code) (start code c) ops := by
    intro first _
    have hfetched : Fetched code (run (call code) (start code c) first) :=
      run_keeps (fun s op h ↦ h.call op) (fetched_start code c) first
    exact hfetched.ordered
  refine (and_iff_right hordered).trans ?_
  refine along_congr (Fetched code) (fun s op h ↦ h.call op) (fun s op h ↦ ?_)
    (fetched_start code c) ops
  refine forall_congr' fun hop ↦ ?_
  rw [hop]
  exact h.complete_iff

/-- One frame of silence is not returned. -/
theorem not_returns_oneFrame :
    ¬ (Throughout (call (.short 32768)) (Ordered (.short 32768)) (start (.short 32768) (Cod.create
        (PcmCode.short 32768).encoder)) [.process (List.replicate lenFrmCod 0), .getData2] ∧
      Along (call (.short 32768))
        (fun s op ↦ op = .getData2 → Complete (.short 32768) (s.call (.short 32768) op))
        (start (.short 32768) (Cod.create (PcmCode.short 32768).encoder))
        [.process (List.replicate lenFrmCod 0), .getData2]) := by
  rintro ⟨-, -, hcomplete, -⟩
  have hfetched := (fetched_start (.short 32768) (Cod.create (PcmCode.short 32768).encoder)).call
    (.process (List.replicate lenFrmCod 0))
  have hlen : ((start (.short 32768) (Cod.create (PcmCode.short 32768).encoder)).call (.short 32768)
      (.process (List.replicate lenFrmCod 0))).input.length = lenFrmCod := by
    simp [start, call]
  have huncut := hfetched.complete_iff.mp (hcomplete rfl)
  rw [hlen] at huncut
  exact huncut ⟨by decide, dvd_refl _⟩

end CodLog

end Vsys.Audio
