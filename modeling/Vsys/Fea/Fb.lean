import Mathlib.Data.List.Induction
import Mathlib.Data.Rat.Defs
import Vsys.Stream.Memcpy
import Vsys.Stream.Windows
import Vsys.Trace.Run

/-!
# Filter-bank features `ZFea2`

`ContinueFb` collects `m_iBatWin` samples of all channels, computes the `m_iBat` frames in them at
once and moves the last `m_iWin - m_iSft` samples to the front with `memcpy`.  The source of that
move begins `m_iBat * m_iSft` samples later, so the regions overlap for a batch of one frame.

From the cut on, a row of features is a function of the window it is computed from: `m_pHamBuff` is
cleaned for every batch and its rows are processed one by one.
-/

namespace Vsys.Fea

open Vsys.Stream Vsys.Trace

/-- The rates `InitFb` accepts. -/
inductive SampleRate
  | hz8000
  | hz16000
  deriving DecidableEq

/-- `m_iWin`. -/
def SampleRate.win : SampleRate → ℕ
  | .hz8000 => 200
  | .hz16000 => 400

/-- `m_iSft`. -/
def SampleRate.sft : SampleRate → ℕ
  | .hz8000 => 80
  | .hz16000 => 160

/-- `m_iBatWin`. -/
def batWin (sr : SampleRate) (bat : ℕ) : ℕ := sr.win + (bat - 1) * sr.sft

/-- A sample of all channels. -/
abbrev Sample (cn : ℕ) := Fin cn → ℚ

/-- The sample buffer and the rows of the last call; `m_pFb` has `fbTotal` rows. -/
structure ZFea2 (cn : ℕ) (Row : Type) where
  batPos : ℕ
  preEmBuff : ℕ → Sample cn
  fbTotal : ℕ
  fbNum : ℕ
  fb : ℕ → Row

namespace ZFea2

variable {cn : ℕ} {Row : Type}

/-- `InitFb`; the buffers come with what is in the memory. -/
def initFb (preEmBuff : ℕ → Sample cn) (fb : ℕ → Row) : ZFea2 cn Row where
  batPos := 0
  preEmBuff := preEmBuff
  fbTotal := 100
  fbNum := 0
  fb := fb

/-- `ResetFb`. -/
def resetFb (m : ZFea2 cn Row) : ZFea2 cn Row := { m with batPos := 0 }

variable (memcpy : Memcpy ℚ) (sr : SampleRate) (bat : ℕ) (feature : List (Sample cn) → Row)

/-- `ProBlockBuff`: the frames of a full buffer go behind the rows of this call. -/
def proBlockBuff (m : ZFea2 cn Row) : ZFea2 cn Row :=
  { m with
    fb := fun row ↦
      if m.fbNum ≤ row ∧ row < m.fbNum + bat then
        feature ((List.range sr.win).map fun i ↦ m.preEmBuff (sr.sft * (row - m.fbNum) + i))
      else m.fb row }

/-- The first half of a round of `ContinueFb`. -/
def fill (m : ZFea2 cn Row) (piece : List (Sample cn)) : ZFea2 cn Row :=
  { m with batPos := m.batPos + piece.length, preEmBuff := writeAt m.preEmBuff m.batPos piece }

/-- The second half, for a full buffer: the shift is one `memcpy` for each channel. -/
def full (m : ZFea2 cn Row) : ZFea2 cn Row :=
  let t := m.proBlockBuff sr bat feature
  { t with
    preEmBuff := fun k j ↦
      memcpy.copy (fun k ↦ t.preEmBuff k j) 0 (sr.sft * bat) (sr.win - sr.sft) k
    batPos := sr.win - sr.sft
    fbNum := t.fbNum + bat }

/-- The capacity for a call; a larger `m_pFb` comes with what is in the memory. -/
def reserve (memory : ℕ → Row) (len : ℕ) (m : ZFea2 cn Row) : ZFea2 cn Row :=
  let fbNum := (len + m.batPos) / sr.sft
  if m.fbTotal < fbNum then { m with fbTotal := fbNum * 2, fbNum := 0, fb := memory }
  else { m with fbNum := 0 }

/-- `ContinueFb`. -/
def continueFb (memory : ℕ → Row) (m : ZFea2 cn Row) (aud : List (Sample cn)) : ZFea2 cn Row :=
  windowLoop (batWin sr bat) batPos fill (full memcpy sr bat feature) aud.length aud
    (m.reserve sr memory aud.length)

/-- The rows a call returns. -/
def rows (m : ZFea2 cn Row) : List Row := (List.range m.fbNum).map m.fb

end ZFea2

/-- A call. -/
inductive FbOp (cn : ℕ)
  | continueFb (aud : List (Sample cn))
  | resetFb

/-- The features and the rows returned since the last `ResetFb`. -/
structure Extraction (cn : ℕ) (Row : Type) where
  fea : ZFea2 cn Row
  out : List Row

section
variable {cn : ℕ} {Row : Type}

/-- The effect of a call. -/
def FbOp.apply (memcpy : Memcpy ℚ) (sr : SampleRate) (bat : ℕ) (feature : List (Sample cn) → Row)
    (memory : ℕ → Row) (e : Extraction cn Row) : FbOp cn → Extraction cn Row
  | .continueFb aud =>
      let fea := e.fea.continueFb memcpy sr bat feature memory aud
      ⟨fea, e.out ++ fea.rows⟩
  | .resetFb => ⟨e.fea.resetFb, []⟩

/-- A new `ZFea2`. -/
def Extraction.create (preEmBuff : ℕ → Sample cn) (memory : ℕ → Row) : Extraction cn Row :=
  ⟨.initFb preEmBuff memory, []⟩

/-- The samples since the last `ResetFb`. -/
def stream (ops : List (FbOp cn)) : List (Sample cn) :=
  ops.foldl (fun samples op ↦
    match op with
    | .continueFb aud => samples ++ aud
    | .resetFb => []) []

/-- The first frames of a stream. -/
def frames (sr : SampleRate) (feature : List (Sample cn) → Row) (n : ℕ) (samples : List (Sample cn)) :
    List Row :=
  (List.range n).map fun t ↦ feature (window sr.win sr.sft t samples)

/-- The number of complete batches in a stream. -/
def batchCount (sr : SampleRate) (bat length : ℕ) : ℕ :=
  (length - (sr.win - sr.sft)) / (bat * sr.sft)

/-- The rows returned are the frames of the complete batches, and those of the last call were
written within the capacity. -/
structure Extraction.Right (sr : SampleRate) (bat : ℕ) (feature : List (Sample cn) → Row)
    (samples : List (Sample cn)) (e : Extraction cn Row) : Prop where
  out_eq : e.out = frames sr feature (bat * batchCount sr bat samples.length) samples
  fbNum_le : e.fea.fbNum ≤ e.fea.fbTotal

end

/-! ## One call -/

theorem SampleRate.sft_pos (sr : SampleRate) : 0 < sr.sft := by
  cases sr <;> decide

theorem SampleRate.sft_lt_win (sr : SampleRate) : sr.sft < sr.win := by
  cases sr <;> decide

theorem batWin_eq (sr : SampleRate) {bat : ℕ} (hbat : 1 ≤ bat) :
    batWin sr bat = bat * sr.sft + (sr.win - sr.sft) := by
  obtain ⟨more, rfl⟩ := Nat.exists_eq_add_of_le' hbat
  have hwin := sr.sft_lt_win
  rw [batWin, Nat.add_sub_cancel, Nat.add_mul, Nat.one_mul]
  omega

namespace ZFea2

variable {cn : ℕ} {Row : Type} {memcpy : Memcpy ℚ} {sr : SampleRate} {bat : ℕ}
  {feature : List (Sample cn) → Row}

/-- The buffer carries on the stream, with `count` batches produced. -/
structure Buffered (sr : SampleRate) (bat : ℕ) (samples : List (Sample cn)) (count : ℕ)
    (m : ZFea2 cn Row) : Prop where
  batPos_lt : m.batPos < batWin sr bat
  carried : Carried (bat * sr.sft) samples count m.batPos m.preEmBuff
  left : count = 0 ∨ sr.win - sr.sft ≤ m.batPos

/-- Within a call: `done` was returned before, and with the rows so far it is all frames. -/
structure Inv (sr : SampleRate) (bat : ℕ) (feature : List (Sample cn) → Row) (done : List Row)
    (fbTotal : ℕ) (samples : List (Sample cn)) (m : ZFea2 cn Row) : Prop where
  buffered : ∃ count, m.Buffered sr bat samples count ∧
    done ++ m.rows = frames sr feature (bat * count) samples
  fbTotal_eq : m.fbTotal = fbTotal

/-- Frames that are complete do not change when the stream goes on. -/
theorem Buffered.frames_append {samples : List (Sample cn)} {count : ℕ} {m : ZFea2 cn Row}
    (h : m.Buffered sr bat samples count) (feature : List (Sample cn) → Row)
    (piece : List (Sample cn)) :
    frames sr feature (bat * count) (samples ++ piece) =
      frames sr feature (bat * count) samples := by
  apply List.map_congr_left
  intro t ht
  have hlt := List.mem_range.mp ht
  have hlength := h.carried.length_eq
  have hmul : (t + 1) * sr.sft ≤ count * (bat * sr.sft) := by
    calc
      (t + 1) * sr.sft ≤ bat * count * sr.sft := Nat.mul_le_mul_right _ hlt
      _ = count * (bat * sr.sft) := by rw [Nat.mul_comm bat count, Nat.mul_assoc]
  have hleft : sr.win - sr.sft ≤ m.batPos := by
    obtain hzero | hleft := h.left
    · rw [hzero, Nat.mul_zero] at hlt
      omega
    · exact hleft
  have hwin := sr.sft_lt_win
  rw [Nat.add_mul, Nat.one_mul] at hmul
  rw [window_append (by omega)]

/-- The rows behind a full buffer. -/
theorem full_rows (m : ZFea2 cn Row) :
    (m.full memcpy sr bat feature).rows =
      m.rows ++ (List.range bat).map fun j ↦
        feature ((List.range sr.win).map fun i ↦ m.preEmBuff (sr.sft * j + i)) := by
  show (List.range (m.fbNum + bat)).map (m.proBlockBuff sr bat feature).fb = _
  rw [List.range_add, List.map_append, List.map_map]
  congr 1
  · apply List.map_congr_left
    intro row hrow
    have hlt := List.mem_range.mp hrow
    exact if_neg (by omega)
  · apply List.map_congr_left
    intro j hj
    have hlt := List.mem_range.mp hj
    rw [Function.comp_apply, proBlockBuff]
    dsimp only
    rw [if_pos (by omega), Nat.add_sub_cancel_left]

/-- The batch in a full buffer is the next one of the stream. -/
theorem batch_eq {samples : List (Sample cn)} {count : ℕ} {buf : ℕ → Sample cn} (hbat : 1 ≤ bat)
    (h : Carried (bat * sr.sft) samples count (batWin sr bat) buf) :
    frames sr feature (bat * count) samples ++ ((List.range bat).map fun j ↦
        feature ((List.range sr.win).map fun i ↦ buf (sr.sft * j + i))) =
      frames sr feature (bat * (count + 1)) samples := by
  rw [frames, frames, Nat.mul_add, Nat.mul_one, List.range_add, List.map_append, List.map_map]
  congr 1
  apply List.map_congr_left
  intro j hj
  have hlt := List.mem_range.mp hj
  have hmul : (j + 1) * sr.sft ≤ bat * sr.sft := Nat.mul_le_mul_right _ hlt
  have hwin := sr.sft_lt_win
  have hbatWin := batWin_eq sr hbat
  rw [Nat.add_mul, Nat.one_mul, Nat.mul_comm j] at hmul
  have hstart : count * (bat * sr.sft) + sr.sft * j = (bat * count + j) * sr.sft := by
    rw [Nat.add_mul, Nat.mul_comm bat count, Nat.mul_assoc, Nat.mul_comm j]
  rw [h.slice _ _ (by omega), Function.comp_apply, window, hstart]

/-- A copy that makes the shift of the buffer. -/
def Shifts (memcpy : Memcpy ℚ) (sr : SampleRate) (bat : ℕ) : Prop :=
  ∀ row : ℕ → ℚ, ∀ j < sr.win - sr.sft,
    memcpy.copy row 0 (sr.sft * bat) (sr.win - sr.sft) j = row (sr.sft * bat + j)

theorem Inv.round (hbat : 1 ≤ bat) (hshifts : Shifts memcpy sr bat) {done : List Row} {fbTotal : ℕ}
    {samples : List (Sample cn)} {m : ZFea2 cn Row}
    (h : Inv sr bat feature done fbTotal samples m) {piece : List (Sample cn)}
    (hpiece : m.batPos + piece.length ≤ batWin sr bat) :
    Inv sr bat feature done fbTotal (samples ++ piece)
      (if (m.fill piece).batPos = batWin sr bat then (m.fill piece).full memcpy sr bat feature
        else m.fill piece) := by
  obtain ⟨⟨count, hbuffered, hrows⟩, htotal⟩ := h
  have hfilled : Carried (bat * sr.sft) (samples ++ piece) count (m.batPos + piece.length)
      (m.fill piece).preEmBuff := hbuffered.carried.fill piece
  have hkept : done ++ (m.fill piece).rows = frames sr feature (bat * count) (samples ++ piece) :=
    hrows.trans (hbuffered.frames_append feature piece).symm
  split_ifs with hfull
  · have hbatch : Carried (bat * sr.sft) (samples ++ piece) count (batWin sr bat)
        (m.fill piece).preEmBuff := hfull ▸ hfilled
    have hbatWin := batWin_eq sr hbat
    have hpos := Nat.mul_pos hbat sr.sft_pos
    have hhop : batWin sr bat - bat * sr.sft = sr.win - sr.sft := by omega
    have hmoved := @Carried.shift _ _ _ _ _ _ ((m.fill piece).full memcpy sr bat feature).preEmBuff
      hbatch (by omega) fun j hj ↦ by
        funext channel
        rw [Nat.mul_comm bat]
        exact hshifts _ j (hhop ▸ hj)
    rw [hhop] at hmoved
    refine ⟨⟨count + 1, ⟨?_, hmoved, .inr (Nat.le_refl _)⟩, ?_⟩, htotal⟩
    · show sr.win - sr.sft < batWin sr bat
      omega
    · rw [full_rows, ← List.append_assoc, hkept, batch_eq hbat hbatch]
  · refine ⟨⟨count, ⟨Nat.lt_of_le_of_ne hpiece hfull, hfilled, ?_⟩, hkept⟩, htotal⟩
    exact hbuffered.left.imp_right fun hle ↦ Nat.le_trans hle (Nat.le_add_right _ _)

/-- The capacity is enough for the number of rows the call estimates. -/
theorem le_reserve_fbTotal (memory : ℕ → Row) (len : ℕ) (m : ZFea2 cn Row) :
    (len + m.batPos) / sr.sft ≤ (m.reserve sr memory len).fbTotal := by
  rw [reserve]
  split_ifs <;> dsimp only <;> omega

theorem reserve_batPos (memory : ℕ → Row) (len : ℕ) (m : ZFea2 cn Row) :
    (m.reserve sr memory len).batPos = m.batPos := by
  rw [reserve]
  split_ifs <;> rfl

theorem reserve_preEmBuff (memory : ℕ → Row) (len : ℕ) (m : ZFea2 cn Row) :
    (m.reserve sr memory len).preEmBuff = m.preEmBuff := by
  rw [reserve]
  split_ifs <;> rfl

theorem reserve_rows (memory : ℕ → Row) (len : ℕ) (m : ZFea2 cn Row) :
    (m.reserve sr memory len).rows = [] := by
  rw [reserve, rows]
  split_ifs <;> rfl

theorem Buffered.reserve {samples : List (Sample cn)} {count : ℕ} {m : ZFea2 cn Row}
    (h : m.Buffered sr bat samples count) (memory : ℕ → Row) (len : ℕ) :
    (m.reserve sr memory len).Buffered sr bat samples count := by
  obtain ⟨hlt, hcarried, hleft⟩ := h
  refine ⟨?_, ?_, ?_⟩
  · rwa [reserve_batPos]
  · rwa [reserve_batPos, reserve_preEmBuff]
  · rwa [reserve_batPos]

/-- A call: the rows it returns are the next ones, and they are within the capacity. -/
theorem continueFb_spec (feature : List (Sample cn) → Row) (hbat : 1 ≤ bat)
    (hshifts : Shifts memcpy sr bat) (memory : ℕ → Row)
    {samples : List (Sample cn)} {count : ℕ} {m : ZFea2 cn Row}
    (h : m.Buffered sr bat samples count) (aud : List (Sample cn)) :
    ∃ count', (m.continueFb memcpy sr bat feature memory aud).Buffered sr bat (samples ++ aud) count' ∧
      frames sr feature (bat * count) samples ++
          (m.continueFb memcpy sr bat feature memory aud).rows =
        frames sr feature (bat * count') (samples ++ aud) ∧
      (m.continueFb memcpy sr bat feature memory aud).fbNum ≤
        (m.continueFb memcpy sr bat feature memory aud).fbTotal := by
  set done := frames sr feature (bat * count) samples with hdone
  have hstart : Inv sr bat feature done (m.reserve sr memory aud.length).fbTotal samples
      (m.reserve sr memory aud.length) :=
    ⟨⟨count, h.reserve memory _, by rw [reserve_rows, List.append_nil]⟩, rfl⟩
  obtain ⟨⟨count', hbuffered, hrows⟩, htotal⟩ :=
    windowLoop_inv (Inv sr bat feature done _) (fun _ _ h ↦ h.buffered.choose_spec.1.batPos_lt)
      (fun _ _ _ h hpiece ↦ h.round hbat hshifts hpiece) (Nat.le_refl aud.length) hstart
  refine ⟨count', hbuffered, hrows, ?_⟩
  -- the rows are as many as batches went through the buffer, and their samples have arrived
  have hnum := congrArg List.length hrows
  simp only [List.length_append, rows, hdone, frames, List.length_map, List.length_range] at hnum
  have hbefore := h.carried.length_eq
  have hafter := hbuffered.carried.length_eq
  have hhops : ∀ n, bat * n * sr.sft = n * (bat * sr.sft) := fun n ↦ by
    rw [Nat.mul_comm bat n, Nat.mul_assoc]
  have hmul := congrArg (· * sr.sft) hnum
  simp only [Nat.add_mul, hhops] at hmul
  rw [List.length_append] at hafter
  have hrowsLe : (m.continueFb memcpy sr bat feature memory aud).fbNum * sr.sft ≤
      aud.length + m.batPos := by
    rw [continueFb]
    omega
  calc
    (m.continueFb memcpy sr bat feature memory aud).fbNum ≤ (aud.length + m.batPos) / sr.sft :=
      (Nat.le_div_iff_mul_le sr.sft_pos).mpr hrowsLe
    _ ≤ (m.reserve sr memory aud.length).fbTotal := le_reserve_fbTotal memory _ m
    _ = (m.continueFb memcpy sr bat feature memory aud).fbTotal := htotal.symm

end ZFea2

/-! ## Whole runs -/

namespace Extraction

variable {cn : ℕ} {Row : Type}

/-- A new `ZFea2` after some calls. -/
def after (memcpy : Memcpy ℚ) (sr : SampleRate) (bat : ℕ) (feature : List (Sample cn) → Row)
    (preEmBuff : ℕ → Sample cn) (memory : ℕ → Row) (ops : List (FbOp cn)) : Extraction cn Row :=
  run (FbOp.apply memcpy sr bat feature memory) (create preEmBuff memory) ops

variable {memcpy : Memcpy ℚ} {sr : SampleRate} {bat : ℕ} {feature : List (Sample cn) → Row}

theorem buffered_nil (hbat : 1 ≤ bat) {m : ZFea2 cn Row} (hbatPos : m.batPos = 0) :
    m.Buffered sr bat [] 0 where
  batPos_lt := by
    have hwin := sr.sft_lt_win
    rw [hbatPos, batWin_eq sr hbat]
    omega
  carried := by
    rw [hbatPos]
    exact carried_nil _ _
  left := .inl rfl

theorem after_spec (feature : List (Sample cn) → Row) (hbat : 1 ≤ bat)
    (hshifts : ZFea2.Shifts memcpy sr bat)
    (preEmBuff : ℕ → Sample cn) (memory : ℕ → Row) (ops : List (FbOp cn)) :
    ∃ count, (after memcpy sr bat feature preEmBuff memory ops).fea.Buffered sr bat (stream ops) count ∧
      (after memcpy sr bat feature preEmBuff memory ops).out =
        frames sr feature (bat * count) (stream ops) ∧
      (after memcpy sr bat feature preEmBuff memory ops).fea.fbNum ≤
        (after memcpy sr bat feature preEmBuff memory ops).fea.fbTotal := by
  induction ops using List.reverseRecOn with
  | nil => exact ⟨0, buffered_nil hbat rfl, rfl, Nat.zero_le _⟩
  | append_singleton ops op ih =>
      obtain ⟨count, hbuffered, hout, hcapacity⟩ := ih
      rw [stream, List.foldl_concat, after, run_append]
      cases op with
      | continueFb aud =>
          obtain ⟨count', hbuffered', hrows, hcapacity'⟩ :=
            ZFea2.continueFb_spec feature hbat hshifts memory hbuffered aud
          exact ⟨count', hbuffered', (congrArg (· ++ _) hout).trans hrows, hcapacity'⟩
      | resetFb => exact ⟨0, buffered_nil hbat rfl, rfl, hcapacity⟩

/-- With a copy that makes the shift, every run is right. -/
theorem right_of_shifts (hbat : 1 ≤ bat) (hshifts : ZFea2.Shifts memcpy sr bat)
    (preEmBuff : ℕ → Sample cn) (memory : ℕ → Row) (ops : List (FbOp cn)) :
    (after memcpy sr bat feature preEmBuff memory ops).Right sr bat feature (stream ops) := by
  obtain ⟨count, hbuffered, hout, hcapacity⟩ :=
    after_spec feature hbat hshifts preEmBuff memory ops
  have hbatWin := batWin_eq sr hbat
  have hrest : batWin sr bat - bat * sr.sft = sr.win - sr.sft := by omega
  have hcount : count = windowCount (batWin sr bat) (bat * sr.sft) (stream ops).length :=
    hbuffered.carried.count_eq (Nat.mul_pos hbat sr.sft_pos) hbuffered.batPos_lt
      (hrest ▸ hbuffered.left)
  rw [windowCount, hrest, ← batchCount] at hcount
  exact ⟨hcount ▸ hout, hcapacity⟩

/-- Two frames and more: source and destination of the shift are apart. -/
theorem shifts_of_two_le (memcpy : Memcpy ℚ) (sr : SampleRate) (hbat : 2 ≤ bat) :
    ZFea2.Shifts memcpy sr bat := by
  intro row j hj
  have hapart : 0 + (sr.win - sr.sft) ≤ sr.sft * bat := by
    calc
      0 + (sr.win - sr.sft) ≤ sr.sft * 2 := by cases sr <;> decide
      _ ≤ sr.sft * bat := Nat.mul_le_mul_left _ hbat
  rw [memcpy.disjoint row 0 _ _ (.inl hapart), copied, if_pos ⟨Nat.zero_le j, by omega⟩,
    Nat.sub_zero]

/-! ## A batch of one frame -/

/-- One channel that counts the samples. -/
def ramp (start length : ℕ) : List (Sample 1) :=
  (List.range length).map fun i ↦ fun _ ↦ ((start + i : ℕ) : ℚ)

/-- The first value of a window. -/
def firstValue (samples : List (Sample 1)) : ℚ := samples.headD (fun _ ↦ 0) ⟨0, Nat.one_pos⟩

theorem stream_continueFb {cn : ℕ} (aud : List (Sample cn)) : stream [.continueFb aud] = aud := rfl

theorem length_ramp (start length : ℕ) : (ramp start length).length = length := by
  rw [ramp, List.length_map, List.length_range]

theorem ramp_ne_nil (start : ℕ) {length : ℕ} (hlength : 0 < length) : ramp start length ≠ [] := by
  rw [← List.length_pos_iff, length_ramp]
  exact hlength

theorem ramp_append (length more : ℕ) : ramp 0 length ++ ramp length more = ramp 0 (length + more) := by
  rw [ramp, ramp, ramp, List.range_add, List.map_append, List.map_map]
  congr 1
  apply List.map_congr_left
  intro i _
  rw [Function.comp_apply, Nat.zero_add]

theorem firstValue_map {n : ℕ} (hn : 0 < n) (f : ℕ → Sample 1) :
    firstValue ((List.range n).map f) = f 0 0 := by
  obtain ⟨more, rfl⟩ := Nat.exists_eq_add_of_lt hn
  rw [Nat.zero_add, List.range_succ_eq_map, List.map_cons]
  rfl

theorem firstValue_window {length hop width k : ℕ} (hwidth : 0 < width) (hk : k * hop < length) :
    firstValue (window width hop k (ramp 0 length)) = ((k * hop : ℕ) : ℚ) := by
  have hget : (ramp 0 length)[k * hop]? = some fun _ ↦ ((k * hop : ℕ) : ℚ) := by
    rw [ramp, List.getElem?_map, List.getElem?_range hk, Option.map_some, Nat.zero_add]
  rw [firstValue, window, List.headD_eq_head?_getD, List.head?_take, if_neg (by omega),
    List.head?_drop, hget]
  rfl

/-- A new `ZFea2` with the capacity for one window and one shift. -/
def beforeRamp (sr : SampleRate) : ZFea2 1 ℚ :=
  (ZFea2.initFb (fun _ _ ↦ 0) fun _ ↦ 0).reserve sr (fun _ ↦ 0) (sr.win + sr.sft)

theorem beforeRamp_batPos (sr : SampleRate) : (beforeRamp sr).batPos = 0 :=
  ZFea2.reserve_batPos _ _ _

theorem beforeRamp_rows (sr : SampleRate) : (beforeRamp sr).rows = [] :=
  ZFea2.reserve_rows _ _ _

/-- The buffer after the first window of the ramp, with a copy that goes down. -/
def afterFirst (sr : SampleRate) : ZFea2 1 ℚ :=
  ((beforeRamp sr).fill (ramp 0 sr.win)).full .downward sr 1 firstValue

/-- The first sample the shift leaves is twice as far as it should be. -/
theorem afterFirst_preEmBuff (sr : SampleRate) :
    (afterFirst sr).preEmBuff 0 0 = ((sr.sft + sr.sft : ℕ) : ℚ) := by
  have hoverlap : sr.sft * 1 < sr.win - sr.sft := by cases sr <;> decide
  have hfar : sr.win - sr.sft ≤ sr.sft * 1 + sr.sft * 1 := by cases sr <;> decide
  have hpos : 0 < sr.sft * 1 := by cases sr <;> decide
  have hin : sr.sft + sr.sft < sr.win := by cases sr <;> decide
  refine (downward_of_overlap _ hpos hoverlap hfar).trans ?_
  show writeAt _ _ (ramp 0 sr.win) (sr.sft * 1 + sr.sft * 1) 0 = _
  rw [Nat.mul_one, beforeRamp_batPos, writeAt, if_pos (Nat.zero_le _), Nat.sub_zero,
    List.getD_eq_getElem?_getD, ramp, List.getElem?_map, List.getElem?_range hin, Option.map_some,
    Nat.zero_add]
  rfl

/-- The ramp fills the buffer twice. -/
theorem continueFb_ramp (sr : SampleRate) :
    (ZFea2.initFb (fun _ _ ↦ 0) fun _ ↦ 0).continueFb .downward sr 1 firstValue (fun _ ↦ 0)
        (ramp 0 (sr.win + sr.sft)) =
      ((afterFirst sr).fill (ramp sr.win sr.sft)).full .downward sr 1 firstValue := by
  have hsft := sr.sft_pos
  have hwin := sr.sft_lt_win
  have hbatWin : batWin sr 1 = sr.win := by rw [batWin, Nat.sub_self, Nat.zero_mul, Nat.add_zero]
  have hfirst : (beforeRamp sr).batPos + (ramp 0 sr.win).length = sr.win := by
    rw [beforeRamp_batPos, length_ramp, Nat.zero_add]
  have hsecond : (afterFirst sr).batPos + (ramp sr.win sr.sft).length = sr.win := by
    rw [length_ramp]
    exact Nat.sub_add_cancel hwin.le
  have hloop : ∀ rounds, windowLoop sr.win ZFea2.batPos ZFea2.fill
      (ZFea2.full .downward sr 1 firstValue) (rounds + 2)
      (ramp 0 sr.win ++ (ramp sr.win sr.sft ++ [])) (beforeRamp sr) =
        ((afterFirst sr).fill (ramp sr.win sr.sft)).full .downward sr 1 firstValue := fun rounds ↦ by
    rw [windowLoop_of_full (ramp_ne_nil _ (by omega)) hfirst hfirst, ← afterFirst,
      windowLoop_of_full (ramp_ne_nil _ hsft) hsecond hsecond, windowLoop_nil]
  obtain ⟨rounds, hrounds⟩ := Nat.exists_eq_add_of_le' (show 2 ≤ sr.win + sr.sft by omega)
  have hrun := hloop rounds
  rw [List.append_nil, ramp_append, ← hrounds] at hrun
  rw [ZFea2.continueFb, length_ramp, hbatWin]
  exact hrun

/-- The second frame does not begin where it should. -/
theorem not_right_ramp (sr : SampleRate) :
    ¬ (after .downward sr 1 firstValue (fun _ _ ↦ 0) (fun _ ↦ 0)
      [.continueFb (ramp 0 (sr.win + sr.sft))]).Right sr 1 firstValue (ramp 0 (sr.win + sr.sft)) := by
  intro hright
  have hcount : 1 * batchCount sr 1 (ramp 0 (sr.win + sr.sft)).length = 2 := by
    rw [length_ramp, batchCount]
    cases sr <;> decide
  have hrows : (after .downward sr 1 firstValue (fun _ _ ↦ 0) (fun _ ↦ 0)
      [.continueFb (ramp 0 (sr.win + sr.sft))]).out = [] ++ (ZFea2.full .downward sr 1 firstValue
        ((afterFirst sr).fill (ramp sr.win sr.sft))).rows := by
    rw [← continueFb_ramp]
    rfl
  have hfirst : ((afterFirst sr).fill (ramp sr.win sr.sft)).rows = (afterFirst sr).rows := rfl
  have hnone : ((beforeRamp sr).fill (ramp 0 sr.win)).rows = [] := beforeRamp_rows sr
  have hout := hright.out_eq
  rw [hrows, hcount, ZFea2.full_rows, hfirst, afterFirst, ZFea2.full_rows, hnone] at hout
  have hsecond := congrArg (·[1]?) hout
  have hvalues : firstValue ((List.range sr.win).map fun i ↦
      ((afterFirst sr).fill (ramp sr.win sr.sft)).preEmBuff (sr.sft * 0 + i)) =
        firstValue (window sr.win sr.sft 1 (ramp 0 (sr.win + sr.sft))) := Option.some_inj.mp hsecond
  have hwin := sr.sft_lt_win
  have hsft := sr.sft_pos
  have hkept : ((afterFirst sr).fill (ramp sr.win sr.sft)).preEmBuff 0 0 =
      (afterFirst sr).preEmBuff 0 0 := by
    have hpos : ¬ (afterFirst sr).batPos ≤ 0 := Nat.not_le.mpr (Nat.sub_pos_of_lt hwin)
    exact congrFun (if_neg hpos) 0
  rw [firstValue_map (by omega), firstValue_window (by omega) (by omega), Nat.mul_zero, hkept,
    afterFirst_preEmBuff, Rat.natCast_inj] at hvalues
  omega

/-- **Exactly the batches of two frames and more are safe.** Whatever the channels, the features,
the copy of the C library and the chunks are: the rows returned are the frames of the complete
batches in order, and every call stays within its capacity. -/
theorem right_iff_two_le_bat (sr : SampleRate) {bat : ℕ} (hbat : 1 ≤ bat) :
    (∀ (cn : ℕ) (Row : Type) (memcpy : Memcpy ℚ) (feature : List (Sample cn) → Row)
      (preEmBuff : ℕ → Sample cn) (memory : ℕ → Row) (ops : List (FbOp cn)),
      (after memcpy sr bat feature preEmBuff memory ops).Right sr bat feature (stream ops)) ↔
    2 ≤ bat := by
  constructor
  · intro hright
    by_contra hone
    obtain rfl : bat = 1 := by omega
    exact not_right_ramp sr (hright 1 ℚ .downward firstValue _ _ [.continueFb _])
  · intro htwo cn Row memcpy feature preEmBuff memory ops
    exact right_of_shifts hbat (shifts_of_two_le memcpy sr htwo) preEmBuff memory ops

/-- With the batch size of `ZVtSto`, 1120 samples in three pieces give eight frames. -/
theorem right_four :
    1 ≤ 4 ∧ (after .downward .hz16000 4 firstValue (fun _ _ ↦ 0) (fun _ ↦ 0)
      [.continueFb (ramp 0 500), .continueFb (ramp 500 20), .continueFb (ramp 520 600)]).Right
        .hz16000 4 firstValue
        (stream [.continueFb (ramp 0 500), .continueFb (ramp 500 20), .continueFb (ramp 520 600)]) :=
  ⟨by decide, (right_iff_two_le_bat .hz16000 (by decide)).mpr (by decide) 1 ℚ .downward firstValue
    _ _ _⟩

/-- A batch of one frame at 16 kHz: a copy that goes down lets the second frame begin at sample 320
instead of 160. -/
theorem not_right_one :
    ¬ (after .downward .hz16000 1 firstValue (fun _ _ ↦ 0) (fun _ ↦ 0)
      [.continueFb (ramp 0 560)]).Right .hz16000 1 firstValue (stream [.continueFb (ramp 0 560)]) := by
  rw [stream_continueFb]
  exact not_right_ramp .hz16000

end Extraction

end Vsys.Fea
