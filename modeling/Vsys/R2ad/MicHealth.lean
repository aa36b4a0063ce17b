import Vsys.R2ad.MemIo
import Vsys.Trace.Run
import Mathlib.Data.List.GetD

/-!
# The verdicts on the microphones

`r2mem1` sends the verdict on each microphone in-band, as the first sample of its row, and
`r2mem2` and `r2mem3` read it off the first frame they receive.  The first frame reaches them
whatever the blocks are in which the bytes are put, read and passed on, because `r2mem_buff` only
appends (`Buff.put_pending`) and a verdict is final once a sample leaves the first stage
(`Rdc.process_curLen`).

`r2mem1::reset` breaks this.  It empties the buffer and keeps `m_bFirstFrm`, so marks that were not
read are lost and no others follow; the second stage then takes an ordinary sample for a mark.
`health_handed_over` is what holds without such a reset, and `reset_loses_marks` a run with one.
-/

namespace Vsys.R2ad

open Vsys.Trace

variable {D ρ ε : Type*}

/-! ## Rows -/

/-- What a loop over the microphones writes into a row, if it writes the same for every place of
a microphone. -/
theorem forMics_writeRow (ids : List ℕ) (n : ℕ) (value : ℕ → ℕ → Word) (rows : Rows) {k : ℕ}
    (hk : k < n)
    (hsame : ∀ i < ids.length, ∀ j < ids.length, ids.getD i 0 = ids.getD j 0 → value i k = value j k)
    {i : ℕ} (hi : i < ids.length) :
    forMics ids (fun rows mic j ↦ writeRow rows mic n (value j)) rows (ids.getD i 0) k =
      value i k :=
  forPlaces_setRow ids n value rows hk hsame hi

/-! ## The buffer -/

namespace Buff

theorem pending_reset (b : Buff) : b.reset.pending = [] := rfl

theorem range_map_add (f : ℕ → UInt8) (m n : ℕ) :
    (List.range (m + n)).map f = (List.range m).map f ++ (List.range n).map fun p ↦ f (m + p) := by
  rw [List.range_add, List.map_append, List.map_map]
  rfl

/-- What is unread stays in front when the buffer grows; stray bytes may come behind it. -/
theorem reserve_pending {b : Buff} (hb : b.lenCur ≤ b.len) (len : ℕ) :
    b.pending <+: (b.reserve len).pending := by
  rw [reserve]
  split
  · have hlen : b.len - 0 - 0 = (b.len - b.lenCur) + b.lenCur := by omega
    simp only [pending, hlen, range_map_add]
    refine ⟨_, congrArg (· ++ _) ?_⟩
    apply List.map_congr_left
    intro p hp
    rw [Nat.zero_add, if_pos (List.mem_range.mp hp)]
  · exact List.prefix_refl _

theorem reserve_lenCur_le {b : Buff} (hb : b.lenCur ≤ b.len) (len : ℕ) :
    (b.reserve len).lenCur ≤ (b.reserve len).len := by
  rw [reserve]
  split
  · exact Nat.zero_le _
  · exact hb

theorem put_lenCur_le {b : Buff} (hb : b.lenCur ≤ b.len) (pData : ℕ → UInt8) (len : ℕ) :
    (b.put pData len).lenCur ≤ (b.put pData len).len :=
  (reserve_lenCur_le hb len).trans (Nat.le_add_right _ _)

/-- The new bytes come behind those of the buffer as it was made ready. -/
theorem put_pending_eq {b : Buff} (hb : b.lenCur ≤ b.len) (pData : ℕ → UInt8) (len : ℕ) :
    (b.put pData len).pending = (b.reserve len).pending ++ (List.range len).map pData := by
  have hready := reserve_lenCur_le hb len
  have hlen : (b.reserve len).len + len - (b.reserve len).lenCur =
      ((b.reserve len).len - (b.reserve len).lenCur) + len := by omega
  simp only [put, pending, hlen, range_map_add]
  congr 1
  · apply List.map_congr_left
    intro p hp
    have hp := List.mem_range.mp hp
    rw [if_neg (by omega)]
  · apply List.map_congr_left
    intro p hp
    have hp := List.mem_range.mp hp
    rw [if_pos (by omega)]
    congr 1
    omega

theorem put_pending {b : Buff} (hb : b.lenCur ≤ b.len) (pData : ℕ → UInt8) (len : ℕ) :
    b.pending <+: (b.put pData len).pending := by
  rw [put_pending_eq hb]
  exact (reserve_pending hb len).trans (List.prefix_append _ _)

/-- An empty buffer holds what is put into it. -/
theorem put_pending_of_empty {b : Buff} (hb : b.lenCur ≤ b.len) (hempty : b.len = 0)
    (pData : ℕ → UInt8) (len : ℕ) : (b.put pData len).pending = (List.range len).map pData := by
  have hready : (b.reserve len).pending = [] := by
    rw [reserve, pending]
    split <;> simp [hempty]
  rw [put_pending_eq hb, hready, List.nil_append]

/-- What is read and what is unread then is what was unread. -/
theorem getData_pending {b : Buff} (hb : b.lenCur ≤ b.len) (len : ℕ) :
    (b.getData len).2 ++ (b.getData len).1.pending = b.pending := by
  have hlen : b.len - b.lenCur =
      min (b.len - b.lenCur) len + (b.len - (b.lenCur + min (b.len - b.lenCur) len)) := by omega
  have hsplit : b.pending = (List.range (min (b.len - b.lenCur) len)).map (fun p ↦ b.data (b.lenCur + p)) ++
      { b with lenCur := b.lenCur + min (b.len - b.lenCur) len }.pending := by
    simp only [pending]
    nth_rewrite 1 [hlen]
    rw [range_map_add]
    simp only [Nat.add_assoc]
  rw [hsplit, getData]
  dsimp only
  congr 1
  split
  · rename_i hend
    rw [pending_reset, pending, hend, Nat.sub_self]
    rfl
  · rfl

theorem getData_lenCur_le {b : Buff} (hb : b.lenCur ≤ b.len) (len : ℕ) :
    (b.getData len).1.lenCur ≤ (b.getData len).1.len := by
  simp only [getData]
  split
  · exact Nat.le_refl _
  · dsimp only
    omega

end Buff

/-! ## The verdicts -/

namespace Rdc

variable (F : FloatOps D) {ids refs : List ℕ} {maxLen : ℕ}

/-- A verdict is zero or one, and two places of one microphone have the same sums and the same
verdict. -/
structure Sound (ids : List ℕ) (s : Rdc D) : Prop where
  same : ∀ i j, ids.getD i 0 = ids.getD j 0 →
    s.rdc i = s.rdc j ∧ s.rdcVar i = s.rdcVar j ∧ s.micOk i = s.micOk j
  binary : ∀ i, s.micOk i = 0 ∨ s.micOk i = 1

theorem Sound.collect {s : Rdc D} (h : s.Sound ids) (data : Rows) (iCur : ℕ) :
    (s.collect F ids data iCur).Sound ids where
  same := by
    intro i j hij
    obtain ⟨hrdc, hvar, hok⟩ := h.same i j hij
    refine ⟨?_, ?_, hok⟩
    · simp only [Rdc.collect, hij, hrdc]
    · simp only [Rdc.collect, hij, hvar]
  binary := h.binary

theorem Sound.judge {s : Rdc D} (h : s.Sound ids) : (s.judge F maxLen).Sound ids := by
  rw [Rdc.judge]
  split
  · refine ⟨?_, ?_⟩
    · intro i j hij
      obtain ⟨hrdc, hvar, -⟩ := h.same i j hij
      refine ⟨?_, ?_, ?_⟩ <;> simp only [hrdc, hvar]
    · intro i
      dsimp only
      split
      · exact Or.inl rfl
      · exact Or.inr rfl
  · exact h

theorem judge_curLen (s : Rdc D) : (s.judge F maxLen).curLen = s.curLen := by
  rw [judge]
  split <;> rfl

/-- The cases of `process`: something is played, the measurement goes on, or it is over. -/
theorem process_cases (ids refs : List ℕ) (maxLen : ℕ) (s : Rdc D) (data : Rows) (len : ℕ) :
    (s.process F ids refs maxLen data len).1 = s.reset F ∧
        (s.process F ids refs maxLen data len).2.2 = 0 ∧ s.curLen < maxLen ∨
      (s.process F ids refs maxLen data len).1 =
          (s.collect F ids data (min (maxLen - s.curLen) len)).judge F maxLen ∧
        (s.process F ids refs maxLen data len).2.2 = len - min (maxLen - s.curLen) len ∧
        s.curLen < maxLen ∨
      (s.process F ids refs maxLen data len).1 = s ∧ maxLen ≤ s.curLen := by
  by_cases hcur : s.curLen < maxLen
  · by_cases hplayed : played refs data len
    · left
      simp [process, hcur, hplayed]
    · right
      left
      simp [process, hcur, hplayed]
  · right
    right
    exact ⟨by simp [process, hcur], by omega⟩

theorem process_curLen_le {s : Rdc D} (h : s.curLen ≤ maxLen) (data : Rows) (len : ℕ) :
    (s.process F ids refs maxLen data len).1.curLen ≤ maxLen := by
  obtain ⟨hs, -, -⟩ | ⟨hs, -, hcur⟩ | ⟨hs, -⟩ := process_cases F ids refs maxLen s data len
  · rw [hs]
    exact Nat.zero_le _
  · rw [hs, judge_curLen, collect]
    dsimp only
    omega
  · rw [hs]
    exact h

/-- When samples leave the measurement it is over. -/
theorem process_curLen {s : Rdc D} (h : s.curLen ≤ maxLen) (data : Rows) {len : ℕ}
    (hout : 0 < (s.process F ids refs maxLen data len).2.2) :
    (s.process F ids refs maxLen data len).1.curLen = maxLen := by
  obtain ⟨-, hlen, -⟩ | ⟨hs, hlen, hcur⟩ | ⟨hs, hcur⟩ :=
    process_cases F ids refs maxLen s data len
  · omega
  · rw [hs, judge_curLen, collect]
    dsimp only
    omega
  · rw [hs]
    omega

/-- The verdicts are final once the measurement is over. -/
theorem process_of_done {s : Rdc D} (h : s.curLen = maxLen) (data : Rows) (len : ℕ) :
    (s.process F ids refs maxLen data len).1 = s := by
  obtain ⟨-, -, hcur⟩ | ⟨-, -, hcur⟩ | ⟨hs, -⟩ :=
    process_cases F ids refs maxLen s data len
  · omega
  · omega
  · exact hs

theorem Sound.process {s : Rdc D} (h : s.Sound ids) (data : Rows) (len : ℕ) :
    (s.process F ids refs maxLen data len).1.Sound ids := by
  obtain ⟨hs, -, -⟩ | ⟨hs, -, -⟩ | ⟨hs, -⟩ := process_cases F ids refs maxLen s data len
  · rw [hs]
    exact ⟨fun i j hij ↦ ⟨rfl, rfl, (h.same i j hij).2.2⟩, h.binary⟩
  · rw [hs]
    exact (h.collect F data _).judge F
  · rw [hs]
    exact h

end Rdc

/-- Without input the canceller gives nothing out. -/
theorem Aec.process_zero (F : FloatOps D) (E : AecEngine ε) (ids refs : List ℕ) (s : Aec ε)
    (data : Rows) : (s.process F E ids refs data 0).2 = 0 := by
  have hcarry : ((s.carry ids refs).reserve 0).lenOut = s.lenOut % frmLenOut := by
    rw [Aec.reserve]
    split <;> rfl
  have hless : s.lenOut % frmLenOut < frmLenOut := Nat.mod_lt _ (by decide)
  simp only [Aec.process, Stream.windowLoop, hcarry]
  rw [Nat.div_eq_of_lt hless, Nat.zero_mul]

/-! ## The first stage -/

namespace Mem1

variable (L : Engines D ρ ε) (sto : Sto1)

theorem cancel_frame (s : Mem1 D ρ ε) (len : ℕ) :
    (s.cancel L sto len).1.memRdc = s.memRdc ∧ (s.cancel L sto len).1.memBuff = s.memBuff ∧
      (s.cancel L sto len).1.firstFrm = s.firstFrm ∧ (s.cancel L sto len).1.inBounds = s.inBounds := by
  rw [cancel]
  split <;> exact ⟨rfl, rfl, rfl, rfl⟩

theorem cancel_zero (s : Mem1 D ρ ε) : (s.cancel L sto 0).2 = 0 := by
  rw [cancel]
  split
  · exact Aec.process_zero ..
  · rfl

theorem setRows_frame (s : Mem1 D ρ ε) (data : Rows) :
    (s.setRows sto data).memRdc = s.memRdc ∧ (s.setRows sto data).memBuff = s.memBuff ∧
      (s.setRows sto data).inBounds = s.inBounds := by
  rw [setRows]
  split <;> exact ⟨rfl, rfl, rfl⟩

theorem rows_setRows (s : Mem1 D ρ ε) (data : Rows) : (s.setRows sto data).rows sto = data := by
  rw [setRows, rows]
  split <;> rfl

theorem fixMic_frame (s : Mem1 D ρ ε) (len : ℕ) :
    (s.fixMic sto len).memRdc = s.memRdc ∧ (s.fixMic sto len).memBuff = s.memBuff ∧
      (s.fixMic sto len).inBounds = s.inBounds := by
  rw [fixMic]
  split
  · exact setRows_frame sto s _
  · exact ⟨rfl, rfl, rfl⟩

theorem fixMic_firstFrm (s : Mem1 D ρ ε) (len : ℕ) :
    (s.fixMic sto len).firstFrm = (s.firstFrm && !decide (0 < len)) := by
  rw [fixMic]
  by_cases hlen : 0 < len
  · cases hfirst : s.firstFrm <;> simp [hlen, hfirst]
  · simp [hlen]

/-- The first sample of every row is the mark of its microphone. -/
theorem fixMic_rows {s : Mem1 D ρ ε} {len : ℕ} (hlen : 0 < len) (hfirst : s.firstFrm = true)
    (hsound : s.memRdc.Sound sto.micInfoAec) {i : ℕ} (hi : i < sto.micInfoAec.length) :
    (s.fixMic sto len).rows sto (sto.micInfoAec.getD i 0) 0 = mark s.memRdc.micOk i := by
  have hrows : (s.fixMic sto len).rows sto =
      forMics sto.micInfoAec (fun rows mic i ↦
        writeRow rows mic 1 fun _ ↦ mark s.memRdc.micOk i) (s.rows sto) := by
    rw [fixMic, if_pos ⟨hlen, hfirst⟩]
    exact rows_setRows sto s _
  rw [hrows]
  apply forMics_writeRow sto.micInfoAec 1 (fun i _ ↦ mark s.memRdc.micOk i) (s.rows sto) Nat.one_pos _ hi
  intro a _ b _ hab
  simp only [mark, (hsound.same a b hab).2.2]

/-- The marks as they are sent. -/
def marks (micNum : ℕ) (micOk : ℕ → ℕ) : List UInt8 :=
  (List.range (4 * micNum)).map fun p ↦ byteOf (mark micOk (p / 4)) (p % 4)

theorem length_marks (micNum : ℕ) (micOk : ℕ → ℕ) : (marks micNum micOk).length = 4 * micNum := by
  simp [marks]

/-- The output begins with the marks. -/
theorem marks_isPrefix {data : Rows} {micOk : ℕ → ℕ} {ids : List ℕ} {len : ℕ} (hlen : 0 < len)
    (hdata : ∀ i < ids.length, data (ids.getD i 0) 0 = mark micOk i) :
    marks ids.length micOk <+: (List.range (len * 4 * ids.length)).map (interleave ids data) := by
  obtain ⟨more, rfl⟩ : ∃ more, len = 1 + more := ⟨len - 1, by omega⟩
  have hsplit : (1 + more) * 4 * ids.length = 4 * ids.length + more * 4 * ids.length := by
    rw [Nat.add_mul, Nat.add_mul]
  rw [hsplit, Buff.range_map_add]
  refine ⟨_, congrArg (· ++ _) ?_⟩
  apply List.map_congr_left
  intro p hp
  have hplace : p / 4 < ids.length := by
    have hp := List.mem_range.mp hp
    omega
  rw [interleave, Nat.mod_eq_of_lt hplace, Nat.div_eq_of_lt hplace, hdata _ hplace]

/-- What one call does: the verdicts take in `len` samples of `data`, and the first `out` samples
of `rows` are put into the buffer. -/
structure Processed (s s' : Mem1 D ρ ε) (lenIn : ℕ) (data : Rows) (len : ℕ) (rows : Rows) (out : ℕ) :
    Prop where
  memRdc : s'.memRdc =
    (s.memRdc.process L.ops sto.micInfoAec sto.micInfoAecRef 16000 data len).1
  inBounds : s'.inBounds = (s.inBounds && sto.inType.fits sto.micInfoIn lenIn)
  firstFrm : s'.firstFrm = (s.firstFrm && !decide (0 < out))
  memBuff : s'.memBuff = s.memBuff.put (interleave sto.micInfoAec rows) (out * 4 * sto.micInfoAec.length)
  of_out : 0 < out →
    0 < (s.memRdc.process L.ops sto.micInfoAec sto.micInfoAecRef 16000 data len).2.2
  marked : 0 < out → s.firstFrm = true → s'.memRdc.Sound sto.micInfoAec →
    ∀ i < sto.micInfoAec.length, rows (sto.micInfoAec.getD i 0) 0 = mark s'.memRdc.micOk i

theorem processData_spec (s : Mem1 D ρ ε) (pData : ℕ → UInt8) (lenIn : ℕ) :
    ∃ data len rows out, Processed L sto s (s.processData L sto pData lenIn) lenIn data len rows out := by
  let measured := s.measure L sto pData lenIn
  let cancelled := measured.1.cancel L sto measured.2
  let fixed := cancelled.1.fixMic sto cancelled.2
  obtain ⟨hrdc, hbuff, hfirst, hbounds⟩ := cancel_frame L sto measured.1 measured.2
  obtain ⟨hrdc', hbuff', hbounds'⟩ := fixMic_frame sto cancelled.1 cancelled.2
  let input := sto.inType.process L.ops sto.micInfoIn s.memIn pData lenIn
  let rs := s.memRs.process L.rs sto.micInfoRs input.1 input.2
  refine ⟨rs.1.dataOut, rs.2, fixed.rows sto, cancelled.2, ?_⟩
  exact {
    memRdc := hrdc'.trans hrdc
    inBounds := hbounds'.trans hbounds
    firstFrm := (fixMic_firstFrm sto cancelled.1 cancelled.2).trans (congrArg (· && _) hfirst)
    memBuff := congrArg (fun b : Buff ↦ b.put _ _) (hbuff'.trans hbuff)
    of_out := by
      intro hout
      by_contra hnone
      have hzero : measured.2 = 0 := Nat.eq_zero_of_not_pos hnone
      have hcancelled : cancelled.2 = 0 := by
        simp only [cancelled, hzero]
        exact cancel_zero L sto measured.1
      omega
    marked := by
      intro hout hs hsound i hi
      have hrdc_eq : fixed.memRdc = cancelled.1.memRdc := hrdc'
      have hsound' : cancelled.1.memRdc.Sound sto.micInfoAec := hrdc_eq ▸ hsound
      exact (fixMic_rows sto hout (hfirst.trans hs) hsound' hi).trans
        (congrArg (fun rdc : Rdc D ↦ mark rdc.micOk i) hrdc_eq.symm) }

end Mem1

/-- The first stage and the bytes read from it so far. -/
structure Link (D ρ ε : Type*) where
  mem : Mem1 D ρ ε
  read : List UInt8

namespace Link

/-- What is done with the first stage: audio is put, bytes are read, and it is reset. -/
inductive Op
  | processData (pData : ℕ → UInt8) (len : ℕ)
  | getData (len : ℕ)
  | reset

variable (L : Engines D ρ ε) (sto : Sto1)

/-- A new object. -/
def create : Link D ρ ε := ⟨Mem1.create L sto, []⟩

/-- One operation. -/
def step (s : Link D ρ ε) : Op → Link D ρ ε
  | .processData pData len => { s with mem := s.mem.processData L sto pData len }
  | .getData len =>
      { mem := { s.mem with memBuff := (s.mem.memBuff.getData len).1 }
        read := s.read ++ (s.mem.memBuff.getData len).2 }
  | .reset => { s with mem := s.mem.reset L }

/-- The input is whole frames, at most a second of samples, and there is no reset between the frame
with the marks and the moment it has been read. -/
def Careful (s : Link D ρ ε) : Op → Prop
  | .processData _ len => sto.inType.fits sto.micInfoIn len = true
  | .getData _ => True
  | .reset => s.mem.firstFrm = true ∨ 4 * sto.micInfoAec.length ≤ s.read.length

/-- Before the first frame nothing was sent.  From it on the verdicts are final, and what was read
followed by what is unread begins with the marks. -/
structure Inv (s : Link D ρ ε) : Prop where
  inBounds : s.mem.inBounds = true
  curLen_le : s.mem.memRdc.curLen ≤ 16000
  sound : s.mem.memRdc.Sound sto.micInfoAec
  lenCur_le : s.mem.memBuff.lenCur ≤ s.mem.memBuff.len
  before : s.mem.firstFrm = true → s.mem.memBuff.len = 0 ∧ s.read = []
  after : s.mem.firstFrm = false → s.mem.memRdc.curLen = 16000 ∧
    Mem1.marks sto.micInfoAec.length s.mem.memRdc.micOk <+: s.read ++ s.mem.memBuff.pending

theorem inv_create : Inv sto (create L sto) where
  inBounds := rfl
  curLen_le := Nat.zero_le _
  sound := ⟨fun _ _ _ ↦ ⟨rfl, rfl, rfl⟩, fun _ ↦ Or.inr rfl⟩
  lenCur_le := Nat.le_refl _
  before := fun _ ↦ ⟨rfl, rfl⟩
  after := fun h ↦ by simp [create, Mem1.create] at h

variable {L sto} {s : Link D ρ ε}

theorem Inv.processData (h : Inv sto s) (pData : ℕ → UInt8) {len : ℕ}
    (hfits : sto.inType.fits sto.micInfoIn len = true) :
    Inv sto (s.step L sto (.processData pData len)) := by
  obtain ⟨data, measured, rows, out, hspec⟩ := Mem1.processData_spec L sto s.mem pData len
  have hsound : (s.mem.processData L sto pData len).memRdc.Sound sto.micInfoAec := by
    rw [hspec.memRdc]
    exact h.sound.process L.ops data measured
  exact {
    inBounds := by
      rw [step, hspec.inBounds, h.inBounds, hfits]
      rfl
    curLen_le := by
      rw [step, hspec.memRdc]
      exact Rdc.process_curLen_le L.ops h.curLen_le data measured
    sound := hsound
    lenCur_le := by
      rw [step, hspec.memBuff]
      exact Buff.put_lenCur_le h.lenCur_le _ _
    before := by
      intro hfirst
      rw [step, hspec.firstFrm, Bool.and_eq_true, Bool.not_eq_true', decide_eq_false_iff_not] at hfirst
      obtain ⟨hempty, hread⟩ := h.before hfirst.1
      have hout : out = 0 := by omega
      refine ⟨?_, hread⟩
      rw [step, hspec.memBuff, hout]
      have hcur : s.mem.memBuff.lenCur = 0 := by
        have hle := h.lenCur_le
        omega
      simp [Buff.put, Buff.reserve, hempty]
    after := by
      intro hfirst
      rw [step, hspec.firstFrm, Bool.and_eq_false_iff] at hfirst
      cases hbefore : s.mem.firstFrm with
      | true =>
          -- this call sends the first frame
          have hout : 0 < out := by simpa [hbefore] using hfirst
          obtain ⟨hempty, hread⟩ := h.before hbefore
          refine ⟨?_, ?_⟩
          · rw [step, hspec.memRdc]
            exact Rdc.process_curLen L.ops h.curLen_le data (hspec.of_out hout)
          · rw [step, hspec.memBuff, hread, List.nil_append,
              Buff.put_pending_of_empty h.lenCur_le hempty]
            exact Mem1.marks_isPrefix hout (hspec.marked hout hbefore hsound)
      | false =>
          obtain ⟨hdone, hmarks⟩ := h.after hbefore
          have hrdc : (s.mem.processData L sto pData len).memRdc = s.mem.memRdc := by
            rw [hspec.memRdc]
            exact Rdc.process_of_done L.ops hdone data measured
          rw [step]
          dsimp only
          rw [hrdc]
          refine ⟨hdone, hmarks.trans ?_⟩
          rw [hspec.memBuff, List.prefix_append_right_inj]
          exact Buff.put_pending h.lenCur_le _ _ }

theorem Inv.getData (h : Inv sto s) (len : ℕ) : Inv sto (s.step L sto (.getData len)) where
  inBounds := h.inBounds
  curLen_le := h.curLen_le
  sound := h.sound
  lenCur_le := Buff.getData_lenCur_le h.lenCur_le len
  before := by
    intro hfirst
    obtain ⟨hempty, hread⟩ := h.before hfirst
    have hcur : s.mem.memBuff.lenCur = 0 := by
      have hle := h.lenCur_le
      omega
    simp [step, Buff.getData, Buff.reset, hempty, hcur, hread]
  after := by
    intro hfirst
    obtain ⟨hdone, hmarks⟩ := h.after hfirst
    refine ⟨hdone, ?_⟩
    rw [step]
    dsimp only
    rw [List.append_assoc, Buff.getData_pending h.lenCur_le]
    exact hmarks

theorem Inv.reset (h : Inv sto s) (hsafe : s.Careful sto .reset) :
    Inv sto (s.step L sto .reset) where
  inBounds := h.inBounds
  curLen_le := h.curLen_le
  sound := h.sound
  lenCur_le := Nat.le_refl _
  before := fun hfirst ↦ ⟨rfl, (h.before hfirst).2⟩
  after := by
    intro hfirst
    obtain ⟨hdone, hmarks⟩ := h.after hfirst
    have hall : 4 * sto.micInfoAec.length ≤ s.read.length := by
      obtain hyet | hall := hsafe
      · exact absurd (hyet.symm.trans hfirst) (by decide)
      · exact hall
    refine ⟨hdone, ?_⟩
    have hread : Mem1.marks sto.micInfoAec.length s.mem.memRdc.micOk <+: s.read :=
      List.prefix_of_prefix_length_le hmarks (List.prefix_append _ _)
        (by rw [Mem1.length_marks]; exact hall)
    exact hread.trans (List.prefix_append _ _)

theorem Inv.step (h : Inv sto s) (op : Op) (hop : s.Careful sto op) : Inv sto (s.step L sto op) := by
  cases op with
  | processData pData len => exact h.processData pData hop
  | getData len => exact h.getData len
  | reset => exact h.reset hop

theorem inv_run {ops : List Op} (hops : Along (step L sto) (Careful sto) (create L sto) ops) :
    Inv sto (run (step L sto) (create L sto) ops) :=
  run_invariant (fun _ op h hop ↦ h.step op hop) (inv_create L sto) hops

end Link

/-! ## The second stage -/

/-- After `k` passes the list begins with what is kept of its first `k` entries, and the entries
that are still to be looked at stand where they stood. -/
structure FixErrMixInv (errs l : List ℕ) (k : ℕ) (st : List ℕ × ℕ) : Prop where
  length_eq : st.1.length = l.length
  iCur_le : st.2 ≤ k
  kept : st.1.take st.2 = (l.take k).filter fun mic ↦ !errs.contains mic
  rest : st.1.drop k = l.drop k

theorem filter_take_add_one (errs l : List ℕ) {k : ℕ} (hk : k < l.length) :
    (l.take (k + 1)).filter (fun mic ↦ !errs.contains mic) =
      (l.take k).filter (fun mic ↦ !errs.contains mic) ++
        [l[k]].filter fun mic ↦ !errs.contains mic := by
  rw [List.take_add_one, List.getElem?_eq_getElem hk, List.filter_append, Option.toList_some]

/-- An entry is not moved onto itself. -/
theorem set_of_getElem? {l : List ℕ} {k place mic : ℕ} (hnext : l[k]? = some mic) :
    (if k = place then l else l.set place mic) = l.set place mic := by
  split_ifs with hsame
  · rw [hsame] at hnext
    obtain ⟨hlt, hval⟩ := List.getElem?_eq_some_iff.mp hnext
    rw [← hval, List.set_getElem_self]
  · rfl

theorem FixErrMixInv.step {errs l : List ℕ} {k : ℕ} {st : List ℕ × ℕ} (h : FixErrMixInv errs l k st)
    (hk : k < l.length) : FixErrMixInv errs l (k + 1) (fixErrMixStep errs st k) := by
  have hlen := h.length_eq
  have hle := h.iCur_le
  have hnext : st.1[k]? = some l[k] := by
    rw [← List.getElem?_eq_getElem hk, ← Nat.add_zero k, ← List.getElem?_drop, ← List.getElem?_drop,
      h.rest]
  have hid : st.1.getD k 0 = l[k] := by
    rw [List.getD_eq_getElem?_getD, hnext, Option.getD_some]
  have hrest : st.1.drop (k + 1) = l.drop (k + 1) := by
    rw [← List.drop_drop, ← List.drop_drop, h.rest]
  rw [fixErrMixStep, hid]
  by_cases hbad : errs.contains l[k]
  · rw [if_pos hbad]
    refine ⟨hlen, by omega, ?_, hrest⟩
    rw [h.kept, filter_take_add_one errs l hk, List.filter_singleton, hbad]
    simp
  · rw [if_neg hbad, set_of_getElem? hnext]
    refine ⟨by simpa using hlen, by dsimp only; omega, ?_, ?_⟩
    · dsimp only
      rw [List.take_add_one, List.take_set_of_le (Nat.le_refl _), h.kept,
        List.getElem?_set_self (by omega), filter_take_add_one errs l hk, List.filter_singleton,
        eq_false_of_ne_true hbad]
      rfl
    · dsimp only
      rw [List.drop_set_of_lt (by omega), hrest]

theorem fixErrMixInv_range (errs l : List ℕ) {k : ℕ} (hk : k ≤ l.length) :
    FixErrMixInv errs l k ((List.range k).foldl (fixErrMixStep errs) (l, 0)) := by
  induction k with
  | zero => exact ⟨rfl, Nat.le_refl _, by simp, rfl⟩
  | succ k ih =>
      rw [List.range_succ, List.foldl_append]
      exact (ih (by omega)).step (by omega)

/-- `r2_fixerrmix` removes the microphones it is given, and keeps the order of the others. -/
theorem fixErrMix_eq_filter (micInfo : List ℕ) (micErr : Option (List ℕ)) :
    (fixErrMix micInfo micErr).1 = micInfo.filter fun mic ↦ !(micErr.getD []).contains mic := by
  cases micErr with
  | none => simp [fixErrMix]
  | some errs =>
      have h := fixErrMixInv_range errs micInfo (Nat.le_refl _)
      have hkept := h.kept
      rw [List.take_length] at hkept
      rw [fixErrMix, Option.getD_some, ← hkept]
      split
      · rename_i hall
        rw [hall, List.take_of_length_le h.length_eq.le]
      · rfl

namespace MicStage

variable (F : FloatOps D) (ids : List ℕ)

/-- A mark is read back from the bytes it was sent as. -/
theorem wordAt_of_marks {micOk : ℕ → ℕ} {chunk : List UInt8}
    (hmarks : Mem1.marks ids.length micOk <+: chunk) {j : ℕ} (hj : j < ids.length) :
    wordAt (fun p ↦ chunk.getD p 0) (4 * j) = Mem1.mark micOk j := by
  have hbyte : ∀ k < 4, chunk.getD (4 * j + k) 0 = byteOf (Mem1.mark micOk j) k := by
    intro k hk
    obtain ⟨rest, rfl⟩ := hmarks
    have hlt : 4 * j + k < (Mem1.marks ids.length micOk).length := by
      rw [Mem1.length_marks]
      omega
    have hdiv : (4 * j + k) / 4 = j := by omega
    have hmod : (4 * j + k) % 4 = k := by omega
    rw [List.getD_append _ _ _ _ hlt, List.getD_eq_getElem _ _ hlt]
    simp only [Mem1.marks, List.getElem_map, List.getElem_range, hdiv, hmod]
  have hfirst : chunk.getD (4 * j) 0 = byteOf (Mem1.mark micOk j) 0 := hbyte 0 (by omega)
  simp only [wordAt, hfirst, hbyte 1 (by omega), hbyte 2 (by omega), hbyte 3 (by omega), Mem1.mark]
  split <;> decide

theorem belowHalf_mark (micOk : ℕ → ℕ) (i : ℕ) :
    belowHalf (Mem1.mark micOk i) = true ↔ micOk i ≠ 1 := by
  rw [Mem1.mark]
  split
  · rename_i hok
    exact iff_of_false (by decide) (by simp [hok])
  · rename_i hbad
    exact iff_of_true (by decide) hbad

variable {F ids}

/-- Nothing but empty chunks so far. -/
structure Fresh (bf : List ℕ) (s : MicStage) : Prop where
  inBounds : s.inBounds = true
  firstFrm : s.firstFrm = true
  micInfoBf : s.micInfoBf = bf

/-- The microphones of `bad` were reported and removed. -/
structure Fixed (bf bad : List ℕ) (s : MicStage) : Prop where
  inBounds : s.inBounds = true
  firstFrm : s.firstFrm = false
  reported : ∀ mic, mic ∈ s.micErr.getD [] ↔ mic ∈ bad
  removed : s.micInfoBf = bf.filter fun mic ↦ mic ∉ bad

variable {bf bad : List ℕ} {s : MicStage}

theorem Fresh.empty (h : Fresh bf s) (hids : 0 < ids.length) : Fresh bf (s.fixMic F ids []) := by
  have hfits : InType.float32.fits ids 0 = true := by
    have hpos : 0 < InType.float32.size * ids.length := Nat.mul_pos (by decide) hids
    simp [InType.fits, hpos, sampleRate]
  simp only [fixMic, InType.process, List.length_nil, Nat.zero_div, Nat.lt_irrefl, and_false, if_false]
  exact ⟨by rw [h.inBounds, hfits]; rfl, h.firstFrm, h.micInfoBf⟩

theorem Fixed.later (h : Fixed bf bad s) {chunk : List UInt8}
    (hfits : InType.float32.fits ids chunk.length = true) : Fixed bf bad (s.fixMic F ids chunk) := by
  rw [fixMic]
  dsimp only
  rw [if_neg (by simp [h.firstFrm])]
  exact ⟨by rw [h.inBounds, hfits]; rfl, h.firstFrm, h.reported, h.removed⟩

/-- The answer of `geterrorinfo`, NULL standing for no microphone. -/
theorem getErrorInfo_getD (data : Rows) :
    (getErrorInfo ids data).getD [] = ids.filter fun mic ↦ belowHalf (data mic 0) := by
  simp only [getErrorInfo]
  split
  · rfl
  · rename_i hnone
    exact (List.eq_nil_of_length_eq_zero (Nat.eq_zero_of_not_pos hnone)).symm

/-- The microphones with a bad verdict. -/
def badMics (ids : List ℕ) (micOk : ℕ → ℕ) : List ℕ :=
  ((List.range ids.length).filter fun i ↦ micOk i = 0).map fun i ↦ ids.getD i 0

theorem mem_badMics {micOk : ℕ → ℕ} {mic : ℕ} :
    mic ∈ badMics ids micOk ↔ ∃ i < ids.length, ids.getD i 0 = mic ∧ micOk i = 0 := by
  simp only [badMics, List.mem_map, List.mem_filter, List.mem_range, decide_eq_true_eq]
  exact exists_congr fun i ↦ by tauto

/-- Input that is accepted is whole frames. -/
theorem frames_of_fits {len : ℕ} (hfits : InType.float32.fits ids len = true) :
    0 < InType.float32.size * ids.length ∧ len % (InType.float32.size * ids.length) = 0 := by
  simp only [InType.fits, Bool.and_eq_true, decide_eq_true_eq, beq_iff_eq] at hfits
  exact hfits.1

/-- The first sample of a microphone in the chunk with the marks is its mark. -/
theorem first_sample {rdc : Rdc D} (hsound : rdc.Sound ids) {chunk : List UInt8} {memIn : Rows}
    (hsome : 0 < (InType.float32.process F ids memIn (fun p ↦ chunk.getD p 0) chunk.length).2)
    (hmarks : Mem1.marks ids.length rdc.micOk <+: chunk) {i : ℕ} (hi : i < ids.length) :
    (InType.float32.process F ids memIn (fun p ↦ chunk.getD p 0) chunk.length).1 (ids.getD i 0) 0 =
      Mem1.mark rdc.micOk i := by
  have hword : ∀ j < ids.length,
      InType.float32.sample F (fun p ↦ chunk.getD p 0) (0 * ids.length + j) = Mem1.mark rdc.micOk j := by
    intro j hj
    rw [Nat.zero_mul, Nat.zero_add]
    exact wordAt_of_marks ids hmarks hj
  rw [← hword i hi]
  apply forMics_writeRow ids
    (InType.float32.process F ids memIn (fun p ↦ chunk.getD p 0) chunk.length).2
    (fun j i ↦ InType.float32.sample F (fun p ↦ chunk.getD p 0) (i * ids.length + j)) memIn hsome _ hi
  intro a ha b hb hab
  simp only [hword a ha, hword b hb, Mem1.mark, (hsound.same a b hab).2.2]

/-- Rows that begin with the marks are reported as the bad verdicts. -/
theorem mem_getErrorInfo {rdc : Rdc D} (hsound : rdc.Sound ids) {data : Rows}
    (hsample : ∀ i < ids.length, data (ids.getD i 0) 0 = Mem1.mark rdc.micOk i) (mic : ℕ) :
    mic ∈ (getErrorInfo ids data).getD [] ↔ mic ∈ badMics ids rdc.micOk := by
  rw [getErrorInfo_getD, List.mem_filter, mem_badMics]
  constructor
  · rintro ⟨hmem, hbelow⟩
    obtain ⟨i, hi, rfl⟩ := List.mem_iff_getElem.mp hmem
    rw [← List.getD_eq_getElem ids 0 hi, hsample i hi, belowHalf_mark] at hbelow
    refine ⟨i, hi, List.getD_eq_getElem ids 0 hi, ?_⟩
    exact (hsound.binary i).resolve_right hbelow
  · rintro ⟨i, hi, rfl, hbad⟩
    refine ⟨?_, ?_⟩
    · rw [List.getD_eq_getElem ids 0 hi]
      exact List.getElem_mem hi
    · rw [hsample i hi, belowHalf_mark]
      omega

/-- The chunk with the marks. -/
theorem Fresh.first (h : Fresh bf s) {rdc : Rdc D} (hsound : rdc.Sound ids) {chunk : List UInt8}
    (hfits : InType.float32.fits ids chunk.length = true) (hchunk : chunk ≠ [])
    (hmarks : Mem1.marks ids.length rdc.micOk <+: chunk) :
    Fixed bf (badMics ids rdc.micOk) (s.fixMic F ids chunk) := by
  let input := InType.float32.process F ids s.memIn (fun p ↦ chunk.getD p 0) chunk.length
  have hlen : 0 < input.2 := by
    obtain ⟨hpos, hwhole⟩ := frames_of_fits hfits
    have hsome : 0 < chunk.length := List.length_pos_iff.mpr hchunk
    exact Nat.div_pos (Nat.le_of_dvd hsome (Nat.dvd_of_mod_eq_zero hwhole)) hpos
  have hreported : ∀ mic, mic ∈ (getErrorInfo ids input.1).getD [] ↔ mic ∈ badMics ids rdc.micOk :=
    mem_getErrorInfo hsound fun i hi ↦ first_sample hsound hlen hmarks hi
  have hfix : s.firstFrm = true ∧ 0 < input.2 := ⟨h.firstFrm, hlen⟩
  simp only [fixMic]
  rw [if_pos hfix]
  refine ⟨by rw [h.inBounds, hfits]; rfl, rfl, hreported, ?_⟩
  dsimp only
  rw [fixErrMix_eq_filter, h.micInfoBf]
  apply List.filter_congr
  intro mic _
  have hsame : ((getErrorInfo ids input.1).getD []).contains mic =
      decide (mic ∈ badMics ids rdc.micOk) := by
    rw [List.contains_eq_mem]
    exact decide_eq_decide.mpr (hreported mic)
  rw [decide_not]
  exact congrArg (!·) hsame

/-- `process` is one of the two stages: an empty chunk may be skipped. -/
def IsStage (F : FloatOps D) (ids : List ℕ) (process : MicStage → List UInt8 → MicStage) : Prop :=
  ∀ s chunk, process s chunk = s.fixMic F ids chunk ∨ chunk = [] ∧ process s chunk = s

theorem isStage_processData2 (F : FloatOps D) (ids : List ℕ) : IsStage F ids (processData2 F ids) := by
  intro s chunk
  by_cases hchunk : chunk.length = 0
  · exact Or.inr ⟨List.eq_nil_of_length_eq_zero hchunk, if_pos hchunk⟩
  · exact Or.inl (if_neg hchunk)

theorem isStage_processData3 (F : FloatOps D) (ids : List ℕ) : IsStage F ids (processData3 F ids) :=
  fun _ _ ↦ Or.inl rfl

variable {process : MicStage → List UInt8 → MicStage}

theorem Fixed.feed (hprocess : IsStage F ids process) (h : Fixed bf bad s) {chunks : List (List UInt8)}
    (hfits : ∀ chunk ∈ chunks, InType.float32.fits ids chunk.length = true) :
    Fixed bf bad (chunks.foldl process s) := by
  induction chunks generalizing s with
  | nil => exact h
  | cons chunk chunks ih =>
      apply ih _ fun later hlater ↦ hfits later (List.mem_cons_of_mem chunk hlater)
      obtain hfix | ⟨-, hskip⟩ := hprocess s chunk
      · rw [hfix]
        exact h.later (hfits chunk List.mem_cons_self)
      · rw [hskip]
        exact h

/-- Chunks that spell a beginning of bytes with the marks in front. -/
theorem Fresh.feed (hprocess : IsStage F ids process) (h : Fresh bf s) {rdc : Rdc D}
    (hsound : rdc.Sound ids) {read : List UInt8} (hmarks : Mem1.marks ids.length rdc.micOk <+: read)
    {chunks : List (List UInt8)}
    (hfits : ∀ chunk ∈ chunks, InType.float32.fits ids chunk.length = true)
    (hread : chunks.flatten <+: read) (hsome : chunks.flatten ≠ []) :
    Fixed bf (badMics ids rdc.micOk) (chunks.foldl process s) := by
  induction chunks generalizing s with
  | nil => exact absurd rfl hsome
  | cons chunk chunks ih =>
      have hhere := hfits chunk List.mem_cons_self
      have hlater : ∀ later ∈ chunks, InType.float32.fits ids later.length = true :=
        fun later hlater ↦ hfits later (List.mem_cons_of_mem chunk hlater)
      have hframe := frames_of_fits hhere
      by_cases hchunk : chunk = []
      · subst hchunk
        apply ih _ hlater hread hsome
        obtain hfix | ⟨-, hskip⟩ := hprocess s []
        · rw [hfix]
          exact h.empty (Nat.pos_of_mul_pos_left hframe.1)
        · rw [hskip]
          exact h
      · have hlen : (Mem1.marks ids.length rdc.micOk).length ≤ chunk.length := by
          rw [Mem1.length_marks]
          exact Nat.le_of_dvd (List.length_pos_iff.mpr hchunk) (Nat.dvd_of_mod_eq_zero hframe.2)
        have hprefix : chunk <+: read := (List.prefix_append chunk chunks.flatten).trans hread
        obtain hfix | ⟨hnil, -⟩ := hprocess s chunk
        · have hfixed := h.first (F := F) hsound hhere hchunk
            (List.prefix_of_prefix_length_le hmarks hprefix hlen)
          rw [← hfix] at hfixed
          exact hfixed.feed hprocess hlater
        · exact absurd hnil hchunk

end MicStage

/-! ## From stage to stage -/

/-- A fresh second stage, fed with `chunks`, reported the microphones with a bad verdict and removed
them from its list `bf`. -/
def HandedOver (sto : Sto1) (s : Link D ρ ε) (process : MicStage → List UInt8 → MicStage)
    (bf : List ℕ) (chunks : List (List UInt8)) : Prop :=
  s.mem.inBounds = true ∧
    MicStage.Fixed bf (MicStage.badMics sto.micInfoAec s.mem.memRdc.micOk)
      (chunks.foldl process { micInfoBf := bf })

/-- **The verdicts arrive.** After any run in which the input comes in whole frames, at most a
second at a time, and no reset falls between the frame with the marks and its being read, each of
the two second stages reports exactly the microphones with a bad verdict and removes exactly these,
whatever the chunks are in which it gets the bytes that were read. -/
theorem health_handed_over (L : Engines D ρ ε) (sto : Sto1) (ops : List Link.Op)
    (hops : Along (Link.step L sto) (Link.Careful sto) (Link.create L sto) ops) (bf : List ℕ)
    (chunks : List (List UInt8))
    (hfits : ∀ chunk ∈ chunks, InType.float32.fits sto.micInfoAec chunk.length = true)
    (hread : chunks.flatten <+: (run (Link.step L sto) (Link.create L sto) ops).read)
    (hsome : chunks.flatten ≠ []) :
    HandedOver sto (run (Link.step L sto) (Link.create L sto) ops)
        (MicStage.processData2 L.ops sto.micInfoAec) bf chunks ∧
      HandedOver sto (run (Link.step L sto) (Link.create L sto) ops)
        (MicStage.processData3 L.ops sto.micInfoAec) bf chunks := by
  have hinv := Link.inv_run hops
  have hsent : (run (Link.step L sto) (Link.create L sto) ops).mem.firstFrm = false := by
    by_contra hfirst
    have hnone := (hinv.before (eq_true_of_ne_false hfirst)).2
    rw [hnone, List.prefix_nil] at hread
    exact hsome hread
  have hstage : ∀ process, MicStage.IsStage L.ops sto.micInfoAec process →
      HandedOver sto (run (Link.step L sto) (Link.create L sto) ops) process bf chunks := by
    intro process hprocess
    have hfresh : MicStage.Fresh bf { micInfoBf := bf } := ⟨rfl, rfl, rfl⟩
    refine ⟨hinv.inBounds, hfresh.feed hprocess hinv.sound (hinv.after hsent).2 hfits ?_ hsome⟩
    exact hread.trans (List.prefix_append _ _)
  exact ⟨hstage _ (MicStage.isStage_processData2 _ _), hstage _ (MicStage.isStage_processData3 _ _)⟩

/-- The libraries on silence: sums stay zero, a deviation is small, and the resampler, which
collects 480 samples at a time, gives 160 zeros for them. -/
def silent : Engines Unit ℕ Unit where
  ops :=
    { intDiv4 := id
      intDiv1024 := id
      add := fun sum _ ↦ sum
      sub := fun x _ ↦ x
      div64 := id
      mul64 := id
      zero := ()
      addSquare := fun sum _ ↦ sum
      mean := fun sum _ ↦ sum
      deviation := fun sum _ _ ↦ sum
      tooLarge := fun _ ↦ false }
  rs :=
    { create := fun _ ↦ 0
      reset := fun _ ↦ 0
      process := fun taken _ len ↦
        (taken + len, fun _ _ ↦ 0, (taken + len) / 480 * 160 - taken / 480 * 160) }
  aec :=
    { create := ()
      bufferFarend := fun _ _ ↦ ()
      process := fun _ _ ↦ ((), fun _ ↦ 0, true) }

/-- A microphone and a reference. -/
def sto2 : Sto1 where
  micNum := 2
  sampleBytes := 4
  bAec := false
  micInfoRs := [0, 1]
  micInfoAec := [0]
  micInfoAecRef := [1]

/-- Frames of silence on both channels. -/
def silence (frames : ℕ) : Link.Op := .processData (fun _ ↦ 0) (8 * frames)


/-- The measurement, and the first frame of output. -/
def firstFrame : List Link.Op := [silence 16000, silence 16000, silence 16000, silence 480]

/-- The marks are read. -/
def marksRead : List Link.Op := firstFrame ++ [.getData 4]

/-- The first stage is reset when the marks are not read yet. -/
def marksLost : List Link.Op := firstFrame ++ [.reset, silence 480, .getData 4]

theorem silent_runs :
    (run (Link.step silent sto2) (Link.create silent sto2) marksRead).read = [0, 0, 0x80, 0x3F] ∧
      (run (Link.step silent sto2) (Link.create silent sto2) marksLost).read = [0, 0, 0, 0] ∧
      (run (Link.step silent sto2) (Link.create silent sto2) marksLost).mem.memRdc.micOk 0 = 1 := by
  decide +kernel

theorem health_handed_over_silent :
    HandedOver sto2 (run (Link.step silent sto2) (Link.create silent sto2) marksRead)
        (MicStage.processData2 silent.ops [0]) [0] [[], [0, 0, 0x80, 0x3F]] ∧
      HandedOver sto2 (run (Link.step silent sto2) (Link.create silent sto2) marksRead)
        (MicStage.processData3 silent.ops [0]) [0] [[], [0, 0, 0x80, 0x3F]] := by
  apply health_handed_over silent sto2 marksRead
  · exact ⟨rfl, rfl, rfl, rfl, trivial, trivial⟩
  · decide
  · rw [silent_runs.1]
    exact List.prefix_refl _
  · decide

/-- After the reset the second stages report a microphone with a good verdict, and remove it. -/
theorem reset_loses_marks :
    (run (Link.step silent sto2) (Link.create silent sto2) marksLost).read = [0, 0, 0, 0] ∧
      (run (Link.step silent sto2) (Link.create silent sto2) marksLost).mem.memRdc.micOk 0 = 1 ∧
      (MicStage.processData2 silent.ops [0] { micInfoBf := [0] } [0, 0, 0, 0]).micErr = some [0] ∧
      ¬ HandedOver sto2 (run (Link.step silent sto2) (Link.create silent sto2) marksLost)
        (MicStage.processData2 silent.ops [0]) [0] [[0, 0, 0, 0]] ∧
      ¬ HandedOver sto2 (run (Link.step silent sto2) (Link.create silent sto2) marksLost)
        (MicStage.processData3 silent.ops [0]) [0] [[0, 0, 0, 0]] := by
  obtain ⟨-, hread, hok⟩ := silent_runs
  have hgood : 0 ∉ MicStage.badMics sto2.micInfoAec
      (run (Link.step silent sto2) (Link.create silent sto2) marksLost).mem.memRdc.micOk := by
    rw [MicStage.mem_badMics]
    rintro ⟨i, hi, -, hbad⟩
    have hi0 : i = 0 := Nat.lt_one_iff.mp hi
    rw [hi0, hok] at hbad
    omega
  refine ⟨hread, hok, by decide, ?_, ?_⟩
  · rintro ⟨-, hfixed⟩
    exact hgood ((hfixed.reported 0).mp (by decide))
  · rintro ⟨-, hfixed⟩
    exact hgood ((hfixed.reported 0).mp (by decide))

end Vsys.R2ad
