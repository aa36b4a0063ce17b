import Vsys.Stream.Blocks
import Vsys.Trace.Run

/-!
# Reading from the microphone array

`read_left_frame` and `mic_array_device_read_stream` in
`legacy/rokid-openvoice-process-android-pro/hardware/modules/mic_array/mic_array.c`.  The device is
read by whole frames; what a call does not return is kept at the front of `dev->buffer`, and `pts`
says how much that is.

Products and sums of the offsets are computed in `int`.  A value that `int` does not have makes the
call undefined, here `none`.  A `memcpy` within `dev->buffer` moves the bytes forward.
-/

namespace Vsys.Mic

open Vsys.Stream Vsys.Trace

variable {α : Type}

/-- `struct mic_array_device_ex`, with the number of `pcm_read` calls made so far. -/
structure Device (α : Type) where
  frameCnt : ℕ
  pts : ℕ
  buffer : List α
  reads : ℕ

/-- The result of the `pcm_read` with a number: an error code, or the bytes. -/
abbrev Pcm (α : Type) := ℕ → Except ℤ (List α)

/-- What a function leaves: its return value, the device and the caller's buffer. -/
structure Outcome (α : Type) where
  ret : ℤ
  dev : Device α
  buff : List α

/-- A value of type `int`. -/
def toInt (n : ℕ) : Option ℕ := if n < 2 ^ 31 then some n else none

namespace Device

/-- `resetBuffer`. -/
def resetBuffer (dev : Device α) : Device α := { dev with pts := 0 }

/-- A `pcm_read` was made. -/
def advance (dev : Device α) : Device α := { dev with reads := dev.reads + 1 }

/-- `read_left_frame` with `buff + target`. -/
def readLeftFrame (pcm : Pcm α) (dev : Device α) (buff : List α) (target left : ℕ) : Outcome α :=
  if dev.pts = 0 then
    match pcm dev.reads with
    | .error ret => ⟨ret, dev.advance.resetBuffer, buff⟩
    | .ok frame =>
        let buffer := overwrite dev.buffer 0 frame
        { ret := 0
          dev :=
            { dev.advance with
              buffer := overwrite buffer 0 ((buffer.drop left).take (dev.frameCnt - left))
              pts := dev.frameCnt - left }
          buff := overwrite buff target (buffer.take left) }
  else if left ≤ dev.pts then
    let pts := dev.pts - left
    { ret := 0
      dev :=
        { dev with
          buffer :=
            if pts ≠ 0 then overwrite dev.buffer 0 ((dev.buffer.drop left).take pts) else dev.buffer
          pts := pts }
      buff := overwrite buff target (dev.buffer.take left) }
  else
    let buff := overwrite buff target (dev.buffer.take dev.pts)
    let rest := left - dev.pts
    match pcm dev.reads with
    | .error ret => ⟨ret, dev.advance.resetBuffer, buff⟩
    | .ok frame =>
        let buffer := overwrite dev.buffer 0 frame
        { ret := 0
          dev :=
            { dev.advance with
              buffer := overwrite buffer 0 ((buffer.drop rest).take (dev.frameCnt - rest))
              pts := dev.frameCnt - rest }
          buff := overwrite buff (target + dev.pts) (buffer.take rest) }

/-- The loop over the whole frames, from frame `i` on. -/
def readFrames (pcm : Pcm α) (size : ℕ) : ℕ → ℕ → Device α → List α → Option (Outcome α)
  | 0, _, dev, buff => some ⟨0, dev, buff⟩
  | n + 1, i, dev, buff => do
      let offset ← toInt (i * size)
      match pcm dev.reads with
      | .error ret => some ⟨ret, dev.advance.resetBuffer, buff⟩
      | .ok frame => readFrames pcm size n (i + 1) dev.advance (overwrite buff (dev.pts + offset) frame)

/-- What is left for `read_left_frame`: an error resets the buffer. -/
def readRest (pcm : Pcm α) (dev : Device α) (buff : List α) (target left : ℕ) : Outcome α :=
  let outcome := dev.readLeftFrame pcm buff target left
  if outcome.ret ≠ 0 then { outcome with dev := outcome.dev.resetBuffer } else outcome

/-- `mic_array_device_read_stream`, with a buffer that is not null. -/
def readStream (pcm : Pcm α) (dev : Device α) (buff : List α) (frameCnt : ℕ) :
    Option (Outcome α) :=
  -- `int size = dev->frame_cnt` is not positive
  if dev.frameCnt = 0 ∨ 2 ^ 31 ≤ dev.frameCnt then some ⟨-1, dev, buff⟩
  else if dev.frameCnt ≤ frameCnt then do
    let cnt ← toInt (frameCnt / dev.frameCnt)
    let cnt := if frameCnt % dev.frameCnt < dev.pts then cnt - 1 else cnt
    let buff := if 0 < dev.pts then overwrite buff 0 (dev.buffer.take dev.pts) else buff
    let outcome ← readFrames pcm dev.frameCnt cnt 0 dev buff
    if outcome.ret ≠ 0 then some outcome
    else
      let whole ← toInt (cnt * dev.frameCnt)
      let done ← toInt (dev.pts + whole)
      if frameCnt - done = 0 then some { outcome with dev := outcome.dev.resetBuffer }
      else some (outcome.dev.resetBuffer.readRest pcm outcome.buff done (frameCnt - done))
  else some (dev.readRest pcm buff 0 frameCnt)

/-! ## What is kept and what is read -/

variable (dev : Device α)

/-- The bytes that are kept for the next call. -/
def cache : List α := dev.buffer.take dev.pts

/-- At most one frame is kept. -/
structure Valid : Prop where
  pts : dev.pts ≤ dev.frameCnt
  buffer : dev.buffer.length = dev.frameCnt

end Device

/-- The bytes of `n` frames, from a number on. -/
def framesFrom (frames : ℕ → List α) (first n : ℕ) : List α := (List.range' first n).flatMap frames

theorem framesFrom_add (frames : ℕ → List α) (first n m : ℕ) :
    framesFrom frames first (n + m) = framesFrom frames first n ++ framesFrom frames (first + n) m := by
  rw [framesFrom, framesFrom, framesFrom, ← List.flatMap_append, List.range'_append_1]

theorem framesFrom_one (frames : ℕ → List α) (first : ℕ) :
    framesFrom frames first 1 = frames first := by
  simp [framesFrom]

theorem framesFrom_length {frames : ℕ → List α} {size : ℕ} (h : ∀ k, (frames k).length = size)
    (first n : ℕ) : (framesFrom frames first n).length = n * size := by
  induction n generalizing first with
  | zero => simp [framesFrom]
  | succ n ih =>
      rw [Nat.add_comm, framesFrom_add, framesFrom_one, List.length_append, h, ih, Nat.add_comm,
        Nat.add_comm 1 n, Nat.succ_mul]

/-- From one state to another, the bytes of `out` were returned and none was lost. -/
structure Passes (frames : ℕ → List α) (dev dev' : Device α) (out : List α) : Prop where
  frameCnt : dev'.frameCnt = dev.frameCnt
  valid : dev'.Valid
  bytes : ∃ n, dev'.reads = dev.reads + n ∧
    out ++ dev'.cache = dev.cache ++ framesFrom frames dev.reads n

variable {frames : ℕ → List α} {dev dev' dev'' : Device α}

theorem Passes.refl (h : dev.Valid) : Passes frames dev dev [] where
  frameCnt := rfl
  valid := h
  bytes := ⟨0, rfl, by simp [framesFrom]⟩

theorem Passes.trans {out out' : List α} (h : Passes frames dev dev' out)
    (h' : Passes frames dev' dev'' out') : Passes frames dev dev'' (out ++ out') where
  frameCnt := h'.frameCnt.trans h.frameCnt
  valid := h'.valid
  bytes := by
    obtain ⟨n, hn, hbytes⟩ := h.bytes
    obtain ⟨m, hm, hbytes'⟩ := h'.bytes
    refine ⟨n + m, by rw [hm, hn, Nat.add_assoc], ?_⟩
    calc
      out ++ out' ++ dev''.cache = out ++ (dev'.cache ++ framesFrom frames dev'.reads m) := by
        rw [List.append_assoc, hbytes']
      _ = dev.cache ++ framesFrom frames dev.reads n ++ framesFrom frames dev'.reads m := by
        rw [← List.append_assoc, hbytes]
      _ = dev.cache ++ framesFrom frames dev.reads (n + m) := by
        rw [List.append_assoc, hn, framesFrom_add]

/-! ## Copies -/

/-- A frame that fills the buffer. -/
theorem overwrite_whole {dst src : List α} (h : src.length = dst.length) :
    overwrite dst 0 src = src := by
  rw [overwrite_zero, List.drop_eq_nil_of_le h.ge, List.append_nil]

/-- The bytes from `left` on are moved to the front. -/
theorem take_overwrite_drop {buffer : List α} {left n : ℕ} (h : left + n ≤ buffer.length) :
    (overwrite buffer 0 ((buffer.drop left).take n)).take n = (buffer.drop left).take n := by
  apply take_overwrite_zero
  rw [List.length_take, List.length_drop]
  omega

theorem length_overwrite_drop {buffer : List α} {left n : ℕ} (h : left + n ≤ buffer.length) :
    (overwrite buffer 0 ((buffer.drop left).take n)).length = buffer.length := by
  apply overwrite_length
  rw [List.length_take, List.length_drop]
  omega

/-- `out` was written at `target`, and the buffer before it is as it was. -/
structure Writes (buff buff' : List α) (target : ℕ) (out : List α) : Prop where
  length : buff'.length = buff.length
  take : buff'.take (target + out.length) = buff.take target ++ out

theorem writes_overwrite {buff out : List α} {target : ℕ} (h : target + out.length ≤ buff.length) :
    Writes buff (overwrite buff target out) target out where
  length := overwrite_length h
  take := take_overwrite (by omega) out rfl

theorem Writes.append {buff buff' buff'' out out' : List α} {target : ℕ}
    (h : Writes buff buff' target out) (h' : Writes buff' buff'' (target + out.length) out') :
    Writes buff buff'' target (out ++ out') where
  length := h'.length.trans h.length
  take := by rw [List.length_append, ← Nat.add_assoc, h'.take, h.take, List.append_assoc]

/-- What is written at the beginning is the beginning. -/
theorem Writes.take_zero {buff buff' out : List α} {count : ℕ} (h : Writes buff buff' 0 out)
    (hcount : out.length = count) : buff'.take count = out := by
  have htake := h.take
  rwa [hcount, Nat.zero_add, List.take_zero, List.nil_append] at htake

/-! ## The tail of a call -/

theorem length_cache (hdev : dev.Valid) : dev.cache.length = dev.pts := by
  rw [Device.cache, List.length_take, hdev.buffer]
  exact min_eq_left hdev.pts

/-- A device whose buffer holds `buffer`, of which `left` bytes are returned and the rest is kept. -/
theorem valid_kept {left : ℕ} {buffer : List α} {reads : ℕ} (hbuffer : buffer.length = dev.frameCnt)
    (hleft : left ≤ dev.frameCnt) :
    ({ dev with
      buffer := overwrite buffer 0 ((buffer.drop left).take (dev.frameCnt - left))
      pts := dev.frameCnt - left
      reads := reads } : Device α).Valid ∧
    ({ dev with
      buffer := overwrite buffer 0 ((buffer.drop left).take (dev.frameCnt - left))
      pts := dev.frameCnt - left
      reads := reads } : Device α).cache = buffer.drop left := by
  have hfit : left + (dev.frameCnt - left) ≤ buffer.length := by omega
  refine ⟨⟨Nat.sub_le _ _, (length_overwrite_drop hfit).trans hbuffer⟩, ?_⟩
  rw [Device.cache, take_overwrite_drop hfit]
  exact List.take_of_length_le (by rw [List.length_drop]; omega)

/-- What a read of `left` bytes to `target` should leave. -/
structure Gives (frames : ℕ → List α) (dev : Device α) (buff : List α) (target left : ℕ)
    (outcome : Outcome α) : Prop where
  ret : outcome.ret = 0
  bytes : ∃ out, out.length = left ∧ Writes buff outcome.buff target out ∧
    Passes frames dev outcome.dev out

section Reads

variable {pcm : Pcm α} {buff : List α} {target left : ℕ}

/-- The kept bytes are enough. -/
theorem readLeftFrame_of_kept (pcm : Pcm α) (hdev : dev.Valid) (hzero : dev.pts ≠ 0)
    (hkept : left ≤ dev.pts) (hfit : target + left ≤ buff.length) :
    Gives frames dev buff target left (dev.readLeftFrame pcm buff target left) := by
  have hpts := hdev.pts
  have hbuffer := hdev.buffer
  have hrun : dev.readLeftFrame pcm buff target left =
      ⟨0, { dev with
        buffer :=
          if dev.pts - left ≠ 0 then
            overwrite dev.buffer 0 ((dev.buffer.drop left).take (dev.pts - left))
          else dev.buffer
        pts := dev.pts - left },
        overwrite buff target (dev.buffer.take left)⟩ := by
    simp only [Device.readLeftFrame, hzero, if_false, hkept, if_true]
  have hlen : (dev.buffer.take left).length = left := by
    rw [List.length_take]
    omega
  have hfit' : left + (dev.pts - left) ≤ dev.buffer.length := by omega
  have hsplit : dev.cache = dev.buffer.take left ++ (dev.buffer.drop left).take (dev.pts - left) := by
    rw [Device.cache, ← List.take_add, Nat.add_sub_cancel' hkept]
  rw [hrun]
  refine ⟨rfl, dev.buffer.take left, hlen, writes_overwrite (by rwa [hlen]), rfl,
    ⟨(Nat.sub_le _ _).trans hpts, ?_⟩, 0, rfl, ?_⟩
  · dsimp only
    split_ifs
    · exact (length_overwrite_drop hfit').trans hbuffer
    · exact hbuffer
  · rw [hsplit, framesFrom, List.range'_zero, List.flatMap_nil, List.append_nil]
    congr 1
    by_cases hrest : dev.pts - left = 0
    · simp [Device.cache, hrest]
    · simp only [Device.cache, ne_eq, hrest, not_false_eq_true, if_true]
      exact take_overwrite_drop hfit'

section Pcm

variable (hpcm : ∀ k, pcm k = .ok (frames k)) (hframes : ∀ k, (frames k).length = dev.frameCnt)
include hpcm hframes

omit hpcm in
/-- A frame fills the buffer. -/
theorem overwrite_frame (hdev : dev.Valid) :
    overwrite dev.buffer 0 (frames dev.reads) = frames dev.reads :=
  overwrite_whole ((hframes _).trans hdev.buffer.symm)

/-- Nothing is kept: the bytes are the beginning of a new frame. -/
theorem readLeftFrame_of_empty (hdev : dev.Valid) (hzero : dev.pts = 0)
    (hleft : left ≤ dev.frameCnt) (hfit : target + left ≤ buff.length) :
    Gives frames dev buff target left (dev.readLeftFrame pcm buff target left) := by
  have hrun : dev.readLeftFrame pcm buff target left =
      ⟨0, { dev with
        buffer := overwrite (frames dev.reads) 0
          (((frames dev.reads).drop left).take (dev.frameCnt - left))
        pts := dev.frameCnt - left
        reads := dev.reads + 1 },
        overwrite buff target ((frames dev.reads).take left)⟩ := by
    simp only [Device.readLeftFrame, hzero, if_true, hpcm, overwrite_frame hframes hdev,
      Device.advance]
  obtain ⟨hvalid, hcache⟩ := @valid_kept _ dev left _ (dev.reads + 1) (hframes dev.reads) hleft
  have hlen : ((frames dev.reads).take left).length = left := by
    rw [List.length_take, hframes]
    omega
  rw [hrun]
  refine ⟨rfl, (frames dev.reads).take left, hlen, writes_overwrite (by rwa [hlen]), rfl, hvalid,
    1, rfl, ?_⟩
  rw [hcache, List.take_append_drop, framesFrom_one, Device.cache, hzero, List.take_zero,
    List.nil_append]

/-- The kept bytes, and the beginning of a new frame. -/
theorem readLeftFrame_of_short (hdev : dev.Valid) (hzero : dev.pts ≠ 0) (hkept : ¬ left ≤ dev.pts)
    (hleft : left ≤ dev.frameCnt) (hfit : target + left ≤ buff.length) :
    Gives frames dev buff target left (dev.readLeftFrame pcm buff target left) := by
  have hpts := hdev.pts
  have hbuffer := hdev.buffer
  have hrun : dev.readLeftFrame pcm buff target left =
      ⟨0, { dev with
        buffer := overwrite (frames dev.reads) 0
          (((frames dev.reads).drop (left - dev.pts)).take (dev.frameCnt - (left - dev.pts)))
        pts := dev.frameCnt - (left - dev.pts)
        reads := dev.reads + 1 },
        overwrite (overwrite buff target dev.cache) (target + dev.pts)
          ((frames dev.reads).take (left - dev.pts))⟩ := by
    simp only [Device.readLeftFrame, hzero, if_false, hkept, hpcm, overwrite_frame hframes hdev,
      Device.advance, Device.cache]
  have hcacheLen := length_cache hdev
  have hlen : ((frames dev.reads).take (left - dev.pts)).length = left - dev.pts := by
    rw [List.length_take, hframes]
    omega
  obtain ⟨hvalid, hcache⟩ := @valid_kept _ dev (left - dev.pts) _ (dev.reads + 1)
    (hframes dev.reads) (by omega)
  have hfirst : Writes buff (overwrite buff target dev.cache) target dev.cache :=
    writes_overwrite (by omega)
  have hsecond := @writes_overwrite _ (overwrite buff target dev.cache)
    ((frames dev.reads).take (left - dev.pts)) (target + dev.pts)
    (by rw [hfirst.length, hlen]; omega)
  rw [hrun]
  refine ⟨rfl, dev.cache ++ (frames dev.reads).take (left - dev.pts), ?_, ?_, rfl, hvalid, 1, rfl, ?_⟩
  · rw [List.length_append, hcacheLen, hlen]
    omega
  · exact hfirst.append (by rwa [hcacheLen])
  · rw [hcache, List.append_assoc, List.take_append_drop, framesFrom_one]

/-- **The tail.** `read_left_frame` returns the next `left` bytes and keeps the rest of the frame. -/
theorem readLeftFrame_spec (hdev : dev.Valid) (hleft : left ≤ dev.frameCnt)
    (hfit : target + left ≤ buff.length) :
    Gives frames dev buff target left (dev.readLeftFrame pcm buff target left) := by
  by_cases hzero : dev.pts = 0
  · exact readLeftFrame_of_empty hpcm hframes hdev hzero hleft hfit
  · by_cases hkept : left ≤ dev.pts
    · exact readLeftFrame_of_kept pcm hdev hzero hkept hfit
    · exact readLeftFrame_of_short hpcm hframes hdev hzero hkept hleft hfit

/-- What `read_left_frame` leaves is what the call leaves. -/
theorem readRest_spec (hdev : dev.Valid) (hleft : left ≤ dev.frameCnt)
    (hfit : target + left ≤ buff.length) :
    Gives frames dev buff target left (dev.readRest pcm buff target left) := by
  have hgives := readLeftFrame_spec hpcm hframes hdev hleft hfit
  have hrest : dev.readRest pcm buff target left = dev.readLeftFrame pcm buff target left := by
    simp only [Device.readRest, hgives.ret, ne_eq, not_true, if_false]
  rw [hrest]
  exact hgives

end Pcm

/-! ## A whole call -/

/-- The loop returns no error, whether or not its offsets fit. -/
theorem readFrames_ret (hpcm : ∀ k, pcm k = .ok (frames k)) {size n i : ℕ} {dev : Device α} {buff : List α} {outcome : Outcome α}
    (h : Device.readFrames pcm size n i dev buff = some outcome) : outcome.ret = 0 := by
  induction n generalizing i dev buff with
  | zero =>
      obtain rfl := Option.some.inj h
      rfl
  | succ n ih =>
      simp only [Device.readFrames, Option.bind_eq_bind, Option.bind_eq_some_iff, hpcm] at h
      obtain ⟨offset, -, hrest⟩ := h
      exact ih hrest

/-- The frames go to the caller's buffer one after the other. -/
theorem readFrames_spec (hpcm : ∀ k, pcm k = .ok (frames k)) {size n i : ℕ} {dev : Device α}
    {buff : List α} (hframes : ∀ k, (frames k).length = size) (hint : (i + n) * size < 2 ^ 31)
    (hfit : dev.pts + (i + n) * size ≤ buff.length) :
    ∃ buff', Device.readFrames pcm size n i dev buff =
        some ⟨0, { dev with reads := dev.reads + n }, buff'⟩ ∧
      Writes buff buff' (dev.pts + i * size) (framesFrom frames dev.reads n) := by
  induction n generalizing i dev buff with
  | zero => exact ⟨buff, rfl, rfl, by simp [framesFrom]⟩
  | succ n ih =>
      have hnext : i + (n + 1) = i + 1 + n := by omega
      rw [hnext] at hint hfit
      have hstep : (i + 1) * size ≤ (i + 1 + n) * size := Nat.mul_le_mul_right size (Nat.le_add_right _ _)
      have hoffset : i * size + size = (i + 1) * size := (Nat.succ_mul i size).symm
      have hlt : i * size < 2 ^ 31 := by omega
      have hfirst : Writes buff (overwrite buff (dev.pts + i * size) (frames dev.reads))
          (dev.pts + i * size) (frames dev.reads) :=
        writes_overwrite (by rw [hframes]; omega)
      have hlater := @ih (i + 1) dev.advance
        (overwrite buff (dev.pts + i * size) (frames dev.reads)) hint (by
          rw [hfirst.length]
          exact hfit)
      obtain ⟨buff', hrun, hwrites⟩ := hlater
      refine ⟨buff', ?_, ?_⟩
      · simp only [Device.readFrames, toInt, hlt, if_true, Option.bind_eq_bind, Option.bind_some, hpcm]
        rw [hrun]
        simp only [Device.advance, Nat.add_assoc, Nat.add_comm 1 n]
      · have hplace : dev.pts + i * size + (frames dev.reads).length = dev.pts + (i + 1) * size := by
          rw [hframes]
          omega
        rw [Nat.add_comm n 1, framesFrom_add, framesFrom_one]
        exact hfirst.append (hplace ▸ hwrites)

end Reads

/-- The device is usable: its frame size is a positive `int`. -/
def Device.Usable (dev : Device α) : Prop := 0 < dev.frameCnt ∧ dev.frameCnt < 2 ^ 31

/-- The number of frames that a call reads into the caller's buffer. -/
def Device.wholeFrames (dev : Device α) (count : ℕ) : ℕ :=
  if count % dev.frameCnt < dev.pts then count / dev.frameCnt - 1 else count / dev.frameCnt

/-- The kept bytes and the whole frames of the call fit in the buffer, and less than a frame is
missing. -/
theorem wholeFrames_bounds (hdev : dev.Valid) (hpos : 0 < dev.frameCnt) {count : ℕ}
    (hcount : dev.frameCnt ≤ count) :
    dev.pts + dev.wholeFrames count * dev.frameCnt ≤ count ∧
      count - (dev.pts + dev.wholeFrames count * dev.frameCnt) < dev.frameCnt := by
  have hdivmod := Nat.div_add_mod' count dev.frameCnt
  have hmod := Nat.mod_lt count hpos
  have hquot := Nat.div_pos hcount hpos
  have hpts := hdev.pts
  rw [Device.wholeFrames]
  split
  · obtain ⟨q, hq⟩ := Nat.exists_eq_succ_of_ne_zero hquot.ne'
    rw [hq, Nat.succ_mul] at hdivmod
    rw [hq, Nat.succ_sub_one]
    omega
  · omega

/-- If the sum of a call is an `int`, then so is the number of its frames. -/
theorem div_lt_of_inRange (hpos : 0 < dev.frameCnt) {count : ℕ}
    (h : dev.pts + dev.wholeFrames count * dev.frameCnt < 2 ^ 31) :
    count / dev.frameCnt < 2 ^ 31 := by
  have hmul := Nat.le_mul_of_pos_right (dev.wholeFrames count) hpos
  rw [Device.wholeFrames] at h hmul
  split at h
  · rename_i hlt
    rw [if_pos hlt] at hmul
    omega
  · rename_i hlt
    rw [if_neg hlt] at hmul
    omega

section Call

variable {pcm : Pcm α} {buff : List α} (hpcm : ∀ k, pcm k = .ok (frames k))
include hpcm

/-- The kept bytes and the whole frames of a call, and what is left to do behind them. -/
theorem readStream_whole (hdev : dev.Valid) (husable : dev.Usable)
    (hframes : ∀ k, (frames k).length = dev.frameCnt) {count : ℕ} (hcount : dev.frameCnt ≤ count)
    (hfit : count ≤ buff.length) (hint : dev.pts + dev.wholeFrames count * dev.frameCnt < 2 ^ 31) :
    ∃ buff', Writes buff buff' 0 (dev.cache ++ framesFrom frames dev.reads (dev.wholeFrames count)) ∧
      dev.readStream pcm buff count =
        if count - (dev.pts + dev.wholeFrames count * dev.frameCnt) = 0 then
          some ⟨0, ({ dev with reads := dev.reads + dev.wholeFrames count } : Device α).resetBuffer,
            buff'⟩
        else some (({ dev with reads := dev.reads + dev.wholeFrames count } :
          Device α).resetBuffer.readRest pcm buff'
            (dev.pts + dev.wholeFrames count * dev.frameCnt)
            (count - (dev.pts + dev.wholeFrames count * dev.frameCnt))) := by
  have hsize : ¬ (dev.frameCnt = 0 ∨ 2 ^ 31 ≤ dev.frameCnt) := by
    obtain ⟨hpos, hlt⟩ := husable
    omega
  have hdiv := div_lt_of_inRange husable.1 hint
  have hwhole : dev.wholeFrames count * dev.frameCnt < 2 ^ 31 := by omega
  obtain ⟨hle, -⟩ := wholeFrames_bounds hdev husable.1 hcount
  have hcacheLen := length_cache hdev
  have hcacheWrites : Writes buff
      (if 0 < dev.pts then overwrite buff 0 dev.cache else buff) 0 dev.cache := by
    split
    · exact writes_overwrite (by omega)
    · refine ⟨rfl, ?_⟩
      have hnil : dev.cache = [] := List.length_eq_zero_iff.mp (by omega)
      rw [hnil]
      simp
  obtain ⟨buff', hrun, hwrites⟩ := @readFrames_spec _ frames _ hpcm dev.frameCnt
    (dev.wholeFrames count) 0 dev (if 0 < dev.pts then overwrite buff 0 dev.cache else buff) hframes
    (by rw [Nat.zero_add]; omega) (by rw [hcacheWrites.length, Nat.zero_add]; omega)
  refine ⟨buff', hcacheWrites.append ?_, ?_⟩
  · rw [hcacheLen]
    simpa using hwrites
  · rw [Device.readStream, if_neg hsize, if_pos hcount]
    simp only [toInt, hdiv, if_true, Option.bind_eq_bind, Option.bind_some]
    change (Device.readFrames pcm dev.frameCnt (dev.wholeFrames count) 0 dev
      (if 0 < dev.pts then overwrite buff 0 dev.cache else buff)).bind _ = _
    rw [hrun]
    change (toInt (dev.wholeFrames count * dev.frameCnt)).bind _ = _
    simp only [toInt, hwhole, hint, if_true, Option.bind_some]

/-- **A call whose offsets are in range.** It returns the next bytes of the stream. -/
theorem readStream_spec (hdev : dev.Valid) (husable : dev.Usable)
    (hframes : ∀ k, (frames k).length = dev.frameCnt) {count : ℕ} (hfit : count ≤ buff.length)
    (hrange : dev.frameCnt ≤ count → dev.pts + dev.wholeFrames count * dev.frameCnt < 2 ^ 31) :
    ∃ outcome, dev.readStream pcm buff count = some outcome ∧ outcome.ret = 0 ∧
      outcome.buff.length = buff.length ∧ Passes frames dev outcome.dev (outcome.buff.take count) := by
  by_cases hcount : dev.frameCnt ≤ count
  · obtain ⟨hle, hless⟩ := wholeFrames_bounds hdev husable.1 hcount
    obtain ⟨buff', hboth, hcall⟩ :=
      readStream_whole hpcm hdev husable hframes hcount hfit (hrange hcount)
    have houtLen : (dev.cache ++ framesFrom frames dev.reads (dev.wholeFrames count)).length =
        dev.pts + dev.wholeFrames count * dev.frameCnt := by
      rw [List.length_append, length_cache hdev, framesFrom_length hframes]
    have hpasses : Passes frames dev
        ({ dev with reads := dev.reads + dev.wholeFrames count } : Device α).resetBuffer
        (dev.cache ++ framesFrom frames dev.reads (dev.wholeFrames count)) := by
      refine ⟨rfl, ⟨Nat.zero_le _, hdev.buffer⟩, dev.wholeFrames count, rfl, ?_⟩
      simp [Device.cache, Device.resetBuffer]
    rw [hcall]
    split_ifs with hdone
    · refine ⟨_, rfl, rfl, hboth.length, ?_⟩
      have hall : dev.pts + dev.wholeFrames count * dev.frameCnt = count := by omega
      rw [hboth.take_zero (houtLen.trans hall)]
      exact hpasses
    · obtain ⟨hret, out, hout, hrest, hlast⟩ := @readRest_spec _ frames
        ({ dev with reads := dev.reads + dev.wholeFrames count } : Device α).resetBuffer pcm buff'
        (dev.pts + dev.wholeFrames count * dev.frameCnt)
        (count - (dev.pts + dev.wholeFrames count * dev.frameCnt)) hpcm hframes hpasses.valid hless.le
        (by rw [hboth.length]; omega)
      refine ⟨_, rfl, hret, hrest.length.trans hboth.length, ?_⟩
      have hthree := hboth.append (by rw [houtLen, Nat.zero_add]; exact hrest)
      rw [hthree.take_zero (by rw [List.length_append, houtLen, hout, Nat.add_sub_cancel' hle])]
      exact hpasses.trans hlast
  · have hsize : ¬ (dev.frameCnt = 0 ∨ 2 ^ 31 ≤ dev.frameCnt) := by
      obtain ⟨hpos, hlt⟩ := husable
      omega
    have hcall : dev.readStream pcm buff count = some (dev.readRest pcm buff 0 count) := by
      rw [Device.readStream, if_neg hsize, if_neg hcount]
    obtain ⟨hret, out, hout, hwrites, hpasses⟩ :=
      @readRest_spec _ frames dev pcm buff 0 count hpcm hframes hdev (Nat.le_of_not_le hcount)
        (by omega)
    refine ⟨_, hcall, hret, hwrites.length, ?_⟩
    rw [hwrites.take_zero hout]
    exact hpasses

/-- A call whose sum is not an `int` is undefined. -/
theorem readStream_eq_none (husable : dev.Usable) {count : ℕ} (hcount : dev.frameCnt ≤ count)
    (hrange : 2 ^ 31 ≤ dev.pts + dev.wholeFrames count * dev.frameCnt) :
    dev.readStream pcm buff count = none := by
  have hsize : ¬ (dev.frameCnt = 0 ∨ 2 ^ 31 ≤ dev.frameCnt) := by
    obtain ⟨hpos, hlt⟩ := husable
    omega
  rw [Device.readStream, if_neg hsize, if_pos hcount]
  simp only [Option.bind_eq_bind]
  refine Option.bind_eq_none_iff.mpr fun cnt hcnt ↦ Option.bind_eq_none_iff.mpr fun outcome hrun ↦ ?_
  have hsame : cnt = count / dev.frameCnt := by
    rw [toInt] at hcnt
    split at hcnt
    · exact (Option.some.inj hcnt).symm
    · exact absurd hcnt (by simp)
  subst hsame
  rw [readFrames_ret hpcm hrun]
  change ((toInt (dev.wholeFrames count * dev.frameCnt)).bind _) = none
  refine Option.bind_eq_none_iff.mpr fun whole hwhole ↦ Option.bind_eq_none_iff.mpr fun done hdone ↦ ?_
  rw [toInt] at hwhole hdone
  split at hwhole
  · obtain rfl := Option.some.inj hwhole
    rw [if_neg (by omega)] at hdone
    exact absurd hdone (by simp)
  · exact absurd hwhole (by simp)

end Call

end Vsys.Mic
