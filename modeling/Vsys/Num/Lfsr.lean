import Mathlib.Data.List.Basic
import Mathlib.Tactic.Ring

/-!
# Shift registers with feedback

A register of `n` bits is clocked with the bits of a message: the lowest bit is shifted out, and if
it differs from the message's bit the feedback `poly` is added.  This is division by a polynomial,
with the bits in reflected order.

Clocking is linear, and it loses nothing when `poly` has its highest bit.  Up to `n` bits of a
message can as well be added to the register first.  So the remainders of two messages that differ
in a stretch of at most `n` bits are different.
-/

namespace Vsys.Num.Lfsr

variable {n : ℕ}

/-- One clock of the register. -/
def shift (poly c : BitVec n) (bit : Bool) : BitVec n :=
  if c.getLsbD 0 ^^ bit then (c >>> 1) ^^^ poly else c >>> 1

/-- The register after a message. -/
def feed (poly c : BitVec n) (bits : List Bool) : BitVec n := bits.foldl (shift poly) c

/-- The register after a number of clocks without a message. -/
def clock (poly c : BitVec n) (k : ℕ) : BitVec n := feed poly c (List.replicate k false)

variable {poly c d : BitVec n} {bits more : List Bool}

@[simp]
theorem feed_nil (poly c : BitVec n) : feed poly c [] = c := rfl

@[simp]
theorem feed_cons (poly c : BitVec n) (bit : Bool) (bits : List Bool) :
    feed poly c (bit :: bits) = feed poly (shift poly c bit) bits := rfl

theorem feed_append (poly c : BitVec n) (bits more : List Bool) :
    feed poly c (bits ++ more) = feed poly (feed poly c bits) more := List.foldl_append

@[simp]
theorem clock_zero (poly c : BitVec n) : clock poly c 0 = c := rfl

theorem clock_succ (poly c : BitVec n) (k : ℕ) :
    clock poly c (k + 1) = clock poly (shift poly c false) k := rfl

theorem xor_right_comm (a b p : BitVec n) : a ^^^ p ^^^ (b ^^^ p) = a ^^^ b := by
  rw [BitVec.xor_assoc a p (b ^^^ p), ← BitVec.xor_assoc p b p, BitVec.xor_comm p b,
    BitVec.xor_assoc b p p, BitVec.xor_self, BitVec.xor_zero]

/-! ## Linearity -/

theorem shift_xor (poly c d : BitVec n) (x y : Bool) :
    shift poly (c ^^^ d) (x ^^ y) = shift poly c x ^^^ shift poly d y := by
  have hbit : ((c ^^^ d).getLsbD 0 ^^ (x ^^ y)) = ((c.getLsbD 0 ^^ x) ^^ (d.getLsbD 0 ^^ y)) := by
    rw [BitVec.getLsbD_xor]
    cases c.getLsbD 0 <;> cases d.getLsbD 0 <;> cases x <;> cases y <;> rfl
  rw [shift, shift, shift, hbit, BitVec.ushiftRight_xor_distrib]
  cases c.getLsbD 0 ^^ x <;> cases d.getLsbD 0 ^^ y
  · rfl
  · simp [BitVec.xor_assoc]
  · simp only [Bool.xor_false, if_true, Bool.false_eq_true, if_false]
    rw [BitVec.xor_assoc, BitVec.xor_assoc, BitVec.xor_comm poly]
  · simp [xor_right_comm]

theorem feed_xor (poly c d : BitVec n) (h : bits.length = more.length) :
    feed poly (c ^^^ d) (List.zipWith xor bits more) = feed poly c bits ^^^ feed poly d more := by
  induction bits generalizing more c d with
  | nil =>
      obtain rfl : more = [] := List.length_eq_zero_iff.mp h.symm
      rfl
  | cons x bits ih =>
      cases more with
      | nil => simp at h
      | cons y more =>
          rw [List.zipWith_cons_cons, feed_cons, shift_xor]
          exact ih _ _ (Nat.succ.inj h)

theorem clock_xor (poly c d : BitVec n) (k : ℕ) :
    clock poly (c ^^^ d) k = clock poly c k ^^^ clock poly d k := by
  have hzeros : List.zipWith xor (List.replicate k false) (List.replicate k false) =
      List.replicate k false := by simp
  rw [clock, clock, clock, ← feed_xor poly c d rfl, hzeros]

theorem clock_succ' (poly c : BitVec n) (k : ℕ) :
    clock poly c (k + 1) = shift poly (clock poly c k) false := by
  rw [clock, List.replicate_succ', feed_append]
  rfl

/-- A difference in the register develops by itself. -/
theorem feed_xor_clock (poly c d : BitVec n) (bits : List Bool) :
    feed poly (c ^^^ d) bits = feed poly c bits ^^^ clock poly d bits.length := by
  have hbits : List.zipWith xor bits (List.replicate bits.length false) = bits := by
    apply List.ext_getElem
    · simp
    · intro i hi hi'
      simp
  rw [clock, ← feed_xor poly c d (List.length_replicate).symm, hbits]

/-- A register whose low bits are clear is only shifted. -/
theorem clock_of_clear {k : ℕ} (h : ∀ i < k, c.getLsbD i = false) : clock poly c k = c >>> k := by
  induction k generalizing c with
  | zero => simp
  | succ k ih =>
      have hshift : shift poly c false = c >>> 1 := by
        rw [shift, h 0 (Nat.succ_pos k)]
        rfl
      rw [clock_succ, hshift, ih, add_comm k, BitVec.shiftRight_add]
      intro i hi
      rw [BitVec.getLsbD_ushiftRight, add_comm]
      exact h (i + 1) (Nat.succ_lt_succ hi)

/-! ## Nothing is lost -/

/-- The highest bit of the register tells whether the feedback was added. -/
theorem shift_eq_zero_iff (hpoly : poly.msb = true) : shift poly c false = 0#n ↔ c = 0#n := by
  constructor
  · intro h
    rw [shift, Bool.xor_false] at h
    cases hlow : c.getLsbD 0 with
    | true =>
        rw [hlow, if_pos rfl] at h
        have hmsb := congrArg BitVec.msb h
        rw [BitVec.msb_xor, hpoly] at hmsb
        simp at hmsb
    | false =>
        rw [hlow, if_neg Bool.false_ne_true] at h
        apply BitVec.eq_of_getLsbD_eq
        intro i hi
        rw [BitVec.getLsbD_zero]
        cases i with
        | zero => exact hlow
        | succ i =>
            have hbit := congrArg (fun e ↦ e.getLsbD i) h
            simpa [BitVec.getLsbD_ushiftRight, add_comm] using hbit
  · rintro rfl
    simp [shift]

theorem shift_injective (hpoly : poly.msb = true) (bit : Bool) :
    Function.Injective fun c ↦ shift poly c bit := by
  intro c d h
  have hzero : shift poly (c ^^^ d) false = 0#n := by
    rw [← Bool.xor_self bit, shift_xor]
    exact BitVec.xor_eq_zero_iff.mpr h
  exact BitVec.xor_eq_zero_iff.mp ((shift_eq_zero_iff hpoly).mp hzero)

theorem feed_injective (hpoly : poly.msb = true) (bits : List Bool) :
    Function.Injective fun c ↦ feed poly c bits := by
  induction bits with
  | nil => exact Function.injective_id
  | cons bit bits ih => exact ih.comp (shift_injective hpoly bit)

/-! ## Messages that fit into the register -/

/-- A short message as bits of the register. -/
def pack (n : ℕ) : List Bool → BitVec n
  | [] => 0#n
  | bit :: bits => (BitVec.ofBool bit).setWidth n ^^^ (pack n bits <<< 1)

theorem getLsbD_pack (h : bits.length ≤ n) (i : ℕ) :
    (pack n bits).getLsbD i = bits.getD i false := by
  induction bits generalizing i with
  | nil => simp [pack]
  | cons bit bits ih =>
      rw [List.length_cons] at h
      rw [pack, BitVec.getLsbD_xor, BitVec.getLsbD_setWidth, BitVec.getLsbD_shiftLeft]
      cases i with
      | zero =>
          have hn : 0 < n := by omega
          simp [hn]
      | succ i =>
          have hbit : (pack n bits).getLsbD i = bits.getD i false := ih (by omega) i
          by_cases hi : i + 1 < n
          · simp [hi, hbit]
          · have hlong : bits.length ≤ i := by omega
            simp [hi, hlong]

/-- **A short message can be added to the register first.** -/
theorem feed_eq_clock (h : bits.length ≤ n) :
    feed poly c bits = clock poly (c ^^^ pack n bits) bits.length := by
  induction bits generalizing c with
  | nil => simp [pack]
  | cons bit bits ih =>
      have hshort : bits.length ≤ n := by
        rw [List.length_cons] at h
        omega
      have hlow : (pack n (bit :: bits)).getLsbD 0 = bit := by
        rw [getLsbD_pack h]
        rfl
      have hrest : pack n (bit :: bits) >>> 1 = pack n bits := by
        apply BitVec.eq_of_getLsbD_eq
        intro i _
        rw [BitVec.getLsbD_ushiftRight, getLsbD_pack h, getLsbD_pack hshort, add_comm]
        rfl
      have hshift : shift poly (pack n (bit :: bits)) bit = pack n bits := by
        rw [shift, hlow, Bool.xor_self, if_neg Bool.false_ne_true, hrest]
      rw [feed_cons, ih hshort, List.length_cons, clock_succ]
      congr 1
      calc
        shift poly c bit ^^^ pack n bits =
            shift poly c bit ^^^ shift poly (pack n (bit :: bits)) bit := by rw [hshift]
        _ = shift poly (c ^^^ pack n (bit :: bits)) (bit ^^ bit) := (shift_xor poly c _ _ _).symm
        _ = shift poly (c ^^^ pack n (bit :: bits)) false := by rw [Bool.xor_self]

/-- **Bursts.** Messages that differ, but only in a stretch of at most `n` bits, do not leave the
same remainder. -/
theorem feed_ne_of_burst (hpoly : poly.msb = true) (c : BitVec n) (first last : List Bool)
    (hlength : bits.length = more.length) (hshort : bits.length ≤ n) (hne : bits ≠ more) :
    feed poly c (first ++ bits ++ last) ≠ feed poly c (first ++ more ++ last) := by
  have hshort' : more.length ≤ n := hlength ▸ hshort
  intro h
  rw [feed_append poly c (first ++ bits), feed_append poly c (first ++ more)] at h
  have hmid := feed_injective hpoly last h
  rw [feed_append, feed_append, feed_eq_clock hshort, feed_eq_clock hshort', hlength] at hmid
  have hpack : pack n bits = pack n more :=
    (BitVec.xor_right_inj _).mp (feed_injective hpoly _ hmid)
  apply hne
  apply List.ext_getElem hlength
  intro i hi hi'
  have hget := getLsbD_pack hshort i
  rw [hpack, getLsbD_pack hshort'] at hget
  simpa [hi, hi'] using hget.symm

end Vsys.Num.Lfsr
