import Mathlib.Data.Nat.Prime.Basic
import Mathlib.Dynamics.PeriodicPts.Defs
import Mathlib.Tactic.NormNum.Prime
import Vsys.Ciu98.Crc

/-!
# Errors that the checksum finds

Bits are numbered in the order they are clocked in, the lowest bit of each byte first.  A frame with
errors in a stretch of sixteen bits never checks; this includes any errors in two adjacent bytes.
A frame with two wrong bits checks exactly if they are a multiple of 32767 bits apart, which a
frame of the longest kind, of 4101 bytes, has room for.
-/

namespace Vsys.Ciu98

open Vsys.Num.Lfsr

theorem byteBits_injective : Function.Injective byteBits := by
  intro a b h
  have hpack : (a.toBitVec.setWidth 16 : BitVec 16) = b.toBitVec.setWidth 16 := by
    rw [← pack_byteBits, ← pack_byteBits, h]
  apply UInt8.toBitVec_inj.mp
  apply BitVec.eq_of_getLsbD_eq
  intro i hi
  have hbit := congrArg (fun c ↦ c.getLsbD i) hpack
  simpa [BitVec.getLsbD_setWidth, hi, show i < 16 by omega] using hbit

theorem frameBits_injective : Function.Injective frameBits := by
  intro frame
  induction frame with
  | nil =>
      intro other h
      cases other with
      | nil => rfl
      | cons b other => simpa using congrArg List.length h
  | cons a frame ih =>
      intro other h
      cases other with
      | nil => simpa using congrArg List.length h
      | cons b other =>
          obtain ⟨hbyte, hrest⟩ := List.append_inj (show byteBits a ++ frameBits frame =
            byteBits b ++ frameBits other from h) rfl
          rw [byteBits_injective hbyte, ih hrest]

/-- **Bursts are found.** A frame that has been received with errors, all of them in a stretch of
sixteen bits, does not check. -/
theorem edcGood_eq_false_of_burst {sent received : List UInt8} (hgood : edcGood sent = true)
    (htwo : 2 ≤ sent.length) (hlength : received.length = sent.length) (hne : received ≠ sent)
    {first : ℕ} (hburst : ∀ i, (frameBits received)[i]? ≠ (frameBits sent)[i]? →
      first ≤ i ∧ i < first + 16) : edcGood received = false := by
  have hsplit : ∀ bits : List Bool,
      bits.take first ++ (bits.drop first).take 16 ++ bits.drop (first + 16) = bits := by
    intro bits
    rw [List.append_assoc, ← List.drop_drop, List.take_append_drop, List.take_append_drop]
  have hfirst : (frameBits received).take first = (frameBits sent).take first := by
    apply List.ext_getElem?
    intro i
    rw [List.getElem?_take, List.getElem?_take]
    split
    · by_contra hdiff
      have hin := hburst i hdiff
      omega
    · rfl
  have hlast : (frameBits received).drop (first + 16) = (frameBits sent).drop (first + 16) := by
    apply List.ext_getElem?
    intro i
    rw [List.getElem?_drop, List.getElem?_drop]
    by_contra hdiff
    have hin := hburst _ hdiff
    omega
  have hmiddle : ((frameBits received).drop first).take 16 ≠
      ((frameBits sent).drop first).take 16 := by
    intro hsame
    apply hne
    apply frameBits_injective
    rw [← hsplit (frameBits received), hfirst, hsame, hlast, hsplit]
  have hbits : (frameBits received).length = (frameBits sent).length := by
    rw [frameBits_length, frameBits_length, hlength]
  rw [Bool.eq_false_iff]
  intro hcheck
  have hreceived := (edcGood_iff (hlength ▸ htwo)).mp hcheck
  have hsent := (edcGood_iff htwo).mp hgood
  rw [← hsplit (frameBits received), hfirst, hlast] at hreceived
  rw [← hsplit (frameBits sent)] at hsent
  refine feed_ne_of_burst poly_msb _ _ _ ?_ ?_ hmiddle (hreceived.trans hsent.symm)
  · rw [List.length_take, List.length_take, List.length_drop, List.length_drop, hbits]
  · exact List.length_take_le _ _

theorem edcGood_request_burst :
    edcGood [0x09, 0x00, 0x03, 0x9F, 0x2C, 0x4C] = false := by
  have hgood : edcGood [0x09, 0x00, 0x03, 0x60, 0xD3, 0x4C] = true := by decide +kernel
  have hbits : ∀ i < 48, (frameBits [0x09, 0x00, 0x03, 0x9F, 0x2C, 0x4C])[i]? ≠
      (frameBits [0x09, 0x00, 0x03, 0x60, 0xD3, 0x4C])[i]? → 24 ≤ i ∧ i < 24 + 16 := by
    decide +kernel
  have hburst : ∀ i, (frameBits [0x09, 0x00, 0x03, 0x9F, 0x2C, 0x4C])[i]? ≠
      (frameBits [0x09, 0x00, 0x03, 0x60, 0xD3, 0x4C])[i]? → 24 ≤ i ∧ i < 24 + 16 := by
    intro i hdiff
    by_cases hi : i < 48
    · exact hbits i hi hdiff
    · refine absurd ?_ hdiff
      rw [List.getElem?_eq_none (Nat.not_lt.mp hi), List.getElem?_eq_none (Nat.not_lt.mp hi)]
  exact edcGood_eq_false_of_burst hgood (by decide) rfl (by decide) hburst

/-! ## Two wrong bits -/

/-- The register as a number, clocked without a message. -/
def shiftNat (c : ℕ) : ℕ := c / 2 ^^^ (c % 2) * 0x8408

theorem toNat_shift (c : BitVec 16) : (shift poly c false).toNat = shiftNat c.toNat := by
  have hmod : c.getLsbD 0 = decide (c.toNat % 2 = 1) := by
    rw [BitVec.getLsbD, Nat.testBit_zero]
  rw [shift, Bool.xor_false, hmod, shiftNat]
  obtain heven | hodd := Nat.mod_two_eq_zero_or_one c.toNat
  · simp [heven, Nat.shiftRight_eq_div_pow]
  · simp [hodd, Nat.shiftRight_eq_div_pow, poly]

theorem clock_eq_iterate (c : BitVec 16) (k : ℕ) :
    (clock poly c k).toNat = shiftNat^[k] c.toNat := by
  induction k generalizing c with
  | zero => rfl
  | succ k ih => rw [clock_succ, ih, toNat_shift, Function.iterate_succ_apply]

/-- **The period of the register.** The feedback comes back after 32767 clocks, not earlier. -/
theorem clock_poly_eq_iff (k : ℕ) : clock poly poly k = poly ↔ 32767 ∣ k := by
  have hperiodic : Function.IsPeriodicPt shiftNat 32767 poly.toNat := by
    change shiftNat^[32767] 0x8408 = 0x8408
    decide +kernel
  have hshorter : ∀ d ∈ [217, 1057, 4681], ¬ Function.IsPeriodicPt shiftNat d poly.toNat := by
    change ∀ d ∈ [217, 1057, 4681], ¬ shiftNat^[d] 0x8408 = 0x8408
    decide +kernel
  have hperiod : Function.minimalPeriod shiftNat poly.toNat = 32767 := by
    obtain ⟨q, hq⟩ := hperiodic.minimalPeriod_dvd
    by_contra hne
    have hone : q ≠ 1 := by
      rintro rfl
      omega
    obtain ⟨r, hr, hrq⟩ := Nat.exists_prime_and_dvd hone
    obtain ⟨m, rfl⟩ := hrq
    have hprimes : r ∣ 7 * (31 * 151) := ⟨Function.minimalPeriod shiftNat poly.toNat * m, by
      rw [show 7 * (31 * 151) = 32767 by norm_num, hq]
      ring⟩
    have hcases : r = 7 ∨ r = 31 ∨ r = 151 := by
      obtain h | h := (Nat.Prime.dvd_mul hr).mp hprimes
      · exact .inl ((Nat.prime_dvd_prime_iff_eq hr (by norm_num)).mp h)
      · obtain h | h := (Nat.Prime.dvd_mul hr).mp h
        · exact .inr (.inl ((Nat.prime_dvd_prime_iff_eq hr (by norm_num)).mp h))
        · exact .inr (.inr ((Nat.prime_dvd_prime_iff_eq hr (by norm_num)).mp h))
    have hdvd : ∀ d, d * r = 32767 → Function.IsPeriodicPt shiftNat d poly.toNat := by
      intro d hd
      apply Function.isPeriodicPt_iff_minimalPeriod_dvd.mpr
      refine ⟨m, Nat.eq_of_mul_eq_mul_right hr.pos ?_⟩
      rw [hd, hq]
      ring
    obtain rfl | rfl | rfl := hcases
    · exact hshorter 4681 (by decide) (hdvd 4681 (by norm_num))
    · exact hshorter 1057 (by decide) (hdvd 1057 (by norm_num))
    · exact hshorter 217 (by decide) (hdvd 217 (by norm_num))
  calc
    clock poly poly k = poly ↔ (clock poly poly k).toNat = poly.toNat := BitVec.toNat_inj.symm
    _ ↔ Function.IsPeriodicPt shiftNat k poly.toNat := by
      rw [clock_eq_iterate]
      exact Iff.rfl
    _ ↔ 32767 ∣ k := by rw [Function.isPeriodicPt_iff_minimalPeriod_dvd, hperiod]

/-- A wrong bit adds the feedback. -/
theorem shift_not (c : BitVec 16) (x : Bool) : shift poly c (!x) = shift poly c x ^^^ poly := by
  have hone : shift poly 0#16 true = poly := by decide
  calc
    shift poly c (!x) = shift poly (c ^^^ 0#16) (x ^^ true) := by
      rw [BitVec.xor_zero, Bool.xor_true]
    _ = shift poly c x ^^^ poly := by rw [shift_xor, hone]

/-- **Two wrong bits** are found exactly if they are not a multiple of 32767 bits apart. -/
theorem edcGood_two_errors {sent received : List UInt8} (hgood : edcGood sent = true)
    (htwo : 2 ≤ sent.length) (htwo' : 2 ≤ received.length) {first middle last : List Bool}
    {x y : Bool} (hsent : frameBits sent = first ++ x :: middle ++ y :: last)
    (hreceived : frameBits received = first ++ (!x) :: middle ++ (!y) :: last) :
    edcGood received = true ↔ 32767 ∣ middle.length + 1 := by
  have hcheck := (edcGood_iff htwo).mp hgood
  rw [edcGood_iff htwo', ← hcheck, hsent, hreceived]
  simp only [List.append_assoc, List.cons_append, feed_append, feed_cons]
  simp only [shift_not]
  rw [feed_xor_clock _ _ _ middle]
  generalize feed poly (shift poly (feed poly 0xFFFF#16 first) x) middle = c
  have hshift : shift poly (c ^^^ clock poly poly middle.length) y =
      shift poly c y ^^^ clock poly poly (middle.length + 1) := by
    rw [clock_succ', ← shift_xor, Bool.xor_false]
  rw [hshift]
  calc
    feed poly (shift poly c y ^^^ clock poly poly (middle.length + 1) ^^^ poly) last =
          feed poly (shift poly c y) last ↔
        shift poly c y ^^^ clock poly poly (middle.length + 1) ^^^ poly = shift poly c y :=
      (feed_injective poly_msb last).eq_iff
    _ ↔ clock poly poly (middle.length + 1) = poly := by
      have hzero : shift poly c y ^^^ 0#16 = shift poly c y := BitVec.xor_zero
      rw [BitVec.xor_assoc]
      nth_rewrite 2 [← hzero]
      rw [BitVec.xor_right_inj, BitVec.xor_eq_zero_iff]
    _ ↔ 32767 ∣ middle.length + 1 := clock_poly_eq_iff _

theorem edcGood_request_two_errors :
    edcGood [0x0A, 0x00, 0x03, 0x60, 0xD3, 0x4C] = true ↔ 32767 ∣ 0 + 1 := by
  have hbits : frameBits [0x09, 0x00, 0x03, 0x60, 0xD3, 0x4C] =
      [] ++ true :: [] ++ false :: (frameBits [0x09, 0x00, 0x03, 0x60, 0xD3, 0x4C]).drop 2 := rfl
  exact edcGood_two_errors (by decide +kernel) (by decide) (by decide) hbits rfl

end Vsys.Ciu98
