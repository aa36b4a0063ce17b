import Vsys.Stream.Windows
import Mathlib.Algebra.BigOperators.Intervals
import Mathlib.Algebra.BigOperators.Ring.Finset
import Mathlib.Algebra.Ring.Nat

/-!
# The resampler

`ZRsMem` in `r2slv4/r2vt4/src/rs/zrssto.cpp`.  The filter bank of the library is unrolled into one
matrix of `L` rows and `M + Q - 1` columns, which takes `M` new samples and the `Q - 1` before them
to `L` output samples.  The input is collected until `m_iBatchSize` such steps can be done.

The samples are elements of a semiring, that is, the arithmetic is exact.  The design of the filter
is a parameter: it gives the number of taps, at least one, and the coefficients.  Sizes and indices
are natural numbers; the indices are those of arrays that the constructor allocates.
-/

namespace Vsys.Rs

open Vsys.Stream

open scoped BigOperators

variable {R : Type*} {cn : ℕ}

/-- One sample of each channel. -/
abbrev Sample (cn : ℕ) (R : Type*) := Fin cn → R

/-! ## The constructor -/

/-- `z_gcd`, for positive arguments. -/
def zGcd (m n : ℕ) : ℕ :=
  if m % n = 0 then n
  else if n % (m % n) = 0 then m % n
  else zGcd (m % n) (n % (m % n))
termination_by n
decreasing_by
  rename_i hm hn
  have hpos : 0 < m % n := Nat.pos_of_ne_zero hm
  have hn' : n ≠ 0 := by
    rintro rfl
    simp at hn
  exact (Nat.mod_lt n hpos).trans (Nat.mod_lt m (Nat.pos_of_ne_zero hn'))

/-- `z_lcm`. -/
def zLcm (m n : ℕ) : ℕ := zGcd m n * (m / zGcd m n) * (n / zGcd m n)

/-- The factor by which a loop `while (n % 4 != 0) n *= 2` multiplies; it ends after two rounds. -/
def doublings : ℕ → ℕ → ℕ
  | 0, _ => 1
  | rounds + 1, n => if n % 4 = 0 then 1 else 2 * doublings rounds (n * 2)

/-- What the filter design of `fa_resample` gives: the taps of each phase. -/
structure TvFlt (R : Type*) where
  k : ℕ
  k_pos : 0 < k
  g : ℕ → ℕ → R

/-- The constants of a resampler. -/
structure Config (R : Type*) where
  iL : ℕ
  iM : ℕ
  iQ : ℕ
  g : ℕ → ℕ → R
  iFrmOut : ℕ
  iBatchSize : ℕ

/-- The constructor; `fa_resample_filter_init` passes `L` and `M` on. -/
def Config.create (design : ℕ → ℕ → TvFlt R) (iCn iSrIn iSrOut iFrmOut : ℕ) : Config R :=
  let gcd := zGcd iSrIn iSrOut
  let factor := doublings 2 (iSrOut / gcd)
  let iM := iSrIn / gcd * factor
  let iL := iSrOut / gcd * factor
  let batch := zLcm iL iFrmOut / iL
  { iL := iL
    iM := iM
    iQ := (design iL iM).k
    g := (design iL iM).g
    iFrmOut := iFrmOut
    iBatchSize := batch * doublings 2 (batch * iCn) }

namespace Config

variable (c : Config R)

/-- `m_iLen_In_Total`. -/
def lenInTotal : ℕ := c.iQ - 1 + c.iM * c.iBatchSize

/-- A row of the matrix: the taps of the phase, the last one first, from the row's start on. -/
def filter [Zero R] (i : ℕ) : ℕ → R :=
  writeAt (fun _ ↦ 0) (i * c.iM / c.iL) ((List.range c.iQ).map fun j ↦ c.g i (c.iQ - 1 - j))

end Config

/-! ## Processing -/

/-- `ZRsMem`: the collected input, and the output of the current call. -/
structure ZRsMem (cn : ℕ) (R : Type*) where
  audIn : ℕ → Sample cn R
  lenIn : ℕ
  audOut : Fin cn → ℕ → R
  lenOut : ℕ
  lenOutTotal : ℕ

variable [Semiring R]

namespace ZRsMem

/-- A new object. -/
def create (c : Config R) : ZRsMem cn R where
  audIn := fun _ ↦ 0
  lenIn := c.iQ - 1
  audOut := fun _ _ ↦ 0
  lenOut := 0
  lenOutTotal := 1024

variable (c : Config R)

/-- The output buffer is made larger, with the output so far. -/
def reserve (s : ZRsMem cn R) : ZRsMem cn R :=
  if s.lenOutTotal < s.lenOut + c.iBatchSize * c.iL then
    { s with
      lenOutTotal := (s.lenOut + c.iBatchSize * c.iL) * 2
      audOut := fun i p ↦ if p < s.lenOut then s.audOut i p else 0 }
  else s

/-- `Add_aAX_NENO` on the window with number `j` of the input of a channel: one value of the
product of matrix and vector. -/
def product (s : ZRsMem cn R) (i : Fin cn) (j row : ℕ) : R :=
  ∑ col ∈ Finset.range (c.iM + c.iQ - 1), c.filter row col * s.audIn (j * c.iM + col) i

/-- The output of `n` windows is copied behind the output so far. -/
def storeBlocks (s : ZRsMem cn R) : ℕ → Fin cn → ℕ → R
  | 0 => s.audOut
  | n + 1 => fun i p ↦
      if s.lenOut + n * c.iL ≤ p ∧ p < s.lenOut + n * c.iL + c.iL then
        s.product c i n (p - (s.lenOut + n * c.iL))
      else s.storeBlocks n i p

/-- `ZRsMem::ProcessBatch`. -/
def processBatch (s : ZRsMem cn R) : ZRsMem cn R :=
  let s := s.reserve c
  { s with
    audOut := s.storeBlocks c c.iBatchSize
    lenOut := s.lenOut + c.iL * c.iBatchSize }

/-- A piece of the input joins the collected one. -/
def fill (s : ZRsMem cn R) (piece : List (Sample cn R)) : ZRsMem cn R :=
  { s with audIn := writeAt s.audIn s.lenIn piece, lenIn := s.lenIn + piece.length }

/-- A full buffer is processed; its last `Q - 1` samples are moved to the front. -/
def full (s : ZRsMem cn R) : ZRsMem cn R :=
  let s := s.processBatch c
  { s with
    audIn := fun j ↦ if j < c.iQ - 1 then s.audIn (c.iM * c.iBatchSize + j) else s.audIn j
    lenIn := c.iQ - 1 }

/-- `ZRsMem::Process`; its results are `audOut` and `lenOut` of the new state.  Every round takes a
sample, apart from the first one with a buffer that is full. -/
def process (s : ZRsMem cn R) (wavIn : List (Sample cn R)) : ZRsMem cn R :=
  windowLoop c.lenInTotal lenIn fill (full c) (wavIn.length + 1) wavIn
    { s with lenOut := 0, audOut := fun _ _ ↦ 0 }

/-- `ZRsMem::Reset`. -/
def reset (s : ZRsMem cn R) : ZRsMem cn R := { s with lenIn := c.iQ, audIn := fun _ ↦ 0 }

/-- The output of the last call in a channel. -/
def wavOut (s : ZRsMem cn R) (i : Fin cn) : List R := (List.range s.lenOut).map (s.audOut i)

/-- The states after the calls of a sequence. -/
def states (s : ZRsMem cn R) : List (List (Sample cn R)) → List (ZRsMem cn R)
  | [] => []
  | wavIn :: later => s.process c wavIn :: (s.process c wavIn).states later

end ZRsMem

/-! ## What it is for -/

/-- The sample of a channel `k` places before place `p`; zero before the stream begins. -/
def past (x : List (Sample cn R)) (i : Fin cn) (p k : ℕ) : R :=
  if k ≤ p then x.getD (p - k) 0 i else 0

/-- The resampled signal. -/
def resampled (c : Config R) (x : List (Sample cn R)) (i : Fin cn) (n : ℕ) : R :=
  ∑ k ∈ Finset.range c.iQ, c.g (n % c.iL) k * past x i (n * c.iM / c.iL) k

end Vsys.Rs
