import Mathlib.Data.Nat.Cast.Defs

/-!
# Numerals

A numeral in a field rests on a proof that it is two or more.  The proofs for the numerals of the
formulas have names here, and modules of formulas use them as local instances, so that no definition
brings a proof of its own.
-/

namespace Vsys.Num

theorem atLeastTwo_two : Nat.AtLeastTwo 2 := ⟨by decide⟩

theorem atLeastTwo_three : Nat.AtLeastTwo 3 := ⟨by decide⟩

theorem atLeastTwo_five : Nat.AtLeastTwo 5 := ⟨by decide⟩

theorem atLeastTwo_eight : Nat.AtLeastTwo 8 := ⟨by decide⟩

theorem atLeastTwo_ten : Nat.AtLeastTwo 10 := ⟨by decide⟩

theorem atLeastTwo_hundred : Nat.AtLeastTwo 100 := ⟨by decide⟩

theorem atLeastTwo_thousand : Nat.AtLeastTwo 1000 := ⟨by decide⟩

theorem atLeastTwo_million : Nat.AtLeastTwo 1000000 := ⟨by decide⟩

end Vsys.Num
