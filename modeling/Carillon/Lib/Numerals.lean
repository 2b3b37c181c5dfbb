/-
# Numerals

A numeral from two on, in a type with a cast from the natural numbers, rests on a proof that it is
at least two.  Inside a definition Lean names such a proof after the first definition of the file
that needs it.  The numerals that definitions of several modules share have named proofs here, so
that a definition is the same term whatever has been defined before it.
-/
import Mathlib.Data.Nat.Cast.Defs

namespace Numerals

instance two : Nat.AtLeastTwo 2 := ⟨by decide⟩

instance three : Nat.AtLeastTwo 3 := ⟨by decide⟩

instance four : Nat.AtLeastTwo 4 := ⟨by decide⟩

instance five : Nat.AtLeastTwo 5 := ⟨by decide⟩

instance eight : Nat.AtLeastTwo 8 := ⟨by decide⟩

instance sixteen : Nat.AtLeastTwo 16 := ⟨by decide⟩

instance fiveHundred : Nat.AtLeastTwo 500 := ⟨by decide⟩

instance thousand : Nat.AtLeastTwo 1000 := ⟨by decide⟩

instance tenThousand : Nat.AtLeastTwo 10000 := ⟨by decide⟩

/-- The numerator of the normal-consistency factor of the median absolute deviation, in ten
thousandths. -/
instance madFactor : Nat.AtLeastTwo 14826 := ⟨by decide⟩

instance million : Nat.AtLeastTwo 1000000 := ⟨by decide⟩

instance billion : Nat.AtLeastTwo 1000000000 := ⟨by decide⟩

end Numerals
