import AnnotatedAtoms.Binary64.Nearest

/-!
# Whole numbers as binary64 numbers

A whole number is taken only where every smaller one is a binary64 number too, so that no digit of
it can be lost. Any other is refused with the error that the caller names.
-/

namespace AnnotatedAtoms.Binary64

/-- The number nearest to a whole number. -/
def ofNat (n : Nat) : Binary64 := nearest false (n * unitsPerOne) 1

/-- The largest whole number that is taken. -/
def maxExactWhole : Nat := 2 ^ 53 - 1

def ofNatExact {ε : Type} (n : Nat) (refusal : ε) : Except ε Binary64 :=
  if n ≤ maxExactWhole then .ok (ofNat n) else .error refusal

def ofUInt64Exact {ε : Type} (word : UInt64) (refusal : ε) : Except ε Binary64 :=
  ofNatExact word.toNat refusal

end AnnotatedAtoms.Binary64
