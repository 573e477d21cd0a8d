import AnnotatedAtoms.Binary64.Nearest

/-!
# Decimals

A decimal is a whole number of digits and a power of ten. It names one exact magnitude, and so one
binary64 number: the nearest.
-/

namespace AnnotatedAtoms

/-- The magnitude `digits * 10 ^ exponent`. -/
structure Decimal where
  digits : Nat
  exponent : Int
  deriving DecidableEq, Inhabited

namespace Decimal

/-! The magnitude is the fraction `num / den`; one of the two powers of ten is one. -/

def num (d : Decimal) : Nat := d.digits * 10 ^ d.exponent.toNat

def den (d : Decimal) : Nat := 10 ^ (-d.exponent).toNat

theorem den_pos (d : Decimal) : 0 < d.den := Nat.pow_pos (by decide)

/-- The rank of the nearest binary64 magnitude. -/
def rank (d : Decimal) : Nat := Binary64.nearestRank (d.num * Binary64.unitsPerOne) d.den

def toBinary64 (negative : Bool) (d : Decimal) : Binary64 := Binary64.ofRank negative d.rank

end Decimal

end AnnotatedAtoms
