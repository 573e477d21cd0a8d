/-!
# Binary64 numbers

The numbers of 64-bit binary floating point. The finite magnitudes are ranked in increasing order,
so a magnitude is one natural number; `units` says how large the magnitude of a rank is, in units
of the smallest positive one, `2 ^ -1074`.

* `units_of_lt`: below `2 ^ 53` every rank is its own number of units.
-/

namespace AnnotatedAtoms

-- A power of natural numbers is core's, also beside a library with powers of its own.
attribute [instance (10000), default_instance (10001)] instPowNat

namespace Binary64

/-- The number of finite magnitudes: 2047 blocks of `2 ^ 52` evenly spaced ones. -/
abbrev finiteCount : Nat := 2047 * 2 ^ 52

theorem finiteCount_pos : 0 < finiteCount := by decide

end Binary64

/-- A number is a signed finite magnitude, given by its rank, or one of the three special values. -/
inductive Binary64 where
  | finite (negative : Bool) (rank : Fin Binary64.finiteCount)
  | infinite (negative : Bool)
  | nan
  deriving DecidableEq, Inhabited

namespace Binary64

/-! ## Magnitudes -/

/-- The whole number that is scaled by a power of two: ranks below `2 ^ 52` are not normal. -/
def significand (rank : Nat) : Nat :=
  if rank < 2 ^ 52 then rank else 2 ^ 52 + rank % 2 ^ 52

/-- The power of two that scales it. The first two blocks have the same spacing. -/
def scale (rank : Nat) : Nat := rank / 2 ^ 52 - 1

/-- The magnitude of a rank, counted in units of `2 ^ -1074`. -/
def units (rank : Nat) : Nat := significand rank * 2 ^ scale rank

/-- How many units make one. -/
def unitsPerOne : Nat := 2 ^ 1074

theorem scale_of_lt {rank : Nat} (h : rank < 2 ^ 53) : scale rank = 0 := by
  unfold scale
  omega

theorem significand_of_lt {rank : Nat} (h : rank < 2 ^ 53) : significand rank = rank := by
  unfold significand
  split <;> omega

theorem units_of_lt {rank : Nat} (h : rank < 2 ^ 53) : units rank = rank := by
  simp [units, scale_of_lt h, significand_of_lt h]

/-! ## Signs and classes -/

def zero : Binary64 := .finite false ⟨0, finiteCount_pos⟩

/-- Not-a-number has no sign. -/
def isNegative : Binary64 → Bool
  | .finite negative _ => negative
  | .infinite negative => negative
  | .nan => false

def isFinite : Binary64 → Bool
  | .finite _ _ => true
  | _ => false

def abs : Binary64 → Binary64
  | .finite _ rank => .finite false rank
  | .infinite _ => .infinite false
  | .nan => .nan

end Binary64

end AnnotatedAtoms
