import AnnotatedAtoms.Binary64.Nearest

/-!
# Comparison within a tolerance

Two numbers count as equal when their rounded difference is at most `2 ^ -52`. Not-a-number and the
infinities are equal to nothing, not even to themselves.
-/

namespace AnnotatedAtoms.Binary64

/-- A finite number as a whole number of units. -/
def signedUnits (negative : Bool) (rank : Nat) : Int :=
  if negative then -(units rank : Int) else units rank

/-- The exact difference, rounded. Equal infinities have no difference. -/
def sub : Binary64 → Binary64 → Binary64
  | .finite s m, .finite t n =>
    let difference := signedUnits s m - signedUnits t n
    if difference = 0 then .finite (s && !t) ⟨0, finiteCount_pos⟩
    else nearest (difference < 0) difference.natAbs 1
  | .finite _ _, .infinite t => .infinite (!t)
  | .infinite s, .finite _ _ => .infinite s
  | .infinite s, .infinite t => if s = t then .nan else .infinite s
  | .nan, _ => .nan
  | _, .nan => .nan

/-- The rank of `2 ^ -52`, the distance from one to the next number. -/
def epsilonRank : Nat := (1023 - 52) * 2 ^ 52

def approxEq (x y : Binary64) : Bool :=
  match x.sub y with
  | .finite _ rank => rank.val ≤ epsilonRank
  | _ => false

end AnnotatedAtoms.Binary64
