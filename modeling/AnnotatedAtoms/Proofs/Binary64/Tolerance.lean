import AnnotatedAtoms.Binary64.Tolerance
import AnnotatedAtoms.Proofs.Binary64.Rounding

/-!
# Equality within the tolerance

Two finite numbers are compared by the rank that is nearest to their distance; every other number is
equal to nothing. So the comparison is symmetric, and the finite numbers are those that are equal
to themselves.

* `isTolerated_ofRank`: which differences are tolerated;
* `approxEq_finite`: the comparison of finite numbers;
* `approxEq_comm`, `approxEq_self_iff`: its laws.
-/

namespace AnnotatedAtoms.Binary64

theorem isFinite_iff (x : Binary64) :
    x.isFinite = true ↔ x ≠ .nan ∧ ∀ negative, x ≠ .infinite negative := by
  cases x <;> simp [isFinite]

/-! ## Finite numbers -/

/-- The test that a difference is put to. -/
def isTolerated : Binary64 → Bool
  | .finite _ rank => rank.val ≤ epsilonRank
  | .infinite _ | .nan => false

theorem approxEq_eq_isTolerated (x y : Binary64) : x.approxEq y = (x.sub y).isTolerated := by
  unfold approxEq isTolerated
  cases x.sub y <;> rfl

/-- A rank that is too large to be finite is too large to be tolerated. -/
theorem isTolerated_ofRank (negative : Bool) (rank : Nat) :
    (ofRank negative rank).isTolerated = decide (rank ≤ epsilonRank) := by
  have hepsilon : epsilonRank < finiteCount := by decide
  unfold ofRank
  split
  · rfl
  · rename_i hrank
    exact (decide_eq_false (by omega)).symm

/-- Only the distance of two finite numbers matters, rounded to a rank. -/
theorem approxEq_finite (s t : Bool) (m n : Fin finiteCount) :
    (finite s m).approxEq (finite t n) =
      decide (nearestRank (signedUnits s m - signedUnits t n).natAbs 1 ≤ epsilonRank) := by
  rw [approxEq_eq_isTolerated, sub]
  split
  · rename_i hdiff
    have hzero : nearestRank (Int.natAbs 0) 1 ≤ epsilonRank := by decide
    rw [hdiff]
    exact (decide_eq_true hzero).symm
  · exact isTolerated_ofRank _ _

/-! ## The laws -/

theorem approxEq_comm (x y : Binary64) : x.approxEq y = y.approxEq x := by
  cases x with
  | finite s m =>
    cases y with
    | finite t n => rw [approxEq_finite, approxEq_finite, ← Int.natAbs_neg, Int.neg_sub]
    | infinite t => rfl
    | nan => rfl
  | infinite s =>
    cases y with
    | finite t n => rfl
    | infinite t => cases s <;> cases t <;> rfl
    | nan => rfl
  | nan => cases y <;> rfl

theorem approxEq_self_iff (x : Binary64) : x.approxEq x = true ↔ x.isFinite = true := by
  cases x with
  | finite s m =>
    rw [approxEq_finite, Int.sub_self]
    exact iff_of_true (by decide) rfl
  | infinite s => cases s <;> decide
  | nan => decide

end AnnotatedAtoms.Binary64
