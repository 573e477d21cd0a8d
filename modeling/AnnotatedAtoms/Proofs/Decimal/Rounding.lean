import AnnotatedAtoms.Decimal.Basic
import AnnotatedAtoms.Proofs.Binary64.Nearest
import Mathlib.Algebra.Order.Field.Power

/-!
# Rounding of decimals

The rational number that a decimal stands for, and the binary64 number that it is rounded to.

* `finiteCount_le_rank_iff`: which decimals are too large;
* `isNearest_toBinary64`: every other one is rounded to the nearest number.
-/

namespace AnnotatedAtoms.Decimal

open Binary64

def toRat (d : Decimal) : ℚ := d.digits * 10 ^ d.exponent

theorem num_div_den (d : Decimal) : (d.num : ℚ) / d.den = d.toRat := by
  rw [toRat, num, den]
  push_cast
  rcases le_total 0 d.exponent with h | h
  · obtain ⟨k, hk⟩ := Int.eq_ofNat_of_zero_le h
    simp [hk]
  · obtain ⟨k, hk⟩ := Int.exists_eq_neg_ofNat h
    simp [hk, div_eq_mul_inv]

theorem toRat_nonneg (d : Decimal) : 0 ≤ d.toRat := by
  rw [← num_div_den]
  positivity

theorem num_units_div_den (d : Decimal) :
    ((d.num * unitsPerOne : ℕ) : ℚ) / d.den / unitsPerOne = d.toRat := by
  have hone : (unitsPerOne : ℚ) ≠ 0 := Nat.cast_ne_zero.mpr (Nat.ne_of_gt unitsPerOne_pos)
  rw [← num_div_den, Nat.cast_mul, div_right_comm, mul_div_cancel_right₀ _ hone]

/-- Which decimals are too large. -/
theorem finiteCount_le_rank_iff (d : Decimal) :
    finiteCount ≤ d.rank ↔ 2 ^ 1024 - 2 ^ 970 ≤ d.toRat := by
  rw [← num_units_div_den]
  exact finiteCount_le_nearestRank_iff _ d.den_pos

theorem isFinite_toBinary64 (negative : Bool) (d : Decimal) :
    (d.toBinary64 negative).isFinite = true ↔ d.rank < finiteCount := by
  rw [toBinary64, ofRank]
  split_ifs with h
  · exact iff_of_true rfl h
  · exact iff_of_false Bool.false_ne_true h

/-- Every other decimal is rounded to the nearest number. -/
theorem isNearest_toBinary64 (negative : Bool) {d : Decimal} (h : d.rank < finiteCount) :
    (d.toBinary64 negative).IsNearest (withSign negative d.toRat) := by
  rw [← num_units_div_den]
  exact isNearest_nearest negative _ d.den_pos h

end AnnotatedAtoms.Decimal
