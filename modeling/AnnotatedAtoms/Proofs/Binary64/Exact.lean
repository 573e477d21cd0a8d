import AnnotatedAtoms.Binary64.Tolerance
import AnnotatedAtoms.Binary64.Whole
import AnnotatedAtoms.Proofs.Binary64.Rounding
import Mathlib.Algebra.Field.Rat
import Mathlib.Data.Rat.Cast.Defs

/-!
# Exact values

Every finite number is one rational number. A whole number is taken exactly when every bit of it
fits in a significand, and then the number that is taken for it has its value.

* `units_scale_add`: the magnitude with a given significand and scale;
* `toRat?_ofNat`: a whole number that is taken keeps its value.
-/

namespace AnnotatedAtoms.Binary64

/-- The value of a finite number. -/
def toRat? : Binary64 → Option ℚ
  | .finite negative rank => some (signedUnits negative rank / unitsPerOne)
  | .infinite _ | .nan => none

theorem exists_of_toRat? {x : Binary64} {q : ℚ} (h : x.toRat? = some q) :
    ∃ negative rank, x = .finite negative rank ∧ q = signedUnits negative rank / unitsPerOne := by
  cases x with
  | finite negative rank => exact ⟨negative, rank, rfl, (Option.some.inj h).symm⟩
  | infinite negative => cases h
  | nan => cases h

theorem isFinite_of_toRat? {x : Binary64} {q : ℚ} (h : x.toRat? = some q) : x.isFinite = true := by
  obtain ⟨negative, rank, rfl, -⟩ := exists_of_toRat? h
  rfl

/-! ## Whole numbers -/

/-- A normal magnitude, put together from its significand and its scale. -/
theorem units_scale_add {m : Nat} (s : Nat) (hlo : 2 ^ 52 ≤ m) (hhi : m < 2 ^ 53) :
    units (s * 2 ^ 52 + m) = m * 2 ^ s := by
  have hscale : scale (s * 2 ^ 52 + m) = s := by
    unfold scale
    omega
  have hsignificand : significand (s * 2 ^ 52 + m) = m := by
    rw [significand, if_neg (by omega)]
    omega
  rw [units, hscale, hsignificand]

/-- A whole number with at most 53 bits has a magnitude, whatever power of two scales it. -/
theorem exists_units_eq {n k : Nat} (hn : n < 2 ^ 53) (hk : 52 ≤ k) :
    ∃ rank, units rank = n * 2 ^ k ∧ rank < (k + 2) * 2 ^ 52 := by
  rcases Nat.eq_zero_or_pos n with rfl | hpos
  · refine ⟨0, ?_, by omega⟩
    rw [units_of_lt (by decide), Nat.zero_mul]
  · -- The significand is moved up until its highest bit is the 53rd.
    have hlog : n.log2 ≤ 52 := Nat.lt_succ_iff.mp ((Nat.log2_lt (by omega)).mpr hn)
    have hsplit : 2 ^ n.log2 * 2 ^ (52 - n.log2) = 2 ^ 52 := by
      rw [← Nat.pow_add, Nat.add_sub_cancel' hlog]
    have hup : 0 < 2 ^ (52 - n.log2) := Nat.two_pow_pos _
    have hlo : 2 ^ 52 ≤ n * 2 ^ (52 - n.log2) := by
      rw [← hsplit]
      exact Nat.mul_le_mul_right _ (Nat.log2_self_le (by omega))
    have hhi : n * 2 ^ (52 - n.log2) < 2 ^ 53 := by
      calc
        n * 2 ^ (52 - n.log2) < 2 ^ (n.log2 + 1) * 2 ^ (52 - n.log2) :=
          Nat.mul_lt_mul_of_pos_right Nat.lt_log2_self hup
        _ = 2 * (2 ^ n.log2 * 2 ^ (52 - n.log2)) := by rw [Nat.pow_succ', Nat.mul_assoc]
        _ = 2 * 2 ^ 52 := by rw [hsplit]
        _ = 2 ^ 53 := rfl
    refine ⟨(k - (52 - n.log2)) * 2 ^ 52 + n * 2 ^ (52 - n.log2), ?_, by omega⟩
    rw [units_scale_add _ hlo hhi, Nat.mul_assoc, ← Nat.pow_add,
      Nat.add_sub_cancel' (by omega : 52 - n.log2 ≤ k)]

theorem toRat?_ofNat {n : Nat} (h : n ≤ maxExactWhole) : (ofNat n).toRat? = some (n : ℚ) := by
  have hn : n < 2 ^ 53 := Nat.lt_of_le_of_lt h (by decide)
  obtain ⟨rank, hunits, hrank⟩ := exists_units_eq hn (by decide : 52 ≤ 1074)
  have hnearest : nearestRank (n * unitsPerOne) 1 = rank := by
    rw [unitsPerOne, ← hunits, nearestRank_units]
  have hfinite : rank < finiteCount := Nat.lt_of_lt_of_le hrank (by decide)
  have hone : (unitsPerOne : ℚ) ≠ 0 := Nat.cast_ne_zero.mpr (Nat.ne_of_gt unitsPerOne_pos)
  have hvalue : ((units rank : ℕ) : ℚ) / unitsPerOne = n := by
    rw [hunits, ← unitsPerOne, Nat.cast_mul, mul_div_cancel_right₀ _ hone]
  rw [ofNat, nearest, hnearest, ofRank, dif_pos hfinite, toRat?, signedUnits,
    if_neg Bool.false_ne_true, Int.cast_natCast, hvalue]

end AnnotatedAtoms.Binary64
