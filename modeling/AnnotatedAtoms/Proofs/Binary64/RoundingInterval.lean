import AnnotatedAtoms.Proofs.Binary64.NearestRank

/-!
# What is rounded to one magnitude

Rounding is monotone, so the fractions that are rounded to one rank are an interval around its
magnitude. The interval reaches at least `2 ^ -54` of the magnitude to either side, also below a
power of two, where the ranks lie closer together.

* `nearestRank_mono`: a larger fraction has no smaller rank;
* `units_succ_le`: how far two neighbouring magnitudes are apart;
* `nearestRank_eq_of_near`: what is near to a magnitude is rounded to it.
-/

namespace AnnotatedAtoms.Binary64

theorem nearestRank_mono {num den num' den' : Nat} (hd : 0 < den) (hd' : 0 < den')
    (h : (num : ℚ) / den ≤ num' / den') : nearestRank num den ≤ nearestRank num' den' := by
  by_contra hlt
  have hmiddle := (lt_nearestRank_iff num hd (nearestRank num' den')).mp (Nat.lt_of_not_le hlt)
  apply Nat.lt_irrefl (nearestRank num' den')
  rw [lt_nearestRank_iff num' hd']
  rcases hmiddle with habove | ⟨heq, hodd⟩
  · left
    linarith
  · rcases h.lt_or_eq with hless | hsame
    · left
      linarith
    · right
      exact ⟨by rw [heq, hsame], hodd⟩

/-- A magnitude and the one below it are at least `2 ^ -53` of it apart. -/
theorem units_succ_le (rank : Nat) :
    (units (rank + 1) : ℚ) ≤ 2 ^ 53 * (units (rank + 1) - units rank) := by
  obtain ⟨s, m, rfl, hm, hblock⟩ := exists_block rank
  have hpow : (0 : ℚ) < 2 ^ s := by positivity
  have hbound : ((m + 1 : ℕ) : ℚ) ≤ 2 ^ 53 := by exact_mod_cast hm
  rw [Nat.add_assoc, cast_units_block hm.le hblock, cast_units_block (by omega) (by omega),
    ← sub_mul, Nat.cast_add, Nat.cast_one, add_sub_cancel_left, one_mul]
  exact mul_le_mul_of_nonneg_right (by exact_mod_cast hbound) hpow.le

theorem nearestRank_eq_of_near {num den rank : Nat} (hd : 0 < den) (hpos : 0 < rank)
    (h : 2 ^ 54 * |(num : ℚ) / den - units rank| < units rank) : nearestRank num den = rank := by
  obtain ⟨below, rfl⟩ : ∃ below, rank = below + 1 := ⟨rank - 1, by omega⟩
  have hgap := units_succ_le below
  have hnext := units_succ_le (below + 1)
  have hlt := cast_units_lt (Nat.lt_succ_self (below + 1))
  have hright := le_abs_self ((num : ℚ) / den - units (below + 1))
  have hleft := neg_abs_le ((num : ℚ) / den - units (below + 1))
  apply Nat.le_antisymm
  · by_contra hmore
    rcases (lt_nearestRank_iff num hd _).mp (Nat.lt_of_not_le hmore) with habove | ⟨heq, -⟩ <;>
      linarith
  · rw [Nat.succ_le_iff, lt_nearestRank_iff num hd]
    left
    linarith

/-! ## Exact magnitudes -/

/-- The magnitude of a rank. -/
def magnitude (rank : Nat) : ℚ := units rank / unitsPerOne

theorem magnitude_strictMono : StrictMono magnitude := by
  intro i j h
  exact div_lt_div_of_pos_right (cast_units_lt h) cast_unitsPerOne_pos

theorem magnitude_zero : magnitude 0 = 0 := by
  rw [magnitude, units_of_lt (by decide), Nat.cast_zero, zero_div]

theorem magnitude_nonneg (rank : Nat) : 0 ≤ magnitude rank := by
  rw [← magnitude_zero]
  exact magnitude_strictMono.monotone (Nat.zero_le rank)

end AnnotatedAtoms.Binary64
