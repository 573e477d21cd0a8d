import AnnotatedAtoms.Binary64.Nearest

/-!
# Rounding to a rank

What the rank nearest to a fraction depends on, and what it is for magnitudes that are ranks
already, for tiny ones and for huge ones.

* `nearestRank_congr`: only the value of the fraction matters;
* `nearestRank_units`: a magnitude rounds to its own rank;
* `nearestRank_eq_zero`, `finiteCount_le_nearestRank`: underflow and overflow.
-/

namespace AnnotatedAtoms

theorem roundHalfEven_mul_mul (k num den : Nat) (hk : 0 < k) :
    roundHalfEven (k * num) (k * den) = roundHalfEven num den := by
  have hlt : 2 * (k * (num % den)) < k * den ↔ 2 * (num % den) < den := by
    rw [Nat.mul_left_comm, Nat.mul_lt_mul_left hk]
  have heq : 2 * (k * (num % den)) = k * den ↔ 2 * (num % den) = den := by
    rw [Nat.mul_left_comm, Nat.mul_right_inj (Nat.ne_of_gt hk)]
  simp only [roundHalfEven, Nat.mul_div_mul_left _ _ hk, Nat.mul_mod_mul_left, hlt, heq]

theorem roundHalfEven_eq_zero (num den : Nat) (h : 2 * num < den) : roundHalfEven num den = 0 := by
  have hlt : num < den := by omega
  simp [roundHalfEven, Nat.mod_eq_of_lt hlt, Nat.div_eq_of_lt hlt, h]

namespace Binary64

theorem nearestRank_mul_mul (k num den : Nat) (hk : 0 < k) :
    nearestRank (k * num) (k * den) = nearestRank num den := by
  simp only [nearestRank, Nat.mul_div_mul_left _ _ hk, Nat.mul_assoc k,
    roundHalfEven_mul_mul _ _ _ hk]

/-- Two fractions of the same value have the same nearest rank. -/
theorem nearestRank_congr {num den num' den' : Nat} (hd : 0 < den) (hd' : 0 < den')
    (h : num * den' = num' * den) : nearestRank num den = nearestRank num' den' := by
  calc
    nearestRank num den = nearestRank (den' * num) (den' * den) :=
      (nearestRank_mul_mul den' num den hd').symm
    _ = nearestRank (den * num') (den * den') := by
      rw [Nat.mul_comm den' num, h, Nat.mul_comm num' den, Nat.mul_comm den' den]
    _ = nearestRank num' den' := nearestRank_mul_mul den num' den' hd

/-- Less than half of the smallest positive magnitude rounds to zero. -/
theorem nearestRank_eq_zero (num den : Nat) (h : 2 * num < den) : nearestRank num den = 0 := by
  have hdiv : num / den = 0 := Nat.div_eq_of_lt (by omega)
  simp [nearestRank, hdiv, roundHalfEven_eq_zero num den h]

/-- Magnitudes above all finite ones round to a rank that is not finite. -/
theorem finiteCount_le_nearestRank {k num den : Nat} (hk : 2099 ≤ k) (hd : 0 < den)
    (h : 2 ^ k * den ≤ num) : finiteCount ≤ nearestRank num den := by
  have hdiv : 2 ^ k ≤ num / den := (Nat.le_div_iff_mul_le hd).mpr h
  have hne : num / den ≠ 0 := Nat.ne_of_gt (Nat.lt_of_lt_of_le (Nat.two_pow_pos k) hdiv)
  have hlog : k ≤ (num / den).log2 := (Nat.le_log2 hne).mpr hdiv
  have hshift : 2047 ≤ (num / den).log2 - 52 := by omega
  calc
    finiteCount = 2047 * 2 ^ 52 := rfl
    _ ≤ ((num / den).log2 - 52) * 2 ^ 52 := Nat.mul_le_mul_right _ hshift
    _ ≤ nearestRank num den := Nat.le_add_right _ _

/-! ## Magnitudes that are ranks already -/

-- The power is generalised first, so that no step evaluates it.
theorem unitsPerOne_pos : 0 < unitsPerOne := by
  rw [unitsPerOne]
  generalize 1074 = k
  exact Nat.two_pow_pos k

theorem significand_bounds {rank : Nat} (h : 2 ^ 52 ≤ rank) :
    2 ^ 52 ≤ significand rank ∧ significand rank < 2 ^ 53 := by
  have hmod : rank % 2 ^ 52 < 2 ^ 52 := Nat.mod_lt _ (by decide)
  rw [significand, if_neg (by omega)]
  omega

/-- The binary length of a magnitude is that of its significand, moved by its scale. -/
theorem log2_units {rank : Nat} (h : 2 ^ 52 ≤ rank) : (units rank).log2 = 52 + scale rank := by
  obtain ⟨hlo, hhi⟩ := significand_bounds h
  have hpos : 0 < 2 ^ scale rank := Nat.two_pow_pos _
  have hne : units rank ≠ 0 := Nat.mul_ne_zero (by omega) (by omega)
  rw [Nat.log2_eq_iff hne]
  constructor
  · rw [Nat.pow_add]
    exact Nat.mul_le_mul_right _ hlo
  · rw [show 52 + scale rank + 1 = 53 + scale rank by omega, Nat.pow_add]
    exact Nat.mul_lt_mul_of_pos_right hhi hpos

theorem scale_add_significand {rank : Nat} (h : 2 ^ 52 ≤ rank) :
    scale rank * 2 ^ 52 + significand rank = rank := by
  rw [scale, significand, if_neg (by omega)]
  omega

/-- A magnitude rounds to its own rank. -/
theorem nearestRank_units (rank : Nat) : nearestRank (units rank) 1 = rank := by
  rcases Nat.lt_or_ge rank (2 ^ 52) with h | h
  · have hlt : rank < 2 ^ 53 := by omega
    rw [units_of_lt hlt, nearestRank_of_lt hlt]
  · have hshift : (units rank / 1).log2 - 52 = scale rank := by
      rw [Nat.div_one, log2_units h, Nat.add_sub_cancel_left]
    have hround : roundHalfEven (units rank) (1 * 2 ^ scale rank) = significand rank := by
      rw [Nat.one_mul]
      exact roundHalfEven_mul _ (Nat.two_pow_pos _)
    simp only [nearestRank, hshift, hround]
    exact scale_add_significand h

end Binary64

end AnnotatedAtoms
