import AnnotatedAtoms.Proofs.Binary64.Exact
import Mathlib.Algebra.Order.Field.Basic
import Mathlib.Algebra.Order.Ring.Rat
import Mathlib.Order.Monotone.Basic
import Mathlib.Tactic.FieldSimp
import Mathlib.Tactic.Linarith
import Mathlib.Tactic.Ring

/-!
# Nearest ranks

The rank that a fraction of units is rounded to has the magnitude nearest to it, among the ranks of
all sizes; of two magnitudes that are equally near it is the one with the even rank.

* `units_strictMono`: a larger rank is a larger magnitude;
* `nearestRank_nearest`: no other rank is nearer;
* `lt_nearestRank_iff`: which fractions are rounded to a rank above a given one.
-/

namespace AnnotatedAtoms

/-! ## Whole numbers -/

theorem div_eq_quotient_add (num : Nat) {den : Nat} (hd : 0 < den) :
    (num : ℚ) / den = (num / den : ℕ) + (num % den : ℕ) / den := by
  have hden : (den : ℚ) ≠ 0 := by positivity
  have hsplit : (num : ℚ) = den * (num / den : ℕ) + (num % den : ℕ) := by
    exact_mod_cast (Nat.div_add_mod num den).symm
  field_simp
  exact hsplit

theorem quotient_bounds (num : Nat) {den : Nat} (hd : 0 < den) :
    ((num / den : ℕ) : ℚ) ≤ num / den ∧ (num : ℚ) / den < (num / den : ℕ) + 1 := by
  have hpos : (0 : ℚ) < den := by exact_mod_cast hd
  have hrest : ((num % den : ℕ) : ℚ) / den < 1 := by
    rw [div_lt_one hpos]
    exact_mod_cast Nat.mod_lt num hd
  have hnonneg : (0 : ℚ) ≤ (num % den : ℕ) / den := by positivity
  rw [div_eq_quotient_add num hd]
  constructor <;> linarith

/-- A fraction is rounded by one half at most, and by one half only to an even number. -/
theorem roundHalfEven_error (num : Nat) {den : Nat} (hd : 0 < den) :
    |(roundHalfEven num den : ℚ) - num / den| < 1 / 2 ∨
      |(roundHalfEven num den : ℚ) - num / den| = 1 / 2 ∧ roundHalfEven num den % 2 = 0 := by
  have hpos : (0 : ℚ) < den := by exact_mod_cast hd
  have hrest : (num % den : ℕ) < (den : ℚ) := by exact_mod_cast Nat.mod_lt num hd
  have hnonneg : (0 : ℚ) ≤ (num % den : ℕ) / den := by positivity
  rw [div_eq_quotient_add num hd]
  simp only [roundHalfEven]
  generalize num / den = q
  split_ifs with hbelow htie
  · left
    have hhalf : ((num % den : ℕ) : ℚ) / den < 1 / 2 := by
      rw [div_lt_div_iff₀ hpos two_pos, one_mul, mul_comm]
      exact_mod_cast hbelow
    rw [sub_add_cancel_left, abs_neg, abs_of_nonneg hnonneg]
    exact hhalf
  · right
    have hhalf : ((num % den : ℕ) : ℚ) / den = 1 / 2 := by
      rw [div_eq_div_iff hpos.ne' two_ne_zero, one_mul, mul_comm]
      exact_mod_cast htie
    rw [hhalf]
    rcases Nat.mod_two_eq_zero_or_one q with heven | hodd
    · rw [heven, Nat.add_zero, sub_add_cancel_left, abs_neg, abs_of_pos one_half_pos]
      exact ⟨rfl, heven⟩
    · rw [hodd, Nat.cast_add, Nat.cast_one, add_sub_add_left_eq_sub]
      exact ⟨by norm_num, by omega⟩
  · left
    have hhalf : 1 / 2 < ((num % den : ℕ) : ℚ) / den := by
      rw [div_lt_div_iff₀ two_pos hpos, one_mul, mul_comm]
      exact_mod_cast (by omega : den < 2 * (num % den))
    have hone : ((num % den : ℕ) : ℚ) / den < 1 := (div_lt_one hpos).mpr hrest
    rw [Nat.cast_add, Nat.cast_one, add_sub_add_left_eq_sub, abs_of_pos (by linarith)]
    linarith

theorem roundHalfEven_nearest (num : Nat) {den j : Nat} (hd : 0 < den)
    (hj : j ≠ roundHalfEven num den) :
    |(roundHalfEven num den : ℚ) - num / den| < |(j : ℚ) - num / den| ∨
      |(roundHalfEven num den : ℚ) - num / den| = |(j : ℚ) - num / den| ∧
        roundHalfEven num den % 2 = 0 := by
  have herror := roundHalfEven_error num hd
  revert hj herror
  generalize roundHalfEven num den = n
  intro hj herror
  -- Two whole numbers are one apart, so the other is at least one half away.
  have hapart : (1 : ℚ) ≤ |(j : ℚ) - n| := by
    have hint : (1 : ℤ) ≤ |(j : ℤ) - n| := Int.one_le_abs (by omega)
    exact_mod_cast hint
  have htriangle := abs_sub_le (j : ℚ) (num / den) n
  rw [abs_sub_comm (num / den : ℚ)] at htriangle
  rcases herror with hless | ⟨hhalf, heven⟩
  · left
    linarith
  · rcases (show 1 / 2 ≤ |(j : ℚ) - num / den| by linarith).lt_or_eq with hlt | heq
    · left
      linarith
    · right
      exact ⟨hhalf.trans heq, heven⟩

theorem roundHalfEven_bounds (num den : Nat) :
    num / den ≤ roundHalfEven num den ∧ roundHalfEven num den ≤ num / den + 1 := by
  unfold roundHalfEven
  dsimp only
  split_ifs <;> omega

namespace Binary64

/-! ## Ranks in order -/

/-- The magnitudes of a block and the first one behind it. -/
theorem units_block {s m : Nat} (hm : m ≤ 2 ^ 53) (h : s = 0 ∨ 2 ^ 52 ≤ m) :
    units (s * 2 ^ 52 + m) = m * 2 ^ s := by
  rcases Nat.lt_or_eq_of_le hm with hlt | rfl
  · rcases Nat.lt_or_ge m (2 ^ 52) with hsmall | hlarge
    · obtain rfl : s = 0 := by omega
      rw [Nat.zero_mul, Nat.zero_add, units_of_lt hlt, Nat.pow_zero, Nat.mul_one]
    · exact units_scale_add s hlarge hlt
  · have hnext := units_scale_add (m := 2 ^ 52) (s + 1) (Nat.le_refl _) (by decide)
    rw [show s * 2 ^ 52 + 2 ^ 53 = (s + 1) * 2 ^ 52 + 2 ^ 52 by omega, hnext, Nat.pow_succ']
    omega

theorem cast_units_block {s m : Nat} (hm : m ≤ 2 ^ 53) (h : s = 0 ∨ 2 ^ 52 ≤ m) :
    (units (s * 2 ^ 52 + m) : ℚ) = m * 2 ^ s := by
  rw [units_block hm h]
  push_cast
  rfl

theorem exists_block (rank : Nat) :
    ∃ s m, rank = s * 2 ^ 52 + m ∧ m < 2 ^ 53 ∧ (s = 0 ∨ 2 ^ 52 ≤ m) := by
  rcases Nat.lt_or_ge rank (2 ^ 52) with h | h
  · exact ⟨0, rank, by omega, by omega, .inl rfl⟩
  · obtain ⟨hlo, hhi⟩ := significand_bounds h
    exact ⟨scale rank, significand rank, (scale_add_significand h).symm, hhi, .inr hlo⟩

theorem units_strictMono : StrictMono units := by
  apply strictMono_nat_of_lt_succ
  intro rank
  obtain ⟨s, m, rfl, hm, h⟩ := exists_block rank
  rw [Nat.add_assoc, units_block (by omega) h, units_block (by omega) (by omega)]
  exact Nat.mul_lt_mul_of_pos_right (Nat.lt_succ_self m) (Nat.two_pow_pos s)

theorem cast_units_lt {i j : Nat} (h : i < j) : (units i : ℚ) < units j := by
  exact_mod_cast units_strictMono h

/-- A significand is even when its rank is. -/
theorem significand_mod_two (rank : Nat) : significand rank % 2 = rank % 2 := by
  unfold significand
  split <;> omega

/-! ## The nearest rank -/

/-- The shift that `nearestRank` chooses puts the fraction into one block. -/
theorem quotient_in_block (num den : Nat) :
    num / (den * 2 ^ ((num / den).log2 - 52)) < 2 ^ 53 ∧
      ((num / den).log2 - 52 = 0 ∨ 2 ^ 52 ≤ num / (den * 2 ^ ((num / den).log2 - 52))) := by
  rw [← Nat.div_div_eq_div_mul]
  generalize num / den = w
  constructor
  · rw [Nat.div_lt_iff_lt_mul (Nat.two_pow_pos _), ← Nat.pow_add]
    calc
      w < 2 ^ (w.log2 + 1) := Nat.lt_log2_self
      _ ≤ 2 ^ (53 + (w.log2 - 52)) := Nat.pow_le_pow_right (by decide) (by omega)
  · rcases Nat.eq_zero_or_pos (w.log2 - 52) with hzero | hpos
    · exact .inl hzero
    · right
      have hw : w ≠ 0 := by
        rintro rfl
        simp at hpos
      rw [Nat.le_div_iff_mul_le (Nat.two_pow_pos _), ← Nat.pow_add]
      calc
        2 ^ (52 + (w.log2 - 52)) = 2 ^ w.log2 := by rw [Nat.add_sub_cancel' (by omega)]
        _ ≤ w := Nat.log2_self_le hw

/-- Whatever rank is compared, one of the multiples of `2 ^ s` around a fraction in the block is the
magnitude of that rank or nearer to the fraction. -/
theorem exists_neighbour {t : ℚ} {s m : Nat} (hm : m < 2 ^ 53) (h : s = 0 ∨ 2 ^ 52 ≤ m)
    (hlo : m ≤ t) (hhi : t < m + 1) (r : Nat) :
    ∃ j : Nat, r = s * 2 ^ 52 + j ∧ (units r : ℚ) = j * 2 ^ s ∨
      |(j : ℚ) * 2 ^ s - t * 2 ^ s| < |(units r : ℚ) - t * 2 ^ s| := by
  have hpow : (0 : ℚ) < 2 ^ s := by positivity
  have hblock : (units (s * 2 ^ 52 + m) : ℚ) = m * 2 ^ s := cast_units_block (by omega) h
  have hnext : (units (s * 2 ^ 52 + (m + 1)) : ℚ) = (m + 1 : ℕ) * 2 ^ s :=
    cast_units_block (by omega) (by omega)
  have hbelow : (m : ℚ) * 2 ^ s ≤ t * 2 ^ s := mul_le_mul_of_nonneg_right hlo hpow.le
  have habove : t * 2 ^ s < ((m + 1 : ℕ) : ℚ) * 2 ^ s := by
    push_cast
    exact mul_lt_mul_of_pos_right hhi hpow
  rcases Nat.lt_trichotomy r (s * 2 ^ 52 + m) with hr | rfl | hr
  · refine ⟨m, .inr ?_⟩
    have hless : (units r : ℚ) < m * 2 ^ s := hblock ▸ cast_units_lt hr
    rw [abs_of_nonpos (by linarith), abs_of_nonpos (by linarith)]
    linarith
  · exact ⟨m, .inl ⟨rfl, hblock⟩⟩
  · rcases Nat.eq_or_lt_of_le (Nat.succ_le_of_lt hr) with rfl | hlt
    · exact ⟨m + 1, .inl ⟨by omega, hnext⟩⟩
    · refine ⟨m + 1, .inr ?_⟩
      have hmore : ((m + 1 : ℕ) : ℚ) * 2 ^ s < units r := hnext ▸ cast_units_lt (by omega)
      rw [abs_of_pos (by linarith), abs_of_pos (by linarith)]
      linarith

/-- A whole number that is nearest to a fraction in the block gives the nearest rank. -/
theorem nearest_in_block {t : ℚ} {s m n r : Nat} (hm : m < 2 ^ 53) (h : s = 0 ∨ 2 ^ 52 ≤ m)
    (hlo : m ≤ t) (hhi : t < m + 1) (hn : m ≤ n ∧ n ≤ m + 1)
    (hnearest : ∀ j : Nat, j ≠ n →
      |(n : ℚ) - t| < |(j : ℚ) - t| ∨ |(n : ℚ) - t| = |(j : ℚ) - t| ∧ n % 2 = 0)
    (hr : r ≠ s * 2 ^ 52 + n) :
    |(units (s * 2 ^ 52 + n) : ℚ) - t * 2 ^ s| < |(units r : ℚ) - t * 2 ^ s| ∨
      |(units (s * 2 ^ 52 + n) : ℚ) - t * 2 ^ s| = |(units r : ℚ) - t * 2 ^ s| ∧
        (s * 2 ^ 52 + n) % 2 = 0 := by
  have hpow : (0 : ℚ) < 2 ^ s := by positivity
  have hunits : (units (s * 2 ^ 52 + n) : ℚ) = n * 2 ^ s :=
    cast_units_block (by omega) (by omega)
  have hparity : (s * 2 ^ 52 + n) % 2 = n % 2 := by omega
  have hscale (j : Nat) : |(j : ℚ) * 2 ^ s - t * 2 ^ s| = |(j : ℚ) - t| * 2 ^ s := by
    rw [← sub_mul, abs_mul, abs_of_pos hpow]
  rw [hunits, hparity, hscale]
  obtain ⟨j, ⟨rfl, hj⟩ | hcloser⟩ := exists_neighbour hm h hlo hhi r
  · rw [hj, hscale, mul_lt_mul_iff_left₀ hpow, mul_left_inj' hpow.ne']
    exact hnearest j (by omega)
  · rw [hscale] at hcloser
    left
    rcases eq_or_ne j n with rfl | hjn
    · exact hcloser
    · have hle : |(n : ℚ) - t| ≤ |(j : ℚ) - t| := by
        rcases hnearest j hjn with hlt | ⟨heq, -⟩
        · exact hlt.le
        · exact heq.le
      exact lt_of_le_of_lt (mul_le_mul_of_nonneg_right hle hpow.le) hcloser

/-- Of all ranks the one that is rounded to is the nearest; where another is as near, it is even. -/
theorem nearestRank_nearest (num : Nat) {den r : Nat} (hd : 0 < den)
    (hr : r ≠ nearestRank num den) :
    |(units (nearestRank num den) : ℚ) - num / den| < |(units r : ℚ) - num / den| ∨
      |(units (nearestRank num den) : ℚ) - num / den| = |(units r : ℚ) - num / den| ∧
        nearestRank num den % 2 = 0 := by
  obtain ⟨hm, h⟩ := quotient_in_block num den
  have hrank : nearestRank num den = ((num / den).log2 - 52) * 2 ^ 52 +
    roundHalfEven num (den * 2 ^ ((num / den).log2 - 52)) := rfl
  revert hr hm h
  rw [hrank]
  generalize (num / den).log2 - 52 = s
  intro hr hm h
  have hden : 0 < den * 2 ^ s := Nat.mul_pos hd (Nat.two_pow_pos s)
  have hfraction : (num : ℚ) / den = num / (den * 2 ^ s : ℕ) * 2 ^ s := by
    push_cast
    field_simp
  obtain ⟨hlo, hhi⟩ := quotient_bounds num hden
  rw [hfraction]
  exact nearest_in_block hm h hlo hhi (roundHalfEven_bounds num (den * 2 ^ s))
    (fun j hj => roundHalfEven_nearest num hden hj) hr

/-! ## Thresholds -/

theorem abs_sub_lt_abs_sub_iff {a b q : ℚ} (h : a < b) : |a - q| < |b - q| ↔ 2 * q < a + b := by
  have hfactors : (b - q) ^ 2 - (a - q) ^ 2 = (b - a) * (a + b - 2 * q) := by ring
  rw [← sq_lt_sq, ← sub_pos, hfactors, mul_pos_iff_of_pos_left (sub_pos.mpr h), sub_pos]

theorem abs_sub_eq_abs_sub_iff {a b q : ℚ} (h : a < b) : |a - q| = |b - q| ↔ 2 * q = a + b := by
  have hfactors : (a - q) ^ 2 - (b - q) ^ 2 = (b - a) * (2 * q - (a + b)) := by ring
  rw [← sq_eq_sq_iff_abs_eq_abs, ← sub_eq_zero, hfactors,
    mul_eq_zero_iff_left (sub_pos.mpr h).ne', sub_eq_zero]

/-- A fraction lies above the middle between a magnitude and the larger one that it is rounded to,
or in the middle where that has the even rank. -/
theorem middle_of_lt_nearestRank (num : Nat) {den r : Nat} (hd : 0 < den)
    (h : r < nearestRank num den) :
    (units r + units (nearestRank num den) : ℚ) < 2 * (num / den) ∨
      (units r + units (nearestRank num den) : ℚ) = 2 * (num / den) ∧
        nearestRank num den % 2 = 0 := by
  have hunits := cast_units_lt h
  rcases nearestRank_nearest num hd h.ne with hcloser | ⟨heq, heven⟩
  · left
    have hne := mt (abs_sub_eq_abs_sub_iff hunits).mpr hcloser.ne'
    have hnlt := mt (abs_sub_lt_abs_sub_iff hunits).mpr hcloser.not_gt
    exact lt_of_le_of_ne (not_lt.mp hnlt) (Ne.symm hne)
  · exact .inr ⟨((abs_sub_eq_abs_sub_iff hunits).mp heq.symm).symm, heven⟩

/-- It lies below the middle between the magnitude that it is rounded to and a larger one, or in the
middle where that has the even rank. -/
theorem middle_of_nearestRank_lt (num : Nat) {den r : Nat} (hd : 0 < den)
    (h : nearestRank num den < r) :
    2 * (num / den) < (units (nearestRank num den) + units r : ℚ) ∨
      2 * (num / den) = (units (nearestRank num den) + units r : ℚ) ∧
        nearestRank num den % 2 = 0 := by
  have hunits := cast_units_lt h
  rcases nearestRank_nearest num hd h.ne' with hcloser | ⟨heq, heven⟩
  · exact .inl ((abs_sub_lt_abs_sub_iff hunits).mp hcloser)
  · exact .inr ⟨(abs_sub_eq_abs_sub_iff hunits).mp heq, heven⟩

/-- A fraction is rounded to a rank above a given one where it lies above the middle between that
magnitude and the next, or in the middle where the next rank is even. -/
theorem lt_nearestRank_iff (num : Nat) {den : Nat} (hd : 0 < den) (r : Nat) :
    r < nearestRank num den ↔
      (units r + units (r + 1) : ℚ) < 2 * (num / den) ∨
        (units r + units (r + 1) : ℚ) = 2 * (num / den) ∧ r % 2 = 1 := by
  constructor
  · intro hlt
    have hmiddle := middle_of_lt_nearestRank num hd hlt
    rcases Nat.eq_or_lt_of_le (Nat.succ_le_of_lt hlt) with hnext | hbeyond
    · rw [← hnext] at hmiddle
      rcases hmiddle with habove | ⟨heq, heven⟩
      · exact .inl habove
      · exact .inr ⟨heq, by omega⟩
    · left
      have hunits := cast_units_lt hbeyond
      rcases hmiddle with habove | ⟨heq, -⟩ <;> linarith
  · intro hmiddle
    by_contra hle
    have hbelow := middle_of_nearestRank_lt num hd (Nat.lt_succ_of_le (Nat.le_of_not_lt hle))
    rcases Nat.eq_or_lt_of_le (Nat.le_of_not_lt hle) with hsame | hless
    · rw [hsame] at hbelow
      rcases hmiddle with habove | ⟨heq, hodd⟩
      · rcases hbelow with hless | ⟨heq, -⟩ <;> linarith
      · rcases hbelow with hless | ⟨-, heven⟩
        · linarith
        · omega
    · have hunits := cast_units_lt hless
      rcases hmiddle with habove | ⟨heq, -⟩ <;> rcases hbelow with hless | ⟨heq', -⟩ <;> linarith

/-! ## Overflow -/

-- The exponents are variables, so that no step evaluates the powers.
/-- The middle between the last magnitude of a block and the first one behind it, where one is
`2 ^ m` units. -/
theorem units_add_units_last {a b k m : Nat} (hone : unitsPerOne = 2 ^ m) (ha : a = k + 1 + m)
    (hb : b = 54 + k) :
    (units (a * 2 ^ 52 + (2 ^ 53 - 1)) + units (a * 2 ^ 52 + 2 ^ 53) : ℚ) =
      2 * ((2 ^ b - 2 ^ k) * unitsPerOne) := by
  have hsum : units (a * 2 ^ 52 + (2 ^ 53 - 1)) + units (a * 2 ^ 52 + 2 ^ 53) =
      (2 ^ 54 - 1) * 2 ^ a := by
    rw [units_block (by decide) (.inr (by decide)), units_block (by decide) (.inr (by decide)),
      ← Nat.add_mul]
  rw [← Nat.cast_add, hsum, hone, ha, hb]
  push_cast
  ring

theorem cast_unitsPerOne_pos : (0 : ℚ) < unitsPerOne := by exact_mod_cast unitsPerOne_pos

/-- The largest finite magnitude is `2 ^ 1024 - 2 ^ 971`. What lies half a step behind it, or
further, is rounded to infinity. -/
theorem finiteCount_le_nearestRank_iff (num : Nat) {den : Nat} (hd : 0 < den) :
    finiteCount ≤ nearestRank num den ↔ 2 ^ 1024 - 2 ^ 970 ≤ (num : ℚ) / den / unitsPerOne := by
  have hlast : finiteCount - 1 = 2045 * 2 ^ 52 + (2 ^ 53 - 1) := by decide
  have hnext : finiteCount - 1 + 1 = 2045 * 2 ^ 52 + 2 ^ 53 := by decide
  have hodd : (finiteCount - 1) % 2 = 1 := by decide
  have hsum : (units (finiteCount - 1) + units (finiteCount - 1 + 1) : ℚ) =
      2 * ((2 ^ 1024 - 2 ^ 970) * unitsPerOne) := by
    rw [hnext, hlast]
    exact units_add_units_last rfl rfl rfl
  have hlt := lt_nearestRank_iff num hd (finiteCount - 1)
  rw [hsum, and_iff_left hodd, ← le_iff_lt_or_eq, mul_le_mul_iff_right₀ two_pos] at hlt
  rw [le_div_iff₀ cast_unitsPerOne_pos, ← hlt, Nat.lt_iff_add_one_le,
    Nat.sub_add_cancel finiteCount_pos]

end Binary64

end AnnotatedAtoms
