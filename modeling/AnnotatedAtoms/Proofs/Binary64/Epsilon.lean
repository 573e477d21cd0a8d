import AnnotatedAtoms.Proofs.Binary64.Nearest
import AnnotatedAtoms.Proofs.Binary64.Tolerance

/-!
# Which differences are tolerated

The comparison rounds a difference before it looks at it, so slightly more than `2 ^ -52` is
tolerated: everything up to the middle between `2 ^ -52` and the next number, which is a tie and
goes to `2 ^ -52`. Numbers of at least two are further apart than that.

* `nearestRank_le_epsilonRank_iff`: which fractions are rounded to `2 ^ -52` or less;
* `two_pow_dvd_units`: large magnitudes are multiples of a large power of two;
* `approxEq_exact`: what the comparison means for the values of the numbers.
-/

namespace AnnotatedAtoms.Binary64

/-! ## The threshold -/

-- The exponents are variables, so that no step evaluates the powers.
/-- The first magnitude of a block is a power of two. -/
theorem units_first_div {j k m : Nat} (hone : unitsPerOne = 2 ^ m) (hm : m = 52 + k + j) :
    (units (k * 2 ^ 52 + 2 ^ 52) : ℚ) / unitsPerOne = 1 / 2 ^ j := by
  rw [cast_units_block (by decide) (.inr (Nat.le_refl _)), hone, hm, Nat.cast_pow, Nat.cast_pow,
    Nat.cast_ofNat, ← pow_add, pow_add _ (52 + k), div_mul_cancel_left₀ (by positivity), one_div]

/-- The middle between `2 ^ -52` and the next number. -/
theorem units_add_units_epsilon {k m : Nat} (hone : unitsPerOne = 2 ^ m) (hm : m = k + 104) :
    (units (k * 2 ^ 52 + 2 ^ 52) + units (k * 2 ^ 52 + (2 ^ 52 + 1)) : ℚ) =
      2 * ((1 / 2 ^ 52 + 1 / 2 ^ 105) * unitsPerOne) := by
  rw [cast_units_block (by decide) (.inr (by decide)),
    cast_units_block (by decide) (.inr (by decide)), hone, hm]
  push_cast
  rw [pow_add]
  ring

theorem epsilonRank_eq : epsilonRank = 970 * 2 ^ 52 + 2 ^ 52 := by decide

theorem units_epsilonRank : (units epsilonRank : ℚ) / unitsPerOne = 1 / 2 ^ 52 := by
  rw [epsilonRank_eq]
  exact units_first_div rfl rfl

theorem units_epsilonRank_add : (units epsilonRank + units (epsilonRank + 1) : ℚ) =
    2 * ((1 / 2 ^ 52 + 1 / 2 ^ 105) * unitsPerOne) := by
  rw [epsilonRank_eq]
  exact units_add_units_epsilon rfl rfl

/-- A fraction is rounded to `2 ^ -52` or less up to the middle behind it. The rank of `2 ^ -52` is
even, so the middle itself is rounded down. -/
theorem nearestRank_le_epsilonRank_iff (num : Nat) {den : Nat} (hd : 0 < den) :
    nearestRank num den ≤ epsilonRank ↔
      (num : ℚ) / den / unitsPerOne ≤ 1 / 2 ^ 52 + 1 / 2 ^ 105 := by
  have heven : epsilonRank % 2 ≠ 1 := by decide
  have hlt := lt_nearestRank_iff num hd epsilonRank
  rw [units_epsilonRank_add, mul_lt_mul_iff_right₀ two_pos] at hlt
  rw [← Nat.not_lt, hlt, div_le_iff₀ cast_unitsPerOne_pos]
  simp only [heven, and_false, or_false, not_lt]

/-! The same for the nearest number of a value, however it is found. -/

theorem le_of_isNearest_le_epsilon {z : Binary64} {e v : ℚ} (hz : z.IsNearest v)
    (he : z.toRat? = some e) (hle : e ≤ 1 / 2 ^ 52) : v ≤ 1 / 2 ^ 52 + 1 / 2 ^ 105 := by
  obtain ⟨e', he', hnearest⟩ := hz
  obtain rfl : e' = e := Option.some.inj (he'.symm.trans he)
  -- The next number behind `2 ^ -52` is not nearer.
  have hnext : epsilonRank + 1 < finiteCount := by decide
  have hmiddle : (1 / 2 ^ 52 : ℚ) + units (epsilonRank + 1) / unitsPerOne =
      2 * (1 / 2 ^ 52 + 1 / 2 ^ 105) := by
    rw [← units_epsilonRank, ← add_div, units_epsilonRank_add, units_epsilonRank, ← mul_assoc,
      mul_div_cancel_right₀ _ cast_unitsPerOne_pos.ne']
  have hlt : e' < units (epsilonRank + 1) / unitsPerOne := by
    refine lt_of_le_of_lt hle ?_
    rw [← units_epsilonRank]
    exact div_lt_div_of_pos_right (cast_units_lt (Nat.lt_succ_self _)) cast_unitsPerOne_pos
  have hbeside : 2 * v ≤ e' + units (epsilonRank + 1) / unitsPerOne := by
    rcases hnearest _ _ (toRat?_finite false ⟨epsilonRank + 1, hnext⟩) hlt.ne' with h | ⟨h, -⟩
    · exact ((abs_sub_lt_abs_sub_iff hlt).mp h).le
    · exact ((abs_sub_eq_abs_sub_iff hlt).mp h).le
  linarith

/-- A value is a fraction of units. -/
theorem num_units_div_eq {v : ℚ} (hv : 0 ≤ v) :
    ((v.num.toNat * unitsPerOne : ℕ) : ℚ) / v.den / unitsPerOne = v := by
  have hnum : ((v.num.toNat : ℕ) : ℚ) = v.num := by
    exact_mod_cast Int.toNat_of_nonneg (Rat.num_nonneg.mpr hv)
  rw [Nat.cast_mul, hnum, div_right_comm, mul_div_cancel_right₀ _ cast_unitsPerOne_pos.ne',
    Rat.num_div_den]

theorem exists_isNearest_le_epsilon {v : ℚ} (hv : 0 ≤ v) (hle : v ≤ 1 / 2 ^ 52 + 1 / 2 ^ 105) :
    ∃ (z : Binary64) (e : ℚ), z.IsNearest v ∧ z.toRat? = some e ∧ e ≤ 1 / 2 ^ 52 := by
  have hrank : nearestRank (v.num.toNat * unitsPerOne) v.den ≤ epsilonRank := by
    rw [nearestRank_le_epsilonRank_iff _ v.den_pos, num_units_div_eq hv]
    exact hle
  have hfinite : nearestRank (v.num.toNat * unitsPerOne) v.den < finiteCount :=
    Nat.lt_of_le_of_lt hrank (by decide)
  have hnearest := isNearest_nearest false _ v.den_pos hfinite
  rw [withSign_false, num_units_div_eq hv, nearest, ofRank, dif_pos hfinite] at hnearest
  refine ⟨_, _, hnearest, toRat?_finite _ _, ?_⟩
  rw [withSign_false, ← units_epsilonRank]
  apply div_le_div_of_nonneg_right _ cast_unitsPerOne_pos.le
  exact_mod_cast units_strictMono.monotone hrank

/-! ## Large numbers -/

/-- A significand has 53 bits at most, so a large magnitude is scaled by a large power of two. -/
theorem two_pow_dvd_units {k rank : Nat} (h : 2 ^ (53 + k) ≤ units rank) :
    2 ^ (k + 1) ∣ units rank := by
  obtain ⟨s, m, rfl, hm, hblock⟩ := exists_block rank
  rw [units_block hm.le hblock] at h ⊢
  have hscale : k + 1 ≤ s := by
    by_contra hsmall
    have hlt : m * 2 ^ s < 2 ^ (53 + k) := by
      calc
        m * 2 ^ s < 2 ^ 53 * 2 ^ s := Nat.mul_lt_mul_of_pos_right hm (Nat.two_pow_pos s)
        _ = 2 ^ (53 + s) := (Nat.pow_add ..).symm
        _ ≤ 2 ^ (53 + k) := Nat.pow_le_pow_right (by decide) (by omega)
    omega
  exact Nat.dvd_mul_left_of_dvd (Nat.pow_dvd_pow 2 hscale) m

theorem natAbs_signedUnits (negative : Bool) (rank : Nat) :
    (signedUnits negative rank).natAbs = units rank := by
  cases negative with
  | false => rfl
  | true => exact Int.natAbs_neg _

/-- Two large numbers that are near to each other are equal. -/
theorem signedUnits_eq_of_near {k m n : Nat} {s t : Bool} (hm : 2 ^ (53 + k) ≤ units m)
    (hn : 2 ^ (53 + k) ≤ units n)
    (hnear : (signedUnits s m - signedUnits t n).natAbs < 2 ^ (k + 1)) :
    signedUnits s m = signedUnits t n := by
  have hdvd {b : Bool} {r : Nat} (hr : 2 ^ (53 + k) ≤ units r) :
      ((2 ^ (k + 1) : ℕ) : ℤ) ∣ signedUnits b r := by
    rw [Int.natCast_dvd, natAbs_signedUnits]
    exact two_pow_dvd_units hr
  have hdiff : 2 ^ (k + 1) ∣ (signedUnits s m - signedUnits t n).natAbs := by
    rw [← Int.natCast_dvd]
    exact Int.dvd_sub (hdvd hm) (hdvd hn)
  rw [← Int.sub_eq_zero, ← Int.natAbs_eq_zero]
  exact Nat.eq_zero_of_dvd_of_lt hdiff hnear

/-- The same where one is `2 ^ (k + 52)` units: magnitudes of at least two, and a distance below
`2 ^ -51`. -/
theorem value_eq_of_near {j k m n : Nat} {s t : Bool} (hone : unitsPerOne = 2 ^ j) (hj : j = k + 52)
    (hm : (2 : ℚ) ≤ units m / unitsPerOne) (hn : (2 : ℚ) ≤ units n / unitsPerOne)
    (hnear : ((signedUnits s m - signedUnits t n).natAbs : ℚ) / unitsPerOne < 1 / 2 ^ 51) :
    signedUnits s m = signedUnits t n := by
  have hlarge {r : Nat} (hr : (2 : ℚ) ≤ units r / unitsPerOne) : 2 ^ (53 + k) ≤ units r := by
    rw [le_div_iff₀ cast_unitsPerOne_pos, hone, hj] at hr
    have hpow : (2 : ℚ) ^ (53 + k) = 2 * ((2 ^ (k + 52) : ℕ) : ℚ) := by
      push_cast
      ring
    exact_mod_cast hpow.trans_le hr
  apply signedUnits_eq_of_near (hlarge hm) (hlarge hn)
  rw [div_lt_iff₀ cast_unitsPerOne_pos, hone, hj] at hnear
  have hpow : 1 / 2 ^ 51 * ((2 ^ (k + 52) : ℕ) : ℚ) = 2 ^ (k + 1) := by
    push_cast
    rw [pow_add, pow_add]
    ring
  rw [hpow] at hnear
  exact_mod_cast hnear

/-! ## The comparison of values -/

theorem abs_sub_signedUnits (s t : Bool) (m n : Nat) :
    |(signedUnits s m : ℚ) / unitsPerOne - signedUnits t n / unitsPerOne| =
      ((signedUnits s m - signedUnits t n).natAbs : ℚ) / unitsPerOne := by
  rw [← sub_div, abs_div, abs_of_pos cast_unitsPerOne_pos, Nat.cast_natAbs, Int.cast_abs,
    Int.cast_sub]

theorem abs_signedUnits_div (s : Bool) (m : Nat) :
    |(signedUnits s m : ℚ) / unitsPerOne| = units m / unitsPerOne := by
  rw [abs_div, abs_of_pos cast_unitsPerOne_pos, ← Int.cast_abs, ← Nat.cast_natAbs,
    natAbs_signedUnits]

theorem approxEq_finite_iff {s t : Bool} {m n : Fin finiteCount} :
    (finite s m).approxEq (finite t n) = true ↔
      ((signedUnits s m - signedUnits t n).natAbs : ℚ) / unitsPerOne ≤
        1 / 2 ^ 52 + 1 / 2 ^ 105 := by
  rw [approxEq_finite, decide_eq_true_iff, nearestRank_le_epsilonRank_iff _ Nat.one_pos,
    Nat.cast_one, div_one]

theorem approxEq_of_not_finite {x y : Binary64} (h : x.isFinite = false ∨ y.isFinite = false) :
    x.approxEq y = false := by
  cases x with
  | finite s m =>
    cases y with
    | finite t n => simp [isFinite] at h
    | infinite t => rfl
    | nan => rfl
  | infinite s =>
    cases y with
    | finite t n => rfl
    | infinite t => cases s <;> cases t <;> rfl
    | nan => rfl
  | nan => cases y <;> rfl

/-- **What the comparison means.** Two finite numbers count as equal exactly when the difference of
their values is at most `2 ^ -52 + 2 ^ -105`; those are the differences that round to at most
`2 ^ -52`. So a difference of `2 ^ -52` is always tolerated, and of two numbers of at least two none
is. Not-a-number, an infinity or a difference that overflows is never tolerated. -/
theorem approxEq_exact :
    (∀ (x y : Binary64) (p q : ℚ), x.toRat? = some p → y.toRat? = some q →
      (x.approxEq y = true ↔ |p - q| ≤ 1 / 2 ^ 52 + 1 / 2 ^ 105) ∧
      (|p - q| ≤ 1 / 2 ^ 52 → x.approxEq y = true) ∧
      (2 ≤ |p| → 2 ≤ |q| → x.approxEq y = true → p = q)) ∧
    (∀ v : ℚ, 0 ≤ v →
      ((∃ (z : Binary64) (e : ℚ), z.IsNearest v ∧ z.toRat? = some e ∧ e ≤ 1 / 2 ^ 52) ↔
        v ≤ 1 / 2 ^ 52 + 1 / 2 ^ 105)) ∧
    (∀ x y : Binary64, x.isFinite = false ∨ y.isFinite = false → x.approxEq y = false) ∧
    ∀ (x y : Binary64) (negative : Bool), x.sub y = .infinite negative → x.approxEq y = false := by
  refine ⟨?_, ?_, fun x y => approxEq_of_not_finite, ?_⟩
  · intro x y p q hx hy
    obtain ⟨s, m, rfl, rfl⟩ := exists_of_toRat? hx
    obtain ⟨t, n, rfl, rfl⟩ := exists_of_toRat? hy
    rw [abs_sub_signedUnits, abs_signedUnits_div, abs_signedUnits_div, approxEq_finite_iff]
    refine ⟨Iff.rfl, fun h => h.trans (by norm_num), fun hm hn h => ?_⟩
    have hsmall : (1 / 2 ^ 52 + 1 / 2 ^ 105 : ℚ) < 1 / 2 ^ 51 := by norm_num
    rw [value_eq_of_near (k := 1022) rfl rfl hm hn (h.trans_lt hsmall)]
  · intro v hv
    constructor
    · rintro ⟨z, e, hz, he, hle⟩
      exact le_of_isNearest_le_epsilon hz he hle
    · exact exists_isNearest_le_epsilon hv
  · intro x y negative h
    rw [approxEq_eq_isTolerated, h]
    rfl

/-- The middle behind `2 ^ -52` is tolerated, and two equal infinities are not. -/
theorem approxEq_exact_tie :
    (∃ x y : Binary64, x.toRat? = some (1 / 2 ^ 52) ∧ y.toRat? = some (-(1 / 2 ^ 105)) ∧
      x.approxEq y = true) ∧
    (infinite false).approxEq (infinite false) = false := by
  let ε : Fin finiteCount := ⟨970 * 2 ^ 52 + 2 ^ 52, by decide⟩
  let δ : Fin finiteCount := ⟨917 * 2 ^ 52 + 2 ^ 52, by decide⟩
  have hε : (finite false ε).toRat? = some (1 / 2 ^ 52) := by
    rw [toRat?_finite, units_first_div (j := 52) rfl rfl, withSign_false]
  have hδ : (finite true δ).toRat? = some (-(1 / 2 ^ 105)) := by
    rw [toRat?_finite, units_first_div (j := 105) rfl rfl, withSign_true]
  have hdistance : |(1 / 2 ^ 52 : ℚ) - -(1 / 2 ^ 105)| ≤ 1 / 2 ^ 52 + 1 / 2 ^ 105 := by
    rw [sub_neg_eq_add, abs_of_pos (by positivity)]
  exact ⟨⟨_, _, hε, hδ, (approxEq_exact.1 _ _ _ _ hε hδ).1.mpr hdistance⟩,
    approxEq_exact.2.2.1 _ _ (.inl rfl)⟩

end AnnotatedAtoms.Binary64
