import AnnotatedAtoms.Proofs.Decimal.FewestDigits

/-!
# Written whole numbers

Below `2 ^ 53` the whole numbers are so close to the binary64 magnitudes that no two of them name
the same one. The shortest decimal of such a magnitude is found on a grid of whole numbers, so it is
the magnitude itself, and it is written out to its last digit.

* `exists_magnitude_eq`: the whole numbers up to `2 ^ 53` are magnitudes;
* `eq_of_magnitude_rank`: only one whole number names such a magnitude;
* `exponent_shortest_nonneg`, `num_shortest`: the shortest decimal is a whole number, and which one;
* `positional_of_whole`: a whole number is written with all its digits;
* `render_ofNat`, `read?_repr`: the text of a whole number, and what is read from it.
-/

namespace AnnotatedAtoms

namespace Binary64

/-! ## Whole magnitudes -/

theorem magnitude_eq_of_units {rank n : Nat} (h : units rank = n * unitsPerOne) :
    magnitude rank = n := by
  rw [magnitude, h, Nat.cast_mul, mul_div_cancel_right₀ _ cast_unitsPerOne_pos.ne']

theorem exists_magnitude_eq {n : Nat} (h : n ≤ 2 ^ 53) : ∃ rank, magnitude rank = n := by
  -- The exponent of the unit is a variable from here on, so that no step evaluates the power.
  obtain ⟨k, hunit, hk⟩ : ∃ k, unitsPerOne = 2 ^ k ∧ 52 ≤ k :=
    ⟨1074, by rw [unitsPerOne], by decide⟩
  rcases h.lt_or_eq with hlt | rfl
  · obtain ⟨rank, hunits, -⟩ := exists_units_eq hlt hk
    exact ⟨rank, magnitude_eq_of_units (by rw [hunits, hunit])⟩
  · obtain ⟨rank, hunits, -⟩ := exists_units_eq (by decide : 1 < 2 ^ 53) (by omega : 52 ≤ 53 + k)
    refine ⟨rank, magnitude_eq_of_units ?_⟩
    rw [hunits, hunit, Nat.one_mul, Nat.pow_add]

/-- Whole magnitudes are in the order of their ranks. -/
theorem rank_le_rank_iff {i j m n : Nat} (hi : magnitude i = m) (hj : magnitude j = n) :
    i ≤ j ↔ m ≤ n := by
  rw [← magnitude_strictMono.le_iff_le, hi, hj, Nat.cast_le]

end Binary64

namespace Decimal

open Binary64

variable {n rank : Nat}

/-! ## Whole decimals -/

theorem toRat_of_whole {d : Decimal} (h : 0 ≤ d.exponent) : d.toRat = d.num := by
  have hden : d.den = 1 := by
    rw [den, Int.toNat_of_nonpos (by omega), Nat.pow_zero]
  rw [← num_div_den, hden, Nat.cast_one, div_one]

/-- Rounding tells the whole numbers below the bound apart. -/
theorem eq_of_magnitude_rank {d : Decimal} {m : Nat} (hd : d.toRat = m) (hn : n < 2 ^ 53)
    (h : magnitude d.rank = n) : m = n := by
  rcases Nat.lt_trichotomy m n with hless | heq | hmore
  · obtain ⟨r, hr⟩ := exists_magnitude_eq (Nat.le_of_lt (hless.trans hn))
    have hrank : d.rank ≤ r := rank_le_of_le_magnitude (by rw [hd, hr])
    exact absurd ((rank_le_rank_iff h hr).mp hrank) (Nat.not_le_of_lt hless)
  · exact heq
  · obtain ⟨r, hr⟩ := exists_magnitude_eq (Nat.succ_le_of_lt hn)
    have hrank : r ≤ d.rank := le_rank_of_magnitude_le (by rw [hd, hr]; exact_mod_cast hmore)
    exact absurd ((rank_le_rank_iff hr h).mp hrank) (Nat.not_succ_le_self n)

/-- A whole magnitude is named by the decimal with its own digits. -/
theorem rank_of_magnitude_eq (h : magnitude rank = n) : (Decimal.mk n 0).rank = rank := by
  have hvalue : (Decimal.mk n 0).toRat = magnitude rank := by
    rw [h, toRat, zpow_zero, mul_one]
  exact Nat.le_antisymm (rank_le_of_le_magnitude hvalue.le) (le_rank_of_magnitude_le hvalue.ge)

/-! ## The shortest decimal of a whole number -/

theorem rank_pos_of_magnitude_eq (hpos : 0 < n) (h : magnitude rank = n) : 0 < rank := by
  rw [Nat.pos_iff_ne_zero, ne_eq, ← magnitude_eq_zero_iff, h, Nat.cast_eq_zero]
  exact hpos.ne'

theorem leadingPlace_pos (hpos : 0 < n) (h : magnitude rank = n) : 0 < leadingPlace rank := by
  have hone : (1 : ℚ) ≤ magnitude rank := by
    rw [h]
    exact_mod_cast hpos
  have hlt := hone.trans_lt (leadingPlace_bounds (rank_pos_of_magnitude_eq hpos h)).2
  exact (one_lt_zpow_iff_right₀ (by norm_num)).mp hlt

theorem exponent_of_mem_neighbours {e : Int} {d : Decimal} (h : d ∈ neighbours rank e) :
    d.exponent = e := by
  obtain ⟨m, hmem, -, -⟩ := neighbours_spec rank e
  rcases (hmem d).mp h with rfl | rfl
  · rfl
  · rfl

/-- The grid of the whole numbers has the number itself, so no finer grid is looked at. -/
theorem exponent_shortest_nonneg (hpos : 0 < n) (h : magnitude rank = n) :
    0 ≤ (shortest rank).exponent := by
  obtain ⟨count, -, -, hfound, hnone⟩ :=
    exists_count_shortest (rank_pos_of_magnitude_eq hpos h)
  obtain ⟨k, hk⟩ := Int.eq_ofNat_of_zero_le (leadingPlace_pos hpos h).le
  have hplace := leadingPlace_pos hpos h
  have hwhole := onGrid?_isSome (rank_of_magnitude_eq h)
  have hcount : count ≤ k := by
    by_contra hlt
    have hgrid := hnone k (by omega) (by omega)
    rw [hk, sub_self] at hgrid
    rw [hgrid] at hwhole
    cases hwhole
  rw [exponent_of_mem_neighbours (mem_neighbours_of_onGrid? hfound)]
  omega

theorem num_shortest (hpos : 0 < n) (hn : n < 2 ^ 53) (h : magnitude rank = n) :
    (shortest rank).num = n := by
  apply eq_of_magnitude_rank (toRat_of_whole (exponent_shortest_nonneg hpos h)) hn
  rw [rank_shortest, h]

/-! ## Digits -/

/-- In positional notation a whole number gets back the zeros at its end. -/
theorem positional_of_whole {d : Decimal} (hd : 0 < d.digits) (he : 0 ≤ d.exponent) :
    d.positional = Nat.toDigits 10 d.num := by
  have hlength := length_digitChars_add d
  have hsome := Nat.length_toDigits_pos (b := 10) (n := d.digits)
  have hplace : d.pointPlace = d.digitChars.length + (d.zerosAtEnd + d.exponent.toNat : ℕ) := by
    rw [pointPlace]
    omega
  have hzeros : (d.pointPlace - d.digitChars.length).toNat = d.zerosAtEnd + d.exponent.toNat := by
    omega
  have hpos : ¬ d.pointPlace ≤ 0 := by omega
  have hwhole : (d.digitChars.length : ℤ) ≤ d.pointPlace := by omega
  rw [positional]
  simp only [if_neg hpos, if_pos hwhole]
  rw [hzeros, List.replicate_add, ← List.append_assoc, ← toDigits_eq_append, num,
    toDigits_mul_pow hd]

end Decimal

namespace Binary64

open Decimal Literal

/-- Positional notation takes in all whole numbers below the bound. -/
theorem positional_bounds_of_whole {n rank : Nat} (hpos : 0 < n) (hn : n < 2 ^ 53)
    (h : magnitude rank = n) : positionalFrom ≤ rank ∧ rank < positionalTo := by
  constructor
  · apply rank_le_of_le_magnitude
    have hone : (1 : ℚ) ≤ n := by exact_mod_cast hpos
    rw [h]
    refine le_trans ?_ hone
    norm_num [toRat]
  · obtain ⟨r, hr⟩ := exists_magnitude_eq (Nat.succ_le_of_lt hn)
    have hlt : rank < r := by
      rw [← Nat.not_le, rank_le_rank_iff hr h]
      exact Nat.not_succ_le_self n
    refine hlt.trans_le (le_rank_of_magnitude_le ?_)
    have hlarge : n + 1 ≤ 10 ^ 16 := hn.trans (by decide)
    have hvalue : (Decimal.mk 1 16).toRat = ((10 ^ 16 : ℕ) : ℚ) := by norm_num [toRat]
    rw [hr, hvalue]
    exact_mod_cast hlarge

theorem magnitudeChars_of_whole {n rank : Nat} (hn : n < 2 ^ 53) (h : magnitude rank = n) :
    magnitudeChars rank = Nat.toDigits 10 n := by
  rcases Nat.eq_zero_or_pos n with rfl | hpos
  · rw [Nat.cast_zero, magnitude_eq_zero_iff] at h
    rw [h, magnitudeChars, if_pos rfl]
    rfl
  · have hrank := rank_pos_of_magnitude_eq hpos h
    rw [magnitudeChars, if_neg hrank.ne', if_pos (positional_bounds_of_whole hpos hn h),
      positional_of_whole (digits_shortest_pos hrank) (exponent_shortest_nonneg hpos h),
      num_shortest hpos hn h]

/-! ## Whole numbers as numbers -/

variable {n : Nat}

theorem exists_ofNat_eq (h : n ≤ maxExactWhole) :
    ∃ rank : Fin finiteCount, ofNat n = .finite false rank ∧ magnitude rank = n := by
  have hvalue := toRat?_ofNat h
  obtain ⟨negative, rank, hnumber, -⟩ := exists_of_toRat? hvalue
  have hsign : (ofNat n).isNegative = false := isNegative_ofRank _ _
  rw [hnumber] at hsign hvalue
  obtain rfl : negative = false := hsign
  rw [toRat?_eq_magnitude, Option.some.injEq, withSign_false] at hvalue
  exact ⟨rank, hnumber, hvalue⟩

/-- A whole number that is taken is shown as its decimal numeral. -/
theorem render_ofNat (h : n ≤ maxExactWhole) : (ofNat n).render = Nat.repr n := by
  obtain ⟨rank, hnumber, hmagnitude⟩ := exists_ofNat_eq h
  have hn : n < 2 ^ 53 := Nat.lt_of_le_of_lt h (by decide)
  rw [render, hnumber, chars, if_neg Bool.false_ne_true, magnitudeChars_of_whole hn hmagnitude,
    Nat.repr]

/-- The numeral of a whole number that is taken is read as that number. -/
theorem read?_repr (h : n ≤ maxExactWhole) : read? (Nat.repr n).toList = some (ofNat n) := by
  obtain ⟨rank, hnumber, -⟩ := exists_ofNat_eq h
  have hfinite : (ofNat n).isFinite = true := by
    rw [hnumber]
    rfl
  rw [← render_ofNat h, render, String.toList_ofList, read?_chars, if_pos hfinite]

end Binary64

end AnnotatedAtoms
