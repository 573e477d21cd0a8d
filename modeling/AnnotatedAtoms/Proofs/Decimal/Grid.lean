import AnnotatedAtoms.Proofs.Binary64.RoundingInterval
import AnnotatedAtoms.Proofs.Decimal.Digits
import AnnotatedAtoms.Proofs.Decimal.Rounding

/-!
# Decimals on a grid

The decimals that name a magnitude are an interval of rational numbers, so a grid of decimals has
one of them exactly when one of the two neighbours of the magnitude is one. A decimal with a given
number of digits either lies on the grid of that many digits or can be exchanged for the power of
ten that the magnitude begins with. The grid of seventeen digits always has a decimal that names the
magnitude.

* `onGrid?_isSome`: a grid with a decimal that names the magnitude has one beside it;
* `onGrid?_isSome_of_fitsDigits`: so the number of digits decides which grids have one;
* `onGrid?_seventeen`: seventeen digits suffice;
* `length_digitChars_shortest_le`: no decimal that names the magnitude has fewer digits than the
  shortest.
-/

namespace AnnotatedAtoms.Decimal

open Binary64

/-! ## The decimals of one magnitude -/

theorem num_units_div_den_eq (d : Decimal) :
    ((d.num * unitsPerOne : ℕ) : ℚ) / d.den = d.toRat * unitsPerOne := by
  rw [← num_units_div_den, div_mul_cancel₀ _ cast_unitsPerOne_pos.ne']

theorem magnitude_mul (rank : Nat) : magnitude rank * unitsPerOne = units rank := by
  rw [magnitude, div_mul_cancel₀ _ cast_unitsPerOne_pos.ne']

theorem rank_mono {d d' : Decimal} (h : d.toRat ≤ d'.toRat) : d.rank ≤ d'.rank := by
  apply nearestRank_mono d.den_pos d'.den_pos
  rw [num_units_div_den_eq, num_units_div_den_eq]
  exact mul_le_mul_of_nonneg_right h (Nat.cast_nonneg _)

theorem rank_le_of_le_magnitude {d : Decimal} {rank : Nat} (h : d.toRat ≤ magnitude rank) :
    d.rank ≤ rank := by
  have hmono : d.rank ≤ nearestRank (units rank) 1 := by
    apply nearestRank_mono d.den_pos Nat.one_pos
    rw [num_units_div_den_eq, Nat.cast_one, div_one, ← magnitude_mul]
    exact mul_le_mul_of_nonneg_right h (Nat.cast_nonneg _)
  rwa [nearestRank_units] at hmono

theorem le_rank_of_magnitude_le {d : Decimal} {rank : Nat} (h : magnitude rank ≤ d.toRat) :
    rank ≤ d.rank := by
  have hmono : nearestRank (units rank) 1 ≤ d.rank := by
    apply nearestRank_mono Nat.one_pos d.den_pos
    rw [num_units_div_den_eq, Nat.cast_one, div_one, ← magnitude_mul]
    exact mul_le_mul_of_nonneg_right h (Nat.cast_nonneg _)
  rwa [nearestRank_units] at hmono

/-- What lies between a magnitude and a decimal that names it names it too. -/
theorem rank_eq_of_between {d b : Decimal}
    (h : d.toRat ≤ b.toRat ∧ b.toRat ≤ magnitude d.rank ∨
      magnitude d.rank ≤ b.toRat ∧ b.toRat ≤ d.toRat) : b.rank = d.rank := by
  rcases h with ⟨hlo, hhi⟩ | ⟨hlo, hhi⟩
  · exact Nat.le_antisymm (rank_le_of_le_magnitude hhi) (rank_mono hlo)
  · exact Nat.le_antisymm (rank_mono hhi) (le_rank_of_magnitude_le hlo)

theorem rank_eq_of_near {d : Decimal} {rank : Nat} (hpos : 0 < rank)
    (h : 2 ^ 54 * |d.toRat - magnitude rank| < magnitude rank) : d.rank = rank := by
  apply nearestRank_eq_of_near d.den_pos hpos
  rw [num_units_div_den_eq, ← magnitude_mul, ← sub_mul, abs_mul, abs_of_pos cast_unitsPerOne_pos,
    ← mul_assoc]
  exact mul_lt_mul_of_pos_right h cast_unitsPerOne_pos

/-! ## Powers of ten -/

theorem ten_zpow_pos (e : Int) : (0 : ℚ) < 10 ^ e := zpow_pos (by norm_num) e

theorem toRat_pow (k : Nat) (e : Int) : (Decimal.mk (10 ^ k) e).toRat = 10 ^ (k + e) := by
  rw [toRat, Nat.cast_pow, ← zpow_natCast, zpow_add₀ (by norm_num)]
  rfl

theorem toRat_le_toRat {m n : Nat} (e : Int) (h : m ≤ n) :
    (Decimal.mk m e).toRat ≤ (Decimal.mk n e).toRat :=
  mul_le_mul_of_nonneg_right (by exact_mod_cast h) (ten_zpow_pos e).le

theorem toRat_lt_toRat_iff {m n : Nat} (e : Int) :
    (Decimal.mk m e).toRat < (Decimal.mk n e).toRat ↔ m < n := by
  rw [toRat, toRat, mul_lt_mul_iff_left₀ (ten_zpow_pos e), Nat.cast_lt]

theorem unitsPerOne_le_pow : unitsPerOne ≤ 10 ^ 324 := by decide +kernel

/-- A positive fraction lies between the powers of ten around its first digit, which is found after
the fraction has been made a whole number of units. -/
theorem digitCount_bounds {num den k : Nat} (hd : 0 < den) (h : den ≤ num * 10 ^ k) :
    (10 : ℚ) ^ ((digitCount (num * 10 ^ k / den) : ℤ) - k - 1) ≤ num / den ∧
      (num : ℚ) / den < 10 ^ ((digitCount (num * 10 ^ k / den) : ℤ) - k) := by
  have hpow : (0 : ℚ) < 10 ^ k := by positivity
  have hscaled : ((num * 10 ^ k : ℕ) : ℚ) / den = num / den * 10 ^ k := by
    rw [Nat.cast_mul, Nat.cast_pow, Nat.cast_ofNat, mul_div_right_comm]
  obtain ⟨hlo, hhi⟩ := quotient_bounds (num * 10 ^ k) hd
  rw [hscaled] at hlo hhi
  have hwhole : 0 < num * 10 ^ k / den := Nat.div_pos h hd
  revert hlo hhi hwhole
  generalize num * 10 ^ k / den = w
  intro hlo hhi hwhole
  have hcount := digitCount_pos w
  constructor
  · rw [sub_right_comm, zpow_sub₀ (by norm_num), zpow_natCast, div_le_iff₀ hpow]
    refine le_trans ?_ hlo
    have hpred : ((digitCount w : ℤ) - 1) = ((digitCount w - 1 : ℕ) : ℤ) := by omega
    rw [hpred, zpow_natCast]
    exact_mod_cast pow_digitCount_le hwhole
  · rw [zpow_sub₀ (by norm_num), zpow_natCast, zpow_natCast, lt_div_iff₀ hpow]
    refine lt_of_lt_of_le hhi ?_
    exact_mod_cast lt_pow_digitCount w

/-- The first digit of a magnitude stands behind its leading place. -/
theorem leadingPlace_bounds {rank : Nat} (hpos : 0 < rank) :
    (10 : ℚ) ^ (leadingPlace rank - 1) ≤ magnitude rank ∧
      magnitude rank < 10 ^ leadingPlace rank := by
  have hunits : 0 < units rank := Nat.zero_lt_of_lt (units_strictMono hpos)
  have hlarge := unitsPerOne_le_pow.trans (Nat.le_mul_of_pos_left _ hunits)
  have hbounds := digitCount_bounds unitsPerOne_pos hlarge
  rw [Nat.cast_ofNat] at hbounds
  exact hbounds

/-- The power of ten that a magnitude begins with, on the grid of `k` digits. -/
theorem leadingPower_le_magnitude {rank k : Nat} (hpos : 0 < rank) (hk : 0 < k) :
    (Decimal.mk (10 ^ (k - 1)) (leadingPlace rank - k)).toRat ≤ magnitude rank := by
  have hplace : ((k - 1 : ℕ) : ℤ) + (leadingPlace rank - k) = leadingPlace rank - 1 := by omega
  rw [toRat_pow, hplace]
  exact (leadingPlace_bounds hpos).1

/-- Digits that stand behind the first of `k` places are less than that place. -/
theorem toRat_le_of_behind {m k : Nat} {e place : Int} (hm : m < 10 ^ k) (hk : 0 < k)
    (h : e < place - k) :
    (Decimal.mk m e).toRat ≤ (Decimal.mk (10 ^ (k - 1)) (place - k)).toRat := by
  calc
    (Decimal.mk m e).toRat ≤ (Decimal.mk (10 ^ k) e).toRat := toRat_le_toRat e hm.le
    _ = 10 ^ (k + e) := toRat_pow k e
    _ ≤ 10 ^ (((k - 1 : ℕ) : ℤ) + (place - k)) := zpow_le_zpow_right₀ (by norm_num) (by omega)
    _ = (Decimal.mk (10 ^ (k - 1)) (place - k)).toRat := (toRat_pow _ _).symm

/-! ## The neighbours on a grid -/

/-- The candidates on a grid are the decimals right below a magnitude, or at it, and right above. -/
theorem neighbours_spec (rank : Nat) (e : Int) :
    ∃ n, (∀ d, d ∈ neighbours rank e ↔ d = ⟨n, e⟩ ∨ d = ⟨n + 1, e⟩) ∧
      (Decimal.mk n e).toRat ≤ magnitude rank ∧ magnitude rank < (Decimal.mk (n + 1) e).toRat := by
  have hden : 0 < unitsPerOne * 10 ^ e.toNat :=
    Nat.mul_pos unitsPerOne_pos (Nat.pow_pos (by decide))
  obtain ⟨hlo, hhi⟩ := quotient_bounds (units rank * 10 ^ (-e).toNat) hden
  have hvalue : ((units rank * 10 ^ (-e).toNat : ℕ) : ℚ) / (unitsPerOne * 10 ^ e.toNat : ℕ) =
      magnitude rank / 10 ^ e := by
    rw [magnitude, Nat.cast_mul, Nat.cast_mul, mul_div_mul_comm, div_eq_mul_inv (_ / _) (10 ^ e)]
    congr 1
    push_cast
    rcases le_total 0 e with h | h
    · obtain ⟨k, rfl⟩ := Int.eq_ofNat_of_zero_le h
      simp
    · obtain ⟨k, rfl⟩ := Int.exists_eq_neg_ofNat h
      simp
  rw [hvalue, le_div_iff₀ (ten_zpow_pos e)] at hlo
  rw [hvalue, div_lt_iff₀ (ten_zpow_pos e)] at hhi
  refine ⟨units rank * 10 ^ (-e).toNat / (unitsPerOne * 10 ^ e.toNat), fun d => ?_, hlo, ?_⟩
  · unfold neighbours
    dsimp only
    split_ifs <;> simp [or_comm]
  · rw [toRat, Nat.cast_add, Nat.cast_one]
    exact hhi

theorem mem_neighbours_of_onGrid? {rank : Nat} {e : Int} {d : Decimal}
    (h : onGrid? rank e = some d) : d ∈ neighbours rank e := by
  rw [onGrid?] at h
  exact List.mem_of_find?_eq_some h

/-- If a grid has a decimal that names a magnitude, then one of the two beside it does. -/
theorem onGrid?_isSome {rank n : Nat} {e : Int} (h : (Decimal.mk n e).rank = rank) :
    (onGrid? rank e).isSome = true := by
  subst h
  obtain ⟨f, hmem, hlo, hhi⟩ := neighbours_spec (Decimal.mk n e).rank e
  rw [onGrid?, List.find?_isSome]
  rcases Nat.lt_or_ge f n with hlt | hge
  · refine ⟨⟨f + 1, e⟩, (hmem _).mpr (.inr rfl), decide_eq_true ?_⟩
    exact rank_eq_of_between (.inr ⟨hhi.le, toRat_le_toRat e hlt⟩)
  · refine ⟨⟨f, e⟩, (hmem _).mpr (.inl rfl), decide_eq_true ?_⟩
    exact rank_eq_of_between (.inl ⟨toRat_le_toRat e hge, hlo⟩)

/-! ## Numbers of digits -/

/-- A number with at most so many digits in front of the zeros at its end. -/
def FitsDigits (n k : Nat) : Prop := ∃ m j, n = m * 10 ^ j ∧ m < 10 ^ k

theorem toDigits_mul_pow {m : Nat} (hm : 0 < m) (j : Nat) :
    Nat.toDigits 10 (m * 10 ^ j) = Nat.toDigits 10 m ++ List.replicate j '0' := by
  induction j with
  | zero => simp
  | succ j ih =>
    have hpos : 0 < m * 10 ^ j := Nat.mul_pos hm (Nat.pow_pos (by decide))
    have hzero : Nat.toDigits 10 0 = ['0'] := rfl
    have happend := Nat.toDigits_append_toDigits (b := 10) (d := 0) (by decide) hpos (by decide)
    rw [Nat.add_zero, hzero] at happend
    rw [Nat.pow_succ, ← Nat.mul_assoc, Nat.mul_comm _ 10, ← happend, ih, List.append_assoc,
      ← List.replicate_succ']

theorem length_digitChars_le {d : Decimal} {k : Nat} (h : FitsDigits d.digits k) :
    d.digitChars.length ≤ k := by
  obtain ⟨m, j, hdigits, hm⟩ := h
  rcases Nat.eq_zero_or_pos m with rfl | hpos
  · have hnil : d.digitChars = [] := by
      rw [digitChars, hdigits, Nat.zero_mul]
      rfl
    rw [hnil]
    exact Nat.zero_le k
  · have hk : 0 < k := by
      rw [Nat.pos_iff_ne_zero]
      rintro rfl
      omega
    have hzeros : ∀ c ∈ List.replicate j '0', decide (c = '0') = true := by
      intro c hc
      exact decide_eq_true (List.eq_of_mem_replicate hc)
    rw [digitChars, hdigits, toDigits_mul_pow hpos, List.reverse_append, List.reverse_replicate,
      List.dropWhile_append_of_pos hzeros, List.length_reverse]
    calc
      _ ≤ (Nat.toDigits 10 m).reverse.length := (List.dropWhile_sublist _).length_le
      _ = (Nat.toDigits 10 m).length := List.length_reverse
      _ ≤ k := (Nat.length_toDigits_le_iff (by decide) hk).mpr hm

/-- What stands on the grid of `k` digits has at most `k` digits: where the upper neighbour has one
more, it is a power of ten. -/
theorem fitsDigits_of_mem_neighbours {rank k : Nat} {d : Decimal} (hpos : 0 < rank) (hk : 0 < k)
    (h : d ∈ neighbours rank (leadingPlace rank - k)) : FitsDigits d.digits k := by
  obtain ⟨n, hmem, hlo, -⟩ := neighbours_spec rank (leadingPlace rank - k)
  have hn : n < 10 ^ k := by
    rw [← toRat_lt_toRat_iff (leadingPlace rank - k), toRat_pow, add_sub_cancel]
    exact hlo.trans_lt (leadingPlace_bounds hpos).2
  have hpow : ∀ m, m ≤ 10 ^ k → FitsDigits m k := by
    intro m hm
    rcases Nat.eq_or_lt_of_le hm with rfl | hlt
    · exact ⟨1, k, (Nat.one_mul _).symm, Nat.one_lt_pow hk.ne' (by decide)⟩
    · exact ⟨m, 0, (Nat.mul_one m).symm, hlt⟩
  rcases (hmem d).mp h with rfl | rfl
  · exact hpow n hn.le
  · exact hpow (n + 1) hn

/-- A decimal with at most `k` digits that names a magnitude shows that the grid of `k` digits has
one. -/
theorem onGrid?_isSome_of_fitsDigits {k : Nat} {d : Decimal} (hpos : 0 < d.rank) (hk : 0 < k)
    (h : FitsDigits d.digits k) : (onGrid? d.rank (leadingPlace d.rank - k)).isSome = true := by
  obtain ⟨m, j, hdigits, hm⟩ := h
  have hshift : (Decimal.mk m (d.exponent + j)).rank = d.rank := by
    rw [← rank_shift, ← hdigits]
  rcases le_or_gt (leadingPlace d.rank - k) (d.exponent + j) with hcoarse | hfine
  · -- The digits end on the grid or before it.
    obtain ⟨i, hi⟩ := Int.le.dest hcoarse
    rw [← hi, ← rank_shift] at hshift
    exact onGrid?_isSome hshift
  · -- All digits stand behind the leading place, whose power of ten is as good.
    have hnames : (Decimal.mk (10 ^ (k - 1)) (leadingPlace d.rank - k)).rank =
        (Decimal.mk m (d.exponent + j)).rank := by
      apply rank_eq_of_between
      rw [hshift]
      exact .inl ⟨toRat_le_of_behind hm hk hfine, leadingPower_le_magnitude hpos hk⟩
    exact onGrid?_isSome (hnames.trans hshift)

/-- Half a step on the grid of seventeen digits is less than `2 ^ -54` of the magnitude. -/
theorem onGrid?_seventeen {rank : Nat} (hpos : 0 < rank) :
    (onGrid? rank (leadingPlace rank - 17)).isSome = true := by
  obtain ⟨n, -, hlo, hhi⟩ := neighbours_spec rank (leadingPlace rank - 17)
  have hleading := leadingPower_le_magnitude hpos (by decide : 0 < 17)
  have hgrid := ten_zpow_pos (leadingPlace rank - 17)
  rw [toRat] at hlo hhi hleading
  push_cast at hlo hhi hleading
  rcases le_total (2 * (magnitude rank - n * 10 ^ (leadingPlace rank - 17)))
      (10 ^ (leadingPlace rank - 17)) with hbelow | habove
  · apply onGrid?_isSome (n := n)
    apply rank_eq_of_near hpos
    rw [toRat, abs_of_nonpos (by linarith)]
    linarith
  · apply onGrid?_isSome (n := n + 1)
    apply rank_eq_of_near hpos
    rw [toRat, Nat.cast_add, Nat.cast_one, abs_of_nonneg (by linarith)]
    linarith

theorem length_digitChars_of_onGrid? {rank k : Nat} {d : Decimal} (hpos : 0 < rank) (hk : 0 < k)
    (h : onGrid? rank (leadingPlace rank - k) = some d) : d.digitChars.length ≤ k :=
  length_digitChars_le (fitsDigits_of_mem_neighbours hpos hk (mem_neighbours_of_onGrid? h))

/-! ## The shortest decimal -/

/-- What is found in a range is found at the first number that has something. -/
theorem exists_first_of_findSome?_range' {f : Nat → Option Decimal} {first count : Nat}
    {d : Decimal} (h : (List.range' first count).findSome? f = some d) :
    ∃ i, first ≤ i ∧ i < first + count ∧ f i = some d ∧ ∀ k, first ≤ k → k < i → f k = none := by
  obtain ⟨before, i, behind, hsplit, hfound, hnone⟩ := List.findSome?_eq_some_iff.mp h
  obtain ⟨k, -, hbefore, hrest⟩ := List.range'_eq_append_iff.mp hsplit
  have hmem : i ∈ List.range' first count := by
    rw [hsplit]
    exact List.mem_append_right _ List.mem_cons_self
  have hi : i = first + k := by
    have hhead := congrArg List.head? hrest
    rw [List.head?_cons, List.head?_range'] at hhead
    split_ifs at hhead
    simpa using hhead
  rw [List.mem_range'_1] at hmem
  refine ⟨i, hmem.1, hmem.2, hfound, fun j hj hlt => hnone j ?_⟩
  rw [hbefore, List.mem_range'_1]
  exact ⟨hj, by omega⟩

/-- The shortest decimal is found on the first grid that has one. -/
theorem exists_count_shortest {rank : Nat} (hpos : 0 < rank) :
    ∃ count : Nat, 1 ≤ count ∧ count ≤ 17 ∧
      onGrid? rank (leadingPlace rank - count) = some (shortest rank) ∧
      ∀ k : Nat, 1 ≤ k → k < count → onGrid? rank (leadingPlace rank - k) = none := by
  have hsome : ((List.range' 1 17).findSome? fun (count : Nat) =>
      onGrid? rank (leadingPlace rank - count)).isSome = true := by
    rw [List.findSome?_isSome_iff]
    exact ⟨17, by decide, onGrid?_seventeen hpos⟩
  obtain ⟨d, hd⟩ := Option.isSome_iff_exists.mp hsome
  have hshortest : shortest rank = d := by simp only [shortest, hd, Option.getD_some]
  obtain ⟨count, hone, hlt, hfound, hnone⟩ := exists_first_of_findSome?_range' hd
  rw [hshortest]
  exact ⟨count, hone, Nat.le_of_lt_succ hlt, hfound, hnone⟩

theorem length_digitChars_shortest {rank : Nat} (hpos : 0 < rank) :
    (shortest rank).digitChars.length ≤ 17 := by
  obtain ⟨count, hone, hle, hfound, -⟩ := exists_count_shortest hpos
  exact (length_digitChars_of_onGrid? hpos hone hfound).trans hle

/-- No decimal that names a magnitude has fewer digits than the shortest. -/
theorem length_digitChars_shortest_le {k : Nat} {d : Decimal} (hpos : 0 < d.rank)
    (h : FitsDigits d.digits k) : (shortest d.rank).digitChars.length ≤ k := by
  have hk : 0 < k := by
    rw [Nat.pos_iff_ne_zero]
    rintro rfl
    obtain ⟨m, j, hdigits, hm⟩ := h
    have hzero : m = 0 := by omega
    rw [hzero, Nat.zero_mul] at hdigits
    exact hpos.ne' (rank_of_digits_eq_zero hdigits)
  have hgrid := onGrid?_isSome_of_fitsDigits hpos hk h
  obtain ⟨count, hone, -, hfound, hnone⟩ := exists_count_shortest hpos
  have hcount : count ≤ k := by
    by_contra hlt
    rw [hnone k hk (by omega)] at hgrid
    cases hgrid
  exact (length_digitChars_of_onGrid? hpos hone hfound).trans hcount

end AnnotatedAtoms.Decimal
