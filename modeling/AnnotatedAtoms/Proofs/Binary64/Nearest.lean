import AnnotatedAtoms.Proofs.Binary64.NearestRank

/-!
# Nearest numbers

What it is for a number to be the one that a value is rounded to: nearest, and even where two are
equally near. The numbers that are computed and read are those.

* `nearestRank_nearest_signed`: no magnitude of either sign is nearer than the chosen one;
* `isNearest_nearest`: what is rounded to a finite number is rounded to the nearest.
-/

namespace AnnotatedAtoms.Binary64

/-! ## Signs -/

def withSign (negative : Bool) (q : ℚ) : ℚ := if negative then -q else q

@[simp] theorem withSign_true (q : ℚ) : withSign true q = -q := rfl

@[simp] theorem withSign_false (q : ℚ) : withSign false q = q := rfl

theorem abs_withSign (negative : Bool) (q : ℚ) : |withSign negative q| = |q| := by
  cases negative with
  | false => rfl
  | true => exact abs_neg q

theorem withSign_div (negative : Bool) (a b : ℚ) :
    withSign negative a / b = withSign negative (a / b) := by
  cases negative with
  | false => rfl
  | true => exact neg_div b a

theorem withSign_xor (s t : Bool) (q : ℚ) : withSign s (withSign (t ^^ s) q) = withSign t q := by
  cases s with
  | false => rw [Bool.xor_false, withSign_false]
  | true => cases t <;> simp [withSign]

theorem toRat?_finite (negative : Bool) (rank : Fin finiteCount) :
    (finite negative rank).toRat? = some (withSign negative (units rank / unitsPerOne)) := by
  rw [← withSign_div]
  cases negative with
  | false => rfl
  | true => rw [toRat?, signedUnits, if_pos rfl, Int.cast_neg, Int.cast_natCast, withSign_true]

/-- Only the relative sign of two numbers matters for their distance. -/
theorem abs_withSign_sub (s t : Bool) (a b : ℚ) :
    |withSign t a - withSign s b| = |withSign (t ^^ s) a - b| := by
  cases s with
  | false => rw [Bool.xor_false, withSign_false]
  | true =>
    rw [Bool.xor_true, ← abs_neg, withSign_true, sub_neg_eq_add, neg_add']
    cases t with
    | false => rfl
    | true => rw [withSign_true, neg_neg, Bool.not_true, withSign_false]

/-- The nearest magnitude is nearer than any other signed one. -/
theorem nearestRank_nearest_signed (num : Nat) {den : Nat} (hd : 0 < den) (t : Bool) (r : Nat)
    (hr : withSign t (units r) ≠ units (nearestRank num den)) :
    |(units (nearestRank num den) : ℚ) - num / den| < |withSign t (units r) - num / den| ∨
      |(units (nearestRank num den) : ℚ) - num / den| = |withSign t (units r) - num / den| ∧
        nearestRank num den % 2 = 0 := by
  have hunsigned {j : Nat} (hj : (units j : ℚ) ≠ units (nearestRank num den)) :=
    nearestRank_nearest num hd (ne_of_apply_ne (fun j => (units j : ℚ)) hj)
  have hzero : (units 0 : ℚ) = 0 := by
    rw [units_of_lt (by decide), Nat.cast_zero]
  have hq : (0 : ℚ) ≤ num / den := by positivity
  cases t with
  | false => exact hunsigned hr
  | true =>
    rw [withSign_true] at hr ⊢
    rcases Nat.eq_zero_or_pos r with rfl | hpos
    · rw [hzero, neg_zero, ← hzero] at hr ⊢
      exact hunsigned hr
    · left
      -- Zero lies between a negative magnitude and the fraction.
      have hbetween : |(units (nearestRank num den) : ℚ) - num / den| ≤ num / den := by
        rcases eq_or_ne (units 0 : ℚ) (units (nearestRank num den)) with heq | hne
        · rw [← heq, hzero, zero_sub, abs_neg, abs_of_nonneg hq]
        · have hnearest := hunsigned hne
          rw [hzero, zero_sub, abs_neg, abs_of_nonneg hq] at hnearest
          rcases hnearest with hlt | ⟨heq, -⟩
          · exact hlt.le
          · exact heq.le
      have hunits : (units 0 : ℚ) < units r := by exact_mod_cast units_strictMono hpos
      have haway : |-(units r : ℚ) - num / den| = units r + num / den := by
        rw [← neg_add', abs_neg, abs_of_nonneg (by positivity)]
      rw [haway]
      linarith

/-! ## The number nearest to a value -/

/-- Whether the whole number that is scaled by a power of two is even. -/
def HasEvenSignificand : Binary64 → Prop
  | .finite _ rank => significand rank % 2 = 0
  | .infinite _ | .nan => False

/-- A finite number is nearest to a value when each other finite value is further away, or as far
where the significand of the number is even. -/
def IsNearest (x : Binary64) (v : ℚ) : Prop :=
  ∃ q, x.toRat? = some q ∧ ∀ (y : Binary64) (p : ℚ), y.toRat? = some p → p ≠ q →
    |q - v| < |p - v| ∨ |q - v| = |p - v| ∧ x.HasEvenSignificand

/-- What is rounded to a finite number is rounded to the nearest. -/
theorem isNearest_nearest (negative : Bool) (num : Nat) {den : Nat} (hd : 0 < den)
    (h : nearestRank num den < finiteCount) :
    (nearest negative num den).IsNearest (withSign negative (num / den / unitsPerOne)) := by
  have hdistance (t : Bool) (r : Nat) :
      |withSign t (units r / unitsPerOne) - withSign negative (num / den / unitsPerOne)| =
        |withSign (t ^^ negative) (units r) - num / den| / unitsPerOne := by
    rw [abs_withSign_sub, ← withSign_div, ← sub_div, abs_div, abs_of_pos cast_unitsPerOne_pos]
  rw [nearest, ofRank, dif_pos h]
  refine ⟨_, toRat?_finite _ _, ?_⟩
  intro y p hp hne
  cases y with
  | infinite t => cases hp
  | nan => cases hp
  | finite t r =>
    rw [toRat?_finite, Option.some.injEq] at hp
    subst hp
    have hapart : withSign (t ^^ negative) (units r) ≠ units (nearestRank num den) := by
      intro heq
      apply hne
      rw [← withSign_div, ← withSign_div, ← heq, withSign_xor]
    rw [hdistance, hdistance, Bool.xor_self, withSign_false,
      div_lt_div_iff_of_pos_right cast_unitsPerOne_pos, div_left_inj' cast_unitsPerOne_pos.ne',
      HasEvenSignificand, significand_mod_two]
    exact nearestRank_nearest_signed num hd _ _ hapart

end AnnotatedAtoms.Binary64
