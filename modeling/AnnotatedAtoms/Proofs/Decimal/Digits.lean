import AnnotatedAtoms.Decimal.Notation
import AnnotatedAtoms.Proofs.Binary64.Rounding
import Mathlib.Data.List.DropRight

/-!
# Digits of a decimal

The digits of a decimal without the zeros at their end, and the value that they name.

* `toDigits_eq_append`: only zeros are left out;
* `rank_trimmed`: the shorter digits name the same binary64 magnitude;
* `pointPlace_bounds`: where the point of a decimal stands that names a positive magnitude.
-/

namespace AnnotatedAtoms.Decimal

open Binary64

/-! ## The zeros at the end -/

/-- How many zeros the digits lose. -/
def zerosAtEnd (d : Decimal) : Nat := (Nat.toDigits 10 d.digits).length - d.digitChars.length

theorem rdropWhile_append_zeros (cs : List Char) : cs.rdropWhile (· = '0') ++
    List.replicate (cs.length - (cs.rdropWhile (· = '0')).length) '0' = cs := by
  have hsplit : cs.rdropWhile (· = '0') ++ cs.rtakeWhile (· = '0') = cs :=
    List.rdropWhile_append_rtakeWhile
  have hzeros : cs.rtakeWhile (· = '0') = List.replicate (cs.rtakeWhile (· = '0')).length '0' := by
    rw [List.eq_replicate_iff]
    refine ⟨rfl, fun c hc => ?_⟩
    simpa using List.mem_rtakeWhile_imp hc
  have hlength := congrArg List.length hsplit
  rw [List.length_append] at hlength
  have hcount : (cs.rtakeWhile (· = '0')).length =
      cs.length - (cs.rdropWhile (· = '0')).length := by omega
  rw [← hcount, ← hzeros, hsplit]

theorem toDigits_eq_append (d : Decimal) :
    Nat.toDigits 10 d.digits = d.digitChars ++ List.replicate d.zerosAtEnd '0' :=
  (rdropWhile_append_zeros _).symm

theorem length_digitChars_add (d : Decimal) :
    d.digitChars.length + d.zerosAtEnd = (Nat.toDigits 10 d.digits).length := by
  rw [toDigits_eq_append d, List.length_append, List.length_replicate]

theorem isDigit_of_mem_digitChars {d : Decimal} {c : Char} (hc : c ∈ d.digitChars) :
    c.isDigit = true := by
  have hmem : c ∈ Nat.toDigits 10 d.digits := by
    rw [toDigits_eq_append d]
    exact List.mem_append_left _ hc
  exact isDigit_of_mem_toDigits hmem

theorem ofDigitChars_append_zeros (cs : List Char) (k : Nat) :
    Nat.ofDigitChars 10 (cs ++ List.replicate k '0') 0 = Nat.ofDigitChars 10 cs 0 * 10 ^ k := by
  rw [Nat.ofDigitChars_append, Nat.ofDigitChars_replicate_zero, Nat.mul_comm]

theorem ofDigitChars_zeros_append (cs : List Char) (k : Nat) :
    Nat.ofDigitChars 10 (List.replicate k '0' ++ cs) 0 = Nat.ofDigitChars 10 cs 0 := by
  rw [Nat.ofDigitChars_append, Nat.ofDigitChars_replicate_zero, Nat.mul_zero]

theorem digits_eq (d : Decimal) :
    d.digits = Nat.ofDigitChars 10 d.digitChars 0 * 10 ^ d.zerosAtEnd := by
  rw [← ofDigitChars_append_zeros, ← toDigits_eq_append, Nat.ofDigitChars_ten_toDigits]

theorem digitChars_ne_nil {d : Decimal} (hd : 0 < d.digits) : d.digitChars ≠ [] := by
  intro h
  have hzero := digits_eq d
  rw [h, Nat.ofDigitChars_nil, Nat.zero_mul] at hzero
  omega

/-! ## Decimals of the same value -/

/-- Moving zeros from the digits to the power of ten leaves the magnitude. -/
theorem rank_shift (n k : Nat) (e : Int) :
    (Decimal.mk (n * 10 ^ k) e).rank = (mk n (e + k)).rank := by
  apply nearestRank_congr (den_pos _) (den_pos _)
  have hpow : 10 ^ k * 10 ^ e.toNat * 10 ^ (-(e + k)).toNat =
      10 ^ (e + k).toNat * 10 ^ (-e).toNat := by
    rw [← Nat.pow_add, ← Nat.pow_add, ← Nat.pow_add]
    congr 1
    omega
  simp only [num, den]
  generalize unitsPerOne = u
  calc
    n * 10 ^ k * 10 ^ e.toNat * u * 10 ^ (-(e + k)).toNat
        = n * (10 ^ k * 10 ^ e.toNat * 10 ^ (-(e + k)).toNat) * u := by ac_rfl
    _ = n * (10 ^ (e + k).toNat * 10 ^ (-e).toNat) * u := by rw [hpow]
    _ = n * 10 ^ (e + k).toNat * u * 10 ^ (-e).toNat := by ac_rfl

/-- The same value in the fewest digits. -/
def trimmed (d : Decimal) : Decimal :=
  ⟨Nat.ofDigitChars 10 d.digitChars 0, d.pointPlace - d.digitChars.length⟩

theorem rank_trimmed (d : Decimal) : d.trimmed.rank = d.rank := by
  have hplace : d.pointPlace - d.digitChars.length = d.exponent + d.zerosAtEnd := by
    have := length_digitChars_add d
    rw [pointPlace]
    omega
  have hdigits : d = ⟨Nat.ofDigitChars 10 d.digitChars 0 * 10 ^ d.zerosAtEnd, d.exponent⟩ := by
    rw [← digits_eq]
  rw [trimmed, hplace, ← rank_shift, ← hdigits]

/-! ## The place of the point -/

theorem pow_mul_den_le {d : Decimal} (hd : 0 < d.digits) (k : Nat) (hk : k < d.pointPlace) :
    10 ^ k * d.den ≤ d.num := by
  have hlength := Nat.length_toDigits_pos (b := 10) (n := d.digits)
  rw [pointPlace] at hk
  calc
    10 ^ k * 10 ^ (-d.exponent).toNat = 10 ^ (k + (-d.exponent).toNat) := (Nat.pow_add ..).symm
    _ ≤ 10 ^ ((Nat.toDigits 10 d.digits).length - 1 + d.exponent.toNat) :=
      Nat.pow_le_pow_right (by decide) (by omega)
    _ = 10 ^ ((Nat.toDigits 10 d.digits).length - 1) * 10 ^ d.exponent.toNat := Nat.pow_add ..
    _ ≤ d.digits * 10 ^ d.exponent.toNat :=
      Nat.mul_le_mul_right _ (pow_length_toDigits_le hd)

theorem num_mul_pow_lt (d : Decimal) (k : Nat) (hk : d.pointPlace + k ≤ 0) :
    d.num * 10 ^ k < d.den := by
  rw [pointPlace] at hk
  calc
    d.digits * 10 ^ d.exponent.toNat * 10 ^ k
        < 10 ^ (Nat.toDigits 10 d.digits).length * 10 ^ d.exponent.toNat * 10 ^ k := by
      have hpos : 0 < 10 ^ d.exponent.toNat * 10 ^ k :=
        Nat.mul_pos (Nat.pow_pos (by decide)) (Nat.pow_pos (by decide))
      rw [Nat.mul_assoc, Nat.mul_assoc]
      exact Nat.mul_lt_mul_of_pos_right (lt_pow_length_toDigits _) hpos
    _ = 10 ^ ((Nat.toDigits 10 d.digits).length + d.exponent.toNat + k) := by
      rw [Nat.pow_add, Nat.pow_add]
    _ ≤ 10 ^ (-d.exponent).toNat := Nat.pow_le_pow_right (by decide) (by omega)

theorem two_pow_le_ten_pow (k : Nat) : 2 ^ (3 * k) ≤ 10 ^ k := by
  rw [Nat.pow_mul]
  exact Nat.pow_le_pow_left (by decide) k

-- The powers are generalised first, so that no step evaluates them.
theorem unitsPerOne_mul_two_le : unitsPerOne * 2 ≤ 2 ^ (3 * 359) := by
  have h : 1074 + 1 ≤ 3 * 359 := by decide
  rw [unitsPerOne]
  revert h
  generalize 1074 = k
  generalize 3 * 359 = m
  intro h
  rw [← Nat.pow_succ]
  exact Nat.pow_le_pow_right (by decide) h

theorem rank_of_digits_eq_zero {d : Decimal} (h : d.digits = 0) : d.rank = 0 := by
  have hden := den_pos d
  apply nearestRank_eq_zero
  simp [num, h, hden]

theorem digits_pos_of_rank {d : Decimal} (h : d.rank ≠ 0) : 0 < d.digits := by
  rw [Nat.pos_iff_ne_zero]
  intro hzero
  exact h (rank_of_digits_eq_zero hzero)

/-- The point of a decimal that names a positive finite magnitude is not far away. -/
theorem pointPlace_bounds {d : Decimal} (hpos : d.rank ≠ 0) (hfin : d.rank < finiteCount) :
    -359 < d.pointPlace ∧ d.pointPlace ≤ 700 := by
  constructor
  · by_contra hsmall
    have hnum := num_mul_pow_lt d 359 (by omega)
    apply hpos
    apply nearestRank_eq_zero
    calc
      2 * (d.num * unitsPerOne) = d.num * (unitsPerOne * 2) := by
        rw [Nat.mul_comm 2, Nat.mul_assoc]
      _ ≤ d.num * 2 ^ (3 * 359) := Nat.mul_le_mul_left _ unitsPerOne_mul_two_le
      _ ≤ d.num * 10 ^ 359 := Nat.mul_le_mul_left _ (two_pow_le_ten_pow 359)
      _ < d.den := hnum
  · by_contra hlarge
    have hnum := pow_mul_den_le (digits_pos_of_rank hpos) 700 (by omega)
    have hhuge : 2 ^ (3 * 700) * d.den ≤ d.num * unitsPerOne := by
      calc
        2 ^ (3 * 700) * d.den ≤ 10 ^ 700 * d.den :=
          Nat.mul_le_mul_right _ (two_pow_le_ten_pow 700)
        _ ≤ d.num := hnum
        _ ≤ d.num * unitsPerOne := Nat.le_mul_of_pos_right _ unitsPerOne_pos
    have hover := finiteCount_le_nearestRank (by decide) (den_pos d) hhuge
    exact absurd hfin (Nat.not_lt.mpr hover)

end AnnotatedAtoms.Decimal
