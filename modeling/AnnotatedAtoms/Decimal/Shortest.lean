import AnnotatedAtoms.Decimal.Basic

/-!
# Shortest decimals

The decimal that stands for a finite magnitude: one with the fewest digits among those that read
back as it, and of these the nearest to it. With a given number of digits the candidates are the
two neighbours of the magnitude on the decimal grid of that many digits; a magnitude halfway
between them goes to the upper one.

* `lt_pow_digitCount`, `pow_digitCount_le`: the number of digits of a number;
* `rank_of_onGrid?`: what is chosen on a grid reads back.
-/

namespace AnnotatedAtoms.Decimal

open Binary64 (units unitsPerOne)

/-! ## Counting digits -/

theorem lt_pow_length_toDigits (n : Nat) : n < 10 ^ (Nat.toDigits 10 n).length :=
  (Nat.length_toDigits_le_iff (by decide) Nat.length_toDigits_pos).mp (Nat.le_refl _)

theorem pow_length_toDigits_le {n : Nat} (hn : 0 < n) :
    10 ^ ((Nat.toDigits 10 n).length - 1) ≤ n := by
  rcases Nat.eq_or_lt_of_le (Nat.length_toDigits_pos (b := 10) (n := n)) with h | h
  · rw [← h]
    exact hn
  · have hshort := mt (Nat.length_toDigits_le_iff (b := 10) (n := n) (by decide)
      (show 0 < (Nat.toDigits 10 n).length - 1 by omega)).mpr
    omega

theorem isDigit_of_mem_toDigits {n : Nat} {c : Char} (hc : c ∈ Nat.toDigits 10 n) :
    c.isDigit = true :=
  Nat.isDigit_of_mem_toDigits (by decide) (by decide) hc

/-- The number of decimal digits, counted sixteen at a time. Zero has one digit. -/
def digitCount (n : Nat) : Nat :=
  if n < 10 ^ 16 then (Nat.toDigits 10 n).length else digitCount (n / 10 ^ 16) + 16

theorem digitCount_pos (n : Nat) : 0 < digitCount n := by
  unfold digitCount
  split
  · exact Nat.length_toDigits_pos
  · omega

theorem lt_pow_digitCount (n : Nat) : n < 10 ^ digitCount n := by
  fun_induction digitCount n with
  | case1 n => exact lt_pow_length_toDigits n
  | case2 n _ ih =>
    rw [Nat.pow_add]
    exact (Nat.div_lt_iff_lt_mul (by decide)).1 ih

theorem pow_digitCount_le {n : Nat} (pos : 0 < n) : 10 ^ (digitCount n - 1) ≤ n := by
  fun_induction digitCount n with
  | case1 n _ => exact pow_length_toDigits_le pos
  | case2 n large ih =>
    have := digitCount_pos (n / 10 ^ 16)
    rw [Nat.sub_add_comm this, Nat.pow_add]
    exact (Nat.le_div_iff_mul_le (by decide)).1 (ih (by omega))

/-- The place before the first digit of a positive magnitude: the magnitude lies between the powers
of ten one below it and at it. No positive magnitude is below `10 ^ -324`. -/
def leadingPlace (rank : Nat) : Int := digitCount (units rank * 10 ^ 324 / unitsPerOne) - 324

/-! ## Grids -/

/-- The two neighbours of a magnitude among the multiples of a power of ten, the nearer first. -/
def neighbours (rank : Nat) (exponent : Int) : List Decimal :=
  let num := units rank * 10 ^ (-exponent).toNat
  let den := unitsPerOne * 10 ^ exponent.toNat
  let below : Decimal := ⟨num / den, exponent⟩
  let above : Decimal := ⟨num / den + 1, exponent⟩
  if 2 * (num % den) < den then [below, above] else [above, below]

/-- The first neighbour that reads back as the magnitude, if there is one. -/
def onGrid? (rank : Nat) (exponent : Int) : Option Decimal :=
  (neighbours rank exponent).find? fun d => d.rank = rank

theorem rank_of_onGrid? {rank : Nat} {exponent : Int} {d : Decimal}
    (h : onGrid? rank exponent = some d) : d.rank = rank := by
  simpa using List.find?_some h

/-- Seventeen digits always suffice; the exact decimal of the magnitude closes the definition. -/
def shortest (rank : Nat) : Decimal :=
  let place := leadingPlace rank
  let found := (List.range' 1 17).findSome? fun (count : Nat) => onGrid? rank (place - count)
  found.getD ⟨units rank * 5 ^ 1074, -1074⟩

end AnnotatedAtoms.Decimal
