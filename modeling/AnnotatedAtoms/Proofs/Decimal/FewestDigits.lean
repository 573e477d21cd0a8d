import AnnotatedAtoms.Proofs.Decimal.Grid
import AnnotatedAtoms.Proofs.Decimal.RoundTrip
import AnnotatedAtoms.Proofs.Decimal.Shape

/-!
# Written numbers have the fewest digits

A finite number is written in positional notation within the two bounds and in exponent notation
outside them. Either way its text is read as the number and has at most seventeen significant
digits, and no literal that is read as the number has fewer.

* `pointPlace_ne_one`: outside the bounds the exponent is never zero;
* `significantDigits_magnitudeChars`: the significant digits of a written magnitude;
* `fitsDigits_significantDigits`: the digits of a literal fit into its significant ones;
* `render_shortest`: the text of a finite number.
-/

namespace AnnotatedAtoms

namespace Decimal

open Binary64

/-- A decimal lies between the powers of ten around its first digit. -/
theorem toRat_bounds {d : Decimal} (hd : 0 < d.digits) :
    (10 : ℚ) ^ (d.pointPlace - 1) ≤ d.toRat ∧ d.toRat < 10 ^ d.pointPlace := by
  have hlength := Nat.length_toDigits_pos (b := 10) (n := d.digits)
  have hlo : (Decimal.mk (10 ^ ((Nat.toDigits 10 d.digits).length - 1)) d.exponent).toRat ≤
      d.toRat :=
    toRat_le_toRat d.exponent (pow_length_toDigits_le hd)
  have hhi : d.toRat < (Decimal.mk (10 ^ (Nat.toDigits 10 d.digits).length) d.exponent).toRat :=
    (toRat_lt_toRat_iff d.exponent).mpr (lt_pow_length_toDigits d.digits)
  have hplace : (((Nat.toDigits 10 d.digits).length - 1 : ℕ) : ℤ) + d.exponent =
      d.pointPlace - 1 := by
    rw [pointPlace]
    omega
  rw [toRat_pow, hplace] at hlo
  rw [toRat_pow] at hhi
  exact ⟨hlo, hhi⟩

/-- The numbers from one up to ten lie within the bounds of positional notation. -/
theorem pointPlace_ne_one {d : Decimal} (hd : 0 < d.digits)
    (h : ¬(positionalFrom ≤ d.rank ∧ d.rank < positionalTo)) : d.pointPlace ≠ 1 := by
  intro hplace
  obtain ⟨hlo, hhi⟩ := toRat_bounds hd
  rw [hplace] at hlo hhi
  apply h
  constructor
  · apply rank_mono
    refine le_trans ?_ hlo
    norm_num [toRat]
  · have hten : d.rank ≤ (Decimal.mk 10 0).rank := by
      apply rank_mono
      refine hhi.le.trans ?_
      norm_num [toRat]
    exact Nat.lt_of_le_of_lt hten (by decide +kernel)

end Decimal

namespace Binary64

open Decimal Literal

/-! ## Written magnitudes -/

theorem digits_shortest_pos {rank : Nat} (hpos : 0 < rank) : 0 < (shortest rank).digits := by
  apply digits_pos_of_rank
  rw [rank_shortest]
  exact hpos.ne'

theorem isPositional_magnitudeChars {rank : Nat}
    (h : rank = 0 ∨ positionalFrom ≤ rank ∧ rank < positionalTo) :
    IsPositional (magnitudeChars rank) := by
  rw [magnitudeChars]
  split_ifs with hzero hpositional
  · exact ⟨['0'], [], rfl, .inl rfl, .inl rfl⟩
  · exact isPositional_positional (digits_shortest_pos (Nat.pos_of_ne_zero hzero))
  · exact absurd (h.resolve_left hzero) hpositional

theorem isScientific_magnitudeChars {rank : Nat}
    (h : ¬(rank = 0 ∨ positionalFrom ≤ rank ∧ rank < positionalTo)) :
    IsScientific (magnitudeChars rank) := by
  rw [not_or] at h
  have hdigits := digits_shortest_pos (Nat.pos_of_ne_zero h.1)
  rw [magnitudeChars, if_neg h.1, if_neg h.2]
  apply isScientific_scientific hdigits
  apply pointPlace_ne_one hdigits
  rw [rank_shortest]
  exact h.2

theorem significantDigits_magnitudeChars {rank : Nat} (hpos : 0 < rank) :
    significantDigits (magnitudeChars rank) = (shortest rank).digitChars := by
  rw [magnitudeChars, if_neg hpos.ne']
  split_ifs
  · exact significantDigits_positional (digits_shortest_pos hpos)
  · exact significantDigits_scientific (digits_shortest_pos hpos)

end Binary64

namespace Literal

open Decimal

/-! ## Literals of a number -/

/-- The digits of a literal fit into its significant ones. -/
theorem fitsDigits_significantDigits (cs : List Char) :
    FitsDigits (Nat.ofDigitChars 10 (mantissaDigits cs) 0) (significantDigits cs).length := by
  have hsplit := rdropWhile_append_zeros ((mantissaDigits cs).dropWhile (· = '0'))
  have hdigits : ∀ c ∈ significantDigits cs, c.isDigit = true := by
    intro c hc
    have hmem : c ∈ (mantissaDigits cs).dropWhile (· = '0') := by
      rw [← hsplit]
      exact List.mem_append_left _ hc
    exact (List.mem_filter.mp (List.dropWhile_subset _ hmem)).2
  have hvalue := ofDigitChars_dropWhile_zeros (mantissaDigits cs)
  rw [← hsplit, ofDigitChars_append_zeros] at hvalue
  exact ⟨_, _, hvalue.symm, ofDigitChars_lt_pow _ hdigits⟩

theorem exists_decimal_of_read? {cs : List Char} {x : Binary64} (h : read? cs = some x) :
    ∃ (d : Decimal) (negative : Bool),
      d.digits = Nat.ofDigitChars 10 (mantissaDigits cs) 0 ∧ d.toBinary64 negative = x := by
  obtain ⟨s, hs⟩ := exists_sign cs
  rcases hsplit : splitSign cs with ⟨negative, magnitude⟩
  rw [hsplit] at hs
  simp only [read?, hsplit] at h
  obtain ⟨h, -⟩ := Option.filter_eq_some_iff.mp h
  obtain ⟨d, hd, hx⟩ := Option.map_eq_some_iff.mp h
  refine ⟨d, negative, ?_, hx⟩
  rw [digits_of_readMagnitude? hd, ← hs, mantissaDigits_sign]

/-- No literal of a number has fewer significant digits than the shortest decimal of its rank. -/
theorem length_digitChars_le_of_read? {cs : List Char} {negative : Bool}
    {rank : Fin Binary64.finiteCount} (hpos : 0 < rank.val)
    (h : read? cs = some (.finite negative rank)) :
    (shortest rank).digitChars.length ≤ (significantDigits cs).length := by
  obtain ⟨d, s, hdigits, hd⟩ := exists_decimal_of_read? h
  have hrank : d.rank = rank := by
    rw [toBinary64, Binary64.ofRank] at hd
    split_ifs at hd with hfinite
    cases hd
    rfl
  have hfits := fitsDigits_significantDigits cs
  rw [← hdigits] at hfits
  rw [← hrank] at hpos ⊢
  exact length_digitChars_shortest_le hpos hfits

end Literal

namespace Binary64

open Decimal Literal

/-! ## The text of a number -/

theorem significantDigits_chars (negative : Bool) (rank : Fin finiteCount) :
    significantDigits (finite negative rank).chars = significantDigits (magnitudeChars rank) := by
  rw [chars]
  cases negative with
  | false => rw [if_neg Bool.false_ne_true]
  | true =>
    have hminus : mantissaDigits ('-' :: magnitudeChars rank) =
        mantissaDigits (magnitudeChars rank) := mantissaDigits_sign .minus _
    rw [if_pos rfl, significantDigits, hminus, ← significantDigits]

theorem significantDigits_zero : significantDigits (magnitudeChars 0) = [] := by decide

theorem length_significantDigits_magnitudeChars (rank : Nat) :
    (significantDigits (magnitudeChars rank)).length ≤ 17 := by
  rcases Nat.eq_zero_or_pos rank with rfl | hpos
  · rw [significantDigits_zero]
    exact Nat.zero_le _
  · rw [significantDigits_magnitudeChars hpos]
    exact length_digitChars_shortest hpos

theorem length_significantDigits_le {cs : List Char} {negative : Bool} {rank : Fin finiteCount}
    (h : read? cs = some (finite negative rank)) :
    (significantDigits (magnitudeChars rank)).length ≤ (significantDigits cs).length := by
  rcases Nat.eq_zero_or_pos rank.val with hzero | hpos
  · rw [hzero, significantDigits_zero]
    exact Nat.zero_le _
  · rw [significantDigits_magnitudeChars hpos]
    exact length_digitChars_le_of_read? hpos h

/-! ## The bounds -/

/-- The number that a decimal is rounded to, by its rank. -/
theorem isNearest_rank {d : Decimal} (h : d.rank < finiteCount) :
    (finite false ⟨d.rank, h⟩).IsNearest d.toRat := by
  have hnearest := isNearest_toBinary64 false h
  rw [toBinary64, ofRank, dif_pos h, withSign_false] at hnearest
  exact hnearest

theorem magnitude_eq_zero_iff (rank : Nat) : magnitude rank = 0 ↔ rank = 0 := by
  rw [← magnitude_zero, magnitude_strictMono.injective.eq_iff]

theorem toRat?_eq_magnitude (negative : Bool) (rank : Fin finiteCount) :
    (finite negative rank).toRat? = some (withSign negative (magnitude rank)) := by
  rw [toRat?_finite, magnitude]

/-- **The fewest digits.** Zero and the finite numbers from the one nearest to `1e-4` up to but
excluding the one nearest to `1e16` are written as `-?(0|[1-9][0-9]*)(\.[0-9]*[1-9])?`, and every
other finite number as `-?[1-9](\.[0-9]*[1-9])?e-?[1-9][0-9]*`, with the minus sign exactly where
the number has one. The text is read as the number and has at most seventeen significant digits, and
every literal that is read as the number has at least as many. -/
theorem render_shortest :
    ∃ (lo hi : Binary64) (l h : ℚ), lo.toRat? = some l ∧ lo.IsNearest (1 / 10 ^ 4) ∧
      hi.toRat? = some h ∧ hi.IsNearest (10 ^ 16) ∧
      ∀ (x : Binary64) (q : ℚ), x.toRat? = some q → ∃ text,
        x.render.toList = (if x.isNegative then '-' :: text else text) ∧
        (q = 0 ∨ l ≤ |q| ∧ |q| < h → IsPositional text) ∧
        (¬(q = 0 ∨ l ≤ |q| ∧ |q| < h) → IsScientific text) ∧
        read? x.render.toList = some x ∧
        (significantDigits x.render.toList).length ≤ 17 ∧
        ∀ cs, read? cs = some x →
          (significantDigits x.render.toList).length ≤ (significantDigits cs).length := by
  have hlo := isNearest_rank (d := ⟨1, -4⟩) (by decide +kernel)
  have hhi := isNearest_rank (d := ⟨1, 16⟩) (by decide +kernel)
  have hlow : (Decimal.mk 1 (-4)).toRat = 1 / 10 ^ 4 := by norm_num [toRat]
  have hhigh : (Decimal.mk 1 16).toRat = 10 ^ 16 := by norm_num [toRat]
  rw [hlow] at hlo
  rw [hhigh] at hhi
  refine ⟨_, _, _, _, toRat?_eq_magnitude _ _, hlo, toRat?_eq_magnitude _ _, hhi, ?_⟩
  intro x q hx
  obtain ⟨negative, rank, rfl, -⟩ := exists_of_toRat? hx
  rw [toRat?_eq_magnitude, Option.some.injEq] at hx
  have hread : read? (finite negative rank).chars = some (finite negative rank) := read?_chars _
  have habs : |q| = magnitude rank := by
    rw [← hx, abs_withSign, abs_of_nonneg (magnitude_nonneg rank)]
  rw [← abs_eq_zero, habs, magnitude_eq_zero_iff, withSign_false, withSign_false,
    magnitude_strictMono.le_iff_le, magnitude_strictMono.lt_iff_lt, render, String.toList_ofList,
    significantDigits_chars]
  exact ⟨magnitudeChars rank, rfl, isPositional_magnitudeChars, isScientific_magnitudeChars, hread,
    length_significantDigits_magnitudeChars rank, fun _ => length_significantDigits_le⟩

/-- The smallest positive number is read from its own text, and also from other literals with one
digit. -/
theorem render_shortest_smallest :
    let x : Binary64 := .finite false ⟨1, by decide⟩
    x.toRat? = some (magnitude 1) ∧ read? "3e-324".toList = some x ∧
      read? x.render.toList = some x ∧ (significantDigits x.render.toList).length ≤ 1 := by
  intro x
  have hvalue : x.toRat? = some (magnitude 1) := by
    rw [toRat?_eq_magnitude, withSign_false]
  have hread : read? "3e-324".toList = some x := by decide +kernel
  have hone : (significantDigits "3e-324".toList).length = 1 := by decide
  obtain ⟨_, _, _, _, -, -, -, -, hall⟩ := render_shortest
  obtain ⟨text, -, -, -, hback, -, hfewest⟩ := hall x (magnitude 1) hvalue
  exact ⟨hvalue, hread, hback, hone ▸ hfewest _ hread⟩

end Binary64

end AnnotatedAtoms
