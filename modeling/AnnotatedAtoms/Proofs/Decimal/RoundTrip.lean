import AnnotatedAtoms.Proofs.Binary64.Word
import AnnotatedAtoms.Proofs.Decimal.Layout

/-!
# Written numbers read back

The text of a finite number is read as that number, and the text of an infinity or of not-a-number
is no literal at all.

* `rank_shortest`: the shortest decimal names the magnitude that it stands for;
* `read?_chars`: what is read from the text of a number;
* `chars_injective`: so numbers with the same text are the same;
* `chars_of_isFinite`: the characters in the text of a finite number;
* `read?_render_ofWord`: the same, bit for bit, for every 64-bit word.
-/

namespace AnnotatedAtoms

namespace Decimal

open Binary64 Literal

/-- Where one is `2 ^ k` units, one unit is `5 ^ k` in units of `10 ^ -k`. -/
theorem rank_mul_five_pow (n k : Nat) (h : unitsPerOne = 2 ^ k) :
    (Decimal.mk (n * 5 ^ k) (-(k : Int))).rank = nearestRank n 1 := by
  apply nearestRank_congr (den_pos _) Nat.one_pos
  have hnum : (Decimal.mk (n * 5 ^ k) (-(k : Int))).num = n * 5 ^ k := by simp [num]
  have hden : (Decimal.mk (n * 5 ^ k) (-(k : Int))).den = 10 ^ k := by simp [den]
  rw [hnum, hden, h, Nat.mul_one, Nat.mul_assoc, ← Nat.mul_pow]

/-- The exact decimal of a magnitude names it. -/
theorem rank_exact (rank : Nat) : (Decimal.mk (units rank * 5 ^ 1074) (-1074)).rank = rank :=
  (rank_mul_five_pow (units rank) 1074 (by rw [unitsPerOne])).trans (nearestRank_units rank)

/-- The shortest decimal names the magnitude that it stands for. -/
theorem rank_shortest (rank : Nat) : (shortest rank).rank = rank := by
  have hexact := rank_exact rank
  simp only [shortest]
  cases hfound : (List.range' 1 17).findSome? fun (count : Nat) =>
      onGrid? rank (leadingPlace rank - count) with
  | none => exact hexact
  | some d =>
    obtain ⟨count, -, hcount⟩ := List.exists_of_findSome?_eq_some hfound
    exact rank_of_onGrid? hcount

end Decimal

namespace Binary64

open Decimal Literal

theorem readMagnitude?_magnitudeChars {rank : Nat} (h : rank < finiteCount) :
    (readMagnitude? (magnitudeChars rank)).map Decimal.rank = some rank := by
  rw [magnitudeChars]
  split_ifs with hzero hpositional
  · rw [hzero]
    have hread : readMagnitude? ['0'] = some ⟨0, 0⟩ := rfl
    rw [hread, Option.map_some, rank_of_digits_eq_zero rfl]
  · have hrank := rank_shortest rank
    have hdigits := digits_pos_of_rank (d := shortest rank) (by rw [hrank]; exact hzero)
    rw [readMagnitude?_positional hdigits, hrank]
  · have hrank := rank_shortest rank
    have hne : (shortest rank).rank ≠ 0 := by rw [hrank]; exact hzero
    have hplace := pointPlace_bounds hne (by rw [hrank]; exact h)
    rw [readMagnitude?_scientific (digits_pos_of_rank hne) (by omega), Option.map_some,
      rank_trimmed, hrank]

/-- A finite number is read from its text, and the other texts are no literals. -/
theorem read?_chars (x : Binary64) : read? x.chars = if x.isFinite then some x else none := by
  cases x with
  | finite negative rank =>
    obtain ⟨d, hread, hrank⟩ := Option.map_eq_some_iff.mp (readMagnitude?_magnitudeChars rank.isLt)
    have hx : d.toBinary64 negative = .finite negative rank := by
      rw [toBinary64, hrank, ofRank, dif_pos rank.isLt]
    rw [chars, read?_signed negative hread, hx]
    rfl
  | infinite negative =>
    have hopens : opens (Binary64.infinite negative).chars = false := by
      cases negative <;> decide
    exact read?_eq_none_of_not_opens hopens
  | nan =>
    have hopens : opens Binary64.nan.chars = false := by decide
    exact read?_eq_none_of_not_opens hopens

/-- A number can be told from its text. -/
theorem chars_injective : Function.Injective chars := by
  intro x y h
  have hread := read?_chars x
  rw [h, read?_chars y] at hread
  cases x with
  | finite s m =>
    cases y with
    | finite t n => exact (Option.some.inj hread).symm
    | infinite t => cases hread
    | nan => cases hread
  | infinite s =>
    cases y with
    | finite t n => cases hread
    | infinite t =>
      cases s <;> cases t <;> first | rfl | exact absurd h (by decide)
    | nan => cases s <;> exact absurd h (by decide)
  | nan =>
    cases y with
    | finite t n => cases hread
    | infinite t => cases t <;> exact absurd h (by decide)
    | nan => rfl

/-! ## Characters -/

theorem magnitudeChars_chars (rank : Nat) :
    ∀ c ∈ magnitudeChars rank, c.isDigit = true ∨ c = '.' ∨ c = 'e' ∨ c = '-' := by
  intro c hc
  rw [magnitudeChars] at hc
  split_ifs at hc
  · rw [List.mem_singleton.mp hc]
    exact Or.inl rfl
  · rcases positional_chars _ c hc with h | h
    · exact Or.inl h
    · exact Or.inr (Or.inl h)
  · exact scientific_chars _ c hc

theorem chars_of_isFinite {x : Binary64} (h : x.isFinite = true) :
    ∀ c ∈ x.chars, c.isDigit = true ∨ c = '.' ∨ c = 'e' ∨ c = '-' := by
  cases x with
  | infinite negative => cases h
  | nan => cases h
  | finite negative rank =>
    intro c hc
    rw [chars] at hc
    split_ifs at hc
    · rcases List.mem_cons.mp hc with rfl | hc
      · exact Or.inr (Or.inr (Or.inr rfl))
      · exact magnitudeChars_chars _ c hc
    · exact magnitudeChars_chars _ c hc

theorem chars_ne_nil {x : Binary64} (h : x.isFinite = true) : x.chars ≠ [] := by
  intro hnil
  have hread := read?_chars x
  rw [hnil, if_pos h] at hread
  cases hread

/-! ## Words -/

/-- **Written numbers read back.** For every word, the text of its number is read as exactly that
word if the number is finite, and it is no literal if the number is infinite or not a number. -/
theorem read?_render_ofWord (word : UInt64) :
    (read? (ofWord word).render.toList).map toWord =
      if exponentBits word = 2047 then none else some word := by
  rw [render, String.toList_ofList, read?_chars]
  split_ifs with hfinite hspecial hspecial
  · exact absurd hspecial ((isFinite_ofWord word).mp hfinite)
  · rw [Option.map_some, toWord_ofWord word hspecial]
  · rfl
  · exact absurd ((isFinite_ofWord word).mpr hspecial) hfinite

end Binary64

end AnnotatedAtoms
