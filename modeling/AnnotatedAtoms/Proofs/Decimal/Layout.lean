import AnnotatedAtoms.Proofs.Decimal.Digits
import AnnotatedAtoms.Proofs.Decimal.Literal

/-!
# The two notations

A decimal that is written in positional or in exponent notation is read as a decimal of the same
magnitude, wherever its point stands.

* `readMagnitude?_positional`, `readMagnitude?_scientific`: reading either notation;
* `positional_chars`, `scientific_chars`: the characters of either notation.
-/

namespace AnnotatedAtoms.Decimal

open Binary64 Literal

/-- The exponent of a text without one. -/
theorem readExponent?_nil : readExponent? [] = some 0 := rfl

theorem isDigit_of_mem_zeros {k : Nat} {c : Char} (hc : c ∈ List.replicate k '0') :
    c.isDigit = true := by
  rw [List.eq_of_mem_replicate hc]
  rfl

/-! ## Positional notation -/

/-- Below one, zeros stand between the point and the digits. -/
theorem readMagnitude?_below_one {d : Decimal} (hplace : d.pointPlace ≤ 0) :
    readMagnitude? d.positional = some d.trimmed := by
  have htext : d.positional =
      ['0'] ++ '.' :: (List.replicate (-d.pointPlace).toNat '0' ++ d.digitChars ++ []) := by
    simp [positional, hplace]
  have hf : ∀ c ∈ List.replicate (-d.pointPlace).toNat '0' ++ d.digitChars, c.isDigit = true := by
    intro c hc
    rcases List.mem_append.mp hc with hc | hc
    · exact isDigit_of_mem_zeros hc
    · exact isDigit_of_mem_digitChars hc
  have hread := readMagnitude?_point ['0'] _ [] (by simp) hf (by simp) (by simp)
  have hdigits : Nat.ofDigitChars 10 (['0'] ++ (List.replicate (-d.pointPlace).toNat '0' ++
      d.digitChars)) 0 = Nat.ofDigitChars 10 d.digitChars 0 := by
    rw [← List.append_assoc, ← List.replicate_one, List.replicate_append_replicate]
    exact ofDigitChars_zeros_append _ _
  have hexponent : (0 : Int) - (List.replicate (-d.pointPlace).toNat '0' ++ d.digitChars).length =
      d.pointPlace - d.digitChars.length := by
    rw [List.length_append, List.length_replicate]
    omega
  rw [htext, hread, readExponent?_nil, hdigits, Option.map_some, hexponent]
  rfl

/-- In a whole number, zeros stand after the digits. -/
theorem readMagnitude?_whole_number {d : Decimal} (hd : 0 < d.digits) (hpos : 0 < d.pointPlace)
    (hplace : d.digitChars.length ≤ d.pointPlace) :
    (readMagnitude? d.positional).map rank = some d.rank := by
  have htext : d.positional =
      d.digitChars ++ List.replicate (d.pointPlace - d.digitChars.length).toNat '0' ++ [] := by
    simp [positional, hplace, Int.not_le.mpr hpos]
  have hw : ∀ c ∈ d.digitChars ++ List.replicate (d.pointPlace - d.digitChars.length).toNat '0',
      c.isDigit = true := by
    intro c hc
    rcases List.mem_append.mp hc with hc | hc
    · exact isDigit_of_mem_digitChars hc
    · exact isDigit_of_mem_zeros hc
  have hread := readMagnitude?_whole _ [] hw (by simp [digitChars_ne_nil hd]) (by simp) (by simp)
  have hexponent : (0 : Int) + ((d.pointPlace - d.digitChars.length).toNat : Int) =
      d.pointPlace - d.digitChars.length := by omega
  rw [htext, hread, readExponent?_nil, ofDigitChars_append_zeros, Option.map_some, Option.map_some,
    rank_shift, hexponent]
  exact congrArg some (rank_trimmed d)

/-- Else the point stands among the digits. -/
theorem readMagnitude?_among_digits {d : Decimal} (hd : 0 < d.digits) (hpos : 0 < d.pointPlace)
    (hplace : d.pointPlace < d.digitChars.length) :
    readMagnitude? d.positional = some d.trimmed := by
  have htext : d.positional =
      d.digitChars.take d.pointPlace.toNat ++
        '.' :: (d.digitChars.drop d.pointPlace.toNat ++ []) := by
    simp [positional, Int.not_le.mpr hpos, Int.not_le.mpr hplace]
  have hread := readMagnitude?_point (d.digitChars.take d.pointPlace.toNat)
    (d.digitChars.drop d.pointPlace.toNat) []
    (fun c hc => isDigit_of_mem_digitChars (List.mem_of_mem_take hc))
    (fun c hc => isDigit_of_mem_digitChars (List.mem_of_mem_drop hc))
    (by simp [List.take_append_drop, digitChars_ne_nil hd]) (by simp)
  have hexponent : (0 : Int) - (d.digitChars.drop d.pointPlace.toNat).length =
      d.pointPlace - d.digitChars.length := by
    rw [List.length_drop]
    omega
  rw [htext, hread, readExponent?_nil, List.take_append_drop, Option.map_some, hexponent]
  rfl

theorem readMagnitude?_positional {d : Decimal} (hd : 0 < d.digits) :
    (readMagnitude? d.positional).map rank = some d.rank := by
  by_cases hpos : 0 < d.pointPlace
  · by_cases hplace : d.digitChars.length ≤ d.pointPlace
    · exact readMagnitude?_whole_number hd hpos hplace
    · rw [readMagnitude?_among_digits hd hpos (by omega), Option.map_some, rank_trimmed]
  · rw [readMagnitude?_below_one (by omega), Option.map_some, rank_trimmed]

/-! ## Exponent notation -/

theorem readMagnitude?_scientific {d : Decimal} (hd : 0 < d.digits)
    (hplace : (d.pointPlace - 1).natAbs < 2 ^ 16) :
    readMagnitude? d.scientific = some d.trimmed := by
  have hcs : ∀ c ∈ d.digitChars, c.isDigit = true := fun c hc => isDigit_of_mem_digitChars hc
  have hexponent := readExponent?_wholeChars (d.pointPlace - 1) hplace
  rw [scientific, trimmed]
  rcases hchars : d.digitChars with _ | ⟨c, _ | ⟨c', cs⟩⟩
  · exact absurd hchars (digitChars_ne_nil hd)
  · have hread := readMagnitude?_whole [c] ('e' :: wholeChars (d.pointPlace - 1))
      (by simpa [hchars] using hcs) (by simp) (by simp) (by simp)
    rw [hexponent] at hread
    exact hread
  · rw [hchars, List.forall_mem_cons] at hcs
    obtain ⟨hc, hcs⟩ := hcs
    have hread := readMagnitude?_point [c] (c' :: cs) ('e' :: wholeChars (d.pointPlace - 1))
      (List.forall_mem_singleton.mpr hc) hcs (by simp) (by simp)
    have hlength : d.pointPlace - 1 - ((c' :: cs).length : Int) =
        d.pointPlace - ((c :: c' :: cs).length : Int) := by
      simp only [List.length_cons]
      omega
    rw [hexponent, Option.map_some, hlength] at hread
    exact hread

/-! ## Characters -/

theorem positional_chars (d : Decimal) : ∀ c ∈ d.positional, c.isDigit = true ∨ c = '.' := by
  intro c hc
  unfold positional at hc
  dsimp only at hc
  split_ifs at hc
  · rw [List.cons_append, List.cons_append, List.mem_cons, List.mem_cons, List.mem_append] at hc
    rcases hc with rfl | rfl | hc | hc
    · exact Or.inl rfl
    · exact Or.inr rfl
    · exact Or.inl (isDigit_of_mem_zeros hc)
    · exact Or.inl (isDigit_of_mem_digitChars hc)
  · rcases List.mem_append.mp hc with hc | hc
    · exact Or.inl (isDigit_of_mem_digitChars hc)
    · exact Or.inl (isDigit_of_mem_zeros hc)
  · rw [List.mem_append, List.mem_cons] at hc
    rcases hc with hc | rfl | hc
    · exact Or.inl (isDigit_of_mem_digitChars (List.mem_of_mem_take hc))
    · exact Or.inr rfl
    · exact Or.inl (isDigit_of_mem_digitChars (List.mem_of_mem_drop hc))

theorem wholeChars_chars (n : Int) : ∀ c ∈ wholeChars n, c.isDigit = true ∨ c = '-' := by
  intro c hc
  rw [wholeChars] at hc
  split_ifs at hc
  · rcases List.mem_cons.mp hc with rfl | hc
    · exact Or.inr rfl
    · exact Or.inl (isDigit_of_mem_toDigits hc)
  · exact Or.inl (isDigit_of_mem_toDigits hc)

theorem scientific_chars (d : Decimal) :
    ∀ c ∈ d.scientific, c.isDigit = true ∨ c = '.' ∨ c = 'e' ∨ c = '-' := by
  have hdigit : ∀ c ∈ d.digitChars, c.isDigit = true := fun c hc => isDigit_of_mem_digitChars hc
  intro c hc
  rw [scientific, List.mem_append, List.mem_cons] at hc
  rcases hc with hc | rfl | hc
  · split at hc
    · rename_i a b cs hchars
      rw [hchars] at hdigit
      simp only [List.mem_cons] at hc hdigit
      rcases hc with rfl | rfl | rfl | hc
      · exact Or.inl (hdigit _ (Or.inl rfl))
      · exact Or.inr (Or.inl rfl)
      · exact Or.inl (hdigit _ (Or.inr (Or.inl rfl)))
      · exact Or.inl (hdigit _ (Or.inr (Or.inr hc)))
    · exact Or.inl (hdigit c hc)
  · exact Or.inr (Or.inr (Or.inl rfl))
  · rcases wholeChars_chars _ c hc with h | h
    · exact Or.inl h
    · exact Or.inr (Or.inr (Or.inr h))

end AnnotatedAtoms.Decimal
