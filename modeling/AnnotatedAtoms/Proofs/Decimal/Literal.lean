import AnnotatedAtoms.Decimal.Literal
import AnnotatedAtoms.Decimal.Notation
import AnnotatedAtoms.Proofs.Runs

/-!
# Shapes of literals

What is read from a text of a given shape: a whole number or a number with a point, and an exponent
after it. And what every literal begins with.

* `readMagnitude?_whole`, `readMagnitude?_point`, `readExponent?_wholeChars`: reading by shape;
* `opens_iff`: the beginning of a literal, as a pattern;
* `opens_of_read?`: what can be read begins like a literal.
-/

namespace AnnotatedAtoms.Literal

open Decimal (wholeChars isDigit_of_mem_toDigits)

theorem splitSign_digit (c : Char) (cs : List Char) (hc : c.isDigit = true) :
    splitSign (c :: cs) = (false, c :: cs) := by
  unfold splitSign
  split
  · rename_i h
    cases h
    exact absurd hc (by decide)
  · rename_i h
    cases h
    exact absurd hc (by decide)
  · rfl

theorem splitSign_toDigits (n : Nat) :
    splitSign (Nat.toDigits 10 n) = (false, Nat.toDigits 10 n) := by
  obtain ⟨c, cs, h⟩ := List.exists_cons_of_ne_nil (Nat.toDigits_ne_nil (n := n) (b := 10))
  have hc : c.isDigit = true := isDigit_of_mem_toDigits (n := n) (by simp [h])
  rw [h, splitSign_digit c cs hc]

/-! ## Exponents -/

theorem le_ofDigitChars (cs : List Char) (e : Nat) : e ≤ Nat.ofDigitChars 10 cs e := by
  rw [Nat.ofDigitChars_eq_ofDigitChars_zero]
  exact Nat.le_add_right_of_le (Nat.le_mul_of_pos_left e (Nat.pow_pos (by decide)))

/-- The digits count in full as long as the value before the last one stays below the bound. -/
theorem foldl_exponent (cs : List Char) (e : Nat) (h : Nat.ofDigitChars 10 cs e < 10 * 2 ^ 16) :
    cs.foldl (fun e c => if e < 2 ^ 16 then 10 * e + (c.toNat - '0'.toNat) else e) e =
      Nat.ofDigitChars 10 cs e := by
  induction cs generalizing e with
  | nil => rfl
  | cons c cs ih =>
    rw [Nat.ofDigitChars_cons] at h ⊢
    have hle := le_ofDigitChars cs (10 * e + (c.toNat - '0'.toNat))
    have he : e < 2 ^ 16 := by omega
    rw [List.foldl_cons, if_pos he, ih _ h]

theorem exponentValue_eq {cs : List Char} (h : Nat.ofDigitChars 10 cs 0 < 10 * 2 ^ 16) :
    exponentValue cs = Nat.ofDigitChars 10 cs 0 := foldl_exponent cs 0 h

theorem exponentValue_toDigits (n : Nat) (hn : n < 2 ^ 16) :
    exponentValue (Nat.toDigits 10 n) = n := by
  rw [exponentValue_eq, Nat.ofDigitChars_ten_toDigits]
  rw [Nat.ofDigitChars_ten_toDigits]
  omega

theorem readExponent?_wholeChars (n : Int) (hn : n.natAbs < 2 ^ 16) :
    readExponent? ('e' :: wholeChars n) = some n := by
  have hne := Nat.toDigits_ne_nil (n := n.natAbs) (b := 10)
  have hall : (Nat.toDigits 10 n.natAbs).all Char.isDigit = true := by
    rw [List.all_eq_true]
    exact fun c hc => isDigit_of_mem_toDigits hc
  have hvalue := exponentValue_toDigits n.natAbs hn
  by_cases hneg : n < 0
  · have hsplit : splitSign (wholeChars n) = (true, Nat.toDigits 10 n.natAbs) := by
      rw [wholeChars, if_pos hneg]
      rfl
    have hn' : -(n.natAbs : Int) = n := by omega
    simp only [readExponent?, hsplit, hvalue, true_or, ne_eq, hne, not_false_eq_true, hall,
      and_self, if_true, hn']
  · have hsplit : splitSign (wholeChars n) = (false, Nat.toDigits 10 n.natAbs) := by
      rw [wholeChars, if_neg hneg, splitSign_toDigits]
    have hn' : (n.natAbs : Int) = n := by omega
    simp only [readExponent?, hsplit, hvalue, true_or, ne_eq, hne, not_false_eq_true, hall,
      and_self, if_true, Bool.false_eq_true, if_false, hn']

/-! ## Magnitudes -/

theorem readMagnitude?_whole (whole rest : List Char) (hw : ∀ c ∈ whole, c.isDigit = true)
    (hne : whole ≠ []) (hdigit : ∀ c ∈ rest.head?, c.isDigit = false)
    (hpoint : '.' ∉ rest.head?) :
    readMagnitude? (whole ++ rest) =
      (readExponent? rest).map fun e => ⟨Nat.ofDigitChars 10 whole 0, e⟩ := by
  obtain ⟨ht, hd⟩ := span_run Char.isDigit whole rest hw hdigit
  have hfraction : splitFraction rest = ([], rest) := by
    unfold splitFraction
    split
    · simp at hpoint
    · rfl
  simp [readMagnitude?, ht, hd, hfraction, hne]

theorem readMagnitude?_point (whole fraction rest : List Char)
    (hw : ∀ c ∈ whole, c.isDigit = true) (hf : ∀ c ∈ fraction, c.isDigit = true)
    (hne : whole ++ fraction ≠ []) (hdigit : ∀ c ∈ rest.head?, c.isDigit = false) :
    readMagnitude? (whole ++ '.' :: (fraction ++ rest)) =
      (readExponent? rest).map fun e =>
        ⟨Nat.ofDigitChars 10 (whole ++ fraction) 0, e - fraction.length⟩ := by
  have hpoint : ∀ c ∈ ('.' :: (fraction ++ rest)).head?, c.isDigit = false := by
    intro c hc
    cases hc
    rfl
  obtain ⟨ht, hd⟩ := span_run Char.isDigit whole _ hw hpoint
  obtain ⟨ht', hd'⟩ := span_run Char.isDigit fraction rest hf hdigit
  have hfraction : splitFraction ('.' :: (fraction ++ rest)) = (fraction, rest) := by
    rw [splitFraction, ht', hd']
  simp only [readMagnitude?, ht, hd, hfraction, if_neg hne]

/-! ## How a literal begins -/

/-- A sign or none, a point or none, and a digit. -/
def StartsNumeric (cs : List Char) : Prop :=
  ∃ sign ∈ [[], ['+'], ['-']], ∃ point ∈ [[], ['.']], ∃ (d : Char) (rest : List Char),
    cs = sign ++ point ++ d :: rest ∧ '0' ≤ d ∧ d ≤ '9'

theorem isDigit_iff (c : Char) : c.isDigit = true ↔ '0' ≤ c ∧ c ≤ '9' := by
  simp only [Char.isDigit, Bool.and_eq_true, decide_eq_true_eq]
  rfl

/-- The same beginning after the sign. -/
theorem opens_unsigned (cs : List Char) :
    opens cs = true ↔ ∃ point ∈ [[], ['.']], ∃ (d : Char) (rest : List Char),
      (splitSign cs).2 = point ++ d :: rest ∧ d.isDigit = true := by
  unfold opens
  generalize (splitSign cs).2 = magnitude
  constructor
  · intro h
    split at h
    · rename_i c rest
      exact ⟨['.'], by simp, c, rest, rfl, h⟩
    · rename_i c rest _
      exact ⟨[], by simp, c, rest, rfl, h⟩
    · cases h
  · rintro ⟨point, hpoint, d, rest, rfl, hd⟩
    simp only [List.mem_cons, List.not_mem_nil, or_false] at hpoint
    rcases hpoint with rfl | rfl
    · split
      · rename_i c tail h
        cases h
        exact absurd hd (by decide)
      · rename_i h
        cases h
        exact hd
      · rename_i h
        cases h
    · exact hd

theorem opens_iff (cs : List Char) : opens cs = true ↔ StartsNumeric cs := by
  unfold StartsNumeric
  simp only [opens_unsigned, ← isDigit_iff]
  constructor
  · rintro ⟨point, hpoint, d, rest, h, hd⟩
    unfold splitSign at h
    split at h
    · exact ⟨['-'], by simp, point, hpoint, d, rest, congrArg _ h, hd⟩
    · exact ⟨['+'], by simp, point, hpoint, d, rest, congrArg _ h, hd⟩
    · exact ⟨[], by simp, point, hpoint, d, rest, h, hd⟩
  · rintro ⟨sign, hsign, point, hpoint, d, rest, rfl, hd⟩
    refine ⟨point, hpoint, d, rest, ?_, hd⟩
    simp only [List.mem_cons, List.not_mem_nil, or_false] at hsign hpoint
    rcases hsign with rfl | rfl | rfl
    · rcases hpoint with rfl | rfl
      · exact congrArg Prod.snd (splitSign_digit d rest hd)
      · rfl
    · rfl
    · rfl

/-- A magnitude has a digit at its beginning, or right after a point there. -/
theorem opens_of_readMagnitude? {cs : List Char} {d : Decimal} (h : readMagnitude? cs = some d) :
    ∃ point ∈ [[], ['.']], ∃ (c : Char) (rest : List Char),
      cs = point ++ c :: rest ∧ c.isDigit = true := by
  have hne : cs.takeWhile Char.isDigit ++ (splitFraction (cs.dropWhile Char.isDigit)).1 ≠ [] := by
    intro hnil
    simp [readMagnitude?, hnil] at h
  cases cs with
  | nil => simp [splitFraction] at hne
  | cons c cs =>
    cases hc : c.isDigit with
    | true => exact ⟨[], by simp, c, cs, rfl, hc⟩
    | false =>
      simp only [List.takeWhile_cons, List.dropWhile_cons, hc, Bool.false_eq_true, if_false,
        List.nil_append] at hne
      unfold splitFraction at hne
      split at hne
      · rename_i tail htail
        cases htail
        cases cs with
        | nil => simp at hne
        | cons c' cs =>
          cases hc' : c'.isDigit with
          | true => exact ⟨['.'], by simp, c', cs, rfl, hc'⟩
          | false => simp [hc'] at hne
      · exact absurd rfl hne

theorem opens_of_read? {cs : List Char} {x : Binary64} (h : read? cs = some x) :
    opens cs = true := by
  rw [read?] at h
  obtain ⟨h, -⟩ := Option.filter_eq_some_iff.mp h
  obtain ⟨d, hd, -⟩ := Option.map_eq_some_iff.mp h
  exact (opens_unsigned _).mpr (opens_of_readMagnitude? hd)

theorem read?_eq_none_of_not_opens {cs : List Char} (h : opens cs = false) : read? cs = none := by
  rw [Option.eq_none_iff_forall_ne_some]
  intro x hx
  have := opens_of_read? hx
  rw [h] at this
  cases this

/-! ## Signed numbers -/

/-- No sign stands before a magnitude. -/
theorem splitSign_of_readMagnitude? {cs : List Char} {d : Decimal}
    (h : readMagnitude? cs = some d) : splitSign cs = (false, cs) := by
  obtain ⟨point, hpoint, c, rest, rfl, hc⟩ := opens_of_readMagnitude? h
  simp only [List.mem_cons, List.not_mem_nil, or_false] at hpoint
  rcases hpoint with rfl | rfl
  · exact splitSign_digit c rest hc
  · rfl

theorem read?_signed (negative : Bool) {cs : List Char} {d : Decimal}
    (h : readMagnitude? cs = some d) :
    read? (if negative then '-' :: cs else cs) =
      (some (d.toBinary64 negative)).filter Binary64.isFinite := by
  cases negative with
  | false => simp [read?, splitSign_of_readMagnitude? h, h]
  | true => simp [read?, splitSign, h]

end AnnotatedAtoms.Literal
