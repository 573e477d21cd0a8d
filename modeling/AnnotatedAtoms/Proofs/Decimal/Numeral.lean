import AnnotatedAtoms.Proofs.Decimal.Literal
import AnnotatedAtoms.Proofs.Decimal.Rounding

/-!
# The grammar of numerals

The texts that are literals, as a grammar: `[+-]?([0-9]+(\.[0-9]*)?|\.[0-9]+)([eE][+-]?[0-9]+)?`,
with the rational number that each of them stands for. Literals are read by this grammar and
rounded once, to the nearest number.

* `exists_numeral_of_read?`: nothing else is read;
* `readMagnitude?_numeral`: the decimal that is read has the value of the numeral;
* `read?_nearest`: the number that is read is the nearest.
-/

namespace AnnotatedAtoms.Literal

open Binary64 (withSign)

/-! ## The grammar -/

structure Digits where
  chars : List Char
  isDigit : ∀ c ∈ chars, '0' ≤ c ∧ c ≤ '9'

inductive Sign where
  | none
  | plus
  | minus

/-- Digits with a point before, among or after them, or without one. -/
inductive Mantissa where
  | whole (ds : Digits) (nonempty : ds.chars ≠ [])
  | point (ds fs : Digits) (nonempty : ds.chars ≠ [] ∨ fs.chars ≠ [])

structure Exponent where
  marker : Char
  isMarker : marker = 'e' ∨ marker = 'E'
  sign : Sign
  digits : Digits
  nonempty : digits.chars ≠ []

structure Numeral where
  sign : Sign
  mantissa : Mantissa
  exponent : Option Exponent

/-! The text of a numeral. -/

def Sign.chars : Sign → List Char
  | .none => []
  | .plus => ['+']
  | .minus => ['-']

def Mantissa.chars : Mantissa → List Char
  | .whole ds _ => ds.chars
  | .point ds fs _ => ds.chars ++ '.' :: fs.chars

def Exponent.chars (e : Exponent) : List Char := e.marker :: (e.sign.chars ++ e.digits.chars)

def Numeral.exponentChars (n : Numeral) : List Char := (n.exponent.map Exponent.chars).getD []

def Numeral.chars (n : Numeral) : List Char := n.sign.chars ++ (n.mantissa.chars ++ n.exponentChars)

/-! The value of a numeral. -/

def Digits.value (ds : Digits) : Nat := Nat.ofDigitChars 10 ds.chars 0

def Sign.isMinus : Sign → Bool
  | .minus => true
  | .none | .plus => false

def Mantissa.value : Mantissa → ℚ
  | .whole ds _ => ds.value
  | .point ds fs _ => ds.value + fs.value / 10 ^ fs.chars.length

def Exponent.value (e : Exponent) : Int :=
  if e.sign.isMinus then -(e.digits.value : Int) else e.digits.value

def Numeral.exponentValue (n : Numeral) : Int := (n.exponent.map Exponent.value).getD 0

def Numeral.value (n : Numeral) : ℚ :=
  withSign n.sign.isMinus (n.mantissa.value * 10 ^ n.exponentValue)

/-- An exponent has at most five digits behind the zeros that it begins with. -/
def Numeral.HasShortExponent (n : Numeral) : Prop :=
  ∀ e ∈ n.exponent, (e.digits.chars.dropWhile (· = '0')).length ≤ 5

/-! ## Digits -/

theorem Digits.isDigit_of_mem (ds : Digits) : ∀ c ∈ ds.chars, c.isDigit = true :=
  fun c hc => (isDigit_iff c).mpr (ds.isDigit c hc)

theorem ofDigitChars_lt_pow (cs : List Char) (h : ∀ c ∈ cs, c.isDigit = true) :
    Nat.ofDigitChars 10 cs 0 < 10 ^ cs.length := by
  induction cs with
  | nil => exact Nat.one_pos
  | cons c cs ih =>
    rw [List.forall_mem_cons] at h
    have hc : c.toNat - '0'.toNat < 10 := by
      have hle := ((isDigit_iff c).mp h.1).2
      have hnine : c.toNat ≤ '9'.toNat := hle
      have hvalue : '9'.toNat - '0'.toNat = 9 := by decide
      omega
    rw [Nat.ofDigitChars_cons, Nat.ofDigitChars_eq_ofDigitChars_zero, List.length_cons, Nat.pow_succ]
    have hrest := ih h.2
    generalize c.toNat - '0'.toNat = d at hc
    nlinarith

theorem ofDigitChars_dropWhile_zeros (cs : List Char) :
    Nat.ofDigitChars 10 (cs.dropWhile (· = '0')) 0 = Nat.ofDigitChars 10 cs 0 := by
  induction cs with
  | nil => rfl
  | cons c cs ih =>
    by_cases hc : c = '0'
    · rw [List.dropWhile_cons_of_pos (by simpa using hc), ih, hc, Nat.ofDigitChars_cons]
      rfl
    · rw [List.dropWhile_cons_of_neg (by simpa using hc)]

theorem Digits.value_lt {ds : Digits} {k : Nat} (h : (ds.chars.dropWhile (· = '0')).length ≤ k) :
    ds.value < 10 ^ k := by
  rw [Digits.value, ← ofDigitChars_dropWhile_zeros]
  calc
    _ < 10 ^ (ds.chars.dropWhile (· = '0')).length := by
      apply ofDigitChars_lt_pow
      intro c hc
      exact ds.isDigit_of_mem c (List.dropWhile_subset _ hc)
    _ ≤ 10 ^ k := Nat.pow_le_pow_right (by decide) h

/-- Every numeral has a digit. -/
theorem Numeral.exists_digit (n : Numeral) : ∃ c ∈ n.chars, c.isDigit = true := by
  have hmantissa : ∃ c ∈ n.mantissa.chars, c.isDigit = true := by
    cases n.mantissa with
    | whole ds nonempty =>
      obtain ⟨c, hc⟩ := List.exists_mem_of_ne_nil _ nonempty
      exact ⟨c, hc, ds.isDigit_of_mem c hc⟩
    | point ds fs nonempty =>
      rcases nonempty with hds | hfs
      · obtain ⟨c, hc⟩ := List.exists_mem_of_ne_nil _ hds
        exact ⟨c, List.mem_append_left _ hc, ds.isDigit_of_mem c hc⟩
      · obtain ⟨c, hc⟩ := List.exists_mem_of_ne_nil _ hfs
        exact ⟨c, List.mem_append_right _ (List.mem_cons_of_mem _ hc), fs.isDigit_of_mem c hc⟩
  obtain ⟨c, hc, hdigit⟩ := hmantissa
  exact ⟨c, List.mem_append_right _ (List.mem_append_left _ hc), hdigit⟩

/-! ## Reading a numeral -/

theorem splitSign_append (s : Sign) {cs : List Char} (h : splitSign cs = (false, cs)) :
    splitSign (s.chars ++ cs) = (s.isMinus, cs) := by
  cases s with
  | none => exact h
  | plus => rfl
  | minus => rfl

theorem splitSign_digits {ds : Digits} (h : ds.chars ≠ []) :
    splitSign ds.chars = (false, ds.chars) := by
  obtain ⟨c, cs, hchars⟩ := List.exists_cons_of_ne_nil h
  have hc := ds.isDigit_of_mem c (by rw [hchars]; exact List.mem_cons_self)
  rw [hchars, splitSign_digit c cs hc]

theorem readExponent?_exponent (e : Exponent)
    (h : (e.digits.chars.dropWhile (· = '0')).length ≤ 5) :
    readExponent? e.chars = some e.value := by
  have hsplit := splitSign_append e.sign (splitSign_digits e.nonempty)
  have hall : e.digits.chars.all Char.isDigit = true :=
    List.all_eq_true.mpr e.digits.isDigit_of_mem
  have hvalue : exponentValue e.digits.chars = e.digits.value := by
    apply exponentValue_eq
    have hlt := Digits.value_lt h
    rw [Digits.value] at hlt
    omega
  rw [Exponent.chars, readExponent?, hsplit]
  simp only [e.isMarker, e.nonempty, hall, hvalue, ne_eq, not_false_eq_true, and_self, if_true]
  rfl

theorem readExponent?_numeral {n : Numeral} (h : n.HasShortExponent) :
    readExponent? n.exponentChars = some n.exponentValue := by
  rw [Numeral.exponentChars, Numeral.exponentValue]
  cases he : n.exponent with
  | none => rfl
  | some e => exact readExponent?_exponent e (h e he)

/-- A mantissa does not go on into the exponent. -/
theorem head?_exponentChars (n : Numeral) :
    (∀ c ∈ n.exponentChars.head?, c.isDigit = false) ∧ '.' ∉ n.exponentChars.head? := by
  rw [Numeral.exponentChars]
  cases n.exponent with
  | none => simp
  | some e =>
    have hhead : ((some e).map Exponent.chars |>.getD []).head? = some e.marker := rfl
    rw [hhead]
    rcases e.isMarker with h | h <;> rw [h] <;> simp

/-- The decimal that is read has the value of the mantissa and the exponent. -/
theorem readMagnitude?_numeral {n : Numeral} (h : n.HasShortExponent) :
    ∃ d, readMagnitude? (n.mantissa.chars ++ n.exponentChars) = some d ∧
      d.toRat = n.mantissa.value * 10 ^ n.exponentValue := by
  obtain ⟨hdigit, hpoint⟩ := head?_exponentChars n
  have hexponent := readExponent?_numeral h
  cases n.mantissa with
  | whole ds nonempty =>
    have hread := readMagnitude?_whole ds.chars n.exponentChars ds.isDigit_of_mem nonempty hdigit hpoint
    rw [hexponent, Option.map_some] at hread
    exact ⟨_, hread, rfl⟩
  | point ds fs nonempty =>
    have hne : ds.chars ++ fs.chars ≠ [] := by
      rw [ne_eq, List.append_eq_nil_iff, not_and_or]
      exact nonempty
    have hread := readMagnitude?_point ds.chars fs.chars n.exponentChars ds.isDigit_of_mem
      fs.isDigit_of_mem hne hdigit
    rw [hexponent, Option.map_some] at hread
    rw [Mantissa.chars, List.append_assoc, List.cons_append]
    refine ⟨_, hread, ?_⟩
    have hten : (10 : ℚ) ≠ 0 := by norm_num
    rw [Decimal.toRat, Nat.ofDigitChars_append, Nat.ofDigitChars_eq_ofDigitChars_zero, zpow_sub₀ hten,
      zpow_natCast, Mantissa.value, Digits.value, Digits.value]
    push_cast
    field_simp

theorem read?_sign (s : Sign) {cs : List Char} {d : Decimal} (h : readMagnitude? cs = some d) :
    read? (s.chars ++ cs) = (some (d.toBinary64 s.isMinus)).filter Binary64.isFinite := by
  rw [read?, splitSign_append s (splitSign_of_readMagnitude? h)]
  simp only [h, Option.map_some]

/-! ## What is read is a numeral -/

theorem exists_sign (cs : List Char) : ∃ s : Sign, s.chars ++ (splitSign cs).2 = cs := by
  unfold splitSign
  split
  · exact ⟨.minus, rfl⟩
  · exact ⟨.plus, rfl⟩
  · exact ⟨.none, rfl⟩

theorem exists_exponent {cs : List Char} {e : Int} (h : readExponent? cs = some e) :
    ∃ x : Option Exponent, (x.map Exponent.chars).getD [] = cs := by
  cases cs with
  | nil => exact ⟨none, rfl⟩
  | cons marker cs =>
    obtain ⟨s, hs⟩ := exists_sign cs
    rcases hsplit : splitSign cs with ⟨negative, ds⟩
    rw [hsplit] at hs
    simp only [readExponent?, hsplit, Option.ite_none_right_eq_some] at h
    obtain ⟨⟨hmarker, hne, hall⟩, -⟩ := h
    have hdigits : ∀ c ∈ ds, '0' ≤ c ∧ c ≤ '9' :=
      fun c hc => (isDigit_iff c).mp (List.all_eq_true.mp hall c hc)
    exact ⟨some ⟨marker, hmarker, s, ⟨ds, hdigits⟩, hne⟩, congrArg (marker :: ·) hs⟩

/-- The digits that a text begins with. -/
def Digits.before (cs : List Char) : Digits where
  chars := cs.takeWhile Char.isDigit
  isDigit c hc := (isDigit_iff c).mp (List.mem_takeWhile_imp hc)

theorem Digits.before_append (cs : List Char) :
    (Digits.before cs).chars ++ cs.dropWhile Char.isDigit = cs := List.takeWhile_append_dropWhile

theorem splitFraction_cases (cs : List Char) :
    (∃ fs, cs = '.' :: fs ∧
      splitFraction cs = (fs.takeWhile Char.isDigit, fs.dropWhile Char.isDigit)) ∨
    splitFraction cs = ([], cs) := by
  unfold splitFraction
  split
  · exact .inl ⟨_, rfl, rfl⟩
  · exact .inr rfl

theorem exists_mantissa {cs : List Char} {d : Decimal} (h : readMagnitude? cs = some d) :
    ∃ (m : Mantissa) (x : Option Exponent), m.chars ++ (x.map Exponent.chars).getD [] = cs := by
  have hwhole := Digits.before_append cs
  simp only [readMagnitude?, Option.ite_none_left_eq_some] at h
  obtain ⟨hne, h⟩ := h
  obtain ⟨e, he, -⟩ := Option.map_eq_some_iff.mp h
  obtain ⟨x, hx⟩ := exists_exponent he
  rcases splitFraction_cases (cs.dropWhile Char.isDigit) with ⟨fs, hrest, hsplit⟩ | hsplit
  · have hfraction := Digits.before_append fs
    rw [hsplit] at hne hx
    refine ⟨.point (.before cs) (.before fs) ?_, x, ?_⟩
    · rw [ne_eq, ne_eq, ← not_and_or, ← List.append_eq_nil_iff]
      exact hne
    · rw [Mantissa.chars, hx, List.append_assoc, List.cons_append, hfraction, ← hrest, hwhole]
  · rw [hsplit, List.append_nil] at hne
    rw [hsplit] at hx
    refine ⟨.whole (.before cs) hne, x, ?_⟩
    rw [hx]
    exact hwhole

theorem exists_numeral_of_read? {cs : List Char} {x : Binary64} (h : read? cs = some x) :
    ∃ n : Numeral, n.chars = cs := by
  obtain ⟨s, hs⟩ := exists_sign cs
  rcases hsplit : splitSign cs with ⟨negative, magnitude⟩
  rw [hsplit] at hs
  simp only [read?, hsplit] at h
  obtain ⟨h, -⟩ := Option.filter_eq_some_iff.mp h
  obtain ⟨d, hd, -⟩ := Option.map_eq_some_iff.mp h
  obtain ⟨m, e, hm⟩ := exists_mantissa hd
  refine ⟨⟨s, m, e⟩, ?_⟩
  rw [Numeral.chars, Numeral.exponentChars, hm, hs]

/-- **Numbers are read strictly and rounded once.** A text that is no numeral is no literal. A
numeral of any length, with an exponent of at most five digits behind its leading zeros, is refused
exactly when its value is at least half a step above the largest finite number. Every other one is
read as the number nearest to its value, with the even significand where two are equally near, and
with the sign that is written, also where it is zero. -/
theorem read?_nearest :
    (∀ cs, (∀ n : Numeral, n.chars ≠ cs) → read? cs = none) ∧
    ∀ n : Numeral, n.HasShortExponent →
      (read? n.chars = none ↔ 2 ^ 1024 - 2 ^ 970 ≤ |n.value|) ∧
      (|n.value| < 2 ^ 1024 - 2 ^ 970 → ∃ x, read? n.chars = some x ∧
        x.isNegative = n.sign.isMinus ∧ x.IsNearest n.value) := by
  constructor
  · intro cs hcs
    rw [Option.eq_none_iff_forall_ne_some]
    intro x hx
    obtain ⟨n, hn⟩ := exists_numeral_of_read? hx
    exact hcs n hn
  · intro n hn
    obtain ⟨d, hd, hvalue⟩ := readMagnitude?_numeral hn
    have hread := read?_sign n.sign hd
    have habs : |n.value| = d.toRat := by
      rw [Numeral.value, Binary64.abs_withSign, ← hvalue, abs_of_nonneg d.toRat_nonneg]
    have hfinite := d.isFinite_toBinary64 n.sign.isMinus
    rw [habs, ← not_le, ← d.finiteCount_le_rank_iff, Nat.not_le, ← hfinite, ← Nat.not_lt, ← hfinite,
      Numeral.chars, hread]
    constructor
    · simp [Option.filter_eq_none_iff]
    · intro h
      refine ⟨_, Option.filter_eq_some_iff.mpr ⟨rfl, h⟩, Binary64.isNegative_ofRank _ _, ?_⟩
      rw [Numeral.value, ← hvalue]
      exact Decimal.isNearest_toBinary64 _ (hfinite.mp h)

/-- A tie goes to the even number, whatever the length of the exponent, and words for numbers are
not read. -/
theorem read?_nearest_tie :
    read? "inf".toList = none ∧
    ∃ x, read? "-9007199254740993E+000000".toList = some x ∧ x.isNegative = true ∧
      x.IsNearest (-9007199254740993) := by
  let ds : Digits := ⟨"9007199254740993".toList, by simp⟩
  let zeros : Digits := ⟨"000000".toList, by simp⟩
  let n : Numeral := ⟨.minus, .whole ds (by decide), some ⟨'E', .inr rfl, .plus, zeros, by decide⟩⟩
  have hshort : n.HasShortExponent := by
    intro e he
    cases he
    decide
  have hvalue : n.value = -9007199254740993 := by
    have hds : ds.value = 9007199254740993 := by decide
    have hzeros : zeros.value = 0 := by decide
    simp [Numeral.value, Numeral.exponentValue, Exponent.value, Mantissa.value, Sign.isMinus, n, hds,
      hzeros]
  have hspelled : ∀ n : Numeral, n.chars ≠ "inf".toList := by
    intro n hn
    obtain ⟨c, hc, hdigit⟩ := n.exists_digit
    rw [hn] at hc
    have hnone : ∀ c ∈ "inf".toList, c.isDigit = false := by simp
    exact Bool.eq_false_iff.mp (hnone c hc) hdigit
  have hsmall : |n.value| < 2 ^ 1024 - 2 ^ 970 := by
    have hbound (k : ℕ) : (2 ^ 54 - 1 : ℚ) ≤ 2 ^ (54 + k) - 2 ^ k := by
      have hone : (1 : ℚ) ≤ 2 ^ k := one_le_pow₀ one_le_two
      rw [pow_add]
      linarith
    refine lt_of_lt_of_le ?_ (hbound 970)
    rw [hvalue]
    norm_num
  refine ⟨read?_nearest.1 _ hspelled, ?_⟩
  have hread := (read?_nearest.2 n hshort).2 hsmall
  rw [hvalue] at hread
  exact hread

end AnnotatedAtoms.Literal
