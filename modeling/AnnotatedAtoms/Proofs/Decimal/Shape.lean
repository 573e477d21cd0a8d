import AnnotatedAtoms.Proofs.Decimal.Layout
import AnnotatedAtoms.Proofs.Decimal.Numeral

/-!
# The shape of written numbers

The two patterns that written numbers follow, and the digits of a literal that are significant:
those of its mantissa without the zeros at either end. In both notations of a decimal they are the
digits of the decimal.

* `isPositional_positional`, `isScientific_scientific`: the pattern of either notation;
* `significantDigits_positional`, `significantDigits_scientific`: the significant digits of either;
* `digits_of_readMagnitude?`: the digits of what is read, with all zeros.
-/

namespace AnnotatedAtoms

namespace Literal

/-! ## Patterns -/

/-- The texts of the pattern `[1-9][0-9]*`. -/
def IsWhole (cs : List Char) : Prop :=
  ∃ c ds, cs = c :: ds ∧ ('1' ≤ c ∧ c ≤ '9') ∧ ∀ d ∈ ds, '0' ≤ d ∧ d ≤ '9'

/-- The texts of the pattern `(\.[0-9]*[1-9])?`. -/
def IsFraction (cs : List Char) : Prop :=
  cs = [] ∨ ∃ ds c, cs = '.' :: (ds ++ [c]) ∧ (∀ d ∈ ds, '0' ≤ d ∧ d ≤ '9') ∧ '1' ≤ c ∧ c ≤ '9'

/-- The texts of the pattern `(0|[1-9][0-9]*)(\.[0-9]*[1-9])?`. -/
def IsPositional (cs : List Char) : Prop :=
  ∃ whole fraction, cs = whole ++ fraction ∧ (whole = ['0'] ∨ IsWhole whole) ∧ IsFraction fraction

/-- The texts of the pattern `[1-9](\.[0-9]*[1-9])?e-?[1-9][0-9]*`. -/
def IsScientific (cs : List Char) : Prop :=
  ∃ c fraction sign power, cs = c :: (fraction ++ 'e' :: (sign ++ power)) ∧
    ('1' ≤ c ∧ c ≤ '9') ∧ IsFraction fraction ∧ (sign = [] ∨ sign = ['-']) ∧ IsWhole power

theorem isNonzeroDigit_iff (c : Char) : ('1' ≤ c ∧ c ≤ '9') ↔ c.isDigit = true ∧ c ≠ '0' := by
  have hsucc : '1'.toNat = '0'.toNat + 1 := by decide
  have hle (a b : Char) : a ≤ b ↔ a.toNat ≤ b.toNat := Iff.rfl
  rw [isDigit_iff, ne_eq, ← Char.toNat_inj, hle, hle, hle]
  omega

/-! ## Significant digits -/

/-- The digits of a literal in front of its exponent. -/
def mantissaDigits (cs : List Char) : List Char :=
  (cs.takeWhile fun c => c ≠ 'e' ∧ c ≠ 'E').filter Char.isDigit

/-- They are significant without the zeros that they begin or end with. -/
def significantDigits (cs : List Char) : List Char :=
  ((mantissaDigits cs).dropWhile (· = '0')).rdropWhile (· = '0')

theorem mantissaDigits_append (run rest : List Char)
    (hrun : ∀ c ∈ run, c.isDigit = true ∨ c = '.') (hrest : ∀ c ∈ rest.head?, c = 'e' ∨ c = 'E') :
    mantissaDigits (run ++ rest) = run.filter Char.isDigit := by
  have hkept : ∀ c ∈ run, decide (c ≠ 'e' ∧ c ≠ 'E') = true := by
    intro c hc
    apply decide_eq_true
    rcases hrun c hc with h | rfl
    · constructor <;> rintro rfl <;> exact absurd h (by decide)
    · decide
  have hends : ∀ c ∈ rest.head?, decide (c ≠ 'e' ∧ c ≠ 'E') = false := by
    intro c hc
    rcases hrest c hc with rfl | rfl <;> rfl
  rw [mantissaDigits, (span_run _ run rest hkept hends).1]

theorem mantissaDigits_sign (s : Sign) (cs : List Char) :
    mantissaDigits (s.chars ++ cs) = mantissaDigits cs := by
  have hcons {c : Char} (hkept : c ≠ 'e' ∧ c ≠ 'E') (hdigit : c.isDigit = false) :
      mantissaDigits (c :: cs) = mantissaDigits cs := by
    rw [mantissaDigits, List.takeWhile_cons_of_pos (by exact decide_eq_true hkept),
      List.filter_cons_of_neg (Bool.eq_false_iff.mp hdigit), mantissaDigits]
  cases s with
  | none => rfl
  | plus => exact hcons (by decide) rfl
  | minus => exact hcons (by decide) rfl

theorem dropWhile_zeros (k : Nat) {cs : List Char} (h : ∀ c ∈ cs.head?, c ≠ '0') :
    (List.replicate k '0' ++ cs).dropWhile (· = '0') = cs :=
  (span_run _ _ cs (fun _ hc => decide_eq_true (List.eq_of_mem_replicate hc))
    (fun c hc => decide_eq_false (h c hc))).2

/-- The zeros around digits that neither begin nor end with one. -/
theorem strip_zeros {cs : List Char} (j k : Nat) (hne : cs ≠ []) (hfirst : ∀ c ∈ cs.head?, c ≠ '0')
    (hlast : ∀ c ∈ cs.getLast?, c ≠ '0') :
    ((List.replicate j '0' ++ (cs ++ List.replicate k '0')).dropWhile (· = '0')).rdropWhile
      (· = '0') = cs := by
  have hhead : ∀ c ∈ (cs ++ List.replicate k '0').head?, c ≠ '0' := by
    rw [List.head?_append_of_ne_nil cs hne]
    exact hfirst
  rw [dropWhile_zeros j hhead, List.rdropWhile, List.reverse_append, List.reverse_replicate,
    dropWhile_zeros k (by rwa [List.head?_reverse]), List.reverse_reverse]

/-! ## Digits that are read -/

theorem filter_point (cs : List Char) :
    ('.' :: cs).filter Char.isDigit = cs.filter Char.isDigit :=
  List.filter_cons_of_neg (by decide)

theorem marker_of_readExponent? {rest : List Char} {e : Int} (h : readExponent? rest = some e) :
    ∀ c ∈ rest.head?, c = 'e' ∨ c = 'E' := by
  intro c hc
  cases rest with
  | nil => cases hc
  | cons marker cs =>
    obtain rfl : marker = c := Option.some.inj hc
    simp only [readExponent?, Option.ite_none_right_eq_some] at h
    exact h.1.1

/-- What is read consists of digits, perhaps with a point among them, and an exponent. -/
theorem exists_run_of_readMagnitude? {cs : List Char} {d : Decimal}
    (h : readMagnitude? cs = some d) :
    ∃ run rest, cs = run ++ rest ∧ (∀ c ∈ run, c.isDigit = true ∨ c = '.') ∧
      (∀ c ∈ rest.head?, c = 'e' ∨ c = 'E') ∧
      d.digits = Nat.ofDigitChars 10 (run.filter Char.isDigit) 0 := by
  have hwhole := List.takeWhile_append_dropWhile (p := Char.isDigit) (l := cs)
  have hdigits {l : List Char} : ∀ c ∈ l.takeWhile Char.isDigit, c.isDigit = true :=
    fun c hc => List.mem_takeWhile_imp hc
  simp only [readMagnitude?, Option.ite_none_left_eq_some] at h
  obtain ⟨-, h⟩ := h
  obtain ⟨e, he, rfl⟩ := Option.map_eq_some_iff.mp h
  rcases splitFraction_cases (cs.dropWhile Char.isDigit) with ⟨fs, hrest, hsplit⟩ | hsplit
  · rw [hsplit] at he ⊢
    refine ⟨cs.takeWhile Char.isDigit ++ '.' :: fs.takeWhile Char.isDigit,
      fs.dropWhile Char.isDigit, ?_, ?_, marker_of_readExponent? he, ?_⟩
    · rw [List.append_assoc, List.cons_append, List.takeWhile_append_dropWhile, ← hrest, hwhole]
    · intro c hc
      rw [List.mem_append, List.mem_cons] at hc
      rcases hc with hc | rfl | hc
      · exact .inl (hdigits c hc)
      · exact .inr rfl
      · exact .inl (hdigits c hc)
    · rw [List.filter_append, filter_point, List.filter_eq_self.mpr hdigits,
        List.filter_eq_self.mpr hdigits]
  · rw [hsplit] at he ⊢
    refine ⟨cs.takeWhile Char.isDigit, cs.dropWhile Char.isDigit, hwhole.symm,
      fun c hc => .inl (hdigits c hc), marker_of_readExponent? he, ?_⟩
    rw [List.filter_eq_self.mpr hdigits, List.append_nil]

theorem digits_of_readMagnitude? {cs : List Char} {d : Decimal} (h : readMagnitude? cs = some d) :
    d.digits = Nat.ofDigitChars 10 (mantissaDigits cs) 0 := by
  obtain ⟨run, rest, rfl, hrun, hrest, hdigits⟩ := exists_run_of_readMagnitude? h
  rw [mantissaDigits_append _ _ hrun hrest, hdigits]

end Literal

namespace Decimal

open Literal

/-! ## Digits that are written -/

theorem head?_toDigits {n : Nat} (hn : 0 < n) : ∀ c ∈ (Nat.toDigits 10 n).head?, c ≠ '0' := by
  intro c hc hzero
  cases hchars : Nat.toDigits 10 n with
  | nil => exact Nat.toDigits_ne_nil hchars
  | cons d ds =>
    rw [hchars] at hc
    obtain rfl : d = c := Option.some.inj hc
    have hdigits : ∀ c ∈ ds, c.isDigit = true := by
      intro c hc
      exact isDigit_of_mem_toDigits (n := n) (by rw [hchars]; exact List.mem_cons_of_mem _ hc)
    have hlarge := pow_length_toDigits_le hn
    have hvalue : n = Nat.ofDigitChars 10 ds 0 := by
      have h := Nat.ofDigitChars_ten_toDigits (n := n)
      rw [hchars, hzero, Nat.ofDigitChars_cons] at h
      exact h.symm
    have hsmall := ofDigitChars_lt_pow ds hdigits
    rw [hchars, List.length_cons, Nat.add_sub_cancel] at hlarge
    omega

variable {d : Decimal}

theorem head?_digitChars (hd : 0 < d.digits) : ∀ c ∈ d.digitChars.head?, c ≠ '0' := by
  have h := head?_toDigits hd
  rwa [toDigits_eq_append, List.head?_append_of_ne_nil _ (digitChars_ne_nil hd)] at h

theorem getLast?_digitChars : ∀ c ∈ d.digitChars.getLast?, c ≠ '0' := by
  intro c hc
  obtain ⟨hne, rfl⟩ := List.mem_getLast?_eq_getLast hc
  exact of_decide_eq_false (Bool.eq_false_iff.mpr (List.rdropWhile_last_not _ _ hne))

theorem isWhole_of_digits {cs : List Char} (hne : cs ≠ []) (hdigit : ∀ c ∈ cs, c.isDigit = true)
    (hfirst : ∀ c ∈ cs.head?, c ≠ '0') : IsWhole cs := by
  obtain ⟨c, cs, rfl⟩ := List.exists_cons_of_ne_nil hne
  rw [List.forall_mem_cons] at hdigit
  refine ⟨c, cs, rfl, (isNonzeroDigit_iff c).mpr ⟨hdigit.1, hfirst c rfl⟩, fun x hx => ?_⟩
  exact (isDigit_iff x).mp (hdigit.2 x hx)

theorem isWhole_toDigits {n : Nat} (hn : 0 < n) : IsWhole (Nat.toDigits 10 n) :=
  isWhole_of_digits Nat.toDigits_ne_nil (fun _ hc => isDigit_of_mem_toDigits hc) (head?_toDigits hn)

/-! The digits of a decimal by the first and by the last. -/

theorem isWhole_digitChars (hd : 0 < d.digits) : IsWhole d.digitChars :=
  isWhole_of_digits (digitChars_ne_nil hd) (fun _ hc => isDigit_of_mem_digitChars hc)
    (head?_digitChars hd)

theorem exists_last_digit (hd : 0 < d.digits) :
    ∃ cs c, d.digitChars = cs ++ [c] ∧ (∀ x ∈ cs, '0' ≤ x ∧ x ≤ '9') ∧ '1' ≤ c ∧ c ≤ '9' := by
  obtain ⟨cs, c, hchars⟩ := (List.eq_nil_or_concat' _).resolve_left (digitChars_ne_nil hd)
  have hdigit : ∀ x ∈ d.digitChars, x.isDigit = true := fun x hx => isDigit_of_mem_digitChars hx
  have hlast := getLast?_digitChars (d := d)
  rw [hchars] at hdigit hlast
  rw [List.forall_mem_append, List.forall_mem_singleton] at hdigit
  refine ⟨cs, c, hchars, fun x hx => (isDigit_iff x).mp (hdigit.1 x hx), ?_⟩
  exact (isNonzeroDigit_iff c).mpr ⟨hdigit.2, hlast c (by simp)⟩

/-! ## The patterns of the notations -/

/-- Digits behind a point may begin with zeros. -/
theorem isFraction_of_digits {cs : List Char} {c : Char} (hcs : ∀ x ∈ cs, '0' ≤ x ∧ x ≤ '9')
    (hc : '1' ≤ c ∧ c ≤ '9') : IsFraction ('.' :: (cs ++ [c])) :=
  .inr ⟨cs, c, rfl, hcs, hc⟩

theorem zero_digit_of_mem_zeros {k : Nat} : ∀ c ∈ List.replicate k '0', '0' ≤ c ∧ c ≤ '9' :=
  fun c hc => (isDigit_iff c).mp (isDigit_of_mem_zeros hc)

theorem isPositional_positional (hd : 0 < d.digits) : IsPositional d.positional := by
  obtain ⟨c, cs, hfirst, hc, hcs⟩ := isWhole_digitChars hd
  obtain ⟨es, e, hlast, hes, he⟩ := exists_last_digit hd
  unfold positional
  dsimp only
  split_ifs with hbelow hwhole
  · refine ⟨['0'], '.' :: (List.replicate (-d.pointPlace).toNat '0' ++ es ++ [e]), ?_, .inl rfl, ?_⟩
    · rw [hlast]
      simp
    · apply isFraction_of_digits _ he
      rw [List.forall_mem_append]
      exact ⟨zero_digit_of_mem_zeros, hes⟩
  · refine ⟨_, [], (List.append_nil _).symm, .inr ⟨c, _, by rw [hfirst]; rfl, hc, ?_⟩, .inl rfl⟩
    exact List.forall_mem_append.mpr ⟨hcs, zero_digit_of_mem_zeros⟩
  · obtain ⟨k, hk⟩ : ∃ k : Nat, d.pointPlace.toNat = k + 1 := ⟨d.pointPlace.toNat - 1, by omega⟩
    rw [hk]
    have hlength : k + 1 ≤ es.length := by
      have := congrArg List.length hlast
      rw [List.length_append, List.length_singleton] at this
      omega
    refine ⟨d.digitChars.take (k + 1), '.' :: d.digitChars.drop (k + 1), rfl, .inr ?_, ?_⟩
    · rw [hfirst, List.take_succ_cons]
      exact ⟨c, _, rfl, hc, fun x hx => hcs x (List.mem_of_mem_take hx)⟩
    · rw [hlast, List.drop_append_of_le_length hlength]
      exact isFraction_of_digits (fun x hx => hes x (List.mem_of_mem_drop hx)) he

theorem exists_sign_wholeChars (n : Int) :
    ∃ sign, wholeChars n = sign ++ Nat.toDigits 10 n.natAbs ∧ (sign = [] ∨ sign = ['-']) := by
  rw [wholeChars]
  split_ifs
  · exact ⟨['-'], rfl, .inr rfl⟩
  · exact ⟨[], rfl, .inl rfl⟩

theorem isScientific_scientific (hd : 0 < d.digits) (hplace : d.pointPlace ≠ 1) :
    IsScientific d.scientific := by
  have hpower : IsWhole (Nat.toDigits 10 (d.pointPlace - 1).natAbs) := isWhole_toDigits (by omega)
  obtain ⟨sign, hwhole, hsign⟩ := exists_sign_wholeChars (d.pointPlace - 1)
  obtain ⟨c, cs, hfirst, hc, hcs⟩ := isWhole_digitChars hd
  obtain ⟨es, e, hlast, hes, he⟩ := exists_last_digit hd
  rw [scientific, hwhole]
  cases cs with
  | nil =>
    rw [hfirst]
    exact ⟨c, [], sign, _, rfl, hc, .inl rfl, hsign, hpower⟩
  | cons c' cs =>
    cases es with
    | nil =>
      rw [hfirst] at hlast
      cases hlast
    | cons e' es =>
      rw [hfirst, List.cons_append, List.cons.injEq] at hlast
      obtain ⟨rfl, htail⟩ := hlast
      rw [hfirst]
      refine ⟨c, '.' :: (es ++ [e]), sign, _, ?_, hc, ?_, hsign, hpower⟩
      · rw [← htail]
        rfl
      · exact isFraction_of_digits (fun x hx => hes x (List.mem_cons_of_mem _ hx)) he

/-! ## The significant digits of the notations -/

/-- Zeros around the digits of a decimal are not significant. -/
theorem significantDigits_of_mantissaDigits (hd : 0 < d.digits) {cs : List Char} (j k : Nat)
    (h : mantissaDigits cs = List.replicate j '0' ++ (d.digitChars ++ List.replicate k '0')) :
    significantDigits cs = d.digitChars := by
  rw [significantDigits, h]
  exact strip_zeros j k (digitChars_ne_nil hd) (head?_digitChars hd) getLast?_digitChars

theorem filter_digitChars : d.digitChars.filter Char.isDigit = d.digitChars :=
  List.filter_eq_self.mpr fun _ hc => isDigit_of_mem_digitChars hc

theorem filter_zeros (k : Nat) :
    (List.replicate k '0').filter Char.isDigit = List.replicate k '0' :=
  List.filter_eq_self.mpr fun _ hc => isDigit_of_mem_zeros hc

/-- The digits of positional notation are those of the decimal, with zeros around them. -/
theorem filter_positional (d : Decimal) :
    ∃ j k, d.positional.filter Char.isDigit =
      List.replicate j '0' ++ (d.digitChars ++ List.replicate k '0') := by
  unfold positional
  dsimp only
  split_ifs
  · refine ⟨(-d.pointPlace).toNat + 1, 0, ?_⟩
    rw [List.cons_append, List.cons_append, List.filter_cons_of_pos (by decide), filter_point,
      List.filter_append, filter_zeros, filter_digitChars, List.replicate_succ, List.replicate_zero,
      List.append_nil, List.cons_append]
  · refine ⟨0, (d.pointPlace - d.digitChars.length).toNat, ?_⟩
    rw [List.filter_append, filter_digitChars, filter_zeros, List.replicate_zero, List.nil_append]
  · refine ⟨0, 0, ?_⟩
    rw [List.filter_append, filter_point, ← List.filter_append, List.take_append_drop,
      filter_digitChars, List.replicate_zero, List.append_nil, List.nil_append]

theorem significantDigits_positional (hd : 0 < d.digits) :
    significantDigits d.positional = d.digitChars := by
  obtain ⟨j, k, hfilter⟩ := filter_positional d
  have hmantissa := mantissaDigits_append _ [] d.positional_chars (by simp)
  rw [List.append_nil, hfilter] at hmantissa
  exact significantDigits_of_mantissaDigits hd j k hmantissa

/-- In front of the exponent stand the digits of the decimal, with a point behind the first where
there are more. -/
theorem exists_run_scientific (hd : 0 < d.digits) :
    ∃ run, d.scientific = run ++ 'e' :: wholeChars (d.pointPlace - 1) ∧
      (∀ c ∈ run, c.isDigit = true ∨ c = '.') ∧ run.filter Char.isDigit = d.digitChars := by
  have hdigit : ∀ c ∈ d.digitChars, c.isDigit = true := fun c hc => isDigit_of_mem_digitChars hc
  rw [scientific]
  rcases hcs : d.digitChars with _ | ⟨c, _ | ⟨c', cs⟩⟩
  · exact absurd hcs (digitChars_ne_nil hd)
  · rw [hcs] at hdigit
    exact ⟨[c], rfl, fun x hx => .inl (hdigit x hx), List.filter_eq_self.mpr hdigit⟩
  · rw [hcs, List.forall_mem_cons] at hdigit
    refine ⟨c :: '.' :: c' :: cs, rfl, ?_, ?_⟩
    · intro x hx
      rw [List.mem_cons, List.mem_cons] at hx
      rcases hx with rfl | rfl | hx
      · exact .inl hdigit.1
      · exact .inr rfl
      · exact .inl (hdigit.2 x hx)
    · rw [List.filter_cons_of_pos hdigit.1, filter_point, List.filter_eq_self.mpr hdigit.2]

theorem significantDigits_scientific (hd : 0 < d.digits) :
    significantDigits d.scientific = d.digitChars := by
  obtain ⟨run, hrun, hchars, hfilter⟩ := exists_run_scientific hd
  have hmantissa := mantissaDigits_append run ('e' :: wholeChars (d.pointPlace - 1)) hchars
    (by simp)
  rw [← hrun, hfilter] at hmantissa
  exact significantDigits_of_mantissaDigits hd 0 0 (by simpa using hmantissa)

end Decimal

end AnnotatedAtoms
