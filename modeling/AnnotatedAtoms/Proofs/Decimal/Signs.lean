import AnnotatedAtoms.Proofs.Decimal.FewestDigits
import Mathlib.Data.List.Chain

/-!
# Signs in the texts of numbers

In the text of a number a sign stands at the beginning or right behind the marker of an exponent,
and the text does not end with that marker. So a sign that is put behind a number is found again.

* `Literal.IsPositional.isUnsignedText`, `Literal.IsScientific.isUnsignedText`: either notation;
* `Binary64.isNumberText_chars`: where signs stand in the text of a number;
* `split_at_sign`: a text splits in one way only at a sign behind a number.
-/

namespace AnnotatedAtoms

/-! ## Marked signs -/

def IsSign (c : Char) : Prop := c = '+' ∨ c = '-'

/-- A sign that is not at the beginning stands behind the marker of an exponent. -/
def MarksSigns (cs : List Char) : Prop := cs.IsChain fun a b => IsSign b → a = 'e'

/-- How the text of a number is made: it marks its signs, and it ends with a digit or with the last
letter of a word. -/
structure IsNumberText (cs : List Char) : Prop where
  marksSigns : MarksSigns cs
  nonempty : cs ≠ []
  last : ∀ c ∈ cs.getLast?, c.isDigit = true ∨ c = 'f' ∨ c = 'N'

/-- The text of a number without a sign in front. -/
structure IsUnsignedText (cs : List Char) : Prop extends IsNumberText cs where
  first : ∀ c ∈ cs.head?, ¬ IsSign c

theorem not_isSign_of_isDigit {c : Char} (h : c.isDigit = true) : ¬ IsSign c := by
  rintro (rfl | rfl) <;> exact absurd h (by decide)

theorem marksSigns_of_no_sign {cs : List Char} (h : ∀ c ∈ cs, ¬ IsSign c) : MarksSigns cs :=
  (List.pairwise_of_forall_mem_list fun _ _ b hb hsign => absurd hsign (h b hb)).isChain

theorem MarksSigns.append {cs ds : List Char} (hcs : MarksSigns cs) (hds : MarksSigns ds)
    (h : ∀ c ∈ ds.head?, ¬ IsSign c) : MarksSigns (cs ++ ds) :=
  List.isChain_append.mpr ⟨hcs, hds, fun _ _ b hb hsign => absurd hsign (h b hb)⟩

/-- In front of a sign stands nothing or a marker. -/
theorem MarksSigns.getLast?_before {cs ds : List Char} {c : Char} (h : MarksSigns (cs ++ c :: ds))
    (hc : IsSign c) : ∀ a ∈ cs.getLast?, a = 'e' :=
  fun a ha => (List.isChain_append.mp h).2.2 a ha c rfl hc

theorem isUnsignedText_of_no_sign {cs : List Char} (hne : cs ≠ []) (hsigns : ∀ c ∈ cs, ¬ IsSign c)
    (hlast : ∀ c ∈ cs.getLast?, c.isDigit = true ∨ c = 'f' ∨ c = 'N') : IsUnsignedText cs where
  marksSigns := marksSigns_of_no_sign hsigns
  nonempty := hne
  last := hlast
  first := fun c hc => hsigns c (List.mem_of_mem_head? hc)

theorem IsUnsignedText.minus {cs : List Char} (h : IsUnsignedText cs) :
    IsNumberText ('-' :: cs) where
  marksSigns := List.isChain_cons.mpr ⟨fun c hc hsign => absurd hsign (h.first c hc), h.marksSigns⟩
  nonempty := List.cons_ne_nil _ _
  last := by
    rw [← List.singleton_append, List.getLast?_append_of_ne_nil _ h.nonempty]
    exact h.last

/-! ## Either notation -/

namespace Literal

/-- What ends with digits ends with a digit. -/
theorem isDigit_of_mem_getLast?_append {cs ds : List Char} (hne : ds ≠ [])
    (h : ∀ c ∈ ds, c.isDigit = true) : ∀ c ∈ (cs ++ ds).getLast?, c.isDigit = true := by
  intro c hc
  rw [List.getLast?_append_of_ne_nil cs hne] at hc
  exact h c (List.mem_of_mem_getLast? hc)

theorem IsWhole.isDigit {cs : List Char} (h : IsWhole cs) : ∀ c ∈ cs, c.isDigit = true := by
  obtain ⟨c, ds, rfl, hc, hds⟩ := h
  rw [List.forall_mem_cons]
  exact ⟨((isNonzeroDigit_iff c).mp hc).1, fun d hd => (isDigit_iff d).mpr (hds d hd)⟩

theorem IsWhole.ne_nil {cs : List Char} (h : IsWhole cs) : cs ≠ [] := by
  obtain ⟨c, ds, rfl, -⟩ := h
  exact List.cons_ne_nil c ds

theorem IsFraction.no_sign {cs : List Char} (h : IsFraction cs) : ∀ c ∈ cs, ¬ IsSign c := by
  rcases h with rfl | ⟨ds, d, rfl, hds, hd⟩
  · exact fun c hc => nomatch hc
  · rw [List.forall_mem_cons, List.forall_mem_append, List.forall_mem_singleton]
    refine ⟨?_, fun c hc => not_isSign_of_isDigit ((isDigit_iff c).mpr (hds c hc)),
      not_isSign_of_isDigit ((isNonzeroDigit_iff d).mp hd).1⟩
    rintro (h | h) <;> exact absurd h (by decide)

theorem IsPositional.isUnsignedText {cs : List Char} (h : IsPositional cs) :
    IsUnsignedText cs := by
  obtain ⟨whole, fraction, rfl, hwhole, hfraction⟩ := h
  obtain ⟨hne, hdigits⟩ : whole ≠ [] ∧ ∀ c ∈ whole, c.isDigit = true := by
    rcases hwhole with rfl | hwhole
    · exact ⟨List.cons_ne_nil _ _, List.forall_mem_singleton.mpr rfl⟩
    · exact ⟨hwhole.ne_nil, hwhole.isDigit⟩
  apply isUnsignedText_of_no_sign (List.append_ne_nil_of_left_ne_nil hne _)
  · rw [List.forall_mem_append]
    exact ⟨fun c hc => not_isSign_of_isDigit (hdigits c hc), hfraction.no_sign⟩
  · intro c hc
    left
    rcases hfraction with rfl | ⟨ds, d, rfl, -, hd⟩
    · rw [List.append_nil] at hc
      exact hdigits c (List.mem_of_mem_getLast? hc)
    · rw [← List.cons_append, ← List.append_assoc] at hc
      exact isDigit_of_mem_getLast?_append (List.cons_ne_nil d [])
        (List.forall_mem_singleton.mpr ((isNonzeroDigit_iff d).mp hd).1) c hc

/-- The marker and what follows it. -/
theorem marksSigns_exponent {sign power : List Char} (hsign : sign = [] ∨ sign = ['-'])
    (hpower : IsWhole power) : MarksSigns ('e' :: (sign ++ power)) := by
  have hsigns : ∀ c ∈ power, ¬ IsSign c := fun c hc => not_isSign_of_isDigit (hpower.isDigit c hc)
  rw [MarksSigns, List.isChain_cons]
  refine ⟨fun _ _ _ => rfl, ?_⟩
  apply MarksSigns.append _ (marksSigns_of_no_sign hsigns)
    (fun c hc => hsigns c (List.mem_of_mem_head? hc))
  rcases hsign with rfl | rfl
  · exact List.isChain_nil
  · exact List.isChain_singleton _

theorem IsScientific.isUnsignedText {cs : List Char} (h : IsScientific cs) :
    IsUnsignedText cs := by
  obtain ⟨c, fraction, sign, power, rfl, hc, hfraction, hsign, hpower⟩ := h
  have hfirst : ¬ IsSign c := not_isSign_of_isDigit ((isNonzeroDigit_iff c).mp hc).1
  have hmarker : ∀ a ∈ ('e' :: (sign ++ power)).head?, ¬ IsSign a := by
    intro a ha
    obtain rfl : 'e' = a := Option.some.inj ha
    rintro (h | h) <;> exact absurd h (by decide)
  refine ⟨⟨?_, List.cons_ne_nil _ _, fun a ha => .inl ?_⟩, fun a ha => ?_⟩
  · rw [← List.cons_append]
    exact (marksSigns_of_no_sign (List.forall_mem_cons.mpr ⟨hfirst, hfraction.no_sign⟩)).append
      (marksSigns_exponent hsign hpower) hmarker
  · rw [← List.cons_append, ← List.cons_append, ← List.append_assoc] at ha
    exact isDigit_of_mem_getLast?_append hpower.ne_nil hpower.isDigit a ha
  · obtain rfl : c = a := Option.some.inj ha
    exact hfirst

end Literal

/-! ## All numbers -/

namespace Binary64

theorem isUnsignedText_magnitudeChars (rank : Nat) : IsUnsignedText (magnitudeChars rank) := by
  by_cases h : rank = 0 ∨ positionalFrom ≤ rank ∧ rank < positionalTo
  · exact (isPositional_magnitudeChars h).isUnsignedText
  · exact (isScientific_magnitudeChars h).isUnsignedText

/-- The sign of a number stands in front of the text of its magnitude. -/
theorem chars_eq (x : Binary64) :
    x.chars = if x.isNegative then '-' :: x.abs.chars else x.abs.chars := by
  cases x with
  | finite negative rank => rw [chars, abs, chars, if_neg Bool.false_ne_true, isNegative]
  | infinite negative => cases negative <;> rfl
  | nan => rfl

theorem isUnsignedText_chars_abs (x : Binary64) : IsUnsignedText x.abs.chars := by
  cases x with
  | finite negative rank =>
    rw [abs, chars, if_neg Bool.false_ne_true]
    exact isUnsignedText_magnitudeChars rank
  | infinite negative =>
    have htext : (infinite false).chars = ['i', 'n', 'f'] := rfl
    rw [abs, htext]
    exact isUnsignedText_of_no_sign (List.cons_ne_nil _ _) (by simp [IsSign]) (by simp)
  | nan =>
    have htext : nan.chars = ['N', 'a', 'N'] := rfl
    rw [abs, htext]
    exact isUnsignedText_of_no_sign (List.cons_ne_nil _ _) (by simp [IsSign]) (by simp)

theorem isNumberText_chars (x : Binary64) : IsNumberText x.chars := by
  rw [chars_eq]
  split_ifs
  · exact x.isUnsignedText_chars_abs.minus
  · exact x.isUnsignedText_chars_abs.toIsNumberText

end Binary64

/-! ## Parts around a sign -/

theorem IsNumberText.exists_last {cs : List Char} (h : IsNumberText cs) :
    ∃ a ∈ cs.getLast?, a ≠ 'e' := by
  have hmem : cs.getLast h.nonempty ∈ cs.getLast? := List.getLast?_eq_some_getLast h.nonempty
  refine ⟨_, hmem, fun he => ?_⟩
  rw [he] at hmem
  rcases h.last 'e' hmem with h | h | h <;> exact absurd h (by decide)

/-- A text splits in one way only into the text of a number, one character, and a text that marks
its signs and begins with none, if the character is a sign in one of the two ways. -/
theorem split_at_sign {cs cs' ds ds' : List Char} {c c' : Char} (hcs : IsNumberText cs)
    (hcs' : IsNumberText cs') (hds : MarksSigns ds) (hhead : ∀ a ∈ ds.head?, ¬ IsSign a)
    (hc' : IsSign c') (h : cs ++ c :: ds = cs' ++ c' :: ds') : cs = cs' ∧ c = c' ∧ ds = ds' := by
  obtain ⟨a, ha, hne⟩ := hcs'.exists_last
  rcases List.append_eq_append_iff.mp h with ⟨l, hl, hrest⟩ | ⟨l, hl, hrest⟩
  · cases l with
    | nil =>
      rw [List.append_nil] at hl
      exact ⟨hl.symm, List.cons.inj hrest⟩
    | cons d l =>
      -- The sign stands inside of `ds`: behind a marker, which then ends the other number.
      obtain ⟨rfl, rfl⟩ := List.cons.inj hrest
      cases l with
      | nil => exact absurd hc' (hhead c' rfl)
      | cons b l =>
        rw [hl, List.getLast?_append_of_ne_nil _ (List.cons_ne_nil _ _),
          List.getLast?_cons_cons] at ha
        exact absurd (hds.getLast?_before hc' a ha) hne
  · cases l with
    | nil =>
      rw [List.append_nil] at hl
      obtain ⟨hc, hd⟩ := List.cons.inj hrest
      exact ⟨hl, hc.symm, hd.symm⟩
    | cons d l =>
      -- The sign stands inside of `cs`: behind a marker, which then ends the other number.
      obtain ⟨rfl, -⟩ := List.cons.inj hrest
      have hmarks := hcs.marksSigns
      rw [hl] at hmarks
      exact absurd (hmarks.getLast?_before hc' a ha) hne

end AnnotatedAtoms
