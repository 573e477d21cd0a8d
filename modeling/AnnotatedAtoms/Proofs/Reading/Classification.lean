import AnnotatedAtoms.Atom.Basic
import AnnotatedAtoms.Proofs.Decimal.Literal

/-!
# Classification of tokens

A token is a number, malformed or a text, and exactly one of the three. Two tests decide it, whether
the token can be read as a literal and whether it begins like one. What can be read begins like a
literal, so the tests agree, and either can be made first.

* `ofToken_of_read?`, `ofToken_malformed`, `ofToken_of_not_opens`: the three classes;
* `ofToken_eq_ofTokenOpening`: the other order of the tests;
* `ofToken_classified`: the class of every token.
-/

namespace AnnotatedAtoms

open Literal

namespace Value

variable {t : Token}

/-! ## The three classes -/

theorem ofToken_of_read? {x : Binary64} (h : read? t.text.toList = some x) :
    ofToken t = .number x := by
  simp only [ofToken, h]

theorem ofToken_malformed (hopens : opens t.text.toList = true)
    (hread : read? t.text.toList = Option.none) : ofToken t = .none := by
  simp only [ofToken, hread, hopens, if_true]

theorem ofToken_of_not_opens (h : opens t.text.toList = false) :
    ofToken t = if t.quoted then .string t.text else .symbol t.text := by
  simp only [ofToken, read?_eq_none_of_not_opens h, h, Bool.false_eq_true, if_false]

/-- Every token is in one of the classes. -/
theorem classes (t : Token) :
    (∃ x, read? t.text.toList = some x) ∨
      (opens t.text.toList = true ∧ read? t.text.toList = Option.none) ∨
      opens t.text.toList = false := by
  cases hread : read? t.text.toList with
  | some x => exact .inl ⟨x, rfl⟩
  | none =>
    cases hopens : opens t.text.toList with
    | true => exact .inr (.inl ⟨rfl, rfl⟩)
    | false => exact .inr (.inr rfl)

/-! ## The order of the tests -/

/-- The classification that looks at the beginning of the text first. -/
def ofTokenOpening (t : Token) : Value :=
  if opens t.text.toList then ((read? t.text.toList).map number).getD .none
  else if t.quoted then .string t.text
  else .symbol t.text

theorem ofToken_eq_ofTokenOpening (t : Token) : ofToken t = ofTokenOpening t := by
  rcases classes t with ⟨x, hread⟩ | ⟨hopens, hread⟩ | hopens
  · rw [ofToken_of_read? hread, ofTokenOpening, if_pos (opens_of_read? hread), hread]
    rfl
  · rw [ofToken_malformed hopens hread, ofTokenOpening, if_pos hopens, hread]
    rfl
  · rw [ofToken_of_not_opens hopens, ofTokenOpening, hopens, if_neg Bool.false_ne_true]

end Value

/-! ## The class of a token -/

/-- An atom is the class of a token when it has no annotations and its value says which class that
is: the number that is read, no value for a text that only begins like a number, and the text itself
for one that does not. -/
structure Atom.IsClassOf (a : Atom) (t : Token) : Prop where
  unannotated : a.annotations = .nil
  number_iff (x : Binary64) : a.value = .number x ↔ read? t.text.toList = some x
  none_iff : a.value = .none ↔ StartsNumeric t.text.toList ∧ read? t.text.toList = none
  string_iff (text : String) :
    a.value = .string text ↔ ¬ StartsNumeric t.text.toList ∧ t.quoted = true ∧ text = t.text
  symbol_iff (text : String) :
    a.value = .symbol text ↔ ¬ StartsNumeric t.text.toList ∧ t.quoted = false ∧ text = t.text

namespace Atom

theorem isClassOf_ofToken (t : Token) : (ofToken t).IsClassOf t := by
  have hvalue : (ofToken t).value = Value.ofToken t := rfl
  rcases Value.classes t with ⟨x, hread⟩ | ⟨hopens, hread⟩ | hopens
  · have hstarts := (opens_iff _).mp (opens_of_read? hread)
    rw [Value.ofToken_of_read? hread] at hvalue
    refine ⟨rfl, fun y => ?_, ?_, fun text => ?_, fun text => ?_⟩ <;> rw [hvalue] <;>
      simp [hread, hstarts]
  · have hstarts := (opens_iff _).mp hopens
    rw [Value.ofToken_malformed hopens hread] at hvalue
    refine ⟨rfl, fun y => ?_, ?_, fun text => ?_, fun text => ?_⟩ <;> rw [hvalue] <;>
      simp [hread, hstarts]
  · have hread := read?_eq_none_of_not_opens hopens
    have hstarts : ¬ StartsNumeric t.text.toList := by
      rw [← opens_iff, hopens]
      exact Bool.false_ne_true
    rw [Value.ofToken_of_not_opens hopens] at hvalue
    refine ⟨rfl, fun y => ?_, ?_, fun text => ?_, fun text => ?_⟩ <;> rw [hvalue] <;>
      cases t.quoted <;> simp [hread, hstarts, eq_comm]

/-- **Classification.** A text is taken to begin like a number exactly when it has an optional sign,
an optional point and a digit at its beginning, and every text that can be read as a number does.
Every token has its class: what can be read is a number, in quotes or not; what only begins like a
number has no value; everything else keeps its text. So no text that is kept begins like a number,
no other text becomes one, and the tests can be made in either order. -/
theorem ofToken_classified :
    (∀ cs, opens cs = true ↔ StartsNumeric cs) ∧
    (∀ cs x, read? cs = some x → StartsNumeric cs) ∧
    ∀ t : Token, (ofToken t).IsClassOf t ∧
      (∀ text, (ofToken t).value = .symbol text ∨ (ofToken t).value = .string text →
        ¬ StartsNumeric text.toList) ∧
      (¬ StartsNumeric t.text.toList → ∀ x, (ofToken t).value ≠ .number x) ∧
      (ofToken t).value = Value.ofTokenOpening t := by
  have hstarts (cs : List Char) (x : Binary64) (h : read? cs = some x) : StartsNumeric cs :=
    (opens_iff cs).mp (opens_of_read? h)
  refine ⟨opens_iff, hstarts, fun t => ?_⟩
  have hclass := isClassOf_ofToken t
  refine ⟨hclass, ?_, ?_, Value.ofToken_eq_ofTokenOpening t⟩
  · rintro text (hsymbol | hstring)
    · obtain ⟨hkept, -, rfl⟩ := (hclass.symbol_iff text).mp hsymbol
      exact hkept
    · obtain ⟨hkept, -, rfl⟩ := (hclass.string_iff text).mp hstring
      exact hkept
  · intro hkept x hnumber
    exact hkept (hstarts _ x ((hclass.number_iff x).mp hnumber))

/-- A literal with a sign and without whole digits begins like a number, one that is too large has
no value even in quotes, and a word for a number is no number. -/
theorem ofToken_classified_edges :
    StartsNumeric "-.5e1".toList ∧ (ofToken (.quotation "1e400")).value = .none ∧
      ∀ x, (ofToken (.bare "inf")).value ≠ .number x := by
  have hread : ∃ x, read? "-.5e1".toList = some x := by
    rw [← Option.isSome_iff_exists]
    decide +kernel
  obtain ⟨x, hread⟩ := hread
  have hlarge : opens "1e400".toList = true ∧ read? "1e400".toList = none := by decide +kernel
  have hword : opens "inf".toList = false := by decide
  refine ⟨ofToken_classified.2.1 _ x hread, ?_, ?_⟩
  · exact (ofToken_classified.2.2 (.quotation "1e400")).1.none_iff.mpr
      ⟨(ofToken_classified.1 _).mp hlarge.1, hlarge.2⟩
  · apply (ofToken_classified.2.2 (.bare "inf")).2.2.1
    intro hstarts
    rw [← ofToken_classified.1] at hstarts
    exact Bool.false_ne_true (hword.symm.trans hstarts)

end Atom

end AnnotatedAtoms
