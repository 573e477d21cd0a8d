import AnnotatedAtoms.Proofs.Atom.Equality

/-!
# Quotes around a token

Quotes are seen only on a text that is kept. A text that begins like a number is the same number, or
the same malformed one, in quotes or not; any other is a string in quotes and a symbol without them.
The atom of a token is always equal to itself, because no number that is read from a token is an
infinity or not-a-number.

* `isFinite_ofToken`: every number in the value of a token is finite;
* `ofToken_eq_of_opens`, `approxEq_ofToken_of_not_opens`: which quotes are seen;
* `ofToken_quoting`: when the atoms of two tokens with one text are equal.
-/

namespace AnnotatedAtoms

open Literal

namespace Value

variable {s t : Token}

/-- What is read from a token is never an infinity or not-a-number. -/
theorem isFinite_ofToken (t : Token) : ∀ x ∈ (ofToken t).parts, x.isFinite = true := by
  rcases classes t with ⟨x, hread⟩ | ⟨hopens, hread⟩ | hopens
  · rw [ofToken_of_read? hread]
    exact List.forall_mem_singleton.mpr (read?_isFinite hread)
  · rw [ofToken_malformed hopens hread]
    exact List.forall_mem_nil _
  · rw [ofToken_of_not_opens hopens]
    cases t.quoted <;> exact List.forall_mem_nil _

theorem approxEq_ofToken_self (t : Token) : (ofToken t).approxEq (ofToken t) = true :=
  (approxEq_self_iff _).mpr (isFinite_ofToken t)

/-- A text that begins like a number has one value, whatever its quotes. -/
theorem ofToken_eq_of_opens (htext : s.text = t.text) (hopens : opens s.text.toList = true) :
    ofToken s = ofToken t := by
  rcases classes s with ⟨x, hread⟩ | ⟨-, hread⟩ | hkept
  · rw [ofToken_of_read? hread, ofToken_of_read? (htext ▸ hread)]
  · rw [ofToken_malformed hopens hread, ofToken_malformed (htext ▸ hopens) (htext ▸ hread)]
  · exact absurd hopens (Bool.eq_false_iff.mp hkept)

/-- Every other text is a string where it is quoted and a symbol where it is not. -/
theorem approxEq_ofToken_of_not_opens (htext : s.text = t.text) (hquoted : s.quoted ≠ t.quoted)
    (hkept : opens s.text.toList = false) : (ofToken s).approxEq (ofToken t) = false := by
  have hother : t.quoted = !s.quoted := Bool.eq_not_of_ne hquoted.symm
  rw [ofToken_of_not_opens hkept, ofToken_of_not_opens (htext ▸ hkept), hother]
  cases s.quoted with
  | true => rfl
  | false => rfl

end Value

namespace Atom

/-- **Quotes.** The same token has equal atoms. Two tokens that have the same text, one of them in
quotes and the other not, have equal atoms exactly when the text begins like a number. -/
theorem ofToken_quoting (s t : Token) :
    (s = t → (ofToken s).approxEq (ofToken t) = true) ∧
    (s.text = t.text → s.quoted ≠ t.quoted →
      ((ofToken s).approxEq (ofToken t) = true ↔ opens s.text.toList = true)) := by
  constructor
  · rintro rfl
    exact Value.approxEq_ofToken_self s
  · intro htext hquoted
    have hvalues : (ofToken s).approxEq (ofToken t) =
        (Value.ofToken s).approxEq (Value.ofToken t) := rfl
    rw [hvalues]
    constructor
    · intro hequal
      by_contra hopens
      have hkept := Bool.eq_false_iff.mpr hopens
      rw [Value.approxEq_ofToken_of_not_opens htext hquoted hkept] at hequal
      cases hequal
    · intro hopens
      rw [Value.ofToken_eq_of_opens htext hopens]
      exact Value.approxEq_ofToken_self t

/-- A literal is equal to itself, one that is too large has no value with and without quotes, and a
word for a number is another atom in quotes. -/
theorem ofToken_quoting_edges :
    (ofToken (.bare "-.5e1")).approxEq (ofToken (.bare "-.5e1")) = true ∧
    (ofToken (.bare "1e400")).approxEq (ofToken (.quotation "1e400")) = true ∧
    ¬ (ofToken (.bare "inf")).approxEq (ofToken (.quotation "inf")) = true := by
  have hlarge := (ofToken_quoting (.bare "1e400") (.quotation "1e400")).2 rfl (by decide)
  have hword := (ofToken_quoting (.bare "inf") (.quotation "inf")).2 rfl (by decide)
  refine ⟨(ofToken_quoting _ _).1 rfl, hlarge.mpr (by decide), ?_⟩
  rw [hword]
  decide

end Atom

end AnnotatedAtoms
