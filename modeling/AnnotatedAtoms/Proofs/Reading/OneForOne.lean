import AnnotatedAtoms.Proofs.Binary64.Exact
import AnnotatedAtoms.Proofs.Lexeme.Scanner
import AnnotatedAtoms.Proofs.Reading.Atoms
import Mathlib.Data.List.Forall2

/-!
# One atom for each token

Reading a text is no more than cutting it into tokens: every token but a parenthesis is one atom,
in the same order, and the only thing that can be wrong with a text that has tokens is a line that
is too large.

* `forall₂_map_placed`: the atoms of some tokens stand for them, one for one;
* `exists_first_too_large`: which line is refused;
* `readAll_one_for_one`: what is read from a text, by its tokens.
-/

namespace AnnotatedAtoms

theorem Token.isDelimiter_iff (t : Token) :
    t.isDelimiter = true ↔ t = .bare "(" ∨ t = .bare ")" := by
  obtain ⟨text, quoted⟩ := t
  cases quoted <;> simp [isDelimiter, bare]

namespace Atom

open Binary64 (maxExactWhole)

/-- An atom that is the token's in every respect: it has the value of the token, and its only
annotation is a number, itself without annotations, that is exactly the token's line. A parenthesis
in quotes is a string. -/
structure StandsFor (a : Atom) (t : Token) (line : Nat) : Prop where
  value : a.value = (Atom.ofToken t).value
  annotations : ∃ x : Binary64, a.annotations.toList = [("line", .ofNumber x)] ∧
    x.toRat? = some (line : ℚ)
  parenthesis : t = .quotation "(" ∨ t = .quotation ")" → a.value = .string t.text

theorem standsFor_placed (t : Token) {line : Nat} (h : line ≤ maxExactWhole) :
    (placed t line).StandsFor t line where
  value := rfl
  annotations := ⟨.ofNat line, rfl, Binary64.toRat?_ofNat h⟩
  parenthesis := by
    have hopening : Value.ofToken (.quotation "(") = .string "(" := by decide
    have hclosing : Value.ofToken (.quotation ")") = .string ")" := by decide
    rintro (rfl | rfl)
    · exact hopening
    · exact hclosing

theorem forall₂_map_placed {ts : List (Token × Nat)} (h : ∀ p ∈ ts, p.2 ≤ maxExactWhole) :
    List.Forall₂ (fun p a => StandsFor a p.1 p.2) ts (ts.map fun p => placed p.1 p.2) := by
  rw [List.forall₂_map_right_iff, List.forall₂_same]
  exact fun p hp => standsFor_placed p.1 (h p hp)

/-- Where some line is too large, there is a first one, and it is refused. -/
theorem exists_first_too_large {ts : List (Token × Nat)} (h : ∃ p ∈ ts, maxExactWhole < p.2) :
    ∃ before t line behind, ts = before ++ (t, line) :: behind ∧
      (∀ p ∈ before, p.2 ≤ maxExactWhole) ∧ maxExactWhole < line ∧
      placeAll ts = .error (.lineTooLarge line) := by
  cases hfind : ts.find? fun p => maxExactWhole < p.2 with
  | none =>
    obtain ⟨p, hp, hline⟩ := h
    exact absurd (decide_eq_true hline) (List.find?_eq_none.mp hfind p hp)
  | some p =>
    obtain ⟨hline, before, behind, hsplit, hbefore⟩ := List.find?_eq_some_iff_append.mp hfind
    refine ⟨before, p.1, p.2, behind, hsplit, ?_, of_decide_eq_true hline, ?_⟩
    · intro q hq
      simpa using hbefore q hq
    · rw [placeAll, hfind]

theorem placeAll_ne_invalidKey (ts : List (Token × Nat)) (k : InvalidKey) :
    placeAll ts ≠ .error (.invalidKey k) := by
  intro h
  obtain ⟨line, -, hline⟩ := (placeAll_eq_error_iff ts _).mp h
  cases hline

theorem readAll_ne_invalidKey (source : String) (k : InvalidKey) :
    readAll source ≠ .error (.invalidKey k) := by
  rw [readAll_eq, tokenize_eq_outcome, Lexeme.outcome]
  split_ifs
  · exact placeAll_ne_invalidKey _ k
  · intro h
    cases h

/-- **One for one.** A text without tokens has the same error when it is read. In a text that has
tokens, one atom stands for each token but the unquoted parentheses, in the same order, unless some
line is too large; then the first such line is the error. The key of the annotations is never
refused. -/
theorem readAll_one_for_one (source : String) :
    (∀ e, tokenize source = .error e → readAll source = .error e) ∧
    (∀ ts texts, tokenize source = .ok ts →
      texts = (ts.filter fun p => p.1 ≠ .bare "(" ∧ p.1 ≠ .bare ")") →
      ((∀ p ∈ texts, p.2 ≤ 2 ^ 53 - 1) → ∃ as, readAll source = .ok as ∧
        List.Forall₂ (fun p a => StandsFor a p.1 p.2) texts as) ∧
      ((∃ p ∈ texts, 2 ^ 53 - 1 < p.2) → ∃ before t line behind,
        texts = before ++ (t, line) :: behind ∧ (∀ p ∈ before, p.2 ≤ 2 ^ 53 - 1) ∧
        2 ^ 53 - 1 < line ∧ readAll source = .error (.lineTooLarge line))) ∧
    ∀ k, readAll source ≠ .error (.invalidKey k) := by
  refine ⟨?_, ?_, readAll_ne_invalidKey source⟩
  · intro e h
    rw [readAll_eq, h]
    rfl
  · rintro ts texts h rfl
    have htexts : (ts.filter fun p => p.1 ≠ .bare "(" ∧ p.1 ≠ .bare ")") = textTokens ts := by
      apply List.filter_congr
      intro p _
      simp [← not_or, ← Token.isDelimiter_iff]
    have hread : readAll source = placeAll (textTokens ts) := by
      rw [readAll_eq, h]
      rfl
    rw [htexts, hread]
    constructor
    · intro hlines
      exact ⟨_, (placeAll_eq_ok_iff _ _).mpr ⟨hlines, rfl⟩, forall₂_map_placed hlines⟩
    · exact exists_first_too_large

/-- The parentheses in quotes are atoms, and the others are none. -/
theorem readAll_one_for_one_parentheses :
    ∃ as, readAll "(\"(\"\n\")\"x)" = .ok as ∧ List.Forall₂ (fun p a => StandsFor a p.1 p.2)
      [(.quotation "(", 1), (.quotation ")", 2), (.bare "x", 2)] as := by
  have htokens : tokenize "(\"(\"\n\")\"x)" = .ok [(.bare "(", 1), (.quotation "(", 1),
      (.quotation ")", 2), (.bare "x", 2), (.bare ")", 2)] := by cbv
  exact ((readAll_one_for_one _).2.1 _ _ htokens (by decide)).1 (by decide)

end Atom

end AnnotatedAtoms
