import AnnotatedAtoms.Listing
import AnnotatedAtoms.Proofs.Decimal.WholeNumbers
import AnnotatedAtoms.Proofs.Reading.Atoms
import Mathlib.Data.List.Forall2

/-!
# Line numbers

A whole number is refused, or it is taken without losing a digit. So the line that is recorded with
an atom is shown as the line that it is.

* `ofUInt64Exact_of_lt`, `ofUInt64Exact_of_le`: which words are taken;
* `showsLine_placed`: how the line of an atom is shown;
* `ofUInt64Exact_lossless`: what is taken, how it is shown, and the lines of all that is read.
-/

namespace AnnotatedAtoms

open Binary64 (maxExactWhole)
open Literal

namespace Binary64

variable {ε : Type} {word : UInt64}

theorem ofUInt64Exact_of_lt (refusal : ε) (h : word.toNat < 2 ^ 53) :
    ofUInt64Exact word refusal = .ok (ofNat word.toNat) :=
  if_pos (Nat.le_pred_of_lt h)

theorem ofUInt64Exact_of_le (refusal : ε) (h : 2 ^ 53 ≤ word.toNat) :
    ofUInt64Exact word refusal = .error refusal :=
  if_neg (Nat.not_le_of_lt (Nat.lt_of_lt_of_le (by decide) h))

end Binary64

namespace Atom

/-- The line of an atom is shown in decimal, where it is asked for and where the annotations are
listed. -/
structure ShowsLine (a : Atom) (line : Nat) : Prop where
  asked : (a.get lineKey).render = Nat.repr line
  listed : a.annotationLines = "\tline = " ++ Nat.repr line ++ "\n"

theorem showsLine_placed (t : Token) {line : Nat} (h : line ≤ maxExactWhole) :
    (placed t line).ShowsLine line := by
  have hget : (placed t line).get lineKey = ofNumber (.ofNat line) := rfl
  have hlist : (placed t line).annotations.toList = [(lineName, ofNumber (.ofNat line))] := rfl
  have hrender : (ofNumber (.ofNat line)).render = Nat.repr line := Binary64.render_ofNat h
  have hname : "\t" ++ lineName ++ " = " = "\tline = " := by decide
  constructor
  · rw [hget, hrender]
  · rw [annotationLines, hlist, List.map_singleton, annotationLine, hrender, hname]
    exact String.empty_append

end Atom

namespace Binary64

open Atom (readAll textTokens ShowsLine)

/-- **No digit is lost.** A whole number is treated alike as a 64-bit word and as a natural number.
From `2 ^ 53` on it is refused with the error that is asked for. Below, it becomes the number with
exactly its value, which is shown as its decimal numeral and is read back from that. So every atom
that is read shows the line of its token. -/
theorem ofUInt64Exact_lossless :
    (∀ (ε : Type) (word : UInt64) (refusal : ε),
      ofNatExact word.toNat refusal = ofUInt64Exact word refusal ∧
      (2 ^ 53 ≤ word.toNat → ofUInt64Exact word refusal = .error refusal) ∧
      (word.toNat < 2 ^ 53 → ∃ x, ofUInt64Exact word refusal = .ok x ∧
        x.toRat? = some (word.toNat : ℚ) ∧ x.render = Nat.repr word.toNat ∧
        read? (Nat.repr word.toNat).toList = some x)) ∧
    ∀ source as, readAll source = .ok as → ∃ ts, tokenize source = .ok ts ∧
      List.Forall₂ ShowsLine as ((textTokens ts).map Prod.snd) := by
  constructor
  · intro ε word refusal
    refine ⟨rfl, ofUInt64Exact_of_le refusal, fun h => ?_⟩
    have hmax : word.toNat ≤ maxExactWhole := Nat.le_pred_of_lt h
    exact ⟨_, ofUInt64Exact_of_lt refusal h, toRat?_ofNat hmax, render_ofNat hmax, read?_repr hmax⟩
  · intro source as hread
    obtain ⟨ts, htokens, hlines, rfl⟩ := (Atom.readAll_eq_ok_iff source as).mp hread
    refine ⟨ts, htokens, ?_⟩
    rw [List.forall₂_map_left_iff, List.forall₂_map_right_iff, List.forall₂_same]
    exact fun p hp => Atom.showsLine_placed p.1 (hlines p hp)

/-- The largest word that is taken, the first that is not, and a line that begins inside quotes. -/
theorem ofUInt64Exact_lossless_largest :
    (∃ x, ofUInt64Exact 9007199254740991 "too large" = .ok x ∧ x.render = "9007199254740991") ∧
    ofUInt64Exact 9007199254740992 "too large" = .error "too large" ∧
    ∃ as, readAll "(\"a\nb\" c)" = .ok as ∧ List.Forall₂ ShowsLine as [1, 2] := by
  have htokens : tokenize "(\"a\nb\" c)" =
      .ok [(.bare "(", 1), (.quotation "a\nb", 1), (.bare "c", 2), (.bare ")", 2)] := by cbv
  have hread := (Atom.readAll_eq_ok_iff "(\"a\nb\" c)" _).mpr ⟨_, htokens, by decide, rfl⟩
  obtain ⟨x, hx, -, hshown, -⟩ :=
    (ofUInt64Exact_lossless.1 String 9007199254740991 "too large").2.2 (by decide)
  refine ⟨⟨x, hx, hshown⟩, ?_, _, hread, ?_⟩
  · exact (ofUInt64Exact_lossless.1 String 9007199254740992 "too large").2.1 (by decide)
  · obtain ⟨ts, hts, hlines⟩ := ofUInt64Exact_lossless.2 _ _ hread
    cases htokens.symm.trans hts
    exact hlines

end Binary64

end AnnotatedAtoms
