import AnnotatedAtoms.Binary64.Word
import Mathlib.Tactic.SplitIfs

/-!
# Words and numbers

Which words stand for which class of numbers, and which words stand for the same number: only those
of not-a-number share theirs.

* `isFinite_ofWord`, `ofWord_eq_nan_iff`: the class of a number, read from the bits of its word;
* `toWord_ofWord`: a word is found again from its number;
* `ofWord_eq_ofWord_iff`: words of the same number.
-/

namespace AnnotatedAtoms.Binary64

/-! ## Fields -/

/-- The eleven bits after the sign; all of them are set in the words that are not finite. -/
def exponentBits (word : UInt64) : Nat := word.toNat / 2 ^ 52 % 2 ^ 11

/-- The bits after the exponent. -/
def fractionBits (word : UInt64) : Nat := word.toNat % 2 ^ 52

/-- A word of not-a-number: the exponent of infinity with any other fraction. -/
def IsNanWord (word : UInt64) : Prop := exponentBits word = 2047 ∧ fractionBits word ≠ 0

instance (word : UInt64) : Decidable (IsNanWord word) :=
  inferInstanceAs (Decidable (_ ∧ _))

theorem exponentBits_eq_iff (word : UInt64) :
    exponentBits word = 2047 ↔ finiteCount ≤ word.toNat % 2 ^ 63 := by
  have h := word.toNat_lt
  rw [exponentBits, finiteCount]
  omega

theorem isNanWord_iff (word : UInt64) :
    IsNanWord word ↔ finiteCount < word.toNat % 2 ^ 63 := by
  have h := word.toNat_lt
  rw [IsNanWord, exponentBits_eq_iff, fractionBits, finiteCount]
  omega

theorem signBit_add_rank (word : UInt64) :
    signBit (2 ^ 63 ≤ word.toNat) + word.toNat % 2 ^ 63 = word.toNat := by
  have hlt := word.toNat_lt
  rw [signBit]
  split_ifs with hsign <;> simp at hsign <;> omega

/-! ## Classes -/

theorem isFinite_ofWord (word : UInt64) :
    (ofWord word).isFinite = true ↔ exponentBits word ≠ 2047 := by
  rw [ne_eq, exponentBits_eq_iff, Nat.not_le]
  rw [ofWord, ofFields]
  split_ifs with hfinite hinfinite
  · exact iff_of_true rfl hfinite
  · exact iff_of_false Bool.false_ne_true hfinite
  · exact iff_of_false Bool.false_ne_true hfinite

theorem ofWord_eq_nan_iff (word : UInt64) : ofWord word = nan ↔ IsNanWord word := by
  rw [isNanWord_iff, ofWord, ofFields]
  split_ifs with hfinite hinfinite
  · exact iff_of_false (by rintro ⟨⟩) (by omega)
  · exact iff_of_false (by rintro ⟨⟩) (by omega)
  · exact iff_of_true rfl (by omega)

/-! ## Words of the same number -/

/-- A word that is not one of not-a-number is found again from its number. -/
theorem toWord_ofWord_of_not_isNanWord {word : UInt64} (h : ¬ IsNanWord word) :
    (ofWord word).toWord = word := by
  rw [isNanWord_iff] at h
  have hword := signBit_add_rank word
  rw [ofWord, ofFields]
  split_ifs with hfinite hinfinite
  · rw [toWord, hword, UInt64.ofNat_toNat]
  · rw [toWord, ← hinfinite, hword, UInt64.ofNat_toNat]
  · omega

/-- A finite word is found again from its number. -/
theorem toWord_ofWord (word : UInt64) (h : exponentBits word ≠ 2047) :
    (ofWord word).toWord = word :=
  toWord_ofWord_of_not_isNanWord fun hnan => h hnan.1

/-- Bit for bit the same, where all words of not-a-number count as one. -/
def SameFloat (v w : UInt64) : Prop := v = w ∨ IsNanWord v ∧ IsNanWord w

theorem ofWord_eq_ofWord_iff {v w : UInt64} : ofWord v = ofWord w ↔ SameFloat v w := by
  constructor
  · intro h
    by_cases hv : IsNanWord v
    · have hnan := (ofWord_eq_nan_iff v).mpr hv
      rw [h] at hnan
      exact .inr ⟨hv, (ofWord_eq_nan_iff w).mp hnan⟩
    · have hw : ¬ IsNanWord w := by
        rw [← ofWord_eq_nan_iff, ← h, ofWord_eq_nan_iff]
        exact hv
      have hwords := congrArg toWord h
      rw [toWord_ofWord_of_not_isNanWord hv, toWord_ofWord_of_not_isNanWord hw] at hwords
      exact .inl hwords
  · rintro (rfl | ⟨hv, hw⟩)
    · rfl
    · rw [(ofWord_eq_nan_iff v).mpr hv, (ofWord_eq_nan_iff w).mpr hw]

end AnnotatedAtoms.Binary64
