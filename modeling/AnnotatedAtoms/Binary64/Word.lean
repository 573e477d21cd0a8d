import AnnotatedAtoms.Binary64.Basic

/-!
# Binary64 interchange words

The 64-bit word of a number: the highest bit is the sign and the other 63 are the rank. The first
rank that is not finite is infinity, and every larger one is not-a-number.

* `ofWord_toWord`: a number is read back from its word.
-/

namespace AnnotatedAtoms.Binary64

/-- The number with a sign and 63 further bits. -/
def ofFields (negative : Bool) (rank : Nat) : Binary64 :=
  if h : rank < finiteCount then .finite negative ⟨rank, h⟩
  else if rank = finiteCount then .infinite negative
  else .nan

def ofWord (word : UInt64) : Binary64 :=
  ofFields (2 ^ 63 ≤ word.toNat) (word.toNat % 2 ^ 63)

/-- The value of the sign bit. -/
def signBit (negative : Bool) : Nat := if negative then 2 ^ 63 else 0

/-- The word of not-a-number is the quiet one without a sign. -/
def toWord : Binary64 → UInt64
  | .finite negative rank => .ofNat (signBit negative + rank)
  | .infinite negative => .ofNat (signBit negative + finiteCount)
  | .nan => .ofNat (finiteCount + 2 ^ 51)

theorem ofWord_ofNat (negative : Bool) {rank : Nat} (h : rank < 2 ^ 63) :
    ofWord (.ofNat (signBit negative + rank)) = ofFields negative rank := by
  have bound : signBit negative + rank < 2 ^ 64 := by
    unfold signBit
    split <;> omega
  have low : (signBit negative + rank) % 2 ^ 63 = rank := by
    unfold signBit
    split <;> omega
  have sign : decide (2 ^ 63 ≤ signBit negative + rank) = negative := by
    cases negative with
    | false => simpa [signBit] using h
    | true => simp [signBit]
  rw [ofWord, UInt64.toNat_ofNat_of_lt' bound, sign, low]

theorem ofWord_toWord (x : Binary64) : ofWord x.toWord = x := by
  cases x with
  | finite negative rank =>
    have : rank.val < 2047 * 2 ^ 52 := rank.isLt
    rw [toWord, ofWord_ofNat negative (by omega), ofFields, dif_pos rank.isLt]
  | infinite negative =>
    rw [toWord, ofWord_ofNat negative (by decide), ofFields, dif_neg (by decide), if_pos rfl]
  | nan => rfl

end AnnotatedAtoms.Binary64
