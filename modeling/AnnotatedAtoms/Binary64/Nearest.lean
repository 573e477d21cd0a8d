import AnnotatedAtoms.Binary64.Basic

/-!
# Rounding to the nearest binary64 number

An exact magnitude is a fraction of natural numbers, counted in units of `2 ^ -1074`. It is rounded
to the nearest rank, and a magnitude halfway between two ranks goes to the even one. Every number
that is computed or read comes from this one function.

* `roundHalfEven_mul`, `nearestRank_of_lt`: what rounds to itself.
-/

namespace AnnotatedAtoms

/-- The whole number nearest to a fraction; one half goes to the even neighbour. -/
def roundHalfEven (num den : Nat) : Nat :=
  let q := num / den
  let twice := 2 * (num % den)
  if twice < den then q else if twice = den then q + q % 2 else q + 1

theorem roundHalfEven_mul (n : Nat) {den : Nat} (h : 0 < den) :
    roundHalfEven (n * den) den = n := by
  simp [roundHalfEven, h]

namespace Binary64

/-- The rank nearest to a number of units. The block of the answer is found from the binary length
of the whole part; within the block the ranks are evenly spaced, and a carry out of it is the first
rank of the next block. -/
def nearestRank (num den : Nat) : Nat :=
  let shift := (num / den).log2 - 52
  shift * 2 ^ 52 + roundHalfEven num (den * 2 ^ shift)

theorem nearestRank_of_lt {n : Nat} (h : n < 2 ^ 53) : nearestRank n 1 = n := by
  have shift : n.log2 - 52 = 0 := by
    by_cases zero : n = 0
    · simp [zero]
    · have := (Nat.log2_lt zero).2 h
      omega
  simpa [nearestRank, shift] using roundHalfEven_mul n Nat.one_pos

/-- A rank past the last finite one stands for infinity. -/
def ofRank (negative : Bool) (rank : Nat) : Binary64 :=
  if h : rank < finiteCount then .finite negative ⟨rank, h⟩ else .infinite negative

/-- The number nearest to a signed fraction of units. -/
def nearest (negative : Bool) (num den : Nat) : Binary64 :=
  ofRank negative (nearestRank num den)

@[simp] theorem isNegative_ofRank (negative : Bool) (rank : Nat) :
    (ofRank negative rank).isNegative = negative := by
  unfold ofRank
  split <;> rfl

end Binary64

end AnnotatedAtoms
