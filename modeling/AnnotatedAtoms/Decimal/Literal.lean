import AnnotatedAtoms.Decimal.Basic

/-!
# Number literals

The strict grammar of a number: an optional sign, digits with an optional point among, before or
after them, and an optional exponent. Nothing may stand before or after, and a literal too large
for a finite number is none. Digits are the ten of ASCII.

* `read?_isFinite`: what is read is finite.
-/

namespace AnnotatedAtoms.Literal

/-- Whether there is a minus sign, and the text after the sign. -/
def splitSign : List Char → Bool × List Char
  | '-' :: cs => (true, cs)
  | '+' :: cs => (false, cs)
  | cs => (false, cs)

/-- The value of exponent digits. It stops growing once it has passed `2 ^ 16`, where only a
literal with tens of thousands of digits could still be anything but zero or too large. -/
def exponentValue (cs : List Char) : Nat :=
  cs.foldl (fun e c => if e < 2 ^ 16 then 10 * e + (c.toNat - '0'.toNat) else e) 0

/-- The exponent, which is zero where none is written. -/
def readExponent? : List Char → Option Int
  | [] => some 0
  | marker :: cs =>
    let (negative, ds) := splitSign cs
    if (marker = 'e' ∨ marker = 'E') ∧ ds ≠ [] ∧ ds.all Char.isDigit then
      some (if negative then -(exponentValue ds : Int) else exponentValue ds)
    else none

/-- The digits after a point, and the text after them. -/
def splitFraction : List Char → List Char × List Char
  | '.' :: cs => (cs.takeWhile Char.isDigit, cs.dropWhile Char.isDigit)
  | cs => ([], cs)

/-- The magnitude that is written after the sign. -/
def readMagnitude? (cs : List Char) : Option Decimal :=
  let whole := cs.takeWhile Char.isDigit
  let (fraction, rest) := splitFraction (cs.dropWhile Char.isDigit)
  if whole ++ fraction = [] then none
  else (readExponent? rest).map fun e =>
    ⟨Nat.ofDigitChars 10 (whole ++ fraction) 0, e - fraction.length⟩

/-- The finite number that is nearest to the written one, if the whole text is a literal. -/
def read? (cs : List Char) : Option Binary64 :=
  let (negative, magnitude) := splitSign cs
  ((readMagnitude? magnitude).map (Decimal.toBinary64 negative)).filter Binary64.isFinite

/-- Whether the text begins like a literal: a digit, or a point and a digit, after at most one
sign. -/
def opens (cs : List Char) : Bool :=
  match (splitSign cs).2 with
  | '.' :: c :: _ => c.isDigit
  | c :: _ => c.isDigit
  | [] => false

theorem read?_isFinite {cs : List Char} {x : Binary64} (h : read? cs = some x) : x.isFinite :=
  (Option.filter_eq_some_iff.1 h).2

end AnnotatedAtoms.Literal
