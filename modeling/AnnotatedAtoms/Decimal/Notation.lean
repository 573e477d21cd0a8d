import AnnotatedAtoms.Decimal.Shortest

/-!
# Written numbers

How a number is shown: the digits of its shortest decimal, in positional notation from `1e-4` up to
but excluding `1e16` and in exponent notation outside that range.
-/

namespace AnnotatedAtoms

namespace Decimal

/-- The digits without the zeros at their end. -/
def digitChars (d : Decimal) : List Char :=
  ((Nat.toDigits 10 d.digits).reverse.dropWhile (· = '0')).reverse

/-- The place of the point, counted from the first digit. -/
def pointPlace (d : Decimal) : Int := (Nat.toDigits 10 d.digits).length + d.exponent

/-- Positional notation, filled up with zeros on the side of the point that has no digits. -/
def positional (d : Decimal) : List Char :=
  let cs := d.digitChars
  let place := d.pointPlace
  if place ≤ 0 then '0' :: '.' :: List.replicate (-place).toNat '0' ++ cs
  else if cs.length ≤ place then cs ++ List.replicate (place - cs.length).toNat '0'
  else cs.take place.toNat ++ '.' :: cs.drop place.toNat

/-- The digits of a whole number after its sign, which only a negative one has. -/
def wholeChars (n : Int) : List Char :=
  if n < 0 then '-' :: Nat.toDigits 10 n.natAbs else Nat.toDigits 10 n.natAbs

/-- One digit before the point, and the power of ten after the marker. -/
def scientific (d : Decimal) : List Char :=
  let mantissa := match d.digitChars with
    | c :: c' :: cs => c :: '.' :: c' :: cs
    | cs => cs
  mantissa ++ 'e' :: wholeChars (d.pointPlace - 1)

end Decimal

namespace Binary64

/-! Positional notation begins at the first bound and ends before the second. -/

def positionalFrom : Nat := Decimal.rank ⟨1, -4⟩

def positionalTo : Nat := Decimal.rank ⟨1, 16⟩

/-- The text of a finite magnitude. -/
def magnitudeChars (rank : Nat) : List Char :=
  if rank = 0 then ['0']
  else if positionalFrom ≤ rank ∧ rank < positionalTo then (Decimal.shortest rank).positional
  else (Decimal.shortest rank).scientific

/-- The text of a number. -/
def chars : Binary64 → List Char
  | .finite negative rank => if negative then '-' :: magnitudeChars rank else magnitudeChars rank
  | .infinite negative => if negative then "-inf".toList else "inf".toList
  | .nan => "NaN".toList

def render (x : Binary64) : String := String.ofList x.chars

end Binary64

end AnnotatedAtoms
