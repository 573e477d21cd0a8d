import AnnotatedAtoms.Binary64.Tolerance
import AnnotatedAtoms.Decimal.Notation

/-!
# Complex numbers

A pair of binary64 numbers, compared part by part within the tolerance and shown with the sign of
the imaginary part between the two parts.
-/

namespace AnnotatedAtoms

structure Complex where
  re : Binary64
  im : Binary64
  deriving DecidableEq, Inhabited

namespace Complex

def zero : Complex := ⟨.zero, .zero⟩

def ofReal (re : Binary64) : Complex := ⟨re, .zero⟩

def approxEq (z w : Complex) : Bool := z.re.approxEq w.re && z.im.approxEq w.im

/-- The imaginary part follows the sign without one of its own. -/
def chars (z : Complex) : List Char :=
  z.re.chars ++ (if z.im.isNegative then '-' else '+') :: z.im.abs.chars ++ ['i']

def render (z : Complex) : String := String.ofList z.chars

end Complex

end AnnotatedAtoms
