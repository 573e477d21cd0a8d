import AnnotatedAtoms.Complex
import AnnotatedAtoms.Decimal.Literal
import AnnotatedAtoms.Kind
import AnnotatedAtoms.Token

/-!
# Values

What an atom holds: nothing, a number, a complex number, a symbol or a string. Values of different
kinds are never equal; numbers are compared within the tolerance and texts character by character.
-/

namespace AnnotatedAtoms

inductive Value where
  | none
  | number (x : Binary64)
  | complex (z : Complex)
  | symbol (text : String)
  | string (text : String)
  deriving DecidableEq, Inhabited

namespace Value

def kind : Value → Kind
  | .none => .none
  | .number _ => .number
  | .complex _ => .complex
  | .symbol _ => .symbol
  | .string _ => .string

/-- The equality that a program sees; unlike identity it has a tolerance. -/
def approxEq : Value → Value → Bool
  | .none, .none => true
  | .number x, .number y => x.approxEq y
  | .complex z, .complex w => z.approxEq w
  | .symbol s, .symbol t => s = t
  | .string s, .string t => s = t
  | _, _ => false

def render : Value → String
  | .none => "NONE"
  | .number x => x.render
  | .complex z => z.render
  | .symbol text => text
  | .string text => text

/-! ## Parts -/

def number? : Value → Option Binary64
  | .number x => some x
  | _ => Option.none

def complex? : Value → Option Complex
  | .complex z => some z
  | _ => Option.none

def symbol? : Value → Option String
  | .symbol text => some text
  | _ => Option.none

def string? : Value → Option String
  | .string text => some text
  | _ => Option.none

/-! ## Classification of tokens -/

/-- A token that is a literal is a number, in quotes or not. One that only begins like a literal is
malformed and has no value. Every other token keeps its text. -/
def ofToken (token : Token) : Value :=
  match Literal.read? token.text.toList with
  | some x => .number x
  | Option.none =>
    if Literal.opens token.text.toList then .none
    else if token.quoted then .string token.text
    else .symbol token.text

end Value

end AnnotatedAtoms
