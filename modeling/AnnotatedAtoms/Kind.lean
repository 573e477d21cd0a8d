/-!
# Kinds of values
-/

namespace AnnotatedAtoms

/-- The five kinds that a value can have. -/
inductive Kind where
  | none
  | number
  | complex
  | symbol
  | string
  deriving DecidableEq, Inhabited

def Kind.name : Kind → String
  | .none => "None"
  | .number => "Number"
  | .complex => "Complex"
  | .symbol => "Symbol"
  | .string => "String"

end AnnotatedAtoms
