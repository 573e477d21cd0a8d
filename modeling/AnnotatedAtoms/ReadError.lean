import AnnotatedAtoms.Kind

/-!
# Errors

What can be wrong with a source text or with the key of an annotation, and how it is told.
-/

namespace AnnotatedAtoms

/-- The key of an annotation has to be a string; this is the kind that was found instead. -/
structure InvalidKey where
  found : Kind
  deriving DecidableEq

def InvalidKey.message (e : InvalidKey) : String :=
  "Attempt to add non-string to the property list: key is a " ++ e.found.name ++ "."

inductive ReadError where
  | unexpectedText (text : String) (line : Nat)
  | lineTooLarge (line : Nat)
  | invalidKey (key : InvalidKey)
  deriving DecidableEq

namespace ReadError

private def onLine (line : Nat) (what : String) : String :=
  "Error on line " ++ Nat.repr line ++ ": " ++ what ++ "."

def message : ReadError → String
  | unexpectedText text line => onLine line ("Unexpected token: " ++ text)
  | lineTooLarge line => onLine line "Line number is too large to be recorded exactly"
  | invalidKey key => key.message

end ReadError

end AnnotatedAtoms
