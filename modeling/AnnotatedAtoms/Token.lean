/-!
# Tokens

A token is a piece of source text together with whether it was written in quotes.
-/

namespace AnnotatedAtoms

structure Token where
  text : String
  quoted : Bool
  deriving DecidableEq, Inhabited

namespace Token

def bare (text : String) : Token := ⟨text, false⟩

/-- The token of a quoted text, which is held without its quotes. -/
def quotation (text : String) : Token := ⟨text, true⟩

/-- A parenthesis in quotes is a text like any other. -/
def isDelimiter (token : Token) : Bool :=
  !token.quoted && (token.text == "(" || token.text == ")")

end Token

end AnnotatedAtoms
