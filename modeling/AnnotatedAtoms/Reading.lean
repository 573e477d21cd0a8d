import AnnotatedAtoms.Atom.Basic
import AnnotatedAtoms.Binary64.Whole
import AnnotatedAtoms.Lexeme.Tokens

/-!
# Reading atoms

Every token of a source text but an unquoted parenthesis is an atom, annotated with the line that
it begins on.

* `annotate_lineKey`: the key of that annotation is always accepted.
-/

namespace AnnotatedAtoms

/-- The name of the annotation that holds the line of an atom. -/
def lineName : String := "line"

def lineKey : Atom := .ofString lineName

namespace Atom

/-- The atom of a token, which fails only where the line is too large to be a number. -/
def ofTokenAt (token : Token) (line : Nat) : Except ReadError Atom := do
  let number ← Binary64.ofNatExact line (ReadError.lineTooLarge line)
  ((ofToken token).annotate lineKey (ofNumber number)).mapError ReadError.invalidKey

/-- All atoms of a source text in order, or the first error in it. -/
def readAll (source : String) : Except ReadError (List Atom) := do
  let tokens ← tokenize source
  (tokens.filter fun (token, _) => !token.isDelimiter).mapM fun (token, line) =>
    ofTokenAt token line

theorem annotate_lineKey (a new : Atom) :
    a.annotate lineKey new =
      .ok { a with annotations := a.annotations.insert lineName new (above_none lineName) } := rfl

end Atom

end AnnotatedAtoms
