/-!
# Lexemes

The pieces of a source text. A piece remembers the characters that it was cut from, blanks and
comments included, so that the pieces of a text make up the text.
-/

namespace AnnotatedAtoms

/-- Space, tab, form feed and carriage return. No other character is blank. -/
def isBlank (c : Char) : Bool := c = ' ' || c = '\t' || c = '\x0c' || c = '\r'

/-- The characters that end a word. -/
def isSpecial (c : Char) : Bool :=
  isBlank c || c = '\n' || c = '(' || c = ')' || c = '"' || c = ';'

def isWordChar (c : Char) : Bool := !isSpecial c

/-- A comment runs up to the end of its line. -/
def isCommentChar (c : Char) : Bool := c ≠ '\n'

/-- A quoted text may hold anything but a quote. -/
def isQuotable (c : Char) : Bool := c ≠ '"'

/-- Runs of blanks and of word characters are not empty; the marks around a comment and a quoted
text are not part of its body. -/
inductive Lexeme where
  | opening
  | closing
  | newline
  | blanks (run : List Char)
  | comment (body : List Char)
  | quoted (body : List Char)
  | word (run : List Char)
  deriving DecidableEq

namespace Lexeme

/-- The characters of a piece in the source. -/
def source : Lexeme → List Char
  | .opening => ['(']
  | .closing => [')']
  | .newline => ['\n']
  | .blanks run => run
  | .comment body => ';' :: body
  | .quoted body => '"' :: body ++ ['"']
  | .word run => run

/-- How many lines further a piece ends than it begins. -/
def newlines (l : Lexeme) : Nat := l.source.count '\n'

end Lexeme

end AnnotatedAtoms
