import AnnotatedAtoms.Lexeme.Cut
import AnnotatedAtoms.ReadError
import AnnotatedAtoms.Token

/-!
# The tokens of a source text

Parentheses, quoted texts and words are tokens; blanks, newlines and comments only separate them.
A token is given with the line that it begins on, counted from one. A text that cannot be cut to
its end has no tokens.

* `map_fst_numbered`: numbering the lines neither adds nor loses a piece;
* `numbered_append`: the lines of a later part go on from where the earlier one ends.
-/

namespace AnnotatedAtoms

namespace Lexeme

def token? : Lexeme → Option Token
  | .opening => some (.bare "(")
  | .closing => some (.bare ")")
  | .quoted body => some (.quotation (String.ofList body))
  | .word run => some (.bare (String.ofList run))
  | .newline | .blanks _ | .comment _ => none

/-- The pieces with the lines that they begin on, when the first one begins on a given line. -/
def numbered (line : Nat) : List Lexeme → List (Lexeme × Nat)
  | [] => []
  | l :: ls => (l, line) :: numbered (line + l.newlines) ls

/-- The line on which some pieces end that begin on a given line. -/
def lineAfter (line : Nat) (ls : List Lexeme) : Nat := ls.foldl (fun n l => n + l.newlines) line

@[simp] theorem map_fst_numbered (line : Nat) (ls : List Lexeme) :
    (numbered line ls).map Prod.fst = ls := by
  induction ls generalizing line with
  | nil => rfl
  | cons l ls ih => simp [numbered, ih]

theorem numbered_append (line : Nat) (ls ms : List Lexeme) :
    numbered line (ls ++ ms) = numbered line ls ++ numbered (lineAfter line ls) ms := by
  induction ls generalizing line with
  | nil => rfl
  | cons l ls ih => simp [numbered, lineAfter, ih]

/-- The tokens among some pieces. -/
def tokens (line : Nat) (ls : List Lexeme) : List (Token × Nat) :=
  (numbered line ls).filterMap fun (l, n) => l.token?.map fun t => (t, n)

end Lexeme

/-- The tokens of a source text, or the text from the first unanswered quote. -/
def tokenize (source : String) : Except ReadError (List (Token × Nat)) :=
  match Lexeme.cut source.toList with
  | (ls, []) => .ok (Lexeme.tokens 1 ls)
  | (ls, remainder) => .error (.unexpectedText (String.ofList remainder) (Lexeme.lineAfter 1 ls))

end AnnotatedAtoms
