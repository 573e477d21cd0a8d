import AnnotatedAtoms.Atom.Basic

/-!
# Edits of atoms

The changes that can be made to an atom, as data. Setting a value keeps the annotations, and
annotating keeps the value.

* `run_append`: edits can be made in two goes.
-/

namespace AnnotatedAtoms

inductive Edit where
  | setNumber (x : Binary64)
  | setComplex (z : Complex)
  | setSymbol (text : String)
  | setString (text : String)
  | annotate (key new : Atom)

namespace Edit

def apply (a : Atom) : Edit → Except InvalidKey Atom
  | .setNumber x => .ok { a with value := .number x }
  | .setComplex z => .ok { a with value := .complex z }
  | .setSymbol text => .ok { a with value := .symbol text }
  | .setString text => .ok { a with value := .string text }
  | .annotate key new => a.annotate key new

/-- An edit that is refused changes nothing. -/
def applyOrKeep (a : Atom) (e : Edit) : Atom :=
  match e.apply a with
  | .ok b => b
  | .error _ => a

/-- The atom after some edits, one after the other. -/
def run (a : Atom) (edits : List Edit) : Atom := edits.foldl applyOrKeep a

theorem run_append (a : Atom) (es fs : List Edit) : run a (es ++ fs) = run (run a es) fs :=
  List.foldl_append

end Edit

end AnnotatedAtoms
