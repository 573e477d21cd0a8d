import AnnotatedAtoms.Atom.Basic

/-!
# Listings of atoms

One line for an atom, with its kind and its text. Below it, where they are asked for, stand its
annotations in the order of their names, each on a line that begins with a tab.
-/

namespace AnnotatedAtoms

namespace Atom

def line (a : Atom) : String := a.kind.name ++ "\t" ++ a.render ++ "\n"

def annotationLine (entry : String × Atom) : String :=
  "\t" ++ entry.1 ++ " = " ++ entry.2.render ++ "\n"

def annotationLines (a : Atom) : String := String.join (a.annotations.toList.map annotationLine)

end Atom

def listing (withAnnotations : Bool) (as : List Atom) : String :=
  String.join (as.map fun a => if withAnnotations then a.line ++ a.annotationLines else a.line)

end AnnotatedAtoms
