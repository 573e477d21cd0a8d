import AnnotatedAtoms.Annotations
import AnnotatedAtoms.ReadError
import AnnotatedAtoms.Value

/-!
# Atoms

An atom is a value with annotations, which are atoms themselves and so can be annotated in turn.
Annotations are stored under texts and asked for by string atoms; they take no part in comparing
and showing an atom.
-/

namespace AnnotatedAtoms

structure Atom where
  value : Value
  annotations : Annotations Atom none

namespace Atom

/-! ## Making atoms -/

def ofValue (value : Value) : Atom := ⟨value, .nil⟩

/-- The atom that holds nothing. -/
def empty : Atom := ofValue .none

instance : Inhabited Atom := ⟨empty⟩

def ofNumber (x : Binary64) : Atom := ofValue (.number x)

def ofComplex (z : Complex) : Atom := ofValue (.complex z)

def ofSymbol (text : String) : Atom := ofValue (.symbol text)

def ofString (text : String) : Atom := ofValue (.string text)

def ofToken (token : Token) : Atom := ofValue (.ofToken token)

/-! ## The value -/

def kind (a : Atom) : Kind := a.value.kind

def isNone (a : Atom) : Bool := a.kind = .none

def isNumber (a : Atom) : Bool := a.kind = .number

def isComplex (a : Atom) : Bool := a.kind = .complex

def isSymbol (a : Atom) : Bool := a.kind = .symbol

def isString (a : Atom) : Bool := a.kind = .string

def number? (a : Atom) : Option Binary64 := a.value.number?

def complex? (a : Atom) : Option Complex := a.value.complex?

def symbol? (a : Atom) : Option String := a.value.symbol?

def string? (a : Atom) : Option String := a.value.string?

def numberOrZero (a : Atom) : Binary64 := a.number?.getD .zero

def complexOrZero (a : Atom) : Complex := a.complex?.getD .zero

def symbolOrEmpty (a : Atom) : String := a.symbol?.getD ""

def stringOrEmpty (a : Atom) : String := a.string?.getD ""

/-- Atoms are equal when their values are. -/
def approxEq (a b : Atom) : Bool := a.value.approxEq b.value

def render (a : Atom) : String := a.value.render

/-! ## The annotations -/

/-- Only a string can name an annotation. -/
def has (a key : Atom) : Bool :=
  match key.string? with
  | some name => (a.annotations.find? name).isSome
  | none => false

/-- The annotation under a key, or the empty atom where there is none. -/
def get (a key : Atom) : Atom :=
  match key.string? with
  | some name => (a.annotations.find? name).getD empty
  | none => empty

/-- Stores an annotation in the place of the one that the key had. -/
def annotate (a key new : Atom) : Except InvalidKey Atom :=
  match key.string? with
  | some name => .ok { a with annotations := a.annotations.insert name new (above_none name) }
  | none => .error ⟨key.kind⟩

end Atom

end AnnotatedAtoms
