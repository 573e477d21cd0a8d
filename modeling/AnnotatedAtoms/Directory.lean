/-!
# Directories of plain files

A directory holds files under plain names and nothing else. A path names a file in it when it is
the plain name of that file, after any number of steps that stay in the directory: a step is a
single dot and the slashes behind it. Every other path leads to the directory itself, out of it, or
through a file that is not a directory, so nothing can be read there.

* `plainName?_eq_self`: a plain name is a path to itself;
* `read_eq_lookup`: the file under a plain name.
-/

namespace AnnotatedAtoms

/-- One dot is the directory itself and two are the one above it, so neither names a file. -/
def isPlainName (cs : List Char) : Bool :=
  cs ≠ [] && cs ≠ ['.'] && cs ≠ ['.', '.'] && cs.all (· ≠ '/')

/-- The plain name that a path comes to. Slashes may only follow the dot of an earlier step. -/
def plainName? (afterStep : Bool) : List Char → Option (List Char)
  | '/' :: cs => if afterStep then plainName? true cs else none
  | '.' :: '/' :: cs => plainName? true cs
  | cs => if isPlainName cs then some cs else none

theorem plainName?_eq_self {cs : List Char} (h : isPlainName cs) (afterStep : Bool) :
    plainName? afterStep cs = some cs := by
  unfold plainName?
  split
  · simp [isPlainName] at h
  · simp [isPlainName] at h
  · simp [h]

structure Directory where
  files : List (String × ByteArray)

namespace Directory

/-- The system takes no path of this many bytes or more. -/
def pathLimit : Nat := 4096

/-- The bytes of the file at a path. -/
def read (d : Directory) (path : String) : Option ByteArray :=
  if path.utf8ByteSize < pathLimit then
    (plainName? false path.toList).bind fun name => d.files.lookup (String.ofList name)
  else none

theorem read_eq_lookup {name : String} (plain : isPlainName name.toList)
    (short : name.utf8ByteSize < pathLimit) (d : Directory) :
    d.read name = d.files.lookup name := by
  simp [read, short, plainName?_eq_self plain]

end Directory

end AnnotatedAtoms
