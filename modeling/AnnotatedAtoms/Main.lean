import AnnotatedAtoms.CommandLine

/-!
# The program

Reads the one file that the arguments name, if they name one, and prints the answer.
-/

namespace AnnotatedAtoms

/-- The bytes of a file, or nothing where there is none that can be read. -/
def fileBytes? (name : String) : IO (Option ByteArray) := do
  try return some (← IO.FS.readBinFile name)
  catch _ => return none

end AnnotatedAtoms

open AnnotatedAtoms

def main (args : List String) : IO UInt32 := do
  let request := Request.ofArgs args
  let bytes ← match request.file? with
    | some name => fileBytes? name
    | none => pure none
  let outcome := request.answer bytes
  IO.print outcome.stdout
  IO.eprint outcome.stderr
  return outcome.status
