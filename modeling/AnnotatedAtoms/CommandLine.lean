import AnnotatedAtoms.Listing
import AnnotatedAtoms.Reading

/-!
# The command line

The arguments say what is asked for, and the answer is a status with the texts for the two output
streams. Files come in as bytes, so that everything here is a function.
-/

namespace AnnotatedAtoms

/-! ## What is asked for -/

/-- Lists the atoms of the contents, or of the file that the contents name. -/
structure Settings where
  file : Bool
  annotations : Bool
  contents : String
  deriving DecidableEq

inductive Request where
  | help
  | version
  | misuse
  | list (settings : Settings)
  deriving DecidableEq

inductive Flag where
  | file
  | annotations
  | help
  | version
  deriving DecidableEq

/-- A long flag is written out in full and takes no value. -/
def Flag.ofLong? : String → Option Flag
  | "--file" => some .file
  | "--properties" => some .annotations
  | "--help" => some .help
  | "--version" => some .version
  | _ => none

def Flag.ofShort? : Char → Option Flag
  | 'f' => some .file
  | 'p' => some .annotations
  | 'h' => some .help
  | 'V' => some .version
  | _ => none

namespace Request

/-- What the arguments so far have said. -/
structure Progress where
  file : Bool
  annotations : Bool
  contents : Option String

/-- An argument either lets the reading go on or decides the request at once. No flag may be
repeated. -/
def Progress.flag (p : Progress) : Option Flag → Except Request Progress
  | some .file => if p.file then .error misuse else .ok { p with file := true }
  | some .annotations => if p.annotations then .error misuse else .ok { p with annotations := true }
  | some .help => .error help
  | some .version => .error version
  | none => .error misuse

/-- There is only one argument that is not a flag. -/
def Progress.positional (p : Progress) (text : String) : Except Request Progress :=
  if p.contents.isSome then .error misuse else .ok { p with contents := some text }

/-- One dash begins short flags, which may be joined, and two begin a long one. A dash alone is not
a flag. -/
def Progress.argument (p : Progress) (text : String) : Except Request Progress :=
  match text.toList with
  | '-' :: '-' :: _ => p.flag (Flag.ofLong? text)
  | '-' :: c :: cs => (c :: cs).foldlM (fun p c => p.flag (Flag.ofShort? c)) p
  | _ => p.positional text

/-- Reads the arguments from the left. After two dashes there are no more flags. -/
def Progress.arguments (p : Progress) : List String → Except Request Progress
  | [] => .ok p
  | text :: texts =>
    if text = "--" then texts.foldlM positional p
    else do (← p.argument text).arguments texts

/-- The contents may be empty but not missing. -/
def Progress.finish (p : Progress) : Request :=
  match p.contents with
  | some contents => list ⟨p.file, p.annotations, contents⟩
  | none => misuse

def ofArgs (args : List String) : Request :=
  match Progress.arguments ⟨false, false, none⟩ args with
  | .ok p => p.finish
  | .error decided => decided

/-- The name of the file that has to be looked at. -/
def file? : Request → Option String
  | list settings => if settings.file then some settings.contents else none
  | _ => none

end Request

/-! ## Answers -/

/-- What the program leaves behind. -/
structure Outcome where
  status : UInt32
  stdout : String
  stderr : String
  deriving DecidableEq

namespace Outcome

def success (stdout : String) : Outcome := ⟨0, stdout, ""⟩

/-- A failure has nothing to list. -/
def failure (status : UInt32) (message : String) : Outcome := ⟨status, "", message ++ "\n"⟩

end Outcome

/-- How the program is called. On misuse this line stands in place of the error text of the argument
parser, which also says what is wrong and points to the help. -/
def usage : String := "Usage: plotatom [OPTIONS] <CONTENTS>"

def helpText : String :=
  "The tagged value type (atom) of a small interpreted language, " ++
    "with annotation lists and a token reader\n" ++
  "\n" ++
  usage ++ "\n" ++
  "\n" ++
  "Arguments:\n" ++
  "  <CONTENTS>  \n" ++
  "\n" ++
  "Options:\n" ++
  "  -f, --file        Tells plotatom to look at a file instead of inline source\n" ++
  "  -p, --properties  Also print the property list of every atom\n" ++
  "  -h, --help        Print help\n" ++
  "  -V, --version     Print version\n"

def versionText : String := "plotatom 0.1.0\n"

def unreadableFile (name : String) : String :=
  "Failed to read the input file '" ++ name ++ "'. Perhaps this file does not exist?"

namespace Settings

/-- A source that cannot be read to its end leads to its error alone. -/
def answerSource (s : Settings) (source : String) : Outcome :=
  match Atom.readAll source with
  | .ok as => .success (listing s.annotations as)
  | .error e => .failure 1 e.message

/-- A file has to be there and to hold UTF-8. -/
def answer (s : Settings) (bytes : Option ByteArray) : Outcome :=
  if s.file then
    match bytes.bind String.fromUTF8? with
    | some source => s.answerSource source
    | none => .failure 1 (unreadableFile s.contents)
  else s.answerSource s.contents

end Settings

/-- The answer to a request, given the bytes of the file that it names, if that can be read. -/
def Request.answer (bytes : Option ByteArray) : Request → Outcome
  | help => .success helpText
  | version => .success versionText
  | misuse => .failure 2 usage
  | list settings => settings.answer bytes

/-- The answer to some arguments, given what each file holds. -/
def respond (files : String → Option ByteArray) (args : List String) : Outcome :=
  let request := Request.ofArgs args
  request.answer (request.file?.bind files)

end AnnotatedAtoms
