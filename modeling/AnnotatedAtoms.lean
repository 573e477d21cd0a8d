import AnnotatedAtoms.Main
import AnnotatedAtoms.Proofs.Atom.Alike
import AnnotatedAtoms.Proofs.Atom.Equality
import AnnotatedAtoms.Proofs.Atom.History
import AnnotatedAtoms.Proofs.Binary64.Epsilon
import AnnotatedAtoms.Proofs.CommandLine.Listing
import AnnotatedAtoms.Proofs.Lexeme.LineEndings
import AnnotatedAtoms.Proofs.Lexeme.Lines
import AnnotatedAtoms.Proofs.Reading.Layout
import AnnotatedAtoms.Proofs.Reading.LineNumbers
import AnnotatedAtoms.Proofs.Reading.OneForOne
import AnnotatedAtoms.Proofs.Reading.Quoting
import AnnotatedAtoms.Proofs.Unambiguous
