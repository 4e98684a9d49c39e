import SyntaxLint.Main
import SyntaxLint.Template.Sketch
import SyntaxLint.Rules.Sketch
import SyntaxLint.Tree.Grove
import SyntaxLint.Proofs.Text.Splice
import SyntaxLint.Proofs.Tree.Nodes
import SyntaxLint.Proofs.Fixing.Fixed
import SyntaxLint.Proofs.Template.RawText
import SyntaxLint.Proofs.Template.ClosingTag
import SyntaxLint.Proofs.Fixing.Order
import SyntaxLint.Proofs.Fixing.Bare
import SyntaxLint.Proofs.Tree.Coherent
import SyntaxLint.Proofs.Tree.Refused
import SyntaxLint.Proofs.Lint.Visited
import SyntaxLint.Proofs.Lint.Reports
import SyntaxLint.Proofs.Fixing.Anchors
import SyntaxLint.Proofs.Fixing.Outcome
import SyntaxLint.Proofs.Fixing.Converged
import SyntaxLint.Proofs.Files.Rereading
import SyntaxLint.Proofs.Tree.Loading
import SyntaxLint.Proofs.Files.Printed
import SyntaxLint.Proofs.Files.Discovery
import SyntaxLint.Proofs.Tree.Assembly
import SyntaxLint.Proofs.Settings.Agreement
import SyntaxLint.Proofs.Template.Sketches
import SyntaxLint.Proofs.Template.Locality
import SyntaxLint.Proofs.Fixing.Collapse
import SyntaxLint.Proofs.Tree.Navigation
import SyntaxLint.Proofs.Tree.Iteration
import SyntaxLint.Proofs.Tree.Covering
import SyntaxLint.Proofs.Tree.Stopping
import SyntaxLint.Proofs.Fixing.Spacing
import SyntaxLint.Proofs.Text.Positions
import SyntaxLint.Proofs.Tree.Listing
import SyntaxLint.Proofs.Lint.Stored
import SyntaxLint.Proofs.Lint.Sorted
import SyntaxLint.Proofs.Files.Spelling
import SyntaxLint.Proofs.Fixing.Sessions
import SyntaxLint.Proofs.Fixing.Meaning
