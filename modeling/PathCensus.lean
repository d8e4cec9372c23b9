import PathCensus.Activation.Printer
import PathCensus.Census.Journal
import PathCensus.Census.Session
import PathCensus.Main
import PathCensus.Proofs.Activation.Completeness
import PathCensus.Proofs.Activation.Dependence
import PathCensus.Proofs.Activation.Exactness
import PathCensus.Proofs.Activation.Grammar
import PathCensus.Proofs.Activation.RoundTrip
import PathCensus.Proofs.Activation.Soundness
import PathCensus.Proofs.Census.Flow
import PathCensus.Proofs.Census.Header
import PathCensus.Proofs.Census.Limits
import PathCensus.Proofs.Census.Loops
import PathCensus.Proofs.Census.Matrices
import PathCensus.Proofs.Census.Multiplicities
import PathCensus.Proofs.Census.Parallel
import PathCensus.Proofs.Census.Productions
import PathCensus.Proofs.Census.Profile
import PathCensus.Proofs.Census.Restructuring
import PathCensus.Proofs.Census.RoundTrip
import PathCensus.Proofs.Census.Session
import PathCensus.Proofs.Census.SessionOrder
import PathCensus.Proofs.Census.SiblingOrder
import PathCensus.Proofs.Census.Sums
import PathCensus.Proofs.Census.Weights
import PathCensus.Proofs.Command.Building
import PathCensus.Proofs.Command.Failing
import PathCensus.Proofs.Command.PathTexts
import PathCensus.Proofs.Counts.Reading
import PathCensus.Proofs.Dump.Collapse
import PathCensus.Proofs.Dump.Format
import PathCensus.Proofs.Dump.Literals
import PathCensus.Proofs.Dump.NormalForm
import PathCensus.Proofs.Dump.Numbering
import PathCensus.Proofs.Dump.Renumbering
import PathCensus.Proofs.Tree.Alike
import PathCensus.Proofs.Tree.Alternation
import PathCensus.Proofs.Tree.Attempts
import PathCensus.Proofs.Tree.Building
import PathCensus.Proofs.Tree.Extremes
import PathCensus.Proofs.Tree.InsertionOrder
import PathCensus.Proofs.Tree.LiteralSearch
import PathCensus.Proofs.Tree.Leaves
import PathCensus.Proofs.Tree.Splitting
import PathCensus.Proofs.Tree.Traversal
