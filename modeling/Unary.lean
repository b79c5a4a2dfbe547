import Unary.CommandLine
import Unary.Disk.Tree
import Unary.Expr.Format
import Unary.Main
import Unary.Proofs.Lenient
import Unary.Proofs.RoundTrip
import Unary.Report.Named
import Unary.Store
import Unary.Term.Outline
import Unary.Proofs.Lowering
import Unary.Proofs.Programs
import Unary.Proofs.ProgramText
import Unary.Proofs.Composition
import Unary.Proofs.Sessions
import Unary.Proofs.Replay
import Unary.Proofs.Arithmetic
import Unary.Proofs.Balance
import Unary.Proofs.Strictness
import Unary.Proofs.Calls
import Unary.Proofs.Offence
import Unary.Proofs.Demand
import Unary.Proofs.Limits
import Unary.Proofs.TailCalls
import Unary.Proofs.CommandLine
import Unary.Proofs.Scoping
import Unary.Proofs.Placement
import Unary.Proofs.Nesting
import Unary.Proofs.Listing
import Unary.Proofs.Lines
import Unary.Proofs.Reports
import Unary.Proofs.Termination
import Unary.Proofs.Segmentation
import Unary.Proofs.Alternatives
import Unary.Proofs.Translation
import Unary.Proofs.Search
import Unary.Proofs.Numerals
import Unary.Proofs.Rendering
import Unary.Proofs.Decoration
import Unary.Proofs.Coordinates
import Unary.Proofs.Excerpts
import Unary.Proofs.Cells
import Unary.Proofs.Paths
import Unary.Proofs.PreludeFiles
