import Reckon.CommandLine
import Reckon.Main
import Reckon.Proofs.Grammar
import Reckon.Proofs.Parsing
import Reckon.Proofs.Parsing.Soundness
import Reckon.Proofs.Parsing.Completeness
import Reckon.Proofs.Stream
import Reckon.Proofs.TwoPhase
import Reckon.Proofs.Acceptance
import Reckon.Proofs.Blame
import Reckon.Proofs.Nesting
import Reckon.Proofs.Descent
import Reckon.Proofs.Descent.Stack
import Reckon.Proofs.Descent.Budget
import Reckon.Proofs.Calls
import Reckon.Proofs.Calls.Longest
import Reckon.Proofs.Course
import Reckon.Proofs.Lookahead
import Reckon.Proofs.Relocation
import Reckon.Proofs.Literal
import Reckon.Proofs.Literal.Longest
import Reckon.Proofs.Tiling
import Reckon.Proofs.Lexing
import Reckon.Proofs.Lexing.Reading
import Reckon.Proofs.Lexing.Joining
import Reckon.Proofs.Readers
import Reckon.Proofs.Printing
import Reckon.Proofs.Substitution
import Reckon.Proofs.Rounding
import Reckon.Proofs.Rounding.Order
import Reckon.Proofs.Doubles
import Reckon.Proofs.Doubles.Unpacked
import Reckon.Proofs.Doubles.Exact
import Reckon.Proofs.Doubles.Nearest
import Reckon.Proofs.Writing
import Reckon.Proofs.Digits
import Reckon.Proofs.Lexing.Literals
import Reckon.Proofs.Formatting
import Reckon.Proofs.Rendering
import Reckon.Proofs.Readback
import Reckon.Proofs.Rendering.Order
import Reckon.Proofs.Rendering.Canonical
import Reckon.Proofs.Decoding
import Reckon.Proofs.Paths
import Reckon.Proofs.Paths.Ancestors
import Reckon.Proofs.Files
import Reckon.Proofs.Files.Ways
import Reckon.Proofs.Files.Changes
import Reckon.Proofs.Files.Directories
import Reckon.Proofs.Ledger
import Reckon.Proofs.Ledger.Books
import Reckon.Proofs.Comments
import Reckon.Proofs.Comments.Filter
import Reckon.Proofs.Stages
import Reckon.Proofs.Processing
import Reckon.Proofs.Inputs
import Reckon.Proofs.Arguments
import Reckon.Proofs.DirectoryRun
import Reckon.Proofs.Rerun
import Reckon.Proofs.ExitStatus
import Reckon.Proofs.Isolation
