import Semidefinite.BlockCuts
import Semidefinite.CommandLine.Command
import Semidefinite.CommandLine.Destination
import Semidefinite.CommandLine.LogFilter
import Semidefinite.CommandLine.Parameter
import Semidefinite.CommandLine.Run
import Semidefinite.Decimal.Binary
import Semidefinite.Decimal.Fixed
import Semidefinite.Decimal.Layout
import Semidefinite.Decimal.Shortest
import Semidefinite.Export.Config
import Semidefinite.Export.Conic
import Semidefinite.Export.Sdpa
import Semidefinite.Expr.Basic
import Semidefinite.Expr.Polynomial
import Semidefinite.Expr.Terms
import Semidefinite.Expr.Text
import Semidefinite.Fault
import Semidefinite.Grid
import Semidefinite.LinearForm
import Semidefinite.Lmi.Basic
import Semidefinite.Lmi.Error
import Semidefinite.Lmi.Expanded
import Semidefinite.Lmi.Kind
import Semidefinite.Lmi.Latex
import Semidefinite.Lmi.Operand
import Semidefinite.Main
import Semidefinite.Objective
import Semidefinite.Pencil
import Semidefinite.Problem
import Semidefinite.Profile.Comparison
import Semidefinite.Profile.Recorder
import Semidefinite.Profile.Sample
import Semidefinite.Proofs.BlockCuts
import Semidefinite.Proofs.BlockLowering
import Semidefinite.Proofs.Blocks
import Semidefinite.Proofs.Comparison
import Semidefinite.Proofs.Cutting.Canonical
import Semidefinite.Proofs.Cutting.Lossless
import Semidefinite.Proofs.Cutting.Modes
import Semidefinite.Proofs.Cutting.Pattern
import Semidefinite.Proofs.Cutting.Splitting
import Semidefinite.Proofs.Cutting.WrittenOut
import Semidefinite.Proofs.Discovery
import Semidefinite.Proofs.DoubleOrder
import Semidefinite.Proofs.Doubles
import Semidefinite.Proofs.Export.Bounds
import Semidefinite.Proofs.Export.Comments
import Semidefinite.Proofs.Export.ConicForm
import Semidefinite.Proofs.Export.DenseRoundTrip
import Semidefinite.Proofs.Export.Entries
import Semidefinite.Proofs.Export.LineReader
import Semidefinite.Proofs.Export.Numbers
import Semidefinite.Proofs.Export.Sparse
import Semidefinite.Proofs.Export.SparseRoundTrip
import Semidefinite.Proofs.Expr.CanonicalForm
import Semidefinite.Proofs.Expr.Coefficients
import Semidefinite.Proofs.Expr.Expansion
import Semidefinite.Proofs.Expr.Exponents
import Semidefinite.Proofs.Expr.Flattening
import Semidefinite.Proofs.Expr.LikeTerms
import Semidefinite.Proofs.Expr.Merging
import Semidefinite.Proofs.Expr.Nonce
import Semidefinite.Proofs.Expr.NormalForm
import Semidefinite.Proofs.Expr.Occurrences
import Semidefinite.Proofs.Expr.Reading
import Semidefinite.Proofs.Expr.Value
import Semidefinite.Proofs.Expr.Zero
import Semidefinite.Proofs.Extraction
import Semidefinite.Proofs.Forms
import Semidefinite.Proofs.Freshness
import Semidefinite.Proofs.Grid
import Semidefinite.Proofs.InStep
import Semidefinite.Proofs.Layout
import Semidefinite.Proofs.LinearForm
import Semidefinite.Proofs.LinearMatrix
import Semidefinite.Proofs.Lmi.Canonical
import Semidefinite.Proofs.Lmi.Construction
import Semidefinite.Proofs.Lmi.Entries
import Semidefinite.Proofs.Lmi.Expansion
import Semidefinite.Proofs.Lmi.Limits
import Semidefinite.Proofs.Lmi.Operand
import Semidefinite.Proofs.Lmi.Reachable
import Semidefinite.Proofs.Lmi.Rewriting
import Semidefinite.Proofs.Lmi.Symbols
import Semidefinite.Proofs.Lmi.Symmetry
import Semidefinite.Proofs.Lowering
import Semidefinite.Proofs.Numerals
import Semidefinite.Proofs.Order
import Semidefinite.Proofs.Pencil
import Semidefinite.Proofs.Problem
import Semidefinite.Proofs.Profiling
import Semidefinite.Proofs.Readable
import Semidefinite.Proofs.Rebuilding
import Semidefinite.Proofs.Room
import Semidefinite.Proofs.Senses
import Semidefinite.Proofs.Storage.Agreement
import Semidefinite.Proofs.Storage.Backends
import Semidefinite.Proofs.Storage.Dense
import Semidefinite.Proofs.Storage.Entries
import Semidefinite.Proofs.Storage.Journal
import Semidefinite.Proofs.Storage.Listing
import Semidefinite.Proofs.Storage.RowLists
import Semidefinite.Proofs.Storage.Triplets
import Semidefinite.Proofs.Storage.Writes
import Semidefinite.Proofs.SymmetricBlocks
import Semidefinite.Proofs.Synthetic
import Semidefinite.Proofs.Tally
import Semidefinite.Proofs.Units
import Semidefinite.Scalar
import Semidefinite.Storage.Basic
import Semidefinite.Storage.Choice
import Semidefinite.Storage.Dense
import Semidefinite.Storage.RowLists
import Semidefinite.Storage.Triplets
import Semidefinite.SymMatrix
import Semidefinite.Symbol
import Semidefinite.Synthetic
import Semidefinite.Tally
import Semidefinite.Text.Blank
import Semidefinite.Text.Cut
import Semidefinite.Text.Json
import Semidefinite.Text.Letters
import Semidefinite.Text.Lines
import Semidefinite.Text.Pattern.CharacterClass
import Semidefinite.Text.Pattern.Check
import Semidefinite.Text.Pattern.Escape
import Semidefinite.Text.Pattern.Group
import Semidefinite.Text.Pattern.Mode
