import Indicial.Cache.Basic
import Indicial.Cache.Digest
import Indicial.Catalog
import Indicial.Command.Basic
import Indicial.Command.Files
import Indicial.Command.Flags
import Indicial.Command.Suggestion
import Indicial.Compile
import Indicial.Coord
import Indicial.Engine.Arena
import Indicial.Engine.Basic
import Indicial.Engine.Constants
import Indicial.Engine.Report
import Indicial.Engine.Sample
import Indicial.EquationSystem
import Indicial.Error
import Indicial.Expr.Basic
import Indicial.Expr.Build
import Indicial.Expr.Component
import Indicial.Expr.Derivative
import Indicial.Expr.Parser
import Indicial.Expr.Simplify
import Indicial.Fault
import Indicial.Func
import Indicial.Index
import Indicial.Kind
import Indicial.Layout
import Indicial.Literal
import Indicial.Log
import Indicial.Main
import Indicial.Model.Basic
import Indicial.Model.Document
import Indicial.Number.Binary64
import Indicial.Number.Decimal
import Indicial.Number.Exponential
import Indicial.Number.Power
import Indicial.Number.Reader
import Indicial.Number.Rounding
import Indicial.Number.Word
import Indicial.Odometer
import Indicial.Plan.Basic
import Indicial.Plan.Run
import Indicial.Program.Basic
import Indicial.Program.Checksum
import Indicial.Program.Codec
import Indicial.Program.Edit
import Indicial.Program.Printer
import Indicial.Proofs.Cache.Key
import Indicial.Proofs.Cache.Store
import Indicial.Proofs.Catalog.Order
import Indicial.Proofs.Compile
import Indicial.Proofs.Compile.Portable
import Indicial.Proofs.Compile.Runnable
import Indicial.Proofs.Compile.Valid
import Indicial.Proofs.Compile.Value
import Indicial.Proofs.ComponentMap
import Indicial.Proofs.Engine.Actions
import Indicial.Proofs.Engine.Batch
import Indicial.Proofs.Engine.Chunks
import Indicial.Proofs.Engine.Constants
import Indicial.Proofs.Engine.Correct
import Indicial.Proofs.Engine.Parallel
import Indicial.Proofs.Engine.Room
import Indicial.Proofs.Engine.Safety
import Indicial.Proofs.Expr.Calculus
import Indicial.Proofs.Expr.Closed
import Indicial.Proofs.Expr.Derives
import Indicial.Proofs.Expr.Differential
import Indicial.Proofs.Expr.Exact
import Indicial.Proofs.Expr.Expand
import Indicial.Proofs.Expr.FreeLabels
import Indicial.Proofs.Expr.Lawful
import Indicial.Proofs.Expr.NormalForm
import Indicial.Proofs.Expr.Reads
import Indicial.Proofs.Expr.Recognition
import Indicial.Proofs.Expr.Recursion
import Indicial.Proofs.Expr.Reduction
import Indicial.Proofs.Expr.Rename
import Indicial.Proofs.Expr.Rewrite
import Indicial.Proofs.Expr.Scalars
import Indicial.Proofs.Expr.Simplify
import Indicial.Proofs.Expr.Symmetrize
import Indicial.Proofs.Expr.Value
import Indicial.Proofs.Expr.WellFormed
import Indicial.Proofs.Index
import Indicial.Proofs.Odometer
import Indicial.Proofs.Odometer.Count
import Indicial.Proofs.Outcome
import Indicial.Proofs.PermutationSign
import Indicial.Proofs.Plan.Contraction
import Indicial.Proofs.Plan.Epsilon
import Indicial.Proofs.Plan.Exact
import Indicial.Proofs.Plan.Storage
import Indicial.Proofs.Plan.Value
import Indicial.Proofs.Program.Codec
import Indicial.Proofs.Program.Corruption
import Indicial.Proofs.Program.Coverage
import Indicial.Proofs.Program.RoundTrip
import Indicial.Proofs.Tree.Faithful
import Indicial.Proofs.Tree.Postorder
import Indicial.Proofs.Valuation
import Indicial.Rows
import Indicial.Tensor
import Indicial.Text.Bytes
import Indicial.Text.Printable
import Indicial.Text.Quoted
import Indicial.Text.Utf8
import Indicial.Tree.Basic
import Indicial.Tree.Flatten
import Indicial.Yaml.Basic
import Indicial.Yaml.Character
import Indicial.Yaml.Cursor
import Indicial.Yaml.Parser
import Indicial.Yaml.Scalar
import Indicial.Yaml.Scanner
import Indicial.Yaml.Token
import Indicial.Yaml.Value
