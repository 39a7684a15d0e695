import BlockLang.Analysis
import BlockLang.Assembly.Basic
import BlockLang.Assembly.Instr
import BlockLang.Assembly.Label
import BlockLang.Assembly.Register
import BlockLang.Assembly.Reserved
import BlockLang.Compile
import BlockLang.Diagnostic.Basic
import BlockLang.Diagnostic.Emit
import BlockLang.Diagnostic.Problem
import BlockLang.Event
import BlockLang.Expr.Basic
import BlockLang.Expr.Constant
import BlockLang.Expr.Typing
import BlockLang.Frame
import BlockLang.Lowering.Basic
import BlockLang.Lowering.Block
import BlockLang.Lowering.Error
import BlockLang.Lowering.Expr
import BlockLang.Lowering.Program
import BlockLang.Operator
import BlockLang.Options
import BlockLang.Pos
import BlockLang.Program.Basic
import BlockLang.Program.Flow
import BlockLang.Program.Printer
import BlockLang.Proofs.Analysis.Acceptance
import BlockLang.Proofs.Analysis.Inference
import BlockLang.Proofs.Analysis.Initialization
import BlockLang.Proofs.Analysis.Inventory
import BlockLang.Proofs.Analysis.Marks
import BlockLang.Proofs.Analysis.Origin
import BlockLang.Proofs.Analysis.Plan
import BlockLang.Proofs.Analysis.Programs
import BlockLang.Proofs.Analysis.Quotients
import BlockLang.Proofs.Analysis.Session
import BlockLang.Proofs.Analysis.Shape
import BlockLang.Proofs.Analysis.Statements
import BlockLang.Proofs.Analysis.Trace
import BlockLang.Proofs.Analysis.Tracking
import BlockLang.Proofs.Analysis.Values
import BlockLang.Proofs.Analysis.Visits
import BlockLang.Proofs.Arena.Invariant
import BlockLang.Proofs.Arena.Outline
import BlockLang.Proofs.Arena.Stack
import BlockLang.Proofs.Arena.Tree
import BlockLang.Proofs.Assembly.Reserved
import BlockLang.Proofs.Assembly.Text
import BlockLang.Proofs.Correctness.Blocks
import BlockLang.Proofs.Correctness.Calls
import BlockLang.Proofs.Correctness.Expressions
import BlockLang.Proofs.Correctness.Failures
import BlockLang.Proofs.Correctness.Folding
import BlockLang.Proofs.Correctness.Frame
import BlockLang.Proofs.Correctness.Operators
import BlockLang.Proofs.Correctness.Outcomes
import BlockLang.Proofs.Correctness.Programs
import BlockLang.Proofs.Correctness.Reduction
import BlockLang.Proofs.Correctness.Statements
import BlockLang.Proofs.Correctness.Traps
import BlockLang.Proofs.Diagnostic.Emission
import BlockLang.Proofs.Lowering.Blocks
import BlockLang.Proofs.Lowering.Capture
import BlockLang.Proofs.Lowering.Collisions
import BlockLang.Proofs.Lowering.Division
import BlockLang.Proofs.Lowering.FrameLayout
import BlockLang.Proofs.Lowering.Labels
import BlockLang.Proofs.Lowering.Layout
import BlockLang.Proofs.Lowering.Numbering
import BlockLang.Proofs.Lowering.Placement
import BlockLang.Proofs.Lowering.Presentation
import BlockLang.Proofs.Lowering.Reassembly
import BlockLang.Proofs.Lowering.Repeat
import BlockLang.Proofs.Lowering.Replay
import BlockLang.Proofs.Lowering.Returns
import BlockLang.Proofs.Lowering.Rounding
import BlockLang.Proofs.Lowering.Safety
import BlockLang.Proofs.Lowering.Settle
import BlockLang.Proofs.Lowering.Steps
import BlockLang.Proofs.Lowering.Totality
import BlockLang.Proofs.Lowering.Untracked
import BlockLang.Proofs.Machine.Basic
import BlockLang.Proofs.Machine.Data
import BlockLang.Proofs.Machine.Execution
import BlockLang.Proofs.Machine.Memory
import BlockLang.Proofs.Machine.Outcome
import BlockLang.Proofs.Numeral
import BlockLang.Proofs.Printing.Expressions
import BlockLang.Proofs.Printing.Programs
import BlockLang.Proofs.Relabeling.Analysis
import BlockLang.Proofs.Relabeling.Basic
import BlockLang.Proofs.Relabeling.Code
import BlockLang.Proofs.Relabeling.Programs
import BlockLang.Proofs.Resolution.Analysis
import BlockLang.Proofs.Resolution.Programs
import BlockLang.Proofs.Resolution.Walk
import BlockLang.Proofs.Scope.Inventory
import BlockLang.Proofs.Scope.Map
import BlockLang.Proofs.Scope.Nest
import BlockLang.Proofs.Scope.Numbering
import BlockLang.Proofs.Scope.Revisit
import BlockLang.Proofs.Scope.Rows
import BlockLang.Proofs.Scope.View
import BlockLang.Proofs.Semantics.Interpreter
import BlockLang.Proofs.Semantics.StraightLine
import BlockLang.Proofs.Semantics.Trial
import BlockLang.Proofs.Static.Constant
import BlockLang.Proofs.Static.Rules
import BlockLang.Proofs.Static.Typing
import BlockLang.Scope.Arena
import BlockLang.Scope.Basic
import BlockLang.Scope.Listing
import BlockLang.Scope.Replay
import BlockLang.Session
import BlockLang.Symbol.Basic
import BlockLang.Symbol.Table
import BlockLang.Ty
import BlockLang.Value
