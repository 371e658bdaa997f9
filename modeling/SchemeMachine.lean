import SchemeMachine.Closure
import SchemeMachine.CommandLine
import SchemeMachine.CommandLine.Arguments
import SchemeMachine.CommandLine.Help
import SchemeMachine.Compilation
import SchemeMachine.Config
import SchemeMachine.Decimal.Notation
import SchemeMachine.Decimal.Shortest
import SchemeMachine.Digest
import SchemeMachine.FileTree
import SchemeMachine.Form
import SchemeMachine.Grammar
import SchemeMachine.Heap
import SchemeMachine.Instruction
import SchemeMachine.Json
import SchemeMachine.Json.Reader
import SchemeMachine.Json.Spelling
import SchemeMachine.Machine
import SchemeMachine.Machine.Environment
import SchemeMachine.Machine.Primitive
import SchemeMachine.Machine.Step
import SchemeMachine.Main
import SchemeMachine.Module
import SchemeMachine.Native
import SchemeMachine.Path
import SchemeMachine.Program
import SchemeMachine.Program.Json
import SchemeMachine.Program.Lowering
import SchemeMachine.Scheduler
import SchemeMachine.Span
import SchemeMachine.Table
import SchemeMachine.Text.Alphanumeric
import SchemeMachine.Text.Blank
import SchemeMachine.Text.Case
import SchemeMachine.Text.Quoted
import SchemeMachine.Text.Ranges
import SchemeMachine.Token
import SchemeMachine.Token.Lexer
import SchemeMachine.Toml
import SchemeMachine.Toml.Reader
import SchemeMachine.Tree
import SchemeMachine.Tree.Render
import SchemeMachine.Tree.Scope
import SchemeMachine.Tree.TailCall
import SchemeMachine.Value
import SchemeMachine.Proofs.Alike
import SchemeMachine.Proofs.Alike.Heap
import SchemeMachine.Proofs.Alike.Machine
import SchemeMachine.Proofs.Alike.Step
import SchemeMachine.Proofs.Balance
import SchemeMachine.Proofs.Closed
import SchemeMachine.Proofs.Collection
import SchemeMachine.Proofs.Confinement
import SchemeMachine.Proofs.Connective
import SchemeMachine.Proofs.Continuation
import SchemeMachine.Proofs.Delivery
import SchemeMachine.Proofs.Fork
import SchemeMachine.Proofs.Heap
import SchemeMachine.Proofs.Heap.Change
import SchemeMachine.Proofs.Heap.Datum
import SchemeMachine.Proofs.Heap.Marking
import SchemeMachine.Proofs.Heap.Upkeep
import SchemeMachine.Proofs.Hygiene
import SchemeMachine.Proofs.Invisibility
import SchemeMachine.Proofs.Json.Document
import SchemeMachine.Proofs.Json.Program
import SchemeMachine.Proofs.Layout
import SchemeMachine.Proofs.Layout.Compiled
import SchemeMachine.Proofs.Layout.Flow
import SchemeMachine.Proofs.Layout.Occurrence
import SchemeMachine.Proofs.Lineage
import SchemeMachine.Proofs.Listing.Compiled
import SchemeMachine.Proofs.Listing.Program
import SchemeMachine.Proofs.Lookup
import SchemeMachine.Proofs.Lowering.Blame
import SchemeMachine.Proofs.Lowering.Compiled
import SchemeMachine.Proofs.Lowering.Numbering
import SchemeMachine.Proofs.Lowering.Relation
import SchemeMachine.Proofs.Lowering.Spec
import SchemeMachine.Proofs.Meaning.Application
import SchemeMachine.Proofs.Meaning.Environment
import SchemeMachine.Proofs.Meaning.Evaluator
import SchemeMachine.Proofs.Meaning.Expression
import SchemeMachine.Proofs.Meaning.Operation
import SchemeMachine.Proofs.Meaning.Program
import SchemeMachine.Proofs.Meaning.Sequence
import SchemeMachine.Proofs.Meaning.Simulation
import SchemeMachine.Proofs.Meaning.Translation
import SchemeMachine.Proofs.Meaning.World
import SchemeMachine.Proofs.Module.Cycle
import SchemeMachine.Proofs.Module.Discovery
import SchemeMachine.Proofs.Module.FirstImport
import SchemeMachine.Proofs.Module.InMemory
import SchemeMachine.Proofs.Module.Linking
import SchemeMachine.Proofs.Module.OnDisk
import SchemeMachine.Proofs.Module.Order
import SchemeMachine.Proofs.Module.Scoping
import SchemeMachine.Proofs.Move
import SchemeMachine.Proofs.Names
import SchemeMachine.Proofs.Natives
import SchemeMachine.Proofs.Number.Sign
import SchemeMachine.Proofs.Operands.Application
import SchemeMachine.Proofs.Operands.Keeping
import SchemeMachine.Proofs.Operands.Move
import SchemeMachine.Proofs.Retention
import SchemeMachine.Proofs.Run
import SchemeMachine.Proofs.Scheduler.Custody
import SchemeMachine.Proofs.Scheduler.Isolation
import SchemeMachine.Proofs.Scheduler.Turn
import SchemeMachine.Proofs.Sound
import SchemeMachine.Proofs.Sound.Call
import SchemeMachine.Proofs.Sound.Collection
import SchemeMachine.Proofs.Sound.Environment
import SchemeMachine.Proofs.Sound.Heap
import SchemeMachine.Proofs.Sound.Move
import SchemeMachine.Proofs.Sound.Step
import SchemeMachine.Proofs.Steady
import SchemeMachine.Proofs.Syntax.Abbreviation
import SchemeMachine.Proofs.Syntax.Analysis
import SchemeMachine.Proofs.Syntax.Building
import SchemeMachine.Proofs.Syntax.Concatenation
import SchemeMachine.Proofs.Syntax.Depth
import SchemeMachine.Proofs.Syntax.Grafting
import SchemeMachine.Proofs.Syntax.Grammar
import SchemeMachine.Proofs.Syntax.Hole
import SchemeMachine.Proofs.Syntax.Initial
import SchemeMachine.Proofs.Syntax.Joining
import SchemeMachine.Proofs.Syntax.Lexical
import SchemeMachine.Proofs.Syntax.Lexing
import SchemeMachine.Proofs.Syntax.Placement
import SchemeMachine.Proofs.Syntax.Reading
import SchemeMachine.Proofs.Syntax.Rereading
import SchemeMachine.Proofs.Syntax.Resolution
import SchemeMachine.Proofs.Syntax.Respelling
import SchemeMachine.Proofs.Syntax.Rooting
import SchemeMachine.Proofs.Syntax.Scope
import SchemeMachine.Proofs.Syntax.Shift
import SchemeMachine.Proofs.Syntax.Sketch
import SchemeMachine.Proofs.Syntax.Spelling
import SchemeMachine.Proofs.Syntax.StringLiteral
import SchemeMachine.Proofs.Syntax.TailCall
import SchemeMachine.Proofs.Syntax.Term
import SchemeMachine.Proofs.Syntax.Tiling
import SchemeMachine.Proofs.Syntax.Unfolding
import SchemeMachine.Proofs.Table
import SchemeMachine.Proofs.TailCall.Code
import SchemeMachine.Proofs.TailCall.Elimination
import SchemeMachine.Proofs.TailCall.Lowering
import SchemeMachine.Proofs.TailCall.Matching
import SchemeMachine.Proofs.TailCall.Thinning
import SchemeMachine.Proofs.Template
import SchemeMachine.Proofs.Trees
import SchemeMachine.Proofs.Variable
import SchemeMachine.Proofs.Watchdog
