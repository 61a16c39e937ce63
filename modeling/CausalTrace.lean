import CausalTrace.Advice
import CausalTrace.Baggage.Bag
import CausalTrace.Baggage.Basic
import CausalTrace.Baggage.Groups
import CausalTrace.Baggage.Wire
import CausalTrace.Command
import CausalTrace.Config
import CausalTrace.Emit
import CausalTrace.Engine
import CausalTrace.Error
import CausalTrace.Json.Basic
import CausalTrace.Json.Decode
import CausalTrace.Json.Lexer
import CausalTrace.Json.Number
import CausalTrace.Json.Parser
import CausalTrace.Main
import CausalTrace.Metrics
import CausalTrace.Number.Binary
import CausalTrace.Number.Literal
import CausalTrace.Number.Notation
import CausalTrace.Number.Numeral
import CausalTrace.Number.Reader
import CausalTrace.Number.Shortest
import CausalTrace.Proofs.Appending
import CausalTrace.Proofs.Bags
import CausalTrace.Proofs.Bindings
import CausalTrace.Proofs.Building
import CausalTrace.Proofs.Correctness
import CausalTrace.Proofs.Delivery
import CausalTrace.Proofs.Deployment
import CausalTrace.Proofs.Grouping
import CausalTrace.Proofs.Installing
import CausalTrace.Proofs.Interpreter
import CausalTrace.Proofs.Naming
import CausalTrace.Proofs.Passing
import CausalTrace.Proofs.Plans
import CausalTrace.Proofs.Replay
import CausalTrace.Proofs.Resolving
import CausalTrace.Proofs.Scope
import CausalTrace.Proofs.Stages
import CausalTrace.Proofs.Steps
import CausalTrace.Proofs.Table
import CausalTrace.Proofs.Trees
import CausalTrace.Proofs.WellFormed
import CausalTrace.Query.Basic
import CausalTrace.Query.Build
import CausalTrace.Query.Compile
import CausalTrace.Query.Explain
import CausalTrace.Query.Grammar
import CausalTrace.Query.Name
import CausalTrace.Query.Optimize
import CausalTrace.Query.Resolve
import CausalTrace.Query.Tracepoint
import CausalTrace.Query.Variable
import CausalTrace.Spec.Advice
import CausalTrace.Spec.Id
import CausalTrace.Spec.Json
import CausalTrace.Spec.Kind
import CausalTrace.Table
import CausalTrace.Template
import CausalTrace.Template.Eval
import CausalTrace.Template.Expr
import CausalTrace.Template.Lexer
import CausalTrace.Template.Parser
import CausalTrace.Template.Token
import CausalTrace.Text.Blank
import CausalTrace.Text.Extending
import CausalTrace.Text.Quoted
import CausalTrace.Text.Ranges
import CausalTrace.Text.Unassigned
import CausalTrace.Value
import CausalTrace.Value.Json
import CausalTrace.Proofs.Installable
import CausalTrace.Proofs.Supply
import CausalTrace.Proofs.PushDown
import CausalTrace.Proofs.Moving
import CausalTrace.Proofs.Pushed
import CausalTrace.Proofs.Fresh
import CausalTrace.Proofs.Sound
import CausalTrace.Proofs.Sharing
import CausalTrace.Proofs.Optimizing
import CausalTrace.Proofs.Settled
import CausalTrace.Proofs.Settling
import CausalTrace.Proofs.Closed
import CausalTrace.Proofs.Compilable
import CausalTrace.Proofs.Idempotence
import CausalTrace.Proofs.Generations
import CausalTrace.Proofs.Branching
import CausalTrace.Proofs.Tallies
import CausalTrace.Proofs.Gathering
import CausalTrace.Proofs.Merging
import CausalTrace.Proofs.Histories
import CausalTrace.Proofs.Filtering
import CausalTrace.Proofs.Numerals
import CausalTrace.Proofs.Documents
import CausalTrace.Proofs.Wire
import CausalTrace.Proofs.Sending
import CausalTrace.Proofs.Answering
import CausalTrace.Proofs.Sources
import CausalTrace.Proofs.Handover
import CausalTrace.Proofs.Neat
import CausalTrace.Proofs.Resolvable
import CausalTrace.Proofs.Narrowing
import CausalTrace.Proofs.Pruning
import CausalTrace.Proofs.Floats
import CausalTrace.Proofs.Reachable
import CausalTrace.Proofs.Bookkeeping
import CausalTrace.Proofs.Footprints
import CausalTrace.Proofs.Unwinding
import CausalTrace.Proofs.Isolation
import CausalTrace.Proofs.Precedence
import CausalTrace.Proofs.Codecs
import CausalTrace.Proofs.Layout
import CausalTrace.Proofs.Script
import CausalTrace.Proofs.Reading
import CausalTrace.Proofs.Rewording
import CausalTrace.Proofs.HappenedBefore
import CausalTrace.Proofs.NestedLoops
import CausalTrace.Proofs.Changes
import CausalTrace.Proofs.Copies
import CausalTrace.Proofs.Legible
import CausalTrace.Proofs.Declaring
import CausalTrace.Proofs.Lasting
import CausalTrace.Proofs.Confined
import CausalTrace.Proofs.Renaming
import CausalTrace.Proofs.Recompiling
import CausalTrace.Proofs.Instances
import CausalTrace.Proofs.Incremental
import CausalTrace.Proofs.Relocating
import CausalTrace.Proofs.Conservation
import CausalTrace.Proofs.Undisturbed
import CausalTrace.Proofs.Addressing
import CausalTrace.Proofs.Placeholders
import CausalTrace.Proofs.Quoting
import CausalTrace.Proofs.Slots
import CausalTrace.Proofs.Scoping
import CausalTrace.Proofs.Effects
import CausalTrace.Proofs.Sequencing
import CausalTrace.Proofs.Arithmetic
import CausalTrace.Proofs.Spelling
import CausalTrace.Proofs.Rounding
import CausalTrace.Proofs.IntegerFloats
import CausalTrace.Proofs.Comparing
import CausalTrace.Proofs.Expanding
import CausalTrace.Proofs.Registry
import CausalTrace.Proofs.Weighing
import CausalTrace.Proofs.Products
import CausalTrace.Proofs.Counting
import CausalTrace.Proofs.Meetings
import CausalTrace.Proofs.Collapsing
import CausalTrace.Proofs.Tallying
import CausalTrace.Proofs.Matching
import CausalTrace.Proofs.Recounting
import CausalTrace.Proofs.CountingMoves
import CausalTrace.Proofs.SharingCounts
import CausalTrace.Proofs.Counted
import CausalTrace.Proofs.Collecting
