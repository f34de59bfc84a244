import DecisionEngine.AttributeSet
import DecisionEngine.Binary64.Basic
import DecisionEngine.Binary64.Decimal
import DecisionEngine.Binary64.Nearest
import DecisionEngine.Binary64.Remainder
import DecisionEngine.Blueprint.Basic
import DecisionEngine.Blueprint.Decode
import DecisionEngine.Blueprint.Encode
import DecisionEngine.Bytes
import DecisionEngine.Catalog
import DecisionEngine.Compile.Compiler
import DecisionEngine.Compile.Contest
import DecisionEngine.Compile.CycleFinder
import DecisionEngine.Compile.Diagnostic
import DecisionEngine.Compile.Digraph
import DecisionEngine.Compile.DisjointSets
import DecisionEngine.Compile.Emission
import DecisionEngine.Compile.Expansion
import DecisionEngine.Compile.FlatGraph
import DecisionEngine.Compile.Lint
import DecisionEngine.Compile.NormalGraph
import DecisionEngine.Compile.Schedule
import DecisionEngine.Concurrency.FirstWriteMap
import DecisionEngine.Concurrency.SingleFlight
import DecisionEngine.Concurrency.WorkerPool
import DecisionEngine.Context.Resolver
import DecisionEngine.Context.SharedCache
import DecisionEngine.Context.Snapshot
import DecisionEngine.Decision.Basic
import DecisionEngine.Decision.Response
import DecisionEngine.Decision.Trail
import DecisionEngine.Document.Basic
import DecisionEngine.Document.Decision
import DecisionEngine.Document.Engine
import DecisionEngine.Document.Plan
import DecisionEngine.Engine.Answer
import DecisionEngine.Engine.Basic
import DecisionEngine.Engine.Execute
import DecisionEngine.Engine.Local
import DecisionEngine.Expr.Basic
import DecisionEngine.Expr.Grammar
import DecisionEngine.Expr.Token
import DecisionEngine.Graph.Draft
import DecisionEngine.Graph.Node
import DecisionEngine.Graph.Revision
import DecisionEngine.Hash.Fnv
import DecisionEngine.Hash.Sha256
import DecisionEngine.Keyed
import DecisionEngine.Mask
import DecisionEngine.Options
import DecisionEngine.OverrideToken
import DecisionEngine.Plan.Arbitration
import DecisionEngine.Plan.Execution
import DecisionEngine.Plan.Guardrails
import DecisionEngine.Program.Assembler
import DecisionEngine.Program.Basic
import DecisionEngine.Program.Listing
import DecisionEngine.Program.Machine
import DecisionEngine.Program.Operation
import DecisionEngine.Registry
import DecisionEngine.Service
import DecisionEngine.Trace.Decode
import DecisionEngine.Trace.Log
import DecisionEngine.Trace.Record
import DecisionEngine.Trace.Relay
import DecisionEngine.Value
import DecisionEngine.Warning
import DecisionEngine.Wire.Error
import DecisionEngine.Wire.Reader
import DecisionEngine.Wire.Writer
import DecisionEngine.Proofs.Program.Emission
import DecisionEngine.Proofs.Program.Blocks
import DecisionEngine.Proofs.Program.Conjunction
import DecisionEngine.Proofs.Engine.Calls
import DecisionEngine.Proofs.Engine.Isolation
import DecisionEngine.Proofs.Compile.Meaning
import DecisionEngine.Proofs.Compile.NormalForm
import DecisionEngine.Proofs.Compile.Stages
import DecisionEngine.Proofs.Compile.Kept
import DecisionEngine.Proofs.Compile.Grouping
import DecisionEngine.Proofs.Compile.Ordering
import DecisionEngine.Proofs.Expr.Literals
import DecisionEngine.Proofs.Plan.Arbitration
import DecisionEngine.Proofs.Program.Acceptance
import DecisionEngine.Proofs.Catalog.Masks
import DecisionEngine.Proofs.Compile.Guards
import DecisionEngine.Proofs.Compile.Emitted
import DecisionEngine.Proofs.Compile.Correctness
import DecisionEngine.Proofs.Wire.Items
import DecisionEngine.Proofs.Trace.RoundTrip
import DecisionEngine.Proofs.Plan.Parameters
import DecisionEngine.Proofs.Decision.Equivalence
import DecisionEngine.Proofs.Engine.History
import DecisionEngine.Proofs.Engine.Replay
import DecisionEngine.Proofs.Blueprint.RoundTrip
import DecisionEngine.Proofs.Compile.Acceptance
import DecisionEngine.Proofs.Compile.Catalogs
import DecisionEngine.Proofs.Names
import DecisionEngine.Proofs.Plan.Unplaced
import DecisionEngine.Proofs.Compile.Replacement
import DecisionEngine.Proofs.Compile.Thinning
import DecisionEngine.Proofs.Compile.Regrouping
import DecisionEngine.Proofs.Compile.Unobserved
import DecisionEngine.Proofs.Compile.Seamless
import DecisionEngine.Proofs.Plan.Vetoes
import DecisionEngine.Proofs.Plan.Totality
import DecisionEngine.Proofs.Compile.Vetted
import DecisionEngine.Proofs.Context.Archive
import DecisionEngine.Proofs.Engine.Degraded
import DecisionEngine.Proofs.Expr.Parts
import DecisionEngine.Proofs.Expr.Readers
import DecisionEngine.Proofs.Expr.References
import DecisionEngine.Proofs.Expr.Spelling
import DecisionEngine.Proofs.Expr.Rendering
import DecisionEngine.Proofs.Plan.Selection
import DecisionEngine.Proofs.Program.Tests
import DecisionEngine.Proofs.Compile.Layout
import DecisionEngine.Proofs.Wire.Refusals
import DecisionEngine.Proofs.Catalog.Labels
import DecisionEngine.Proofs.Blueprint.Refusals
import DecisionEngine.Proofs.Trace.Refusals
import DecisionEngine.Proofs.Program.Accesses
import DecisionEngine.Proofs.Blueprint.Indices
import DecisionEngine.Proofs.Plan.Incidents
import DecisionEngine.Proofs.Plan.Safety
import DecisionEngine.Proofs.OverrideToken.Digits
import DecisionEngine.Proofs.OverrideToken.Verification
import DecisionEngine.Proofs.Expr.Results
import DecisionEngine.Proofs.Expr.Derivations
import DecisionEngine.Proofs.Expr.Recognition
import DecisionEngine.Proofs.Expr.Positions
import DecisionEngine.Proofs.Trace.Fidelity
import DecisionEngine.Proofs.Trace.Files
import DecisionEngine.Proofs.Wire.Prefixes
import DecisionEngine.Proofs.Wire.Buffer
import DecisionEngine.Proofs.Wire.Sequences
import DecisionEngine.Proofs.Wire.Complete
import DecisionEngine.Proofs.Options.RoundTrip
import DecisionEngine.Proofs.Engine.Copies
import DecisionEngine.Proofs.Plan.Explanations
import DecisionEngine.Proofs.Engine.Explanations
import DecisionEngine.Proofs.Registry.Repository
import DecisionEngine.Proofs.Registry.ActiveMap
import DecisionEngine.Proofs.Engine.Warmth
import DecisionEngine.Proofs.Compile.Shape
import DecisionEngine.Proofs.Compile.Canonical
import DecisionEngine.Proofs.Compile.Declarations
import DecisionEngine.Proofs.Compile.Reordering
import DecisionEngine.Proofs.Catalog.Fingerprints
import DecisionEngine.Proofs.Compile.Priorities
import DecisionEngine.Proofs.Plan.Entries
import DecisionEngine.Proofs.Engine.Overrides
import DecisionEngine.Proofs.Program.Folding
import DecisionEngine.Proofs.Compile.Hopeless
import DecisionEngine.Proofs.Plan.Losers
import DecisionEngine.Proofs.Plan.Frame
import DecisionEngine.Proofs.Compile.Mandated
import DecisionEngine.Proofs.Plan.Accounts
import DecisionEngine.Proofs.Engine.Accounts
import DecisionEngine.Proofs.Wire.Lengths
import DecisionEngine.Proofs.Trace.Lookups
import DecisionEngine.Proofs.Wire.Trees
import DecisionEngine.Proofs.Compile.Removal
import DecisionEngine.Proofs.Program.Discipline
import DecisionEngine.Proofs.Compile.Cycles
import DecisionEngine.Proofs.Engine.Queue
import DecisionEngine.Proofs.Graph.Consistency
import DecisionEngine.Proofs.Compile.Components
import DecisionEngine.Proofs.Compile.Expansion
import DecisionEngine.Proofs.Attributes.Histories
import DecisionEngine.Proofs.Concurrency.FirstWrites
import DecisionEngine.Proofs.Program.Refused
