import DecisionEngine.Graph.Revision
import DecisionEngine.Hash.Fnv
import DecisionEngine.Program.Basic
/-!
# Blueprints

A blueprint is the plan that a revision is compiled to: steps in an order in which everything a
step depends on comes before it. Nodes are addressed by their number in the plan. A blueprint is
identified by the graph, the version and the hash of its bytes.
-/

namespace DecisionEngine

/-- What a blueprint is known by. -/
structure BlueprintId where
  graph : Bytes
  version : UInt64
  contentHash : UInt64
  deriving DecidableEq, Inhabited

namespace BlueprintId

/-- The id of no blueprint. -/
def blank : BlueprintId := ⟨[], 0, 0⟩

/-- The id as text. -/
def toText (id : BlueprintId) : Bytes :=
  id.graph ++ utf8 "@" ++ Bytes.decimal id.version.toNat ++ utf8 "#" ++
    Bytes.hexWord id.contentHash

/-- The order of ids: by graph, version and hash. -/
def before (a b : BlueprintId) : Bool :=
  decide (a.graph < b.graph) || (a.graph == b.graph && (decide (a.version < b.version) ||
    (a.version == b.version && decide (a.contentHash < b.contentHash))))

/-- The hash of an id. -/
def hash (id : BlueprintId) : UInt64 :=
  Fnv.hash id.graph ^^^ (id.version * Fnv.prime) ^^^ id.contentHash

end BlueprintId

/-- The test of a step. The mask holds the labels that have a bit in the catalog and is tested
first; the program tests everything else. -/
structure Guard where
  mask : Mask
  program : Program
  labels : List Bytes
  source : Bytes
  deriving DecidableEq

/-- A node of a plan. -/
structure PlanNode where
  id : Bytes
  kind : NodeKind
  label : Bytes
  deriving DecidableEq

/-- A candidate of a selection. -/
structure Branch where
  node : Nat
  guard : Guard
  priority : Int32
  weight : Binary64
  outcome : Option Outcome
  order : UInt32
  deriving DecidableEq

/-- A selection between rules that exclude one another. `dominates` lists winners with losers. -/
structure Selector where
  group : Bytes
  policy : SelectionPolicy
  comparator : Bytes
  branches : List Branch
  dominates : List (Nat × Nat)
  deriving DecidableEq

/-- A step of a plan: a rule without outcome, an action, or a selection. -/
inductive Step
  | sequential (node : Nat) (guard : Guard)
  | task (node : Nat) (guard : Guard) (outcome : Outcome)
  | selector (s : Selector)
  deriving DecidableEq

/-- A guardrail of a plan. -/
structure PlanGuardrail where
  id : Bytes
  description : Bytes
  mode : GuardrailMode
  appliesTo : List Bytes
  violation : Program
  violationSource : Bytes
  fallback : VetoFallback
  capParam : Bytes
  capValue : Value
  defaultOutcome : Outcome
  deriving DecidableEq

/-- A compiled plan with its bytes. -/
structure Blueprint where
  id : BlueprintId
  tenant : Bytes
  decisionType : Bytes
  catalog : Catalog
  symbols : SymbolTable
  nodes : List PlanNode
  steps : List Step
  guardrails : List PlanGuardrail
  encoded : Bytes
  deriving DecidableEq

/-- The name of the kind of a step. -/
def Step.kindName : Step → Bytes
  | sequential _ _ => utf8 "sequential"
  | task _ _ _ => utf8 "task"
  | selector _ => utf8 "selector"

/-- The guards of a step. -/
def Step.guards : Step → List Guard
  | sequential _ g => [g]
  | task _ g _ => [g]
  | selector s => s.branches.map (·.guard)

namespace Blueprint

/-- The number of a node. -/
def nodeIndex? (b : Blueprint) (id : Bytes) : Option Nat := b.nodes.findIdx? (·.id == id)

/-- The id of the node of a number. -/
def nodeId? (b : Blueprint) (index : Nat) : Option Bytes := (b.nodes[index]?).map (·.id)

end Blueprint
end DecisionEngine
