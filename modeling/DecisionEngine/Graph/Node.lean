import DecisionEngine.AttributeSet
/-!
# Nodes and edges of a rule graph

Rules are authored as a graph. Decisions are where a plan is entered, evaluators are intermediate
rules, actions have an outcome, and composites put a condition on all their members. Edges say
what depends on what and which rules compete.
-/

namespace DecisionEngine

/-! ## Nodes -/

/-- The kinds of nodes. -/
inductive NodeKind
  | decision
  | evaluator
  | action
  | composite
  deriving DecidableEq, Inhabited

/-- The kinds in the order of their numbers. -/
def NodeKind.all : List NodeKind := [.decision, .evaluator, .action, .composite]

/-- The name of a kind. -/
def NodeKind.name : NodeKind → Bytes
  | .decision => utf8 "Decision"
  | .evaluator => utf8 "Evaluator"
  | .action => utf8 "Action"
  | .composite => utf8 "Composite"

/-- When a rule may fire: all labels hold, and the expression, unless it is empty, is true. -/
structure Condition where
  labels : List Bytes
  expression : Bytes
  deriving DecidableEq

/-- Whether a condition asks for nothing. -/
def Condition.isEmpty (c : Condition) : Bool := c.labels.isEmpty && c.expression.isEmpty

/-- What an action does. -/
structure Outcome where
  action : Bytes
  params : AttributeSet
  deriving DecidableEq, Inhabited

/-- The outcome without an action. -/
def Outcome.none : Outcome := ⟨[], .empty⟩

/-- The same action with the same parameters. -/
def Outcome.same (a b : Outcome) : Bool := a.action == b.action && a.params.same b.params

/-- What belongs to the kind of a node. -/
inductive NodeBody
  | decision (condition : Condition)
  | evaluator (condition : Condition)
  | action (condition : Condition) (outcome : Outcome)
  | composite (condition : Condition) (members : List Bytes)
  deriving DecidableEq

namespace NodeBody

/-- The kind of node. -/
def kind : NodeBody → NodeKind
  | decision _ => .decision
  | evaluator _ => .evaluator
  | action _ _ => .action
  | composite _ _ => .composite

/-- The condition on the node. -/
def condition : NodeBody → Condition
  | decision c => c
  | evaluator c => c
  | action c _ => c
  | composite c _ => c

/-- The outcome of an action. -/
def outcome? : NodeBody → Option Outcome
  | action _ o => some o
  | _ => none

/-- The members of a composite; other nodes have none. -/
def members : NodeBody → List Bytes
  | composite _ ms => ms
  | _ => []

/-- The same kind with the same content; parameters of an outcome compare as rules see them. -/
def same : NodeBody → NodeBody → Bool
  | action c o, action c' o' => c == c' && o.same o'
  | a, b => a == b

end NodeBody

/-- A rule. -/
structure Node where
  id : Bytes
  label : Bytes
  priority : Int32
  weight : Binary64
  body : NodeBody
  deriving DecidableEq

namespace Node

/-- The kind of node. -/
def kind (n : Node) : NodeKind := n.body.kind

/-- The condition on the node. -/
def condition (n : Node) : Condition := n.body.condition

/-- Whether the node is a composite. -/
def isComposite (n : Node) : Bool := n.kind == .composite

/-- The same node. Weights and parameters compare as rules see them, so a node whose weight is not
a number is not the same as itself. -/
def same (a b : Node) : Bool :=
  a.id == b.id && a.label == b.label && a.priority == b.priority && a.weight.same b.weight &&
    a.body.same b.body

end Node

/-! ## Edges -/

/-- The kinds of edges. A node *requires* another one that has to have fired before it; it *flows
to* a node that is reached through it; it *excludes* a node of which at most one may fire; it
*dominates* a candidate that loses against it; and it *neutralizes* a node that must not fire
after it. -/
inductive EdgeKind
  | requires
  | flowsTo
  | excludes
  | dominates
  | neutralizes
  deriving DecidableEq

namespace EdgeKind

/-- The place of a kind in the order of edges. -/
def rank : EdgeKind → Nat
  | requires => 0
  | flowsTo => 1
  | excludes => 2
  | dominates => 3
  | neutralizes => 4

/-- The name of a kind. -/
def name : EdgeKind → Bytes
  | requires => utf8 "REQUIRES"
  | flowsTo => utf8 "FLOWS_TO"
  | excludes => utf8 "EXCLUDES"
  | dominates => utf8 "DOMINATES"
  | neutralizes => utf8 "NEUTRALIZES"

end EdgeKind

/-- An edge between two nodes, given by their ids. -/
structure Edge where
  source : Bytes
  kind : EdgeKind
  target : Bytes
  deriving DecidableEq

namespace Edge

/-- The text that names an edge. -/
def id (e : Edge) : Bytes := e.source ++ utf8 "-" ++ e.kind.name ++ utf8 "->" ++ e.target

/-- The order of edges: by source, kind and target. -/
def before (a b : Edge) : Bool :=
  decide (a.source < b.source) || (a.source == b.source &&
    (decide (a.kind.rank < b.kind.rank) || (a.kind == b.kind && decide (a.target < b.target))))

/-- The edges in their order, each once. -/
def sortedDistinct (edges : List Edge) : List Edge :=
  (edges.mergeSort fun a b => !b.before a).eraseDups

/-- The ids of the node that has to come first and of the one that has to come later, for the
kinds that put nodes in order. -/
def ordering? (e : Edge) : Option (Bytes × Bytes) :=
  match e.kind with
  | .requires => some (e.target, e.source)
  | .flowsTo => some (e.source, e.target)
  | .neutralizes => some (e.source, e.target)
  | .excludes => none
  | .dominates => none

end Edge
end DecisionEngine
