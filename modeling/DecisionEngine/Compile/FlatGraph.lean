import DecisionEngine.Compile.Lint
import DecisionEngine.Program.Machine
/-!
# Graphs without composites

A composite puts its condition on everything inside it. In a flat graph every leaf carries the
conditions of all composites around it and its own, and edges join leaves only. Leaves that no
plan can reach or fire are dropped:

* leaves that no decision leads to over `flowsTo` and `requires`, if asked for;
* leaves whose labels contradict each other or that have an expression which is always false;
* leaves that require a dropped one, and leaves all of whose predecessors were dropped.

`FlatGraph.ofNormal` keeps the others, with the edges between them.
-/

namespace DecisionEngine

/-- An expression with the source it was read from. -/
structure SourcedExpr where
  source : Bytes
  tree : Expr
  deriving DecidableEq

/-- A leaf with all conditions on it: sorted labels, and the expressions of the composites around
it in the order of their ids, followed by its own. -/
structure FlatNode where
  id : Bytes
  kind : NodeKind
  label : Bytes
  priority : Int32
  weight : Binary64
  labels : List Bytes
  expressions : List SourcedExpr
  outcome : Option Outcome
  order : UInt32
  deriving DecidableEq

/-- Leaves in the order of their ids, and edges between them in the order of edges. -/
structure FlatGraph where
  nodes : List FlatNode
  edges : List Edge
  deriving DecidableEq

/-! ## Leaves with their conditions -/

/-- The expression of a condition; nothing if there is none that can be read. -/
def Condition.sourced? (c : Condition) : Option SourcedExpr :=
  if c.expression.isEmpty then none
  else (Expr.parse c.expression).toOption.map fun x => ⟨c.expression, x⟩

namespace NormalGraph

/-- A leaf with all conditions on it. -/
def flatNode (g : NormalGraph) (n : NormalNode) : FlatNode :=
  let conditions := (g.scopes n.node.id).map Node.condition ++ [n.node.condition]
  { id := n.node.id
    kind := n.node.kind
    label := n.node.label
    priority := n.node.priority
    weight := n.node.weight
    labels := sortedDistinct (conditions.flatMap (·.labels))
    expressions := conditions.filterMap Condition.sourced?
    outcome := n.node.body.outcome?
    order := n.order }

/-- All leaves and all edges between them. -/
def flat (g : NormalGraph) : FlatGraph :=
  ⟨(g.nodes.filter fun n => !n.node.isComposite).map g.flatNode, g.expandedEdges⟩

end NormalGraph

/-! ## Leaves that can never fire -/

/-- Why a leaf can never fire. -/
inductive Hopeless
  | contradiction (key first : Bytes) (label : Bytes)
  | alwaysFalse (source : Bytes)
  | requiresPruned (id : Bytes)
  | flowPruned
  deriving DecidableEq

/-- The wording of the reason. -/
def Hopeless.text : Hopeless → Bytes
  | contradiction key first label =>
    utf8 "requires both " ++ key ++ utf8 "=" ++ first ++ utf8 " and " ++ label
  | alwaysFalse source => utf8 "expression is always false: " ++ source
  | requiresPruned id => utf8 "requires pruned node " ++ Bytes.quoted id
  | flowPruned => utf8 "every FLOWS_TO predecessor was pruned"

/-- Two labels that ask for different texts of one attribute; `known` holds the text that the
first label of each attribute asks for. -/
def contradiction? : List (Bytes × Bytes) → List Bytes → Option Hopeless
  | _, [] => none
  | known, label :: rest =>
    match Predicate.ofLabel? label with
    | some p =>
      match p.expected with
      | some text =>
        match known.lookup p.key with
        | some first =>
          if first = text then contradiction? known rest
          else some (.contradiction p.key first label)
        | none => contradiction? ((p.key, text) :: known) rest
      | none => contradiction? known rest
    | none => contradiction? known rest

/-- The answer of an expression that reads nothing. -/
def SourcedExpr.constantResult? (x : SourcedExpr) : Option Bool :=
  let (_, s) := (ExceptT.run (Assembly.emitExpression x.tree)).run (.start .empty false)
  s.finish.1.constantResult?

/-- Why a leaf can never fire, as far as it can be told from the leaf alone. -/
def FlatNode.hopeless? (n : FlatNode) : Option Hopeless :=
  match contradiction? [] n.labels with
  | some h => some h
  | none =>
    (n.expressions.find? fun x => x.constantResult? == some false).map fun x =>
      .alwaysFalse x.source

/-! ## Pruning -/

/-- What was dropped so far: the ids, with the reason if the leaf can never fire. -/
abbrev Dropped := List (Bytes × Option Hopeless)

/-- Whether a leaf was dropped. -/
def Dropped.has (d : Dropped) (id : Bytes) : Bool := d.any (·.1 == id)

namespace FlatGraph

/-- The ids of the leaves, in order. -/
def ids (g : FlatGraph) : List Bytes := g.nodes.map (·.id)

/-- The graph over which decisions lead to other leaves. -/
def flow (g : FlatGraph) : Digraph Bytes :=
  let edges := g.edges.filter fun e => e.kind == .flowsTo || e.kind == .requires
  ⟨g.ids, fun id => (edges.filter (·.source == id)).map (·.target)⟩

/-- The leaves that no decision leads to. -/
def unreachable (g : FlatGraph) : List Bytes :=
  let reached := g.flow.reach ((g.nodes.filter (·.kind == .decision)).map (·.id))
  g.ids.filter fun id => !reached.contains id

/-- Drops a leaf that requires a dropped one. -/
def dropRequiring (d : Dropped) (e : Edge) : Dropped :=
  if e.kind == .requires && !d.has e.source && d.has e.target then
    d ++ [(e.source, some (.requiresPruned e.target))]
  else d

/-- The leaves that flow to a leaf. -/
def predecessors (g : FlatGraph) (id : Bytes) : List Bytes :=
  (g.edges.filter fun e => e.kind == .flowsTo && e.target == id).map (·.source)

/-- Drops a leaf all of whose predecessors were dropped. -/
def dropStarved (g : FlatGraph) (d : Dropped) (id : Bytes) : Dropped :=
  let before := g.predecessors id
  if !d.has id && !before.isEmpty && before.all d.has then d ++ [(id, some .flowPruned)] else d

/-- One round: first over the edges, then over the leaves. -/
def pruneRound (g : FlatGraph) (d : Dropped) : Dropped :=
  g.ids.foldl g.dropStarved (g.edges.foldl dropRequiring d)

/-- Rounds until one drops nothing. -/
def pruneRounds (g : FlatGraph) : Nat → Dropped → Dropped
  | 0, d => d
  | rounds + 1, d =>
    let next := g.pruneRound d
    if next.length = d.length then d else g.pruneRounds rounds next

/-- What is dropped before the first round. -/
def droppedAtOnce (g : FlatGraph) (unreached : List Bytes) (dropUnreachable : Bool) : Dropped :=
  let gone : Dropped := if dropUnreachable then unreached.map fun id => (id, none) else []
  gone ++ (g.nodes.filter fun n => !gone.has n.id).filterMap fun n =>
    n.hopeless?.map fun h => (n.id, some h)

/-- Everything that is dropped. -/
def dropped (g : FlatGraph) (dropUnreachable : Bool) : Dropped :=
  g.pruneRounds (g.nodes.length + 1) (g.droppedAtOnce g.unreachable dropUnreachable)

/-- The graph without what was dropped, and without edges from a leaf to itself. -/
def without (g : FlatGraph) (d : Dropped) : FlatGraph :=
  let kept := g.nodes.filter fun n => !d.has n.id
  let has := fun id => kept.any (·.id == id)
  ⟨kept, g.edges.filter fun e => e.source != e.target && has e.source && has e.target⟩

/-! ## What is reported -/

/-- The leaves that no decision leads to, as a warning. -/
def unreachableWarning (unreached : List Bytes) : List Diagnostic :=
  if unreached.isEmpty then []
  else
    [⟨.unreachableNode, Bytes.decimal unreached.length ++
      utf8 " node(s) unreachable from any Decision node", unreached, []⟩]

/-- The leaves that can never fire, as warnings in the order of their ids. -/
def hopelessWarnings (g : FlatGraph) (d : Dropped) : List Diagnostic :=
  g.ids.filterMap fun id =>
    (d.lookup id).join.map fun h =>
      ⟨.unsatisfiableNode, utf8 "node " ++ Bytes.quoted id ++ utf8 " can never fire: " ++ h.text,
        [id], []⟩

/-- The leaves that a plan is made of, what was found, and how many leaves were dropped. -/
def ofNormal (n : NormalGraph) (dropUnreachable : Bool) : FlatGraph × Findings × Nat :=
  let g := n.flat
  let d := g.dropped dropUnreachable
  let kept := g.without d
  (kept, .ofWarnings (unreachableWarning g.unreachable ++ g.hopelessWarnings d),
    g.nodes.length - kept.nodes.length)

end FlatGraph
end DecisionEngine
