import DecisionEngine.Compile.Expansion
import DecisionEngine.Expr.Grammar
import DecisionEngine.Program.Assembler
/-!
# Checks of a rule graph

What has to hold before a graph can be turned into a plan: edges, members and guardrails name
nodes that exist; composites do not contain themselves; no node has to come before itself; there
is a decision to enter at; and every expression can be read and used where it stands.
-/

namespace DecisionEngine

/-! ## Expressions -/

/-- The expression of a source, if it may stand where it is. -/
def checkedExpression (allowOutcome : Bool) (source : Bytes) : Except Expr.Error Expr := do
  let x ← Expr.parse source
  match (ExceptT.run (Assembly.emitExpression x)).run (.start .empty allowOutcome) with
  | (.error (.expression e), _) => throw e
  | _ => return x

namespace NormalGraph

/-! ## References -/

/-- The ends of an edge that do not exist. -/
def missingEnds (g : NormalGraph) (e : Edge) : List Bytes :=
  [e.source, e.target].filter fun id => !g.has id

/-- Edges that name nodes that do not exist. -/
def danglingEdges (g : NormalGraph) : List Diagnostic :=
  let dangling := g.edges.filter fun e => !(g.missingEnds e).isEmpty
  if dangling.isEmpty then []
  else
    [⟨.danglingReference, Bytes.decimal dangling.length ++
        utf8 " edge(s) reference missing nodes",
      sortedDistinct (dangling.flatMap g.missingEnds), dangling.map Edge.id⟩]

/-- A composite with members that do not exist. -/
def danglingMembers (g : NormalGraph) (n : Node) : List Diagnostic :=
  let missing := n.body.members.filter fun id => !g.has id
  if missing.isEmpty then []
  else
    [⟨.danglingReference, utf8 "composite " ++ Bytes.quoted n.id ++
      utf8 " lists missing members", n.id :: missing, []⟩]

/-- A composite without members. -/
def emptyComposite (n : Node) : List Diagnostic :=
  if n.isComposite && n.body.members.isEmpty then
    [⟨.unreachableNode, utf8 "composite " ++ Bytes.quoted n.id ++ utf8 " has no members",
      [n.id], []⟩]
  else []

/-- References to nodes that do not exist. -/
def references (g : NormalGraph) : Findings :=
  ⟨g.danglingEdges ++ g.nodes.flatMap fun n => g.danglingMembers n.node,
    g.nodes.flatMap fun n => emptyComposite n.node⟩

/-! ## Cycles -/

/-- Composites that contain themselves. -/
def membershipCycles (g : NormalGraph) : List Diagnostic :=
  g.membership.cycles.map fun c => ⟨.cycleDetected, utf8 "composite membership cycle", c, []⟩

/-- The graph of what has to come before what. -/
def precedence (g : NormalGraph) (edges : List Edge) : Digraph Bytes :=
  let pairs := edges.filterMap Edge.ordering?
  ⟨g.ids, fun id => (pairs.filter (·.1 == id)).map (·.2)⟩

/-- Whether an edge puts two nodes of a list in order. -/
def orders (ids : List Bytes) (e : Edge) : Bool :=
  e.ordering?.any fun p => ids.contains p.1 && ids.contains p.2

/-- Nodes that have to come before themselves. -/
def orderingCycles (g : NormalGraph) : List Diagnostic :=
  let edges := g.expandedEdges
  (g.precedence edges).cycles.map fun c =>
    ⟨.cycleDetected, utf8 "dependency cycle through" ++ c.flatMap fun id => utf8 " " ++ id, c,
      (edges.filter (orders c)).map Edge.id⟩

/-- Edges from a node to itself that mean nothing. -/
def ignoredSelfEdges (g : NormalGraph) : List Diagnostic :=
  (g.edges.filter fun e => e.source == e.target &&
      (e.kind == .excludes || e.kind == .dominates)).map fun e =>
    ⟨.ignoredEdge, utf8 "self edge has no effect", [e.source], [e.id]⟩

/-! ## Nodes and guardrails -/

/-- A graph without a decision. -/
def missingEntry (g : NormalGraph) : List Diagnostic :=
  if g.nodes.any fun n => n.node.kind == .decision then []
  else [⟨.noEntryPoint, utf8 "graph has no Decision node", [], []⟩]

/-- Conditions whose expression cannot be used. -/
def badExpressions (g : NormalGraph) : List Diagnostic :=
  g.nodes.flatMap fun n =>
    let source := n.node.condition.expression
    if source.isEmpty then []
    else
      match checkedExpression false source with
      | .ok _ => []
      | .error e =>
        [⟨.invalidExpression, utf8 "node " ++ Bytes.quoted n.node.id ++ utf8 ": " ++
          Bytes.untilNul e.message, [n.node.id], []⟩]

/-- The complaint about a guardrail. -/
def guardrailComplaint (before : String) (id : Bytes) (behind : Bytes) : Diagnostic :=
  ⟨.invalidGuardrail, utf8 before ++ Bytes.quoted id ++ behind, [], []⟩

/-- What is wrong with a guardrail whose id is in order. -/
def guardrailErrors (g : NormalGraph) (r : Guardrail) : List Diagnostic :=
  (if r.mode == .veto && r.violation.isEmpty then
    [guardrailComplaint "veto guardrail " r.id (utf8 " has no violation expression")] else []) ++
  (if r.violation.isEmpty then []
    else
      match checkedExpression true r.violation with
      | .ok _ => []
      | .error e => [guardrailComplaint "guardrail " r.id
          (utf8 ": " ++ Bytes.untilNul e.message)]) ++
  (if r.mode == .veto && r.fallback == .cap && (r.capParam.isEmpty || r.capValue.isNull) then
    [guardrailComplaint "cap guardrail " r.id (utf8 " needs a parameter and a value")] else []) ++
  (if r.mode == .mandateDefault then
    let missing := r.appliesTo.filter fun id => !g.has id
    (if r.defaultOutcome.action.isEmpty then
      [guardrailComplaint "mandate-default guardrail " r.id (utf8 " has no default action")]
      else []) ++
    (if missing.isEmpty then []
      else [⟨.danglingReference, utf8 "guardrail " ++ Bytes.quoted r.id ++
        utf8 " targets missing nodes", missing, []⟩])
  else [])

/-- What is wrong with guardrails; `seen` are the ids of those before. -/
def badGuardrails (g : NormalGraph) : List Bytes → List Guardrail → List Diagnostic
  | _, [] => []
  | seen, r :: rest =>
    if r.id.isEmpty then
      ⟨.invalidGuardrail, utf8 "guardrail with an empty id", [], []⟩ :: g.badGuardrails seen rest
    else if seen.contains r.id then
      guardrailComplaint "duplicate guardrail id " r.id [] :: g.badGuardrails seen rest
    else g.guardrailErrors r ++ g.badGuardrails (r.id :: seen) rest

/-! ## All checks -/

/-- All checks. Whether nodes can be put in order is only asked when all references are good. -/
def lint (g : NormalGraph) (guardrails : List Guardrail) : Findings :=
  let first := g.references.also (.ofErrors g.membershipCycles)
  let second := if first.failed then .clear else ⟨g.orderingCycles, g.ignoredSelfEdges⟩
  (first.also second).also
    (.ofErrors (g.missingEntry ++ g.badExpressions ++ g.badGuardrails [] guardrails))

end NormalGraph
end DecisionEngine
