import DecisionEngine.Compile.Diagnostic
import DecisionEngine.Compile.Digraph
import DecisionEngine.Graph.Revision
/-!
# The normal form of a rule graph

In normal form the nodes are in the order of their ids, each id once; labels, members and edges
are sorted and without duplicates. A node that is declared again in the same way counts once.

* `NormalGraph.ofRevision` is the normal form, with what is wrong with single nodes.
* `NormalGraph.membership` is the graph of nodes and their members.
-/

namespace DecisionEngine

/-- A node with its place in the order of declaration. -/
structure NormalNode where
  node : Node
  order : UInt32
  deriving DecidableEq

/-- A rule graph in normal form. -/
structure NormalGraph where
  nodes : List NormalNode
  edges : List Edge
  deriving DecidableEq

/-! ## Normal form -/

/-- A label that is no predicate. -/
def firstBadLabel? (labels : List Bytes) : Option Bytes :=
  labels.find? fun l => (Predicate.ofLabel? l).isNone

/-- The condition with its labels sorted, each once. -/
def Condition.normal (c : Condition) : Condition := { c with labels := sortedDistinct c.labels }

/-- The content of a node with sorted labels and members. -/
def NodeBody.normal : NodeBody → NodeBody
  | decision c => decision c.normal
  | evaluator c => evaluator c.normal
  | action c o => action c.normal o
  | composite c ms => composite c.normal (sortedDistinct ms)

/-- The node with sorted labels and members. -/
def Node.normal (n : Node) : Node := { n with body := n.body.normal }

namespace NormalGraph

/-- What is wrong with a node by itself. -/
def nodeError? (position : Nat) (n : Node) : Option Diagnostic :=
  if n.id.isEmpty then
    some ⟨.invalidNode, utf8 "node declared at position " ++ Bytes.decimal position ++
      utf8 " has an empty id", [], []⟩
  else (firstBadLabel? n.condition.labels).map fun l =>
    ⟨.invalidNode, Bytes.untilNul (CatalogError.noKey l).message, [n.id], []⟩

/-- Takes the nodes in one after another: the first declaration of an id counts, and a different
one of the same id is an error. -/
def collect : List (Node × Nat) → List NormalNode → List NormalNode × List Diagnostic
  | [], known => (known, [])
  | (n, position) :: rest, known =>
    match nodeError? position n with
    | some d =>
      let (nodes, errors) := collect rest known
      (nodes, d :: errors)
    | none =>
      match known.find? (·.node.id == n.id) with
      | none => collect rest (known ++ [⟨n.normal, UInt32.ofNat position⟩])
      | some first =>
        if first.node.same n.normal then collect rest known
        else
          let (nodes, errors) := collect rest known
          (nodes, ⟨.duplicateNode, utf8 "conflicting definitions of node " ++
            Bytes.quoted n.id, [n.id], []⟩ :: errors)

/-- The normal form of a revision. -/
def ofRevision (r : Revision) : NormalGraph × Findings :=
  let (nodes, errors) := collect r.nodes.zipIdx []
  (⟨nodes.mergeSort fun a b => decide (a.node.id ≤ b.node.id), Edge.sortedDistinct r.edges⟩,
    .ofErrors errors)

/-! ## Looking nodes up -/

/-- The node of an id. -/
def find? (g : NormalGraph) (id : Bytes) : Option NormalNode := g.nodes.find? (·.node.id == id)

/-- Whether there is a node of an id. -/
def has (g : NormalGraph) (id : Bytes) : Bool := (g.find? id).isSome

/-- The ids of the nodes, in order. -/
def ids (g : NormalGraph) : List Bytes := g.nodes.map (·.node.id)

/-! ## Membership -/

/-- The members of a node that exist. -/
def members (g : NormalGraph) (id : Bytes) : List Bytes :=
  match g.find? id with
  | some n => n.node.body.members.filter g.has
  | none => []

/-- The graph of nodes and their members. -/
def membership (g : NormalGraph) : Digraph Bytes := ⟨g.ids, g.members⟩

end NormalGraph
end DecisionEngine
