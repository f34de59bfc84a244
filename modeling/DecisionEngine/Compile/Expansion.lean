import DecisionEngine.Compile.NormalGraph
import DecisionEngine.Keyed
/-!
# The leaves of composites

A composite stands for the nodes inside it that are no composites, its leaves. They are searched
for by going down into the members. What was found for a node is remembered, so that a composite
which is a member of several others, or an end of several edges, is searched once.

* `NormalGraph.leavesOf` searches for the leaves of a node.
* `NormalGraph.expandEdges` are the edges between leaves that the edges stand for.
* `NormalGraph.scopes` are the composites around a leaf.
-/

namespace DecisionEngine

/-- The leaves that were found so far, by node. -/
abbrev LeafMemo := List (Bytes × List Bytes)

/-- A computation that searches for leaves and remembers them. It gives nothing where a search goes
deeper than it may. -/
abbrev LeafSearch := StateT LeafMemo Option

namespace LeafSearch

/-- Remembers the leaves of a node. What is remembered of the node before stays, and counts. -/
def remember (id : Bytes) (leaves : List Bytes) : LeafSearch (List Bytes) := do
  modify (Keyed.keep id leaves)
  return (Keyed.find? (← get) id).getD leaves

/-- What a search that starts with nothing remembered finds. -/
def found {α : Type} (x : LeafSearch (List α)) : List α :=
  match x [] with
  | some (items, _) => items
  | none => []

end LeafSearch

namespace NormalGraph

/-- The leaves of a node of which nothing is remembered: a node that is no composite is its own
leaf, a composite has the leaves of its members, sorted, each once. -/
def gather (g : NormalGraph) (search : Bytes → LeafSearch (List Bytes)) (id : Bytes) :
    LeafSearch (List Bytes) :=
  match g.find? id with
  | none => return []
  | some n => do
    if n.node.isComposite then
      let inner ← n.node.body.members.mapM search
      return sortedDistinct inner.flatten
    else return [id]

/-- The leaves of a node. `depth` is a bound for how deep composites are nested in it. -/
def leavesOf (g : NormalGraph) : (depth : Nat) → Bytes → LeafSearch (List Bytes)
  | 0, _ => failure
  | depth + 1, id => do
    match Keyed.find? (← get) id with
    | some leaves => return leaves
    | none => LeafSearch.remember id (← g.gather (leavesOf g depth) id)

/-- How deep a search may go: it passes no composite twice, and may end at an id of no node. -/
def depth (g : NormalGraph) : Nat := g.nodes.length + 1

/-! ## Edges -/

/-- The edges between leaves that an edge stands for. -/
def expandEdge (g : NormalGraph) (e : Edge) : LeafSearch (List Edge) := do
  let sources ← g.leavesOf g.depth e.source
  let targets ← g.leavesOf g.depth e.target
  return sources.flatMap fun s => targets.map fun t => ⟨s, e.kind, t⟩

/-- The edges with every composite replaced by its leaves, in the order of edges, each once. -/
def expandEdges (g : NormalGraph) : LeafSearch (List Edge) := do
  let expanded ← g.edges.mapM g.expandEdge
  return Edge.sortedDistinct expanded.flatten

/-- The edges between leaves. -/
def expandedEdges (g : NormalGraph) : List Edge := g.expandEdges.found

/-! ## Composites around leaves -/

/-- The composites, in the order of their ids. -/
def composites (g : NormalGraph) : List Node := (g.nodes.map (·.node)).filter Node.isComposite

/-- The leaves of each composite. -/
def compositeLeaves (g : NormalGraph) : List (List Bytes) :=
  LeafSearch.found ((g.composites.map (·.id)).mapM (g.leavesOf g.depth))

/-- The composites around a leaf, in the order of their ids. -/
def scopes (g : NormalGraph) (id : Bytes) : List Node :=
  ((g.composites.zip g.compositeLeaves).filter fun c => c.2.contains id).map (·.1)

end NormalGraph
end DecisionEngine
