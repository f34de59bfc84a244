import DecisionEngine.Compile.Schedule
/-!
# Contests

A unit of several rules is a contest: at most one of them wins. Dominance between two rules of a
contest says which of them loses; elsewhere it means nothing. Rules that dominate each other in a
cycle could leave a contest without a winner, so they are an error.
-/

namespace DecisionEngine

/-- A unit of the plan, with the pairs of winners and losers of its contest. The members are in
the order of declaration. -/
structure Contest where
  members : List FlatNode
  dominates : List (Bytes × Bytes)
  deriving DecidableEq

namespace Contest

/-- Whether several rules compete. -/
def isContested (c : Contest) : Bool := decide (1 < c.members.length)

/-- The name of a contest: the ids of its rules in order. -/
def group (c : Contest) : Bytes :=
  Bytes.joined (utf8 "|") ((c.members.map (·.id)).mergeSort fun a b => decide (a ≤ b))

end Contest

namespace FlatGraph

/-- The dominance edges of a graph. -/
def dominanceEdges (g : FlatGraph) : List Edge := g.edges.filter (·.kind == .dominates)

/-- The contests of the units, given the dominance edges inside units. -/
def contestsOf (units : List PlanUnit) (inner : List Edge) : List Contest :=
  units.map fun u =>
    ⟨u.declared, (inner.filter fun e => u.has e.source).map fun e => (e.source, e.target)⟩

/-- Dominance that has no effect. -/
def ignoredDominance (e : Edge) : Diagnostic :=
  ⟨.ignoredEdge, utf8 "DOMINATES outside an exclusion group has no effect",
    [e.source, e.target], [e.id]⟩

/-- Rules that dominate each other. -/
def dominanceCycles (g : FlatGraph) (inner : List Edge) : List Diagnostic :=
  let graph : Digraph Bytes :=
    ⟨g.ids, fun id => (inner.filter (·.source == id)).map (·.target)⟩
  graph.cycles.map fun c =>
    ⟨.ambiguousArbitration, utf8 "nodes dominate each other in a cycle", c,
      (inner.filter fun e => c.contains e.source && c.contains e.target).map Edge.id⟩

/-- The contests of the units of a plan, with what was found. -/
def contests (g : FlatGraph) (units : List PlanUnit) : List Contest × Findings :=
  let (inner, outer) := g.dominanceEdges.partition (isInner units)
  (contestsOf units inner, ⟨g.dominanceCycles inner, outer.map ignoredDominance⟩)

end FlatGraph
end DecisionEngine
