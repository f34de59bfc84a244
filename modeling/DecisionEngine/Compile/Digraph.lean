import DecisionEngine.Compile.CycleFinder
/-!
# Reachability and cycles

A directed graph is given by its vertices and the successors of each. Reachability is found in
rounds: a round adds the successors of what the one before added, and after as many rounds as
there are vertices nothing is left to add. A cycle is a strongly connected component that is
reachable from itself; the search for them numbers the vertices by their places.
-/

namespace DecisionEngine

/-- A directed graph. -/
structure Digraph (α : Type) where
  vertices : List α
  next : α → List α

namespace Digraph

variable {α : Type} [DecidableEq α]

/-- What is reached from `frontier` within a number of rounds, together with what was seen. -/
def spread (g : Digraph α) : Nat → List α → List α → List α
  | 0, _, seen => seen
  | rounds + 1, frontier, seen =>
    let fresh := ((frontier.flatMap g.next).eraseDups).filter fun w => !seen.contains w
    if fresh.isEmpty then seen else g.spread rounds fresh (seen ++ fresh)

/-- The vertices of a list and what is reachable from them. -/
def reach (g : Digraph α) (start : List α) : List α :=
  g.spread g.vertices.length start.eraseDups start.eraseDups

/-- The successors of each vertex by their places. -/
def places (g : Digraph α) : Adjacency g.vertices.length := fun i =>
  (g.next (g.vertices.get i)).filterMap (g.vertices.finIdxOf? ·)

/-- The cycles: the strongly connected components with several vertices or a self loop, in the
order of the vertices. -/
def cycles (g : Digraph α) : List (List α) :=
  (CycleFinder.run g.places).map fun c => c.map g.vertices.get

end Digraph
end DecisionEngine
