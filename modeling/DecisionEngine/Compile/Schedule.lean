import DecisionEngine.Compile.DisjointSets
import DecisionEngine.Compile.FlatGraph
/-!
# The order of a plan

Rules that exclude one another, directly or through others, form one unit; every other rule is a
unit of its own. Units are put in an order in which everything comes after what it depends on;
among the units that may come next, the one with the highest priority is taken, and with equal
priority the one with the smallest id. Inside a unit, rules are in the order of declaration.
-/

namespace DecisionEngine

/-- Rules that are taken together, in the order of their ids. -/
structure PlanUnit where
  members : List FlatNode
  deriving DecidableEq, Inhabited

namespace PlanUnit

/-- The smallest id. -/
def firstId (u : PlanUnit) : Bytes := (u.members.head?.map (·.id)).getD []

/-- Whether a rule belongs to the unit. -/
def has (u : PlanUnit) (id : Bytes) : Bool := u.members.any (·.id == id)

/-- The highest priority of a member. -/
def priority (u : PlanUnit) : Int32 :=
  match u.members with
  | [] => 0
  | m :: rest => rest.foldl (fun best n => max best n.priority) m.priority

/-- Which of two units that may both come next is taken. Priorities are compared by their
negations in 32 bits, so the lowest priority of all, which is its own negation, comes first. -/
def before (u v : PlanUnit) : Bool :=
  decide (-u.priority < -v.priority) ||
    (-u.priority == -v.priority && decide (u.firstId < v.firstId))

/-- The members in the order of declaration. -/
def declared (u : PlanUnit) : List FlatNode :=
  u.members.mergeSort fun a b => decide (a.order ≤ b.order)

end PlanUnit

namespace FlatGraph

/-- Makes one set of the sets of both ends of an edge; an end that is not listed has none. -/
def uniteEnds (ids : List Bytes) (d : DisjointSets ids.length) (e : Edge) :
    DisjointSets ids.length :=
  match ids.finIdxOf? e.source, ids.finIdxOf? e.target with
  | some a, some b => d.unite a b
  | _, _ => d

/-- The sets of rules that exclude one another, directly or through others, by their places. -/
def exclusionSets (ids : List Bytes) (edges : List Edge) : DisjointSets ids.length :=
  (edges.filter (·.kind == .excludes)).foldl (uniteEnds ids) (.discrete ids.length)

/-- The units, in the order of their smallest ids. -/
def units (g : FlatGraph) : List PlanUnit :=
  (exclusionSets g.ids g.edges).groups.map fun places =>
    ⟨places.filterMap fun i => g.nodes[i.val]?⟩

/-- The edges that put two nodes in order. -/
def orderingEdges (g : FlatGraph) : List Edge := g.edges.filter fun e => e.ordering?.isSome

/-- Whether both ends of an edge are in one unit. -/
def isInner (units : List PlanUnit) (e : Edge) : Bool :=
  units.any fun u => u.has e.source && u.has e.target

/-- A unit that cannot be neutralized from inside. -/
def impliedNeutralization (e : Edge) : Diagnostic :=
  ⟨.ignoredEdge, utf8 "NEUTRALIZES between members of one exclusion group is implied",
    [e.source, e.target], [e.id]⟩

/-- Dependencies inside a unit, which cannot be kept. -/
def innerDependencies (inner : List Edge) : List Diagnostic :=
  let bad := inner.filter (·.kind != .neutralizes)
  if bad.isEmpty then []
  else
    [⟨.ambiguousArbitration, utf8 "dependency edges between mutually exclusive nodes",
      sortedDistinct (bad.flatMap fun e => [e.source, e.target]), bad.map Edge.id⟩]

/-- Whether a unit depends on another one. -/
def dependsOn (edges : List Edge) (u v : PlanUnit) : Bool :=
  edges.any fun e => e.ordering?.any fun p => v.has p.1 && u.has p.2

end FlatGraph

/-! ## Scheduling -/

/-- The unit to take next: the best of those that depend on no other unit left. -/
def nextUnit? (depends : PlanUnit → PlanUnit → Bool) (left : List PlanUnit) : Option PlanUnit :=
  let ready := left.filter fun u => !left.any fun v => v != u && depends u v
  match ready with
  | [] => none
  | u :: rest => some (rest.foldl (fun best v => if v.before best then v else best) u)

/-- Takes units one after another; the answer is the order and the units that could not be
taken. -/
def scheduleWithin (depends : PlanUnit → PlanUnit → Bool) :
    Nat → List PlanUnit → List PlanUnit × List PlanUnit
  | 0, left => ([], left)
  | steps + 1, left =>
    match nextUnit? depends left with
    | none => ([], left)
    | some u =>
      let (order, stuck) := scheduleWithin depends steps (left.erase u)
      (u :: order, stuck)

/-- The units in the order of the plan, and those that cannot be put in order. -/
def schedule (depends : PlanUnit → PlanUnit → Bool) (units : List PlanUnit) :
    List PlanUnit × List PlanUnit := scheduleWithin depends units.length units

/-- The units of a graph in the order of the plan, with what was found. -/
def FlatGraph.ordered (g : FlatGraph) : List PlanUnit × Findings :=
  let units := g.units
  let (inner, outer) := g.orderingEdges.partition (FlatGraph.isInner units)
  let warnings := (inner.filter (·.kind == .neutralizes)).map FlatGraph.impliedNeutralization
  let conflicts := FlatGraph.innerDependencies inner
  if !conflicts.isEmpty then ([], ⟨conflicts, warnings⟩)
  else
    let (order, stuck) := schedule (FlatGraph.dependsOn outer) units
    if stuck.isEmpty then (order, .ofWarnings warnings)
    else
      ([], ⟨[⟨.ambiguousArbitration,
        utf8 "exclusion groups cannot be ordered consistently with their dependencies",
        sortedDistinct (stuck.flatMap fun u => u.members.map (·.id)), []⟩], warnings⟩)

end DecisionEngine
