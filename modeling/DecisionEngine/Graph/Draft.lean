import DecisionEngine.Graph.Revision
import DecisionEngine.Keyed
/-!
# Drafts of a rule graph

A draft is edited until it is committed as a revision. Nodes keep the slot they were put in; a
removed node leaves its slot empty, so that the order of declaration of the others does not
change. An index leads from the id of a node to its slot. Edges may name nodes that are not there;
compilation reports them.
-/

namespace DecisionEngine

/-- A rule graph in the making. -/
structure Draft where
  graph : Bytes
  tenant : Bytes
  decisionType : Bytes
  slots : List (Option Node)
  index : List (Bytes × Nat)
  edges : List Edge
  catalog : Catalog
  policy : SelectionPolicy
  comparator : Bytes
  guardrails : List Guardrail
  lastVersion : UInt64

/-- Why a node is not added. -/
inductive DraftError
  | emptyId
  | duplicateId (id : Bytes)
  deriving DecidableEq

/-- The wording of the reason. -/
def DraftError.message : DraftError → Bytes
  | emptyId => utf8 "Rule node id must not be empty"
  | duplicateId id => utf8 "Duplicate rule node id: " ++ id

namespace Draft

/-- A draft without nodes. -/
def start (graph tenant decisionType : Bytes) : Draft :=
  ⟨graph, tenant, decisionType, [], [], [], .empty, .highestPriority, [], [], 0⟩

/-- The nodes in the order of their slots. -/
def nodes (d : Draft) : List Node := d.slots.filterMap id

/-- The slot that the index has for an id. -/
def slotOf? (d : Draft) (id : Bytes) : Option Nat := Keyed.find? d.index id

/-- The node of an id. -/
def node? (d : Draft) (id : Bytes) : Option Node :=
  (d.slotOf? id).bind fun slot => d.slots[slot]?.join

/-- Whether there is a node of an id. -/
def hasNode (d : Draft) (id : Bytes) : Bool := (d.slotOf? id).isSome

/-- Puts a node into a new slot; the answer is the number of the slot. -/
def insertNode (n : Node) : ExceptT DraftError (StateM Draft) Nat := do
  if n.id.isEmpty then throw .emptyId
  if (← get).hasNode n.id then throw (.duplicateId n.id)
  let slot := (← get).slots.length
  modify fun d => { d with index := Keyed.assign n.id slot d.index }
  modify fun d => { d with slots := d.slots ++ [some n] }
  return slot

/-- The slot of a new node and the draft that has it, or why it is not added. -/
def addNode (d : Draft) (n : Node) : Except DraftError (Nat × Draft) :=
  match (insertNode n).run.run d with
  | (.ok slot, d') => .ok (slot, d')
  | (.error reason, _) => .error reason

/-- Empties the slot of a node and drops the edges at it; the answer is whether it was there. -/
def removeNode (d : Draft) (id : Bytes) : Bool × Draft :=
  match d.slotOf? id with
  | none => (false, d)
  | some slot => (true, { d with
      slots := d.slots.set slot none
      index := Keyed.remove id d.index
      edges := d.edges.filter fun e => e.source != id && e.target != id })

/-- Puts a node into the slot of the one with its id; the answer is whether that was there. -/
def replaceNode (d : Draft) (n : Node) : Bool × Draft :=
  match d.slotOf? n.id with
  | none => (false, d)
  | some slot => (true, { d with slots := d.slots.set slot (some n) })

/-- Adds an edge. -/
def addEdge (d : Draft) (e : Edge) : Draft := { d with edges := d.edges ++ [e] }

/-- Takes the first edge out that equals a given one; the answer is whether there was one. -/
def removeEdge (d : Draft) (e : Edge) : Bool × Draft :=
  (d.edges.contains e, { d with edges := d.edges.erase e })

/-- The edges that start at a node. -/
def edgesFrom (d : Draft) (id : Bytes) : List Edge := d.edges.filter (·.source == id)

/-- Adds a label to the catalog; the answer is its bit. -/
def addLabel (d : Draft) (label : Bytes) : Except CatalogError (Nat × Draft) := do
  let (bit, catalog) ← d.catalog.add label
  return (bit, { d with catalog := catalog })

/-- Says how competing rules are selected from. -/
def setPolicy (d : Draft) (policy : SelectionPolicy) (comparator : Bytes) : Draft :=
  { d with policy := policy, comparator := comparator }

/-- Adds a guardrail behind the others. -/
def addGuardrail (d : Draft) (g : Guardrail) : Draft :=
  { d with guardrails := d.guardrails ++ [g] }

/-- Freezes the draft as its next revision. -/
def commit (d : Draft) : Revision × Draft :=
  let version := d.lastVersion + 1
  (⟨d.graph, version, d.tenant, d.decisionType, d.catalog, d.nodes, d.edges, d.policy,
    d.comparator, d.guardrails⟩, { d with lastVersion := version })

end Draft
end DecisionEngine
