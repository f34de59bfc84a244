import DecisionEngine.Blueprint.Basic
import DecisionEngine.Hash.Fnv
import DecisionEngine.Wire.Writer
/-!
# Bytes of a blueprint

A blueprint is written as a record of its header, catalog, symbols, nodes, steps and guardrails.
Lists keep their order and attribute sets are sorted, so equal plans have equal bytes; the hash
of the bytes is part of the id, and not of the bytes.
-/

namespace DecisionEngine
namespace Wire

/-- An instruction: its opcode and both operands in four bytes each. -/
def instruction (i : Instruction) : Bytes :=
  i.op.code :: littleEndian 4 i.a.toNat ++ littleEndian 4 i.b.toNat

/-- A program. -/
def program (p : Program) : Bytes :=
  functionHead (utf8 "Program") 3 ++ nat p.maxStack.toNat ++ list value p.constants ++
    binary (p.code.flatMap instruction)

/-- An outcome. -/
def outcome (o : Outcome) : Bytes :=
  functionHead (utf8 "Outcome") 2 ++ text o.action ++ attributes o.params

/-- A guard. -/
def guard (g : Guard) : Bytes :=
  functionHead (utf8 "Guard") 4 ++ word g.mask ++ program g.program ++ texts g.labels ++
    text g.source

/-- A member of an enumeration, by its number. -/
def enumeration {α : Type} [BEq α] (members : List α) (x : α) : Bytes := nat (members.idxOf x)

/-- A node of a plan. -/
def planNode (n : PlanNode) : Bytes :=
  functionHead (utf8 "Node") 3 ++ text n.id ++ enumeration NodeKind.all n.kind ++ text n.label

/-- A candidate of a selection. -/
def branch (b : Branch) : Bytes :=
  functionHead (utf8 "Branch") 6 ++ nat b.node ++ guard b.guard ++ int b.priority.toInt64 ++
    real b.weight ++ (match b.outcome with | some o => outcome o | none => null) ++
    nat b.order.toNat

/-- A winner with its loser. -/
def dominance (p : Nat × Nat) : Bytes := listHead 2 ++ nat p.1 ++ nat p.2

/-- A step. -/
def step : Step → Bytes
  | .sequential node g => functionHead (utf8 "Sequential") 2 ++ nat node ++ guard g
  | .task node g o => functionHead (utf8 "Task") 3 ++ nat node ++ guard g ++ outcome o
  | .selector s =>
    functionHead (utf8 "Selector") 5 ++ text s.group ++ enumeration SelectionPolicy.all s.policy ++
      text s.comparator ++ list branch s.branches ++ list dominance s.dominates

/-- A guardrail. -/
def guardrail (g : PlanGuardrail) : Bytes :=
  functionHead (utf8 "Guardrail") 10 ++ text g.id ++ text g.description ++
    enumeration GuardrailMode.all g.mode ++ texts g.appliesTo ++ program g.violation ++
    text g.violationSource ++ enumeration VetoFallback.all g.fallback ++ text g.capParam ++
    value g.capValue ++ outcome g.defaultOutcome

end Wire

namespace Blueprint

/-- The bytes of a blueprint. -/
def encode (b : Blueprint) : Bytes :=
  Wire.header ++ Wire.functionHead (utf8 "Blueprint") 6
    ++ Wire.associationHead 4
    ++ Wire.entry "GraphId" (Wire.text b.id.graph)
    ++ Wire.entry "Version" (Wire.word b.id.version)
    ++ Wire.entry "Tenant" (Wire.text b.tenant)
    ++ Wire.entry "DecisionType" (Wire.text b.decisionType)
    ++ Wire.texts b.catalog.labels
    ++ Wire.texts b.symbols.names
    ++ Wire.list Wire.planNode b.nodes
    ++ Wire.list Wire.step b.steps
    ++ Wire.list Wire.guardrail b.guardrails

/-- The blueprint with its bytes and the hash of them. -/
def sealed (b : Blueprint) : Blueprint :=
  let bytes := b.encode
  { b with encoded := bytes, id := { b.id with contentHash := Fnv.hash bytes } }

end Blueprint
end DecisionEngine
