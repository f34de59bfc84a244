import DecisionEngine.Blueprint.Encode
import DecisionEngine.Wire.Reader
/-!
# Reading a blueprint

The inverse of `Blueprint.encode`. Numbers of nodes have to be numbers of nodes that were read,
opcodes have to exist, and nothing may follow; a label that has no bit in a catalog is refused
when the catalog is built, which is before anything behind it is read.
-/

namespace DecisionEngine
namespace Wire
namespace Reader

/-- A number in four bytes. -/
def word32 (bs : Bytes) : UInt32 := UInt32.ofNat (ofLittleEndian bs)

/-- Instructions of nine bytes each. -/
def instructions (position : Nat) : Bytes → Reader (List Instruction)
  | op :: a0 :: a1 :: a2 :: a3 :: b0 :: b1 :: b2 :: b3 :: rest => do
    match Opcode.ofCode? op with
    | none => failAt position (.malformed (.unknownOpcode op))
    | some code =>
      let others ← instructions position rest
      return ⟨code, word32 [a0, a1, a2, a3], word32 [b0, b1, b2, b3]⟩ :: others
  | _ => return []

/-- A program. -/
def program : Reader Program := do
  let _ ← function (utf8 "Program")
  let maxStack ← int
  let constants ← list value
  let start ← position
  let code ← binary
  if code.length % 9 ≠ 0 then failAt start (.malformed .codeLength)
  else
    let is ← instructions start code
    return ⟨is, constants, maxStack.toUInt64.toUInt32⟩

/-- An outcome. -/
def outcome : Reader Outcome := do
  let _ ← function (utf8 "Outcome")
  let action ← text
  return ⟨action, ← attributes⟩

/-- A guard. -/
def guard : Reader Guard := do
  let _ ← function (utf8 "Guard")
  let mask ← word
  let p ← program
  let labels ← texts
  return ⟨mask, p, labels, ← text⟩

/-- The number of one of `count` nodes. -/
def nodeIndex (count : Nat) : Reader Nat := do
  let start ← position
  let n ← int
  if n.toInt < 0 ∨ (count : Int) ≤ n.toInt then failAt start (.malformed .nodeIndex)
  else return n.toInt.toNat

/-- A node of a plan. -/
def planNode : Reader PlanNode := do
  let _ ← function (utf8 "Node")
  let id ← text
  let kind ← enumeration NodeKind.all
  return ⟨id, kind, ← text⟩

/-- Something, or the symbol for nothing; any other symbol is refused with what was expected. -/
def orNull {α : Type} (what : String) (item : Reader α) : Reader (Option α) := do
  if (← peekTag) = some .symbol then
    let start ← position
    if (← symbol) = utf8 "Null" then return none
    else failAt start (.mismatched (.expected (utf8 what)))
  else return some (← item)

/-- A candidate of a selection. -/
def branch (count : Nat) : Reader Branch := do
  let _ ← function (utf8 "Branch")
  let node ← nodeIndex count
  let g ← guard
  let priority ← int
  let weight ← real
  let o ← orNull "Outcome or Null" outcome
  let order ← int
  return ⟨node, g, priority.toInt32, weight, o, order.toUInt64.toUInt32⟩

/-- A winner with its loser. -/
def dominance (count : Nat) : Reader (Nat × Nat) := do
  let _ ← listHead
  let winner ← nodeIndex count
  return (winner, ← nodeIndex count)

/-- A step. -/
def step (count : Nat) : Reader Step := do
  let start ← position
  let (head, _) ← anyFunction
  if head = utf8 "Sequential" then
    let node ← nodeIndex count
    return .sequential node (← guard)
  else if head = utf8 "Task" then
    let node ← nodeIndex count
    let g ← guard
    return .task node g (← outcome)
  else if head = utf8 "Selector" then
    let group ← text
    let policy ← enumeration SelectionPolicy.all
    let comparator ← text
    let branches ← list (branch count)
    return .selector ⟨group, policy, comparator, branches, ← list (dominance count)⟩
  else failAt start (.mismatched (.unknownStepKind head))

/-- A guardrail. -/
def guardrail : Reader PlanGuardrail := do
  let _ ← function (utf8 "Guardrail")
  let id ← text
  let description ← text
  let mode ← enumeration GuardrailMode.all
  let appliesTo ← texts
  let violation ← program
  let source ← text
  let fallback ← enumeration VetoFallback.all
  let capParam ← text
  let capValue ← value
  return ⟨id, description, mode, appliesTo, violation, source, fallback, capParam, capValue,
    ← outcome⟩

end Reader
end Wire

/-- Why bytes are no blueprint. -/
inductive BlueprintError
  | unreadable (e : Wire.Error)
  | badCatalog (e : CatalogError)
  deriving DecidableEq

/-- The wording of the reason. -/
def BlueprintError.message : BlueprintError → Bytes
  | unreadable e => e.message
  | badCatalog e => e.message

namespace Blueprint

open Wire (Reader Cursor)

/-- The header of a blueprint: graph, version, tenant and decision type. -/
structure Header where
  graph : Bytes
  version : UInt64
  tenant : Bytes
  decisionType : Bytes

/-- The reader of an entry of the header. -/
def headerEntry (key : Bytes) (h : Header) : Option (Reader Header) :=
  if key = utf8 "GraphId" then some do return { h with graph := ← Reader.text }
  else if key = utf8 "Version" then some do return { h with version := ← Reader.word }
  else if key = utf8 "Tenant" then some do return { h with tenant := ← Reader.text }
  else if key = utf8 "DecisionType" then some do return { h with decisionType := ← Reader.text }
  else none

/-- The header and the labels of the catalog. -/
def readFront : Reader (Header × List Bytes) := do
  Reader.header
  let _ ← Reader.function (utf8 "Blueprint")
  let h ← Reader.associationWith headerEntry ⟨[], 0, [], []⟩
  return (h, ← Reader.texts)

/-- Everything behind the catalog. -/
def readBack (h : Header) (catalog : Catalog) (bytes : Bytes) : Reader Blueprint := do
  let symbols ← Reader.texts
  let nodes ← Reader.list Reader.planNode
  let steps ← Reader.list (Reader.step nodes.length)
  let guardrails ← Reader.list Reader.guardrail
  Reader.finish "blueprint"
  return ⟨⟨h.graph, h.version, Fnv.hash bytes⟩, h.tenant, h.decisionType, catalog,
    .ofList symbols, nodes, steps, guardrails, bytes⟩

/-- The blueprint that bytes are. -/
def decode (bytes : Bytes) : Except BlueprintError Blueprint := do
  let ((h, labels), rest) ← (readFront (Cursor.start bytes)).mapError BlueprintError.unreadable
  let catalog ← (Catalog.ofLabels labels).mapError BlueprintError.badCatalog
  let (b, _) ← (readBack h catalog bytes rest).mapError BlueprintError.unreadable
  return b

end Blueprint
end DecisionEngine
