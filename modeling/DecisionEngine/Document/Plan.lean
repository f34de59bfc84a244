import DecisionEngine.Compile.Compiler
import DecisionEngine.Document.Basic
import DecisionEngine.Graph.Revision
/-!
# Accounts of rules and plans

Rules can be read from an account: nodes, edges and guardrails, with the options to compile them
with. And what a reader of rules wants to see is the syntax tree of an expression, the instructions
of a program, the steps and guardrails of a plan, and what compiling a revision came to.
-/

namespace DecisionEngine

/-! ## Reading rules -/

instance : Readable NodeKind := ⟨Document.member NodeKind.all NodeKind.name .action⟩

instance : Readable EdgeKind :=
  ⟨Document.member [.requires, .flowsTo, .excludes, .dominates, .neutralizes] EdgeKind.name
    .requires⟩

instance : Readable SelectionPolicy :=
  ⟨Document.member SelectionPolicy.all SelectionPolicy.name .highestPriority⟩

instance : Readable GuardrailMode := ⟨Document.member GuardrailMode.all GuardrailMode.name .veto⟩

instance : Readable VetoFallback := ⟨Document.member VetoFallback.all VetoFallback.name .deny⟩

instance : Readable Outcome := ⟨fun d => ⟨d.get "action", d.get "params"⟩⟩

/-- Fields that do not belong to nodes of the kind do not count. -/
instance : Readable Node := ⟨fun d =>
  let c : Condition := ⟨d.get "when", d.get "expr"⟩
  let body : NodeBody := match (d.get "kind" : NodeKind) with
    | .decision => .decision c
    | .evaluator => .evaluator c
    | .action => .action c (Readable.read d)
    | .composite => .composite c (d.get "members")
  ⟨d.get "id", d.get "label", d.get "priority", d.get "weight", body⟩⟩

instance : Readable Edge := ⟨fun d => ⟨d.nth 0, d.nth 1, d.nth 2⟩⟩

instance : Readable Guardrail := ⟨fun d =>
  ⟨d.get "id", d.get "description", d.get "mode", d.get "applies_to", d.get "violation",
    d.get "fallback", d.get "cap_param", d.get "cap_value", Readable.read d⟩⟩

instance : Readable CompilerOptions := ⟨fun d =>
  ⟨d.getOr "max_attribute_bits" 64, d.get "warnings_as_errors",
    d.getOr "drop_unreachable" true⟩⟩

/-! ## Expressions and programs -/

/-- Where a reference looks, its position and its name. -/
instance : Documented Reference := ⟨fun r =>
  let scope := match r.scope with
    | .context => "context"
    | .input => "input"
    | .outcome => "outcome"
  .list [scope, r.position, r.name]⟩

/-- The syntax tree: the form, the position and the parts of every node. -/
def Expr.document : Expr → Document
  | .literal p v => .list ["literal", p, v]
  | .reference r => r
  | .present p r => .list ["present", p, r]
  | .unary p op x => .list ["unary", p, op.sign, x.document]
  | .binary p op l r => .list ["binary", p, op.sign, l.document, r.document]

instance : Documented Expr := ⟨Expr.document⟩

instance : Readable Instruction := ⟨fun d =>
  ⟨(d.item 0).member Opcode.all Opcode.name .return, d.nth 1, d.nth 2⟩⟩

/-- The operation and its two operands. -/
instance : Documented Instruction := ⟨fun i =>
  i.op.name ++ utf8 " " ++ Bytes.decimal i.a.toNat ++ utf8 " " ++ Bytes.decimal i.b.toNat⟩

/-- The parts of a program. -/
def Program.fields (p : Program) : Fields :=
  [("max_stack", p.maxStack.toNat), ("constants", p.constants), ("code", p.code)]

/-- Nothing for the program that has no parts. -/
instance : Documented Program :=
  ⟨fun p => if p == Program.empty then .nothing else .record p.fields⟩

/-! ## Nodes -/

instance : Documented Outcome := ⟨fun o =>
  .record [("action", o.action), ("params", o.params)]⟩

/-- What can be said of a node of any kind. -/
def Node.fields (n : Node) : Fields :=
  [("id", n.id), ("kind", n.kind.name), ("label", n.label), ("priority", n.priority.toInt),
    ("weight", n.weight), ("when", n.condition.labels), ("expr", n.condition.expression),
    ("unconditional", n.condition.isEmpty)]

/-- The outcome is there for an action, the members for a composite. -/
instance : Documented Node := ⟨fun n =>
  .record (n.fields ++ Fields.when n.body.outcome?.isSome [("outcome", n.body.outcome?)]
    ++ Fields.when n.isComposite [("members", n.body.members)])⟩

/-! ## Plans -/

instance : Documented Guard := ⟨fun g =>
  .record [("mask", g.mask), ("categorical", g.labels), ("source", g.source),
    ("program", g.program)]⟩

instance : Documented Branch := ⟨fun b =>
  .record [("node", b.node), ("guard", b.guard), ("priority", b.priority.toInt),
    ("weight", b.weight), ("outcome", b.outcome), ("order", b.order.toNat)]⟩

/-- The kind of the step and the parts that steps of its kind have. -/
instance : Documented Step := ⟨fun s =>
  .record <| ("kind", s.kindName) :: match s with
    | .sequential n g => [("node", n), ("guard", g)]
    | .task n g o => [("node", n), ("guard", g), ("outcome", o)]
    | .selector s => [("group", s.group), ("policy", s.policy.name),
        ("comparator", s.comparator), ("branches", s.branches), ("dominates", s.dominates)]⟩

instance : Documented PlanGuardrail := ⟨fun g =>
  .record [("id", g.id), ("description", g.description), ("mode", g.mode.name),
    ("applies_to", g.appliesTo), ("violation", g.violation), ("source", g.violationSource),
    ("fallback", g.fallback.name), ("cap_param", g.capParam), ("cap_value", g.capValue),
    ("outcome", g.defaultOutcome)]⟩

instance : Documented PlanNode := ⟨fun n => .list [n.id, n.kind.name, n.label]⟩

/-- The graph, the version and the hash of the content. -/
instance : Documented BlueprintId := ⟨fun id =>
  .list [id.graph, id.version.toNat, id.contentHash]⟩

instance : Readable BlueprintId := ⟨fun d => ⟨d.nth 0, d.nth 1, d.nth 2⟩⟩

/-- The parts of a blueprint and the size of its bytes. -/
def Blueprint.fields (b : Blueprint) : Fields :=
  [("id", b.id.toText), ("tenant", b.tenant), ("type", b.decisionType),
    ("catalog", b.catalog.labels), ("symbols", b.symbols.names), ("nodes", b.nodes),
    ("steps", b.steps), ("guardrails", b.guardrails), ("size", b.encoded.length)]

/-! ## Compilations -/

instance : Documented Diagnostic := ⟨fun d =>
  .record [("code", d.code.name), ("message", d.message), ("nodes", d.nodes),
    ("edges", d.edges)]⟩

instance : Documented CompileFigures := ⟨fun f =>
  .record [("id", f.id.toText), ("input_nodes", f.inputNodes), ("input_edges", f.inputEdges),
    ("emitted_nodes", f.emittedNodes), ("pruned_nodes", f.prunedNodes), ("steps", f.steps),
    ("selector_steps", f.selectorSteps), ("guard_programs", f.guardPrograms),
    ("instructions", f.instructions), ("encoded_bytes", f.encodedBytes)]⟩

/-- What a compilation came to, apart from the blueprint. -/
def Compilation.fields (c : Compilation) : Fields :=
  [("ok", c.blueprint.isSome), ("errors", c.errors), ("warnings", c.warnings),
    ("metadata", c.figures)]

end DecisionEngine
