import DecisionEngine.Blueprint.Encode
import DecisionEngine.Compile.Contest
/-!
# Emitting a plan

Contests become steps. The guard of a rule tests its labels, its expressions, that everything it
requires has fired, that nothing that neutralizes it has, and that one of the rules that flow to
it has. A label with a bit in the catalog goes into the mask; the others, and everything else, go
into the program. Nodes are numbered in the order in which steps and branches name them.
-/

namespace DecisionEngine

/-- What emission looks things up in: the catalog, how many of its bits may be used, the edges
between the rules, and the ids of the rules by their numbers. -/
structure EmissionContext where
  catalog : Catalog
  maxBits : Nat
  edges : List Edge
  table : List Bytes

namespace EmissionContext

/-- The number of a rule. -/
def number (c : EmissionContext) (id : Bytes) : Nat := c.table.idxOf id

/-- The id of a number. -/
def name (c : EmissionContext) (n : Nat) : Bytes := (c.table[n]?).getD []

/-- The bit of a label, if it may be used. -/
def bit? (c : EmissionContext) (label : Bytes) : Option Nat :=
  (c.catalog.bitOf? label).filter fun b => decide (b < c.maxBits)

/-- The numbers of rules, in ascending order. -/
def numbers (c : EmissionContext) (ids : List Bytes) : List Nat :=
  (ids.map c.number).mergeSort

/-- What a rule requires. -/
def required (c : EmissionContext) (id : Bytes) : List Nat :=
  c.numbers ((c.edges.filter fun e => e.kind == .requires && e.source == id).map (·.target))

/-- What neutralizes a rule. -/
def neutralizing (c : EmissionContext) (id : Bytes) : List Nat :=
  c.numbers ((c.edges.filter fun e => e.kind == .neutralizes && e.target == id).map (·.source))

/-- What flows to a rule. -/
def flowing (c : EmissionContext) (id : Bytes) : List Nat :=
  c.numbers ((c.edges.filter fun e => e.kind == .flowsTo && e.target == id).map (·.source))

/-- The bits of a guard. -/
def mask (c : EmissionContext) (n : FlatNode) : Mask :=
  (n.labels.filterMap c.bit?).foldl (fun m b => m ||| Mask.single b) 0

/-- The labels that the program has to test. -/
def residual (c : EmissionContext) (n : FlatNode) : List Bytes :=
  n.labels.filter fun l => (c.bit? l).isNone

/-- The guard as text. -/
def source (c : EmissionContext) (n : FlatNode) : Bytes :=
  let fired := fun (ns : List Nat) =>
    utf8 "fired(" ++ Bytes.joined (utf8 " | ") (ns.map c.name) ++ utf8 ")"
  let flowing := c.flowing n.id
  Bytes.joined (utf8 " && ") <|
    n.labels ++
    (n.expressions.map fun x => utf8 "(" ++ x.tree.toText ++ utf8 ")") ++
    ((c.required n.id).map fun i => fired [i]) ++
    ((c.neutralizing n.id).map fun i => utf8 "!" ++ fired [i]) ++
    (if flowing.isEmpty then [] else [fired flowing])

/-- The conjuncts of the program of a guard. -/
def conjuncts (c : EmissionContext) (n : FlatNode) : Assembly.Emitter Unit := do
  for p in (c.residual n).filterMap Predicate.ofLabel? do
    Assembly.emitCategorical p
  for x in n.expressions do
    Assembly.emitExpression x.tree
  for i in c.required n.id do
    Assembly.emitFired (UInt32.ofNat i)
  for i in c.neutralizing n.id do
    Assembly.emitNotFired (UInt32.ofNat i)
  let flowing := c.flowing n.id
  if !flowing.isEmpty then
    Assembly.emitAnyFired (flowing.map UInt32.ofNat)

end EmissionContext

/-- Something that is emitted with the symbols of a plan. -/
abbrev Emission := StateM SymbolTable

/-- The program of some conjuncts. -/
def assembled (allowOutcome : Bool) (conjuncts : Assembly.Emitter Unit) : Emission Program := do
  let (_, s) := (ExceptT.run conjuncts).run (.start (← get) allowOutcome)
  let (p, after) := s.finish
  set after.symbols
  return p

namespace EmissionContext

/-- The guard of a rule. -/
def guard (c : EmissionContext) (n : FlatNode) : Emission Guard := do
  let p ← assembled false (c.conjuncts n)
  return ⟨c.mask n, p, n.labels, c.source n⟩

/-- A candidate of a contest. -/
def branch (c : EmissionContext) (n : FlatNode) : Emission Branch := do
  let g ← c.guard n
  return ⟨c.number n.id, g, n.priority, n.weight, n.outcome, n.order⟩

/-- The order of pairs of numbers. -/
def pairBefore (a b : Nat × Nat) : Bool :=
  decide (a.1 < b.1) || (a.1 == b.1 && decide (a.2 ≤ b.2))

/-- A contest between several rules. -/
def selector (c : EmissionContext) (policy : SelectionPolicy) (comparator : Bytes)
    (contest : Contest) : Emission Step := do
  let branches ← contest.members.mapM c.branch
  let dominates := contest.dominates.map fun p => (c.number p.1, c.number p.2)
  return .selector ⟨contest.group, policy, comparator, branches, dominates.mergeSort pairBefore⟩

/-- The steps of a contest; one without rules has none. -/
def steps (c : EmissionContext) (policy : SelectionPolicy) (comparator : Bytes)
    (contest : Contest) : Emission (List Step) := do
  match contest.members with
  | [] => return []
  | [n] =>
    let g ← c.guard n
    match n.outcome with
    | some o => return [.task (c.number n.id) g o]
    | none => return [.sequential (c.number n.id) g]
  | _ => return [← c.selector policy comparator contest]

end EmissionContext

/-- A guardrail with its program. -/
def Guardrail.emitted (r : Guardrail) : Emission PlanGuardrail := do
  let plain : PlanGuardrail :=
    ⟨r.id, r.description, r.mode, sortedDistinct r.appliesTo, .empty, [], r.fallback, r.capParam,
      r.capValue, r.defaultOutcome⟩
  if r.violation.isEmpty then return plain
  else
    match Expr.parse r.violation with
    | .error _ => return plain
    | .ok x =>
      let p ← assembled true (Assembly.emitExpression x)
      return { plain with violation := p, violationSource := x.toText }

/-- Labels that have no usable bit, each with the rules that have it, as warnings in the order of
the labels. -/
def uncatalogued (c : EmissionContext) (rules : List FlatNode) : List Diagnostic :=
  (sortedDistinct (rules.flatMap c.residual)).map fun l =>
    ⟨.uncataloguedAttribute,
      Bytes.quoted l ++ utf8 " has no catalog bit; tested by the guard program",
      (rules.filter fun n => (c.residual n).contains l).map (·.id), []⟩

/-- The plan of a revision, given the contests of its rules. -/
def Revision.emit (r : Revision) (maxBits : Nat) (g : FlatGraph) (contests : List Contest) :
    Blueprint × Findings :=
  let rules := contests.flatMap (·.members)
  let c : EmissionContext := ⟨r.catalog, maxBits, g.edges, rules.map (·.id)⟩
  let emission : Emission (List Step × List PlanGuardrail) := do
    let steps ← contests.mapM (c.steps r.policy r.comparator)
    return (steps.flatten, ← r.guardrails.mapM Guardrail.emitted)
  let ((steps, guardrails), symbols) := emission.run .empty
  let plan : Blueprint :=
    ⟨⟨r.graph, r.version, 0⟩, r.tenant, r.decisionType, r.catalog, symbols,
      rules.map fun n => ⟨n.id, n.kind, n.label⟩, steps, guardrails, []⟩
  (plan.sealed, .ofWarnings (uncatalogued c rules))

end DecisionEngine
