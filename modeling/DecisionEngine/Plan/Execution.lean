import DecisionEngine.Plan.Arbitration
import DecisionEngine.Plan.Guardrails
/-!
# Running a plan

The steps of a plan are run in their order. A step is tested by its mask, which skips it without
further ado, and by its program, of which a fault counts as a failure. A rule that passes fires; an
action that fires decides; a selector lets one of its passing branches fire and decide. Then the
guardrails look at the decisions.

With `verbose` the trail also lists every test and every candidate; the decisions do not depend on
it.

* `Situation.testGuard`: what testing a guard comes to.
* `Situation.runStep`, `Situation.runSteps`: what steps add to a run.
* `Situation.run`: a whole plan.
-/

namespace DecisionEngine

/-! ## Situations -/

/-- What a plan is run on: the mask of the attributes, the values that its symbols are bound to,
the comparators that its selectors may name, and whether the time limit has passed. -/
structure Situation where
  blueprint : Blueprint
  mask : Mask
  context : List (Option Value)
  inputs : List (Option Value)
  verbose : Bool
  comparators : Comparators
  expired : Bool

/-- Where a time limit can be found to have passed. -/
inductive Stage
  | contextResolution
  | ruleEvaluation
  | guardrails
  deriving DecidableEq

/-- The name of a stage. -/
def Stage.name : Stage → Bytes
  | contextResolution => utf8 "context resolution"
  | ruleEvaluation => utf8 "rule evaluation"
  | guardrails => utf8 "guardrails"

/-- Why a run ends without a result. -/
inductive RunError
  | timedOut (stage : Stage)
  | arbitration (e : ArbitrationError)
  | outOfRange
  deriving DecidableEq

/-- How often what happened in a run. -/
structure RunFigures where
  maskSkips : Nat
  guardEvaluations : Nat
  guardFaults : Nat
  deriving DecidableEq

namespace RunFigures

/-- Nothing happened. -/
def zero : RunFigures := ⟨0, 0, 0⟩

/-- Both together. -/
def plus (a b : RunFigures) : RunFigures :=
  ⟨a.maskSkips + b.maskSkips, a.guardEvaluations + b.guardEvaluations,
    a.guardFaults + b.guardFaults⟩

end RunFigures

/-- How far a run has come: which nodes have fired, what was decided, and which selectors selected
nothing. -/
structure Progress where
  fired : List Bool
  decisions : List Decision
  alternatives : List Alternative
  trail : Trail
  unresolved : List Nat
  figures : RunFigures
  deriving DecidableEq

namespace Progress

/-- Before the first step: nothing has fired. -/
def start (b : Blueprint) : Progress := ⟨b.nodes.map fun _ => false, [], [], [], [], .zero⟩

/-- More entries in the trail. -/
def noted (p : Progress) (entries : Trail) : Progress := { p with trail := p.trail ++ entries }

/-- A node has fired. -/
def fire (p : Progress) (node : Nat) : Progress := { p with fired := p.fired.set node true }

/-- One more decision. -/
def decided (p : Progress) (d : Decision) : Progress :=
  { p with decisions := p.decisions ++ [d] }

end Progress

/-! ## Guards -/

/-- What the test of a guard comes to. -/
inductive GuardResult
  | skipped
  | passed
  | failed
  | faulted
  deriving DecidableEq

/-- The result of a test, the entries about it, and what it counts for. -/
structure GuardTest where
  result : GuardResult
  trail : Trail
  figures : RunFigures

namespace Situation

/-- What programs read. -/
def env (s : Situation) (fired : List Bool) : Program.Env :=
  ⟨s.context, s.inputs, .empty, s.blueprint.symbols.names, fired⟩

/-- An entry that is made only where everything is to be explained. -/
def verbosely (s : Situation) (e : TrailEntry) : Trail := if s.verbose then [e] else []

/-- What a guard says in the trail where it is tested. -/
def sourceOf (g : Guard) : Bytes := if g.source = [] then utf8 "unconditional" else g.source

/-- The test of the guard of a node in a step. -/
def testGuard (s : Situation) (fired : List Bool) (step : Nat) (node : Bytes) (g : Guard) :
    GuardTest :=
  let entry (kind : TrailKind) (detail : Bytes) : TrailEntry :=
    ⟨kind, some step, node, g.mask, detail⟩
  if s.mask.covers g.mask then
    let evaluations := if g.program.isEmpty then 0 else 1
    match g.program.run (s.env fired) with
    | .ok true =>
      ⟨.passed, s.verbosely (entry .guardPassed (sourceOf g)), ⟨0, evaluations, 0⟩⟩
    | .ok false =>
      ⟨.failed, s.verbosely (entry .guardFailed (sourceOf g)), ⟨0, evaluations, 0⟩⟩
    | .error fault =>
      ⟨.faulted, [entry .guardFault (fault.message ++ utf8 "; treated as failed")],
        ⟨0, evaluations, 1⟩⟩
  else
    let missing := s.blueprint.catalog.describe (g.mask &&& ~~~ s.mask)
    ⟨.skipped, s.verbosely (entry .maskSkip (utf8 "missing " ++ Bytes.joined (utf8 ", ") missing)),
      ⟨1, 0, 0⟩⟩

/-- The progress after a test. -/
def afterTest (p : Progress) (t : GuardTest) : Progress :=
  { p with trail := p.trail ++ t.trail, figures := p.figures.plus t.figures }

/-- The node of a number. -/
def planNode (s : Situation) (index : Nat) : Except RunError PlanNode :=
  match s.blueprint.nodes[index]? with
  | some n => .ok n
  | none => .error .outOfRange

/-! ## Steps -/

/-- A rule without outcome. -/
def runSequential (s : Situation) (step node : Nat) (g : Guard) (p : Progress) :
    Except RunError Progress := do
  let n ← s.planNode node
  let t := s.testGuard p.fired step n.id g
  let p := afterTest p t
  if t.result = .passed then
    return (p.fire node).noted [⟨.fired, some step, n.id, 0, n.kind.name⟩]
  else return p

/-- An action. -/
def runTask (s : Situation) (step node : Nat) (g : Guard) (o : Outcome) (p : Progress) :
    Except RunError Progress := do
  let n ← s.planNode node
  let t := s.testGuard p.fired step n.id g
  let p := afterTest p t
  if t.result = .passed then
    return ((p.fire node).decided (.chosenBy n.id o.action o.params step)).noted
      [⟨.fired, some step, n.id, 0, utf8 "emitted " ++ Bytes.quoted o.action⟩]
  else return p

/-- The branches of a selector are tested one after another; those that pass are candidates, which
are given by their places. -/
def testBranches (s : Situation) (step : Nat) :
    List (Branch × Nat) → Progress → Except RunError (List Nat × Progress)
  | [], p => .ok ([], p)
  | (b, place) :: rest, p => do
    let n ← s.planNode b.node
    let t := s.testGuard p.fired step n.id b.guard
    let p := afterTest p t
    if t.result = .passed then
      let priority := utf8 "priority " ++ Bytes.signedDecimal b.priority.toInt
      let p := p.noted (s.verbosely ⟨.candidate, some step, n.id, b.guard.mask, priority⟩)
      let (candidates, p) ← s.testBranches step rest p
      return (place :: candidates, p)
    else s.testBranches step rest p

/-- The action of a branch; empty if it has none. -/
def actionOf (b : Branch) : Bytes :=
  match b.outcome with
  | some o => o.action
  | none => []

/-- The alternative that a losing candidate is. -/
def alternativeOf (s : Situation) (step : Nat) (sel : Selector) (l : Loss) :
    Except RunError Alternative := do
  match sel.branches[l.branch]? with
  | none => throw .outOfRange
  | some b => return ⟨(← s.planNode b.node).id, actionOf b, step, l.reason.text⟩

/-- The winner of a selection fires, and decides if it has an outcome; the others are
alternatives. -/
def selected (s : Situation) (step : Nat) (sel : Selector) (winner : Nat) (v : Selection)
    (p : Progress) : Except RunError Progress := do
  match sel.branches[winner]? with
  | none => throw .outOfRange
  | some b =>
    let n ← s.planNode b.node
    let p := (p.fire b.node).noted [⟨.arbitration, some step, n.id, b.guard.mask, v.rationale⟩]
    let p := match b.outcome with
      | some o => p.decided (.chosenBy n.id o.action o.params step)
      | none => p
    let alternatives ← v.losers.mapM (s.alternativeOf step sel)
    return { p with alternatives := p.alternatives ++ alternatives }

/-- No branch of a selector was eligible. -/
def unselected (step : Nat) (sel : Selector) (p : Progress) : Progress :=
  { p with unresolved := p.unresolved ++ [step] }.noted
    [⟨.arbitration, some step, [], 0,
      utf8 "no eligible branch in " ++ sel.group ++ utf8 "; no decision"⟩]

/-- A selection. -/
def runSelector (s : Situation) (step : Nat) (sel : Selector) (p : Progress) :
    Except RunError Progress := do
  let (candidates, p) ← s.testBranches step sel.branches.zipIdx p
  let v ← (sel.arbitrate s.comparators s.blueprint.nodes candidates).mapError .arbitration
  match v.winner with
  | none => return unselected step sel p
  | some winner => s.selected step sel winner v p

/-- A step. -/
def runStep (s : Situation) (index : Nat) (step : Step) (p : Progress) :
    Except RunError Progress :=
  match step with
  | .sequential node g => s.runSequential index node g p
  | .task node g o => s.runTask index node g o p
  | .selector sel => s.runSelector index sel p

/-- Stops where the time limit has passed. -/
def checkTime (s : Situation) (stage : Stage) : Except RunError Unit :=
  if s.expired then .error (.timedOut stage) else .ok ()

/-- Steps, one after another. -/
def runSteps (s : Situation) : List (Step × Nat) → Progress → Except RunError Progress
  | [], p => .ok p
  | (step, index) :: rest, p => do
    s.checkTime .ruleEvaluation
    s.runSteps rest (← s.runStep index step p)

/-! ## Plans -/

/-- The result of a run. -/
structure RunResult where
  decisions : List Decision
  alternatives : List Alternative
  trail : Trail
  figures : RunFigures
  guardrails : GuardrailFigures
  deriving DecidableEq

/-- A whole plan: its steps and then its guardrails. -/
def run (s : Situation) : Except RunError RunResult := do
  let p ← s.runSteps s.blueprint.steps.zipIdx (.start s.blueprint)
  s.checkTime .guardrails
  let r ← (s.blueprint.applyGuardrails (s.env p.fired) p.unresolved p.decisions).mapError
    fun _ => .outOfRange
  s.checkTime .guardrails
  return ⟨r.decisions, p.alternatives, p.trail ++ r.trail, p.figures, r.figures⟩

/-- The situation of a blueprint on attributes and inputs. -/
def ofAttributes (b : Blueprint) (mask : Mask) (attributes inputs : AttributeSet) (verbose : Bool)
    (comparators : Comparators) (expired : Bool) : Situation :=
  ⟨b, mask, Program.bind b.symbols.names attributes, Program.bind b.symbols.names inputs, verbose,
    comparators, expired⟩

end Situation
end DecisionEngine
