import DecisionEngine.Blueprint.Basic
import DecisionEngine.Decision.Basic
import DecisionEngine.Decision.Trail
import DecisionEngine.Program.Machine
/-!
# Guardrails at work

After the steps of a plan have run, its guardrails look at the decisions in the order in which
they are declared. A veto tests each decision it applies to, with the parameters of the decision
as the outcome; where the test is true or faults, the fallback is applied. A mandate supplies a
decision for selectors that selected nothing, at most one for a selector.

* `PlanGuardrail.review`: what a veto makes of one decision.
* `Blueprint.applyGuardrails`: all guardrails on all decisions.
-/

namespace DecisionEngine

/-! ## Figures and state -/

/-- How often guardrails did what. -/
structure GuardrailFigures where
  vetoes : Nat
  caps : Nat
  defaults : Nat
  faults : Nat
  deriving DecidableEq

namespace GuardrailFigures

/-- Nothing was done. -/
def zero : GuardrailFigures := ⟨0, 0, 0, 0⟩

/-- Both together. -/
def plus (a b : GuardrailFigures) : GuardrailFigures :=
  ⟨a.vetoes + b.vetoes, a.caps + b.caps, a.defaults + b.defaults, a.faults + b.faults⟩

/-- One veto. -/
def oneVeto : GuardrailFigures := ⟨1, 0, 0, 0⟩

/-- One cap. -/
def oneCap : GuardrailFigures := ⟨0, 1, 0, 0⟩

/-- One default. -/
def oneDefault : GuardrailFigures := ⟨0, 0, 1, 0⟩

/-- One fault. -/
def oneFault : GuardrailFigures := ⟨0, 0, 0, 1⟩

/-- The sum of a list of figures. -/
def sum (fs : List GuardrailFigures) : GuardrailFigures := fs.foldl plus zero

end GuardrailFigures

/-- Why guardrails cannot be applied: an unresolved step that the plan does not have. -/
inductive GuardrailError
  | outOfRange
  deriving DecidableEq

/-- Decisions as far as guardrails have gone through them, what was done to them, and the steps
that have got a default. -/
structure Review where
  decisions : List Decision
  trail : Trail
  figures : GuardrailFigures
  defaulted : List Nat
  deriving DecidableEq

/-- The decisions before any guardrail. -/
def Review.start (decisions : List Decision) : Review := ⟨decisions, [], .zero, []⟩

/-! ## Vetoes -/

namespace PlanGuardrail

/-- Whether a guardrail applies to an action. -/
def appliesToAction (g : PlanGuardrail) (action : Bytes) : Bool :=
  g.appliesTo.isEmpty || sortedContains g.appliesTo action

/-- How a decision is spoken of. -/
def subject (d : Decision) : Bytes :=
  Bytes.quoted d.action ++ if d.node = [] then [] else utf8 " of " ++ d.node

/-- What a guardrail is called. -/
def title (g : PlanGuardrail) : Bytes := utf8 "guardrail " ++ g.id

/-- An entry about a decision. -/
def entryFor (kind : TrailKind) (d : Decision) (detail : Bytes) : TrailEntry :=
  ⟨kind, some d.step, d.node, 0, detail⟩

/-- The decision with the capped parameter set to its cap. -/
def capped (g : PlanGuardrail) (d : Decision) : Decision :=
  { d with
    params := d.params.set g.capParam g.capValue
    status := .capped
    guardrail := g.id }

/-- The decision with another action in the place of its own. -/
def replaced (g : PlanGuardrail) (d : Decision) (action : Bytes) (status : DecisionStatus) :
    Decision :=
  { d with action := action, params := .empty, status := status, guardrail := g.id }

/-- The entry about a cap. -/
def capEntry (g : PlanGuardrail) (d : Decision) (cause : Bytes) : TrailEntry :=
  let old := match d.params.find? g.capParam with
    | some v => v.toText
    | none => utf8 "unset"
  entryFor .guardrailCap d (g.title ++ utf8 " capped " ++ g.capParam ++ utf8 " of " ++ subject d ++
    utf8 " from " ++ old ++ utf8 " to " ++ g.capValue.toText ++ utf8 " (" ++ cause ++ utf8 ")")

/-- The entry about a veto. -/
def vetoEntry (g : PlanGuardrail) (d : Decision) (cause action : Bytes) : TrailEntry :=
  entryFor .guardrailVeto d (g.title ++ utf8 " vetoed " ++ subject d ++ utf8 " (" ++ cause ++
    utf8 "); replaced with " ++ action)

/-- What a veto makes of a decision, the entries about it and what it counts for. -/
structure Reviewed where
  decision : Decision
  trail : Trail
  figures : GuardrailFigures
  deriving DecidableEq

/-- A decision that a veto leaves as it is. -/
def Reviewed.untouched (d : Decision) : Reviewed := ⟨d, [], .zero⟩

/-- What a fired veto makes of a decision. -/
def applyFallback (g : PlanGuardrail) (d : Decision) (cause : Bytes) : Reviewed :=
  match g.fallback with
  | .cap => ⟨g.capped d, [g.capEntry d cause], .oneCap⟩
  | .deny => ⟨g.replaced d denyAction .denied, [g.vetoEntry d cause denyAction], .oneVeto⟩
  | .noAction => ⟨g.replaced d noAction .noAction, [g.vetoEntry d cause noAction], .oneVeto⟩

/-- A veto on one decision. It runs on the parameters that the decision has by then. -/
def review (g : PlanGuardrail) (env : Program.Env) (d : Decision) : Reviewed :=
  if d.status.isSettled || !g.appliesToAction d.action then .untouched d
  else
    match g.violation.run { env with outcome := d.params } with
    | .ok false => .untouched d
    | .ok true => g.applyFallback d (utf8 "violation " ++ g.violationSource)
    | .error fault =>
      let cause := utf8 "faulted: " ++ fault.message
      let changed := g.applyFallback d cause
      ⟨changed.decision, entryFor .guardrailFault d
        (g.title ++ utf8 " " ++ cause ++ utf8 "; applying fallback") :: changed.trail,
        GuardrailFigures.oneFault.plus changed.figures⟩

/-- A veto on all decisions. -/
def runVeto (g : PlanGuardrail) (env : Program.Env) (r : Review) : Review :=
  let reviewed := r.decisions.map (g.review env)
  { r with
    decisions := reviewed.map (·.decision)
    trail := r.trail ++ reviewed.flatMap (·.trail)
    figures := r.figures.plus (.sum (reviewed.map (·.figures))) }

/-! ## Mandates -/

/-- Whether a guardrail names the node of one of the branches. -/
def namesNodeOf (g : PlanGuardrail) (b : Blueprint) : List Branch → Except GuardrailError Bool
  | [] => .ok false
  | branch :: rest =>
    match b.nodeId? branch.node with
    | none => .error .outOfRange
    | some id => if sortedContains g.appliesTo id then .ok true else g.namesNodeOf b rest

/-- Whether a mandate is about a selector: it names one of its nodes, or none at all. -/
def targets (g : PlanGuardrail) (b : Blueprint) (s : Selector) : Except GuardrailError Bool :=
  if g.appliesTo.isEmpty then .ok true else g.namesNodeOf b s.branches

/-- The decision that a mandate supplies for a step. -/
def defaultFor (g : PlanGuardrail) (step : Nat) : Decision :=
  ⟨[], g.defaultOutcome.action, g.defaultOutcome.params, .mandated, g.id, step⟩

/-- What the condition of a mandate says about a step. -/
inductive MandateAnswer
  | refused
  | granted (cause : Bytes)
  | faulted (fault : Program.Fault)

/-- The answer of the condition; there need not be one. -/
def mandateAnswer (g : PlanGuardrail) (env : Program.Env) : MandateAnswer :=
  if g.violation.isEmpty then .granted []
  else
    match g.violation.run env with
    | .ok false => .refused
    | .ok true => .granted (utf8 " and " ++ g.violationSource ++ utf8 " holds")
    | .error fault => .faulted fault

/-- The entry about a default. -/
def defaultEntry (g : PlanGuardrail) (s : Selector) (step : Nat) (cause : Bytes) : TrailEntry :=
  ⟨.guardrailDefault, some step, [], 0, g.title ++ utf8 " mandated " ++
    Bytes.quoted g.defaultOutcome.action ++ utf8 " because no branch of " ++ s.group ++
    utf8 " was selected" ++ cause⟩

/-- The entry about a condition that faulted. -/
def conditionFaultEntry (g : PlanGuardrail) (step : Nat) (fault : Program.Fault) : TrailEntry :=
  ⟨.guardrailFault, some step, [], 0, g.title ++ utf8 " condition faulted: " ++ fault.message ++
    utf8 "; emitting its default"⟩

/-- The review with the default of a step, which is got in spite of a fault. -/
def supply (g : PlanGuardrail) (s : Selector) (step : Nat) (r : Review) : MandateAnswer → Review
  | .refused => r
  | .granted cause =>
    ⟨r.decisions ++ [g.defaultFor step], r.trail ++ [g.defaultEntry s step cause],
      r.figures.plus .oneDefault, step :: r.defaulted⟩
  | .faulted fault =>
    ⟨r.decisions ++ [g.defaultFor step],
      r.trail ++ [g.conditionFaultEntry step fault, g.defaultEntry s step []],
      r.figures.plus (GuardrailFigures.oneFault.plus .oneDefault), step :: r.defaulted⟩

/-- A mandate on one unresolved step. -/
def mandateStep (g : PlanGuardrail) (b : Blueprint) (env : Program.Env) (r : Review)
    (step : Nat) : Except GuardrailError Review :=
  if r.defaulted.contains step then .ok r
  else
    match b.steps[step]? with
    | none => .error .outOfRange
    | some (.selector s) => do
      if ← g.targets b s then return g.supply s step r (g.mandateAnswer env) else return r
    | some _ => .ok r

/-- A guardrail on the decisions and the unresolved steps. -/
def apply (g : PlanGuardrail) (b : Blueprint) (env : Program.Env) (unresolved : List Nat)
    (r : Review) : Except GuardrailError Review :=
  match g.mode with
  | .veto => .ok (g.runVeto env r)
  | .mandateDefault => unresolved.foldlM (g.mandateStep b env) r

end PlanGuardrail

/-- All guardrails of a plan, one after another, on the decisions of a run. `unresolved` lists the
selector steps that selected nothing. -/
def Blueprint.applyGuardrails (b : Blueprint) (env : Program.Env) (unresolved : List Nat)
    (decisions : List Decision) : Except GuardrailError Review :=
  b.guardrails.foldlM (fun r g => g.apply b env unresolved r) (Review.start decisions)

end DecisionEngine
