import DecisionEngine.AttributeSet
/-!
# Decisions

A run of a plan yields decisions: actions with parameters that were chosen, changed by a
guardrail, or supplied by one. A branch that was eligible and lost its selection is an
alternative, with the reason why it lost.
-/

namespace DecisionEngine

/-! ## Status -/

/-- How a decision came about. -/
inductive DecisionStatus
  | chosen
  | capped
  | denied
  | noAction
  | mandated
  deriving DecidableEq, Inhabited

namespace DecisionStatus

/-- The statuses in the order of their numbers. -/
def all : List DecisionStatus := [chosen, capped, denied, noAction, mandated]

/-- The name of a status. -/
def name : DecisionStatus → Bytes
  | chosen => utf8 "chosen"
  | capped => utf8 "capped"
  | denied => utf8 "denied"
  | noAction => utf8 "no-action"
  | mandated => utf8 "default"

/-- Whether a guardrail has taken the action away; nothing changes the decision after that. -/
def isSettled : DecisionStatus → Bool
  | denied => true
  | noAction => true
  | _ => false

end DecisionStatus

/-- The action that stands for a refused one. -/
def denyAction : Bytes := utf8 "deny"

/-- The action that does nothing. -/
def noAction : Bytes := utf8 "no_action"

/-! ## Decisions and alternatives -/

/-- A decision. It names the node it comes from, except for one that a guardrail supplied, and
the guardrail that changed or supplied it. -/
structure Decision where
  node : Bytes
  action : Bytes
  params : AttributeSet
  status : DecisionStatus
  guardrail : Bytes
  step : Nat
  deriving DecidableEq, Inhabited

/-- The same decision; parameters compare as rules see them. -/
def Decision.same (a b : Decision) : Bool :=
  a.node == b.node && a.action == b.action && a.params.same b.params && a.status == b.status &&
    a.guardrail == b.guardrail && a.step == b.step

/-- What a node of a step decided. -/
def Decision.chosenBy (node action : Bytes) (params : AttributeSet) (step : Nat) : Decision :=
  ⟨node, action, params, .chosen, [], step⟩

/-- An eligible branch that was not selected. -/
structure Alternative where
  node : Bytes
  action : Bytes
  step : Nat
  reason : Bytes
  deriving DecidableEq

end DecisionEngine
