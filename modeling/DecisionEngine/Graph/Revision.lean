import DecisionEngine.Catalog
import DecisionEngine.Graph.Node
/-!
# Revisions of a rule graph

A revision is everything a plan is compiled from: the rules of one decision type of one tenant,
the catalog of their labels, how competing rules are selected from, and the guardrails.
-/

namespace DecisionEngine

/-! ## Selection -/

/-- How one of several candidates is selected. -/
inductive SelectionPolicy
  | highestPriority
  | highestWeight
  | firstSatisfied
  | bestMatch
  | custom
  deriving DecidableEq

namespace SelectionPolicy

/-- The policies in the order of their numbers. -/
def all : List SelectionPolicy :=
  [highestPriority, highestWeight, firstSatisfied, bestMatch, custom]

/-- The name of a policy. -/
def name : SelectionPolicy → Bytes
  | highestPriority => utf8 "highest-priority"
  | highestWeight => utf8 "highest-weight"
  | firstSatisfied => utf8 "first-satisfied"
  | bestMatch => utf8 "best-match"
  | custom => utf8 "custom"

end SelectionPolicy

/-! ## Guardrails -/

/-- What a guardrail does: it vetoes outcomes, or it supplies one where none was selected. -/
inductive GuardrailMode
  | veto
  | mandateDefault
  deriving DecidableEq

namespace GuardrailMode

/-- The modes in the order of their numbers. -/
def all : List GuardrailMode := [veto, mandateDefault]

/-- The name of a mode. -/
def name : GuardrailMode → Bytes
  | veto => utf8 "veto"
  | mandateDefault => utf8 "mandate-default"

end GuardrailMode

/-- What becomes of a vetoed outcome. -/
inductive VetoFallback
  | deny
  | noAction
  | cap
  deriving DecidableEq

namespace VetoFallback

/-- The fallbacks in the order of their numbers. -/
def all : List VetoFallback := [deny, noAction, cap]

/-- The name of a fallback. -/
def name : VetoFallback → Bytes
  | deny => utf8 "deny"
  | noAction => utf8 "no-action"
  | cap => utf8 "cap"

end VetoFallback

/-- A guardrail as authored. A veto applies to the actions it names and fires when its violation
is true; a mandate applies to the nodes it names. One that names nothing applies to all. -/
structure Guardrail where
  id : Bytes
  description : Bytes
  mode : GuardrailMode
  appliesTo : List Bytes
  violation : Bytes
  fallback : VetoFallback
  capParam : Bytes
  capValue : Value
  defaultOutcome : Outcome
  deriving DecidableEq

/-! ## Revisions -/

/-- A state of a rule graph that plans are compiled from; the nodes are in declaration order. -/
structure Revision where
  graph : Bytes
  version : UInt64
  tenant : Bytes
  decisionType : Bytes
  catalog : Catalog
  nodes : List Node
  edges : List Edge
  policy : SelectionPolicy
  comparator : Bytes
  guardrails : List Guardrail

end DecisionEngine
