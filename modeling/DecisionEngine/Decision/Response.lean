import DecisionEngine.Blueprint.Basic
import DecisionEngine.Context.Snapshot
import DecisionEngine.Decision.Basic
import DecisionEngine.Decision.Trail
/-!
# Requests and responses

A request asks for the decisions of one type about one entity. Its response holds the decisions
with everything that explains them; what depends on the clock is kept apart in a stamp, and
`Response.equivalent` compares two responses without it.
-/

namespace DecisionEngine

/-- A question about an entity. A timeout takes the place of the engine's own time limit. -/
structure Request where
  tenant : Bytes
  decisionType : Bytes
  entity : Bytes
  inputs : AttributeSet
  explain : Bool
  timeoutMicros : Option Int64
  deriving DecidableEq

namespace Request

/-- The entity asked about. -/
def key (r : Request) : ContextKey := ⟨r.tenant, r.entity⟩

/-- The tenant and the decision type as text. -/
def subject (r : Request) : Bytes := r.tenant ++ utf8 "/" ++ r.decisionType

end Request

/-- What a response was computed from, and what went wrong on the way. -/
structure Provenance where
  blueprint : Option BlueprintId
  snapshot : Bytes
  origin : ContextOrigin
  defaultContext : Bool
  overrideApplied : Bool
  failClosed : Bool
  explain : Bool
  deriving DecidableEq

/-- The provenance of nothing at all. -/
def Provenance.blank : Provenance := ⟨none, [], .shared, false, false, false, false⟩

/-- When a response was given and what it is called. -/
structure Stamp where
  traceId : Bytes
  receivedAt : Int64
  completedAt : Int64
  elapsedMicros : Int64
  deriving DecidableEq

/-- The stamp of a response that has none yet. -/
def Stamp.blank : Stamp := ⟨[], 0, 0, 0⟩

/-- The answer to a request. -/
structure Response where
  decisions : List Decision
  alternatives : List Alternative
  trail : Trail
  provenance : Provenance
  stamp : Stamp
  deriving DecidableEq

namespace Response

/-- Whether anything was decided. -/
def hasDecision (r : Response) : Bool := !r.decisions.isEmpty

/-- Where the first decision for an action stands. -/
def decisionFor? (r : Response) (action : Bytes) : Option Nat :=
  r.decisions.findIdx? (·.action == action)

/-- The same decisions in the same order, as rules see them. -/
def sameDecisions (a b : List Decision) : Bool :=
  a.length == b.length && (a.zip b).all fun p => p.1.same p.2

/-- The same decisions, alternatives and trail from the same plan and context. Stamps, origins and
the wish for an explanation do not count. -/
def equivalent (a b : Response) : Bool :=
  sameDecisions a.decisions b.decisions && a.alternatives == b.alternatives &&
    a.trail == b.trail && a.provenance.blueprint == b.provenance.blueprint &&
    a.provenance.snapshot == b.provenance.snapshot &&
    a.provenance.defaultContext == b.provenance.defaultContext &&
    a.provenance.overrideApplied == b.provenance.overrideApplied &&
    a.provenance.failClosed == b.provenance.failClosed

end Response
end DecisionEngine
