import DecisionEngine.Document.Decision
import DecisionEngine.Engine.Basic
/-!
# Accounts of an engine

What an operator wants to see: how many requests there were, what became of them, where their
contexts came from, what is in the cache, and what a token says.
-/

namespace DecisionEngine

/-- The snapshot is named by its id. -/
instance : Documented ResolvedContext := ⟨fun c =>
  .record [("snapshot", c.snapshot.map (·.id)), ("origin", c.origin.name), ("notes", c.notes)]⟩

/-- What an engine has counted. -/
def Statistics.fields (s : Statistics) : Fields :=
  [("requests", s.requests), ("decisions", s.decisions), ("no_blueprint", s.noBlueprint),
    ("bitmask_skips", s.bitmaskSkips), ("guard_evaluations", s.guardEvaluations),
    ("guard_faults", s.guardFaults), ("vetoes", s.guardrailVetoes), ("caps", s.guardrailCaps),
    ("defaults", s.guardrailDefaults), ("overrides_applied", s.overridesApplied),
    ("overrides_rejected", s.overridesRejected), ("deadline_exceeded", s.deadlineExceeded),
    ("fail_closed", s.failClosed), ("trace_failures", s.traceFailures)]

/-- Where the contexts came from. -/
def ResolverFigures.fields (f : ResolverFigures) : Fields :=
  [("hot_hits", f.hotHits), ("shared_fetches", f.sharedFetches), ("misses", f.misses),
    ("stale_fallbacks", f.staleFallbacks), ("context_fail_closed", f.failClosed),
    ("coalesced_waits", f.coalescedWaits)]

/-- What a shared cache holds and has counted. -/
def SharedCache.fields (c : SharedCache) : Fields :=
  [("fetches", c.fetches), ("publishes", c.publishes), ("entities", c.entities)]

/-- What a token says. -/
def OverrideToken.fields (t : OverrideToken) : Fields :=
  [("tenant", t.tenant), ("entity", t.entity), ("attributes", t.attributes),
    ("issued", t.issuedAt), ("expires", t.expiresAt)]

instance : Documented Engine := ⟨fun e =>
  .record (e.statistics.fields ++ e.resolver.figures.fields)⟩

end DecisionEngine
