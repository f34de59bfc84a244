import DecisionEngine.Context.Snapshot
import DecisionEngine.Document.Plan
import DecisionEngine.Options
import DecisionEngine.Plan.Arbitration
import DecisionEngine.Plan.Guardrails
import DecisionEngine.Trace.Record
/-!
# Accounts of decisions

What a reader of answers wants to see: the request, the context it was answered in, the decisions
with what explains them, and the record that is kept of them. Responses and options can be read
from their accounts too.
-/

namespace DecisionEngine

/-- Options as an account changes them: what it does not say stays as it is. -/
def Options.changedBy (o : Options) (d : Document) : Options where
  deadlineMicros := d.getOr "deadline_us" o.deadlineMicros
  hotTtlMillis := d.getOr "hot_ttl_ms" o.hotTtlMillis
  fallbackCapacity := d.getOr "fallback_capacity" o.fallbackCapacity
  failSafe := d.getOr "fail_safe" o.failSafe
  defaultAttributes := d.getOr "default_attributes" o.defaultAttributes
  overrideSecret := d.getOr "secret" o.overrideSecret
  overrideMaxTtlMillis := d.getOr "max_ttl_ms" o.overrideMaxTtlMillis
  explainByDefault := d.getOr "explain_by_default" o.explainByDefault
  replicaId := d.getOr "replica_id" o.replicaId

instance : Documented Options := ⟨fun o =>
  .record [("deadline_us", o.deadlineMicros), ("hot_ttl_ms", o.hotTtlMillis),
    ("fallback_capacity", o.fallbackCapacity.toNat), ("fail_safe", o.failSafe),
    ("default_attributes", o.defaultAttributes), ("secret", o.overrideSecret),
    ("max_ttl_ms", o.overrideMaxTtlMillis), ("explain_by_default", o.explainByDefault),
    ("replica_id", o.replicaId)]⟩

instance : Documented Snapshot := ⟨fun s =>
  .record [("tenant", s.tenant), ("entity", s.entity), ("id", s.id),
    ("attributes", s.attributes), ("mask", s.mask), ("fingerprint", s.fingerprint),
    ("at", s.materializedAt), ("default", s.isDefault)]⟩

/-! ## Responses -/

instance : Readable DecisionStatus :=
  ⟨Document.member DecisionStatus.all DecisionStatus.name .chosen⟩

instance : Readable TrailKind := ⟨Document.member TrailKind.all TrailKind.name .resolution⟩

instance : Readable ContextOrigin :=
  ⟨Document.member ContextOrigin.all ContextOrigin.name .shared⟩

instance : Readable Decision := ⟨fun d =>
  ⟨d.get "node", d.get "action", d.get "params", d.get "status", d.get "guardrail",
    d.get "step"⟩⟩

instance : Documented Decision := ⟨fun d =>
  .record [("node", d.node), ("action", d.action), ("params", d.params),
    ("status", d.status.name), ("guardrail", d.guardrail), ("step", d.step)]⟩

instance : Readable Alternative := ⟨fun d =>
  ⟨d.get "node", d.get "action", d.get "step", d.get "reason"⟩⟩

instance : Documented Alternative := ⟨fun a =>
  .record [("node", a.node), ("action", a.action), ("step", a.step), ("reason", a.reason)]⟩

instance : Readable TrailEntry := ⟨fun d =>
  ⟨d.get "kind", d.get "step", d.get "node", d.get "mask", d.get "detail"⟩⟩

instance : Documented TrailEntry := ⟨fun e =>
  .record [("kind", e.kind.name), ("step", e.step), ("node", e.node), ("mask", e.mask),
    ("detail", e.detail)]⟩

/-- What a response says, without its stamp. -/
def Response.fields (r : Response) : Fields :=
  [("decisions", r.decisions), ("alternatives", r.alternatives),
    ("trail", (r.trail : List TrailEntry)), ("blueprint", r.provenance.blueprint),
    ("snapshot", r.provenance.snapshot), ("origin", r.provenance.origin.name),
    ("default_context", r.provenance.defaultContext),
    ("override_applied", r.provenance.overrideApplied), ("fail_closed", r.provenance.failClosed),
    ("explain", r.provenance.explain)]

/-- The stamp of a response. -/
def Stamp.fields (s : Stamp) : Fields :=
  [("trace_id", s.traceId), ("received_at", s.receivedAt), ("completed_at", s.completedAt),
    ("elapsed_us", s.elapsedMicros)]

instance : Readable Response := ⟨fun d =>
  ⟨d.get "decisions", d.get "alternatives", (d.get "trail" : List TrailEntry),
    ⟨d.get "blueprint", d.get "snapshot", d.get "origin", d.get "default_context",
      d.get "override_applied", d.get "fail_closed", d.get "explain"⟩,
    ⟨d.get "trace_id", d.get "received_at", d.get "completed_at", d.get "elapsed_us"⟩⟩⟩

instance : Documented Response := ⟨fun r => .record (r.fields ++ r.stamp.fields)⟩

/-! ## Arbitration and guardrails -/

/-- The places of the winner and of the losers in the selector, with the reasons. -/
instance : Documented Selection := ⟨fun s =>
  .record [("winner", s.winner), ("losers", s.losers.map fun l => (l.branch, l.reason.text)),
    ("rationale", s.rationale)]⟩

/-- How often a guardrail did something. -/
def GuardrailFigures.fields (f : GuardrailFigures) : Fields :=
  [("vetoes", f.vetoes), ("caps", f.caps), ("defaults", f.defaults), ("faults", f.faults)]

/-! ## Records -/

instance : Documented Request := ⟨fun r =>
  .record [("tenant", r.tenant), ("type", r.decisionType), ("entity", r.entity),
    ("inputs", r.inputs), ("explain", r.explain), ("timeout_us", r.timeoutMicros)]⟩

/-- What a record says, apart from its response. -/
def TraceRecord.fields (r : TraceRecord) : Fields :=
  [("trace_id", r.traceId), ("request", r.request), ("blueprint", r.blueprint),
    ("snapshot", r.snapshot), ("origin", r.origin.name), ("notes", r.notes),
    ("overrides", r.overrides), ("override_note", r.overrideNote)]

instance : Documented TraceRecord := ⟨fun r =>
  .record (r.fields ++ ([("response", r.response)] : Fields))⟩

end DecisionEngine
