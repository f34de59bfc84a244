import DecisionEngine.Decision.Response
import DecisionEngine.Wire.Writer
/-!
# Trace records

A trace record is what is kept of an answered request: everything that is needed to compute the
answer again from the same plan and snapshot, and the answer itself. Override tokens expire, so
the attributes they gave are recorded, and not the tokens.
-/

namespace DecisionEngine

/-- A record of an answered request. -/
structure TraceRecord where
  traceId : Bytes
  request : Request
  blueprint : Option BlueprintId
  snapshot : Bytes
  origin : ContextOrigin
  notes : List Bytes
  overrides : Option AttributeSet
  overrideNote : Bytes
  response : Response
  deriving DecidableEq

/-! ## Bytes of a record -/

namespace Wire

/-- Something, or the symbol for nothing. -/
def optional {α : Type} (item : α → Bytes) : Option α → Bytes
  | some x => item x
  | none => null

/-- The id of a blueprint. -/
def blueprintId (id : BlueprintId) : Bytes :=
  functionHead (utf8 "BlueprintId") 3 ++ text id.graph ++ word id.version ++ word id.contentHash

/-- A request; the timeout of one that has none is written as -1. -/
def request (r : Request) : Bytes :=
  functionHead (utf8 "Request") 6 ++ text r.tenant ++ text r.decisionType ++ text r.entity ++
    attributes r.inputs ++ bool r.explain ++ int (r.timeoutMicros.getD (-1))

/-- A decision. -/
def decision (d : Decision) : Bytes :=
  functionHead (utf8 "Decision") 6 ++ text d.node ++ text d.action ++ attributes d.params ++
    nat (DecisionStatus.all.idxOf d.status) ++ text d.guardrail ++ nat d.step

/-- An alternative. -/
def alternative (a : Alternative) : Bytes :=
  functionHead (utf8 "Alternative") 4 ++ text a.node ++ text a.action ++ nat a.step ++
    text a.reason

/-- An entry of a trail; the step of one that belongs to no step is written as -1. -/
def trailEntry (e : TrailEntry) : Bytes :=
  functionHead (utf8 "Entry") 5 ++ nat (TrailKind.all.idxOf e.kind) ++
    (match e.step with | some n => nat n | none => int (-1)) ++ text e.node ++ word e.mask ++
    text e.detail

/-- Where a context comes from. -/
def origin (o : ContextOrigin) : Bytes := nat (ContextOrigin.all.idxOf o)

/-- What a response was computed from, and its stamp. -/
def metadata (p : Provenance) (s : Stamp) : Bytes :=
  associationHead 11
    ++ entry "Blueprint" (optional blueprintId p.blueprint)
    ++ entry "ContextSnapshotId" (text p.snapshot)
    ++ entry "ContextOrigin" (origin p.origin)
    ++ entry "TraceId" (text s.traceId)
    ++ entry "ReceivedAt" (int s.receivedAt)
    ++ entry "CompletedAt" (int s.completedAt)
    ++ entry "ElapsedMicros" (int s.elapsedMicros)
    ++ entry "DefaultContext" (bool p.defaultContext)
    ++ entry "OverrideApplied" (bool p.overrideApplied)
    ++ entry "FailClosed" (bool p.failClosed)
    ++ entry "Explain" (bool p.explain)

/-- A response. -/
def response (r : Response) : Bytes :=
  functionHead (utf8 "Response") 4 ++ list decision r.decisions ++
    list alternative r.alternatives ++ list trailEntry r.trail ++ metadata r.provenance r.stamp

end Wire

/-- The bytes of a record. -/
def TraceRecord.encode (r : TraceRecord) : Bytes :=
  Wire.header ++ Wire.functionHead (utf8 "TraceRecord") 9
    ++ Wire.text r.traceId
    ++ Wire.request r.request
    ++ Wire.optional Wire.blueprintId r.blueprint
    ++ Wire.text r.snapshot
    ++ Wire.origin r.origin
    ++ Wire.texts r.notes
    ++ Wire.optional Wire.attributes r.overrides
    ++ Wire.text r.overrideNote
    ++ Wire.response r.response

end DecisionEngine
