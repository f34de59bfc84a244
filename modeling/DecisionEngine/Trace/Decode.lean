import DecisionEngine.Blueprint.Decode
import DecisionEngine.Trace.Record
/-!
# Reading a trace record

The inverse of `TraceRecord.encode`. The metadata of the response may have entries of unknown keys,
which are passed over, and lack known ones, which then are blank.
-/

namespace DecisionEngine
namespace Wire
namespace Reader

/-- A number that is not negative; a negative one is taken modulo `2 ^ 64`. -/
def step64 : Reader Nat := do return (← int).toUInt64.toNat

/-- The id of a blueprint. -/
def blueprintId : Reader BlueprintId := do
  let _ ← function (utf8 "BlueprintId")
  let graph ← text
  let version ← word
  return ⟨graph, version, ← word⟩

/-- The id of a blueprint, or nothing. -/
def blueprintId? : Reader (Option BlueprintId) := orNull "BlueprintId or Null" blueprintId

/-- A request; a negative timeout stands for none. -/
def request : Reader Request := do
  let _ ← function (utf8 "Request")
  let tenant ← text
  let decisionType ← text
  let entity ← text
  let inputs ← attributes
  let explain ← bool
  let timeout ← int
  return ⟨tenant, decisionType, entity, inputs, explain,
    if timeout < 0 then none else some timeout⟩

/-- A decision. -/
def decision : Reader Decision := do
  let _ ← function (utf8 "Decision")
  let node ← text
  let action ← text
  let params ← attributes
  let status ← enumeration DecisionStatus.all
  let guardrail ← text
  return ⟨node, action, params, status, guardrail, ← step64⟩

/-- An alternative. -/
def alternative : Reader Alternative := do
  let _ ← function (utf8 "Alternative")
  let node ← text
  let action ← text
  let step ← step64
  return ⟨node, action, step, ← text⟩

/-- An entry of a trail; a negative step stands for none. -/
def trailEntry : Reader TrailEntry := do
  let _ ← function (utf8 "Entry")
  let kind ← enumeration TrailKind.all
  let step ← int
  let node ← text
  let mask ← word
  return ⟨kind, if step < 0 then none else some step.toUInt64.toNat, node, mask, ← text⟩

/-- The reader of an entry of the metadata. -/
def metadataEntry (key : Bytes) (m : Provenance × Stamp) :
    Option (Reader (Provenance × Stamp)) :=
  let (p, s) := m
  if key = utf8 "Blueprint" then some do return ({ p with blueprint := ← blueprintId? }, s)
  else if key = utf8 "ContextSnapshotId" then some do return ({ p with snapshot := ← text }, s)
  else if key = utf8 "ContextOrigin" then
    some do return ({ p with origin := ← enumeration ContextOrigin.all }, s)
  else if key = utf8 "TraceId" then some do return (p, { s with traceId := ← text })
  else if key = utf8 "ReceivedAt" then some do return (p, { s with receivedAt := ← int })
  else if key = utf8 "CompletedAt" then some do return (p, { s with completedAt := ← int })
  else if key = utf8 "ElapsedMicros" then some do return (p, { s with elapsedMicros := ← int })
  else if key = utf8 "DefaultContext" then
    some do return ({ p with defaultContext := ← bool }, s)
  else if key = utf8 "OverrideApplied" then
    some do return ({ p with overrideApplied := ← bool }, s)
  else if key = utf8 "FailClosed" then some do return ({ p with failClosed := ← bool }, s)
  else if key = utf8 "Explain" then some do return ({ p with explain := ← bool }, s)
  else none

/-- A response. -/
def response : Reader Response := do
  let _ ← function (utf8 "Response")
  let decisions ← list decision
  let alternatives ← list alternative
  let trail ← list trailEntry
  let (p, s) ← associationWith metadataEntry (Provenance.blank, Stamp.blank)
  return ⟨decisions, alternatives, trail, p, s⟩

/-- The head of a record with a fixed number of fields. -/
def recordHead (name : Bytes) (fields : Nat) : Reader Unit := do
  let start ← position
  if (← function name) = fields then pure ()
  else failAt start (.malformed (.fieldCount name fields))

end Reader
end Wire

namespace TraceRecord

open Wire (Reader)

/-- The record that bytes are. -/
def decode (bytes : Bytes) : Except Wire.Error TraceRecord :=
  Reader.run (do
    Reader.header
    Reader.recordHead (utf8 "TraceRecord") 9
    let traceId ← Reader.text
    let request ← Reader.request
    let blueprint ← Reader.blueprintId?
    let snapshot ← Reader.text
    let origin ← Reader.enumeration ContextOrigin.all
    let notes ← Reader.texts
    let overrides ← Reader.orNull "attributes or Null" Reader.attributes
    let overrideNote ← Reader.text
    let response ← Reader.response
    Reader.finish "TraceRecord"
    return ⟨traceId, request, blueprint, snapshot, origin, notes, overrides, overrideNote,
      response⟩) bytes

end TraceRecord
end DecisionEngine
