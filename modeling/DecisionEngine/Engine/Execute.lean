import DecisionEngine.Engine.Basic
/-!
# Answering requests

A request is answered from the plan that is active for its tenant and decision type and from the
context of its entity. What cannot be resolved degrades into an answer without decision that says
why, unless the options ask for an error; a time limit that has passed is always an error.

* `Engine.resolve`: the context of an entity.
* `Engine.execute`: the answer to a request.
* `Engine.executePinned`: the answer from a given plan and snapshot.
* `Engine.replay`: a recorded answer, computed again.
-/

namespace DecisionEngine
namespace Engine

variable {σ : Type}

/-! ## Context -/

/-- The context of an entity. -/
def resolve (out : Surroundings σ) (key : ContextKey) (now : Int64) :
    Call σ ResolvedContext := do
  let e ← Call.engine
  match e.resolver.hot? e.options key now with
  | some s =>
    Call.update fun e => { e with resolver := e.resolver.countHit }
    return ⟨some s, .hotCache, []⟩
  | none =>
    let answer ← Call.withOutside (out.fetch key)
    let settled := e.resolver.settle e.options key now answer
    Call.update fun e => { e with resolver := settled.resolver }
    Call.warn settled.warnings
    if settled.rehydrate then Call.withOutside fun s => ((), out.rehydrate key s)
    match settled.result with
    | .ok c => return c
    | .error err => Call.stop (.ofResolve err)

/-! ## Override tokens -/

/-- The input that carries a token. -/
def tokenInput : Bytes := utf8 "override_token"

/-- What becomes of the token of a request. -/
inductive OverrideCheck
  | absent
  | applied (attributes : AttributeSet)
  | ignored (reason : Bytes)
  deriving DecidableEq

/-- What the trail says about the token. -/
def OverrideCheck.note : OverrideCheck → Bytes
  | absent => []
  | applied attributes => utf8 "override token applied: " ++ attributes.toText
  | ignored reason => utf8 "override token ignored: " ++ reason

/-- The attributes that the token gives. -/
def OverrideCheck.overrides : OverrideCheck → Option AttributeSet
  | applied attributes => some attributes
  | _ => none

/-- Verifies the token of a request. -/
def checkOverride (e : Engine) (request : Request) (now : Int64) : OverrideCheck :=
  match request.inputs.find? tokenInput with
  | none => .absent
  | some v =>
    match e.authority, v with
    | none, _ => .ignored (utf8 "override tokens are disabled")
    | some a, .text token =>
      match a.verify token request.tenant request.entity now with
      | .ok t => .applied t.attributes
      | .error r => .ignored r.message
    | some _, v => .ignored (utf8 "token must be a string, got " ++ v.kindName)

/-- Counts what becomes of a token, and warns about one that is ignored. -/
def recordOverride (request : Request) : OverrideCheck → Call σ Unit
  | .absent => pure ()
  | .applied _ => Call.count fun t => { t with overridesApplied := t.overridesApplied + 1 }
  | .ignored reason => do
    Call.count fun t => { t with overridesRejected := t.overridesRejected + 1 }
    Call.warn [.ofPieces [utf8 "override token for ", request.tenant, utf8 "/", request.entity,
      utf8 " ignored: ", reason]]

/-- How the context of a request was obtained, its token included. -/
def pinnedBy (c : ResolvedContext) (check : OverrideCheck) : Pinned :=
  ⟨c.origin, c.notes, check.overrides, check.note⟩

/-! ## Plans -/

/-- The warning about a snapshot of another catalog. -/
def catalogWarning (b : Blueprint) (s : Snapshot) : Warning :=
  .ofPieces [utf8 "snapshot ", s.id, utf8 " was built with catalog ", Bytes.hexWord s.fingerprint,
    utf8 ", blueprint ", b.id.toText, utf8 " uses ", Bytes.hexWord b.catalog.fingerprint]

/-- The answer of a plan on a snapshot, if there is one. -/
def runPlan (request : Request) (b : Blueprint) (snapshot : Option Snapshot) (pin : Pinned)
    (expired : Bool) : Call σ Response := do
  let e ← Call.engine
  let verbose := e.isVerbose request
  match snapshot with
  | none =>
    Call.count fun t => { t with failClosed := t.failClosed + 1 }
    return .withoutContext b pin verbose
  | some s =>
    Call.warn (if s.isForeignTo b then [catalogWarning b s] else [])
    match (pin.situation b s request.inputs verbose e.comparators expired).run with
    | .error err => Call.stop (.ofRun err)
    | .ok r =>
      Call.count (·.withRun r)
      return .ofRun b s pin verbose r

/-! ## Records -/

/-- The response with its stamp; the number of the answer is used up. -/
def stamped (clock : Clock) (r : Response) : Call σ Response := do
  let e ← Call.engine
  Call.update fun e => { e with nextTrace := e.nextTrace + 1 }
  return { r with
    stamp := ⟨e.traceId e.nextTrace, clock.wallMillis, clock.wallMillis, clock.elapsedMicros⟩ }

/-- The record of an answer. -/
def recordOf (request : Request) (pin : Pinned) (r : Response) : TraceRecord where
  traceId := r.stamp.traceId
  request := request
  blueprint := r.provenance.blueprint
  snapshot := r.provenance.snapshot
  origin := pin.origin
  notes := pin.notes
  overrides := pin.overrides
  overrideNote := pin.overrideNote
  response := r

/-- The warning about a record that the sink does not take. -/
def sinkWarning (traceId : Bytes) : SinkRefusal → Warning
  | .because reason =>
    .ofPieces [utf8 "trace sink failed for ", traceId, utf8 ": ", reason]
  | .unexplained =>
    .ofPieces [utf8 "trace sink failed for ", traceId, utf8 " with a non-standard exception"]

/-- Gives the record of an answer to the sink; a refusal does no harm to the answer. -/
def emit (out : Surroundings σ) (record : TraceRecord) : Call σ Unit := do
  match ← Call.withOutside (out.sink record) with
  | .ok () => pure ()
  | .error refusal =>
    Call.count fun t => { t with traceFailures := t.traceFailures + 1 }
    Call.warn [sinkWarning record.traceId refusal]

/-- Finishes an answer: stamps and records it. -/
def deliver (out : Surroundings σ) (clock : Clock) (request : Request) (pin : Pinned)
    (r : Response) : Call σ Response := do
  let r ← stamped clock r
  emit out (recordOf request pin r)
  return r

/-! ## Requests -/

/-- The answer where no plan is active. -/
def answerWithoutBlueprint (out : Surroundings σ) (clock : Clock) (request : Request) :
    Call σ Response := do
  let e ← Call.engine
  Call.count fun t => { t with noBlueprint := t.noBlueprint + 1 }
  if e.options.failSafe then
    deliver out clock request .plain (.withoutBlueprint request (e.isVerbose request))
  else Call.stop (.resolution (.noActiveBlueprint request.subject))

/-- The answer of an active plan. -/
def answerWith (out : Surroundings σ) (clock : Clock) (request : Request) (b : Blueprint) :
    Call σ Response := do
  let expired := (← Call.engine).hasExpired request clock
  let c ← resolve out request.key clock.checked
  if expired then Call.stop (.timedOut Stage.contextResolution.name)
  let check := (← Call.engine).checkOverride request clock.wallMillis
  recordOverride request check
  let pin := pinnedBy c check
  let r ← runPlan request b c.snapshot pin expired
  deliver out clock request pin r

/-- The answer to a request. -/
def execute (out : Surroundings σ) (clock : Clock) (request : Request) : Call σ Response := do
  Call.count fun t => { t with requests := t.requests + 1 }
  Call.countingTimeouts do
    match (← Call.engine).registry.active? request.tenant request.decisionType with
    | none => answerWithoutBlueprint out clock request
    | some b => answerWith out clock request b

/-- Whether a request, a plan and a snapshot are of one tenant. -/
def tenantError? (request : Request) (b : Blueprint) (snapshot : Option Snapshot) :
    Option ResolutionError :=
  if b.tenant ≠ request.tenant then
    some (.blueprintOfTenant b.id b.tenant request.tenant)
  else
    match snapshot with
    | some s => if s.tenant ≠ b.tenant then some (.snapshotOfTenant s.id s.tenant b.tenant) else none
    | none => none

/-- The answer from a given plan and snapshot, which have to be of the tenant of the request. -/
def executePinned (out : Surroundings σ) (clock : Clock) (request : Request)
    (blueprint : Option Blueprint) (snapshot : Option Snapshot) (pin : Pinned) :
    Call σ Response := do
  match blueprint with
  | none => Call.stop .noBlueprint
  | some b =>
    match tenantError? request b snapshot with
    | some err => Call.stop (.resolution err)
    | none =>
      Call.count fun t => { t with requests := t.requests + 1 }
      Call.countingTimeouts do
        let expired := (← Call.engine).hasExpired request clock
        let r ← runPlan request b snapshot pin expired
        deliver out clock request pin r

/-! ## Replay -/

/-- The snapshot that a recorded answer was computed from. -/
def recordedSnapshot (out : Surroundings σ) (record : TraceRecord) :
    Call σ (Option Snapshot) := do
  match record.origin with
  | .failClosed => return none
  | .default => return some (Resolver.defaultSnapshot (← Call.engine).options record.request.key)
  | _ =>
    match out.archived? record.request.tenant record.snapshot (← get).outside with
    | some s => return some s
    | none => Call.stop (.resolution (.notArchived record.snapshot))

/-- The stamp of a recorded answer, under the name of the record. -/
def recordedStamp (record : TraceRecord) : Stamp :=
  { record.response.stamp with traceId := record.traceId }

/-- Computes a recorded answer again; nothing is recorded, and there is no time limit. -/
def replay (out : Surroundings σ) (record : TraceRecord) : Call σ Response := do
  let e ← Call.engine
  match record.blueprint with
  | none =>
    let r := Response.withoutBlueprint record.request (e.isVerbose record.request)
    return { r with stamp := { Stamp.blank with traceId := record.traceId } }
  | some id =>
    match e.registry.find? id with
    | none => Call.stop (.resolution (.notStored id))
    | some b =>
      let snapshot ← recordedSnapshot out record
      let pin : Pinned := ⟨record.origin, record.notes, record.overrides, record.overrideNote⟩
      let r ← runPlan record.request b snapshot pin false
      return { r with stamp := recordedStamp record }

end Engine
end DecisionEngine
