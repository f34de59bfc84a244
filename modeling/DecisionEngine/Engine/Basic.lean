import DecisionEngine.Context.Resolver
import DecisionEngine.Engine.Answer
import DecisionEngine.OverrideToken
import DecisionEngine.Registry
import DecisionEngine.Trace.Relay
/-!
# Engines

An engine answers requests. It knows the active plans, keeps copies of contexts, verifies override
tokens and numbers its answers; contexts come from a source outside, and records of answers go to
a sink outside. Everything that an engine does is a change of its state and of what is outside,
which may end with an error.

* `Engine`: the state of an engine.
* `Surroundings`: what is outside.
* `Call`: something an engine does.
-/

namespace DecisionEngine

/-! ## Errors -/

/-- Why a request cannot be resolved. -/
inductive ResolutionError
  | noActiveBlueprint (subject : Bytes)
  | noContext (key : ContextKey)
  | sourceDown (key : ContextKey)
  | blueprintOfTenant (id : BlueprintId) (owner requester : Bytes)
  | snapshotOfTenant (id owner requester : Bytes)
  | notStored (id : BlueprintId)
  | notArchived (id : Bytes)
  | noTraceRecord (id : Bytes)
  | unknownBlueprint (id : BlueprintId)
  deriving DecidableEq

/-- The wording of the reason. -/
def ResolutionError.text : ResolutionError → Bytes
  | noActiveBlueprint subject => utf8 "no active blueprint for " ++ subject
  | noContext key => utf8 "no context for " ++ key.toText
  | sourceDown key =>
    utf8 "context source unavailable and no local snapshot for " ++ key.toText
  | blueprintOfTenant id owner requester =>
    utf8 "blueprint " ++ id.toText ++ utf8 " belongs to tenant " ++ owner ++
      utf8 ", request is for " ++ requester
  | snapshotOfTenant id owner requester =>
    utf8 "snapshot " ++ id ++ utf8 " belongs to tenant " ++ owner ++ utf8 ", blueprint to " ++
      requester
  | notStored id => utf8 "blueprint " ++ id.toText ++ utf8 " is no longer stored"
  | notArchived id => utf8 "snapshot " ++ id ++ utf8 " is not archived"
  | noTraceRecord id => utf8 "no trace record " ++ id
  | unknownBlueprint id => utf8 "unknown blueprint " ++ id.toText

/-- The message of the error. -/
def ResolutionError.message (e : ResolutionError) : Bytes := utf8 "Resolution error: " ++ e.text

/-- Why there is no response. -/
inductive EngineError
  | resolution (e : ResolutionError)
  | timedOut (stage : Bytes)
  | arbitration (e : ArbitrationError)
  | outOfRange
  | noBlueprint
  | unexplained
  deriving DecidableEq

namespace EngineError

/-- The message of the error, if it has one. -/
def message? : EngineError → Option Bytes
  | resolution e => some e.message
  | timedOut stage => some (utf8 "Deadline exceeded during " ++ stage)
  | arbitration e => e.message?
  | outOfRange => none
  | noBlueprint => some (utf8 "execute_pinned requires a blueprint")
  | unexplained => none

/-- The error that a failed resolution is. -/
def ofResolve : ResolveError → EngineError
  | .noContext key => resolution (.noContext key)
  | .sourceDown key => resolution (.sourceDown key)
  | .timedOut stage => timedOut stage
  | .unexplained => unexplained

/-- The error that a failed run is. -/
def ofRun : RunError → EngineError
  | .timedOut stage => timedOut stage.name
  | .arbitration e => arbitration e
  | .outOfRange => outOfRange

end EngineError

/-! ## Statistics and clocks -/

/-- What an engine counts. -/
structure Statistics where
  requests : Nat
  decisions : Nat
  noBlueprint : Nat
  bitmaskSkips : Nat
  guardEvaluations : Nat
  guardFaults : Nat
  guardrailVetoes : Nat
  guardrailCaps : Nat
  guardrailDefaults : Nat
  overridesApplied : Nat
  overridesRejected : Nat
  deadlineExceeded : Nat
  failClosed : Nat
  traceFailures : Nat
  deriving DecidableEq

namespace Statistics

/-- Nothing was counted yet. -/
def zero : Statistics := ⟨0, 0, 0, 0, 0, 0, 0, 0, 0, 0, 0, 0, 0, 0⟩

/-- With what a run counts for. -/
def withRun (t : Statistics) (r : Situation.RunResult) : Statistics :=
  { t with
    decisions := t.decisions + r.decisions.length
    bitmaskSkips := t.bitmaskSkips + r.figures.maskSkips
    guardEvaluations := t.guardEvaluations + r.figures.guardEvaluations
    guardFaults := t.guardFaults + (r.figures.guardFaults + r.guardrails.faults)
    guardrailVetoes := t.guardrailVetoes + r.guardrails.vetoes
    guardrailCaps := t.guardrailCaps + r.guardrails.caps
    guardrailDefaults := t.guardrailDefaults + r.guardrails.defaults }

end Statistics

/-- The readings of the clocks during a call: the time of day in milliseconds, and a steady clock
in nanoseconds when the call began and when its time limit is checked. -/
structure Clock where
  wallMillis : Int64
  started : Int64
  checked : Int64
  deriving DecidableEq

namespace Clock

/-- Whether a time limit that is counted from the beginning of a call has passed. -/
def passed (c : Clock) (limitMicros : Int64) : Bool :=
  decide (c.started + limitMicros * 1000 < c.checked)

/-- How long a call has taken. -/
def elapsedMicros (c : Clock) : Int64 := (c.checked - c.started) / 1000

end Clock

/-! ## The state of an engine -/

/-- Why there is no engine. -/
inductive SetupError
  | noSource
  | noRegistry
  deriving DecidableEq

/-- The wording of the reason. -/
def SetupError.message : SetupError → Bytes
  | noSource => utf8 "ContextResolver requires a context source"
  | noRegistry => utf8 "DecisionRuntime requires a blueprint registry"

/-- The state of an engine. -/
structure Engine where
  options : Options
  authority : Option TokenAuthority
  comparators : Comparators
  registry : Registry
  resolver : Resolver
  statistics : Statistics
  startedAt : Int64
  nextTrace : Nat

namespace Engine

/-- An engine at its start. Override tokens are disabled where there is no secret. -/
def start (options : Options) (registry : Registry) (startedAt : Int64) : Engine where
  options := options
  authority :=
    (TokenAuthority.ofSecret? options.overrideSecret options.overrideMaxTtlMillis).toOption
  comparators := .empty
  registry := registry
  resolver := .empty
  statistics := .zero
  startedAt := startedAt
  nextTrace := 0

/-- The id of an answer: the replica, the start of the engine and the number of the answer. -/
def traceId (e : Engine) (number : Nat) : Bytes :=
  e.options.replicaId ++ utf8 "-" ++ Bytes.hexWord e.startedAt.toUInt64 ++ utf8 "-" ++
    Bytes.decimal number

/-- Whether a request is to be answered with everything explained. -/
def isVerbose (e : Engine) (r : Request) : Bool := r.explain || e.options.explainByDefault

/-- Whether the time limit of a request has passed. -/
def hasExpired (e : Engine) (r : Request) (c : Clock) : Bool :=
  c.passed (r.timeoutMicros.getD e.options.deadlineMicros)

end Engine

/-! ## Calls -/

/-- What is outside of an engine, with a state of its own: where contexts come from, who is asked
to materialize them, where old snapshots are kept, and where records of answers go. -/
structure Surroundings (σ : Type) where
  fetch : ContextKey → σ → FetchAnswer × σ
  rehydrate : ContextKey → σ → σ
  archived? : Bytes → Bytes → σ → Option Snapshot
  sink : Sink σ

/-- An engine, what is outside, and the warnings that were given. -/
structure World (σ : Type) where
  engine : Engine
  outside : σ
  warnings : List Warning

/-- Something that an engine does. What was done before an error stays done. -/
abbrev Call (σ α : Type) := ExceptT EngineError (StateM (World σ)) α

namespace Call

variable {σ α : Type}

/-- The engine as it is. -/
def engine : Call σ Engine := return (← get).engine

/-- Changes the engine. -/
def update (f : Engine → Engine) : Call σ Unit := modify fun w => { w with engine := f w.engine }

/-- Changes the statistics. -/
def count (f : Statistics → Statistics) : Call σ Unit :=
  update fun e => { e with statistics := f e.statistics }

/-- Gives warnings. -/
def warn (ws : List Warning) : Call σ Unit :=
  modify fun w => { w with warnings := w.warnings ++ ws }

/-- Does something outside. -/
def withOutside (f : σ → α × σ) : Call σ α :=
  modifyGet fun w => let (a, s) := f w.outside; (a, { w with outside := s })

/-- Stops with an error. -/
def stop (e : EngineError) : Call σ α := throw e

/-- Counts it where a call ends because its time limit has passed. -/
def countingTimeouts (c : Call σ α) : Call σ α := fun w =>
  match c w with
  | (.error (.timedOut stage), w) =>
    (.error (.timedOut stage), { w with
      engine := { w.engine with
        statistics := { w.engine.statistics with
          deadlineExceeded := w.engine.statistics.deadlineExceeded + 1 } } })
  | r => r

end Call

/-- The engine of a service. The source of contexts and the registry have to be there. -/
def Engine.assemble {σ : Type} (options : Options)
    (source : Option (ContextKey → σ → FetchAnswer × σ)) (registry : Option Registry)
    (startedAt : Int64) : Except SetupError Engine :=
  match source, registry with
  | none, _ => .error .noSource
  | some _, none => .error .noRegistry
  | some _, some r => .ok (.start options r startedAt)

end DecisionEngine
