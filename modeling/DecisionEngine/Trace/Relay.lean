import DecisionEngine.Trace.Record
import DecisionEngine.Warning
/-!
# Trace sinks and the relay

A sink takes trace records and may refuse one. A relay stands in front of a sink: it keeps records
in a queue of limited length, drops what does not fit, and forwards the queue later; what the sink
refuses is counted and warned about, and the next record is forwarded all the same.
-/

namespace DecisionEngine

/-- Why a sink does not take a record; a refusal need not come with a reason. -/
inductive SinkRefusal
  | because (reason : Bytes)
  | unexplained
  deriving DecidableEq

/-- Takes records, and changes its own state by it. -/
abbrev Sink (σ : Type) := TraceRecord → σ → Except SinkRefusal Unit × σ

/-- Why there is no relay. -/
inductive RelayError
  | noDownstream
  deriving DecidableEq

/-- The wording of the reason. -/
def RelayError.message : RelayError → Bytes
  | noDownstream => utf8 "AsyncTraceSink requires a downstream sink"

/-- A queue in front of a sink whose state is `σ`. -/
structure Relay (σ : Type) where
  downstream : Sink σ
  capacity : Nat
  queue : List TraceRecord
  forwarded : Nat
  dropped : Nat
  failed : Nat
  warnings : List Warning

namespace Relay

variable {σ : Type}

/-- A relay in front of a sink, which has to be there. -/
def start (downstream : Option (Sink σ)) (capacity : Nat) : Except RelayError (Relay σ) :=
  match downstream with
  | none => .error .noDownstream
  | some sink => .ok ⟨sink, capacity, [], 0, 0, 0, []⟩

/-- Queues a record, or drops it if the queue is full. -/
def emit (r : Relay σ) (record : TraceRecord) : Relay σ :=
  if r.queue.length < r.capacity then { r with queue := r.queue ++ [record] }
  else
    { r with
      dropped := r.dropped + 1
      warnings := r.warnings ++
        [.ofPieces [utf8 "trace queue full, dropped record ", record.traceId]] }

/-- The warning about a record that was refused. -/
def refusal (record : TraceRecord) : SinkRefusal → Warning
  | .because reason =>
    .ofPieces [utf8 "trace sink rejected ", record.traceId, utf8 ": ", reason]
  | .unexplained =>
    .ofPieces [utf8 "trace sink rejected ", record.traceId, utf8 " with a non-standard exception"]

/-- Forwards one record. -/
def forward (r : Relay σ) (record : TraceRecord) (s : σ) : Relay σ × σ :=
  match r.downstream record s with
  | (.ok (), s) => ({ r with forwarded := r.forwarded + 1 }, s)
  | (.error e, s) =>
    ({ r with failed := r.failed + 1, warnings := r.warnings ++ [refusal record e] }, s)

/-- Forwards everything in the queue, in its order. -/
def flush (r : Relay σ) (s : σ) : Relay σ × σ :=
  r.queue.foldl (fun (p : Relay σ × σ) record => p.1.forward record p.2) ({ r with queue := [] }, s)

end Relay
end DecisionEngine
