import DecisionEngine.Bytes
/-!
# Worker pools

A pool runs the tasks that are submitted to it while it is running. A task that fails is counted
and does not stop the others; the pool tells what kind of failure was the latest. Of the tasks
that wait, the one submitted last is run first.
-/

namespace DecisionEngine

/-- How a task can fail. -/
inductive TaskFailure
  | outOfMemory
  | reported
  | unexplained
  deriving DecidableEq

/-- Changes the state that tasks share, and may fail. -/
abbrev PoolTask (σ : Type) := σ → Option TaskFailure × σ

/-- Why a task is not taken. -/
inductive PoolError
  | notRunning
  deriving DecidableEq

/-- The wording of the reason. -/
def PoolError.message : PoolError → Bytes
  | notRunning => utf8 "WorkerPool is not running"

/-- What a failure, or that there is none, is called. -/
def describeFailure : Option TaskFailure → Bytes
  | none => utf8 "No error"
  | some .outOfMemory => utf8 "Out of memory"
  | some .reported => utf8 "Exception thrown"
  | some .unexplained => utf8 "Unhandled exception type"

/-- A pool whose tasks share a state. -/
structure WorkerPool (σ : Type) where
  workers : Nat
  isRunning : Bool
  waiting : List (PoolTask σ)
  executed : Nat
  failures : Nat
  latest : Option TaskFailure

namespace WorkerPool

variable {σ : Type}

/-- A pool that is not running, with at least one worker. -/
def ofWorkers (n : Nat) : WorkerPool σ := ⟨max n 1, false, [], 0, 0, none⟩

/-- Starts a pool; failures of earlier tasks are forgotten. -/
def start (p : WorkerPool σ) : WorkerPool σ :=
  if p.isRunning then p else { p with isRunning := true, failures := 0, latest := none }

/-- Submits a task. -/
def submit (p : WorkerPool σ) (task : PoolTask σ) : Except PoolError (WorkerPool σ) :=
  if p.isRunning then .ok { p with waiting := task :: p.waiting } else .error .notRunning

/-- Runs one task. -/
def runTask (p : WorkerPool σ) (task : PoolTask σ) (s : σ) : WorkerPool σ × σ :=
  let p := { p with executed := p.executed + 1 }
  match task s with
  | (none, s) => (p, s)
  | (some e, s) => ({ p with failures := p.failures + 1, latest := some e }, s)

/-- Runs all tasks that wait. -/
def runAll (p : WorkerPool σ) (s : σ) : WorkerPool σ × σ :=
  p.waiting.foldl (fun (q : WorkerPool σ × σ) task => q.1.runTask task q.2)
    ({ p with waiting := [] }, s)

/-- Runs all tasks that wait and stops. -/
def shutdown (p : WorkerPool σ) (s : σ) : WorkerPool σ × σ :=
  let (p, s) := p.runAll s
  ({ p with isRunning := false }, s)

end WorkerPool
end DecisionEngine
