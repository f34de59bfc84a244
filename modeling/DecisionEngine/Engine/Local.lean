import DecisionEngine.Engine.Basic
import DecisionEngine.Trace.Log
/-!
# Surroundings in one process

Everything that an engine needs around it, kept in memory: the shared cache with its archive, the
queue of entities to materialize, and a log of records.
-/

namespace DecisionEngine

/-- What is around an engine in one process. -/
structure LocalState where
  cache : SharedCache
  queue : RehydrationQueue
  log : MemoryLog

namespace LocalState

/-- Nothing is known yet; the archive is of limited size. -/
def start (archiveCapacity : Nat) : LocalState := ⟨.empty archiveCapacity, .empty, .empty⟩

/-- Asks the cache for an entity. -/
def fetch (key : ContextKey) (s : LocalState) : FetchAnswer × LocalState :=
  let (answer, cache) := s.cache.fetch key
  (answer, { s with cache := cache })

/-- Asks for an entity to be materialized. -/
def rehydrate (key : ContextKey) (s : LocalState) : LocalState :=
  { s with queue := s.queue.request key }

/-- Keeps a record. -/
def keep (record : TraceRecord) (s : LocalState) : Except SinkRefusal Unit × LocalState :=
  (.ok (), { s with log := s.log.emit record })

/-- The surroundings that the state makes up. -/
def surroundings : Surroundings LocalState where
  fetch := fetch
  rehydrate := rehydrate
  archived? tenant id s := s.cache.findSnapshot? tenant id
  sink := keep

end LocalState
end DecisionEngine
