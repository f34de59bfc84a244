import DecisionEngine.Context.Snapshot
import DecisionEngine.Keyed
/-!
# The shared context cache

The cache holds the current snapshot of each entity. Snapshots are also archived under their
tenant and id, so that a decision can be computed again later; the archive keeps a limited number,
and a name that is archived stays with the snapshot it was given to.
-/

namespace DecisionEngine

/-- What a context source answers: a snapshot, that there is none, that it is out of reach, that
it failed, that time ran out, or a failure that says nothing. -/
inductive FetchAnswer
  | found (s : Snapshot)
  | missing
  | unavailable (detail : Bytes)
  | failed (what : Bytes)
  | timedOut (stage : Bytes)
  | unexplained
  deriving DecidableEq

/-- The cache that all engines share. -/
structure SharedCache where
  current : List (ContextKey × Snapshot)
  archive : List (Bytes × Snapshot)
  capacity : Nat
  available : Bool
  fetches : Nat
  publishes : Nat

/-- Why a snapshot is not published. -/
inductive PublishError
  | nothing
  deriving DecidableEq

/-- The wording of the reason. -/
def PublishError.message : PublishError → Bytes
  | nothing => utf8 "Cannot publish a null snapshot"

namespace SharedCache

/-- The cache without snapshots, with an archive of limited size. -/
def empty (capacity : Nat) : SharedCache := ⟨[], [], capacity, true, 0, 0⟩

/-- The byte between the parts of a key. -/
def separator : UInt8 := 0x1f

/-- The name of a snapshot in the archive. -/
def archiveKey (tenant id : Bytes) : Bytes := tenant ++ separator :: id

/-- The archive with a snapshot, unless its name is taken. -/
def archived (c : SharedCache) (s : Snapshot) : List (Bytes × Snapshot) :=
  Keyed.latest c.capacity (Keyed.keep (archiveKey s.tenant s.id) s c.archive)

/-- Makes a snapshot the current one of its entity. -/
def publish (c : SharedCache) (s : Snapshot) : SharedCache :=
  { c with
    current := Keyed.assign s.key s c.current
    archive := c.archived s
    publishes := c.publishes + 1 }

/-- Publishes a snapshot that may be missing. -/
def publish? (c : SharedCache) : Option Snapshot → Except PublishError SharedCache
  | some s => .ok (c.publish s)
  | none => .error .nothing

/-- The current snapshot of an entity. -/
def fetch (c : SharedCache) (key : ContextKey) : FetchAnswer × SharedCache :=
  let counted := { c with fetches := c.fetches + 1 }
  if c.available then
    match Keyed.find? c.current key with
    | some s => (.found s, counted)
    | none => (.missing, counted)
  else (.unavailable (utf8 "shared context cache is unreachable"), counted)

/-- The archived snapshot of a tenant and an id. -/
def findSnapshot? (c : SharedCache) (tenant id : Bytes) : Option Snapshot :=
  Keyed.find? c.archive (archiveKey tenant id)

/-- The number of entities with a snapshot. -/
def entities (c : SharedCache) : Nat := c.current.length

end SharedCache

/-! ## Rehydration -/

/-- Entities that the write path is asked to materialize, each once. -/
structure RehydrationQueue where
  pending : List ContextKey

namespace RehydrationQueue

/-- The queue without entities. -/
def empty : RehydrationQueue := ⟨[]⟩

/-- Asks for an entity. -/
def request (q : RehydrationQueue) (key : ContextKey) : RehydrationQueue :=
  if key ∈ q.pending then q else ⟨q.pending ++ [key]⟩

/-- Takes all entities out, in the order in which they were asked for. -/
def drain (q : RehydrationQueue) : List ContextKey × RehydrationQueue := (q.pending, empty)

end RehydrationQueue
end DecisionEngine
