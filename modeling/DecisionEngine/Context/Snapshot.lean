import DecisionEngine.Catalog
import DecisionEngine.Wire.Writer
/-!
# Snapshots

What is known about an entity of a tenant at a moment. A snapshot carries the mask of its
attributes and the fingerprint of the catalog the mask was derived with, so that a plan with the
same catalog can use the mask as it is. A snapshot that is given no id is named after its content.
-/

namespace DecisionEngine

/-! ## Keys -/

/-- An entity of a tenant. -/
structure ContextKey where
  tenant : Bytes
  entity : Bytes
  deriving DecidableEq

namespace ContextKey

/-- The key as text. -/
def toText (k : ContextKey) : Bytes := k.tenant ++ utf8 "/" ++ k.entity

/-- The hash of a key, which is the hash of its text. -/
def hash (k : ContextKey) : UInt64 :=
  Fnv.absorb (Fnv.absorb (Fnv.hash k.tenant) (utf8 "/")) k.entity

end ContextKey

/-! ## Snapshots -/

/-- The attributes of an entity as they were materialized. -/
structure Snapshot where
  tenant : Bytes
  entity : Bytes
  id : Bytes
  attributes : AttributeSet
  mask : Mask
  fingerprint : UInt64
  materializedAt : Int64
  isDefault : Bool
  deriving DecidableEq

namespace Snapshot

/-- The entity of the snapshot. -/
def key (s : Snapshot) : ContextKey := ⟨s.tenant, s.entity⟩

/-- The bytes that name a snapshot. -/
def contentBytes (tenant entity : Bytes) (attributes : AttributeSet) (at_ : Int64) : Bytes :=
  Wire.text tenant ++ Wire.text entity ++ Wire.int at_ ++ Wire.attributes attributes

/-- The id of a snapshot that is given none: the entity and the hash of the content. -/
def contentId (tenant entity : Bytes) (attributes : AttributeSet) (at_ : Int64) : Bytes :=
  entity ++ utf8 "@" ++ Bytes.hexWord (Fnv.hash (contentBytes tenant entity attributes at_))

/-- A snapshot with the mask of its attributes in a catalog. -/
def make (tenant entity : Bytes) (attributes : AttributeSet) (catalog : Catalog) (at_ : Int64)
    (id : Bytes) : Snapshot where
  tenant := tenant
  entity := entity
  id := if id = [] then contentId tenant entity attributes at_ else id
  attributes := attributes
  mask := catalog.maskOf attributes
  fingerprint := catalog.fingerprint
  materializedAt := at_
  isDefault := false

/-- The anonymous context of an entity nothing is known about. Its mask is derived for the plan
that uses it. -/
def anonymous (key : ContextKey) (attributes : AttributeSet) : Snapshot :=
  ⟨key.tenant, key.entity, utf8 "default", attributes, 0, 0, 0, true⟩

end Snapshot

/-! ## Origins -/

/-- Where the context of a request comes from: a recent local copy, the shared cache, an older
local copy while the cache is out of reach, the default for an unknown entity, nowhere, or the
caller. -/
inductive ContextOrigin
  | hotCache
  | shared
  | staleFallback
  | default
  | failClosed
  | pinned
  deriving DecidableEq

namespace ContextOrigin

/-- The origins in the order of their numbers. -/
def all : List ContextOrigin := [hotCache, shared, staleFallback, .default, failClosed, pinned]

/-- The name of an origin. -/
def name : ContextOrigin → Bytes
  | hotCache => utf8 "hot-cache"
  | shared => utf8 "shared"
  | staleFallback => utf8 "stale-fallback"
  | .default => utf8 "default"
  | failClosed => utf8 "fail-closed"
  | pinned => utf8 "pinned"

end ContextOrigin
end DecisionEngine
