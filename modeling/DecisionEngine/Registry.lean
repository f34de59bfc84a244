import DecisionEngine.Blueprint.Encode
import DecisionEngine.Keyed
import DecisionEngine.Warning
/-!
# Registries of blueprints

A registry keeps every blueprint that was stored, each content once, and knows which one is active
for a tenant and a decision type. A generation counts how often that changed.

* `Registry.store`: keeps a blueprint; equal content is kept once, and an id stands for one content.
* `Registry.activate`, `Registry.deactivate`, `Registry.active?`: what is in force.
-/

namespace DecisionEngine

/-- What is in force for a tenant and a decision type. -/
structure ActiveSlot where
  current : Option Blueprint
  generation : Nat
  deriving DecidableEq

/-- A slot in which nothing has been active yet. -/
def ActiveSlot.fresh : ActiveSlot := ⟨none, 0⟩

/-- Stored blueprints in the order in which they came in, and what is active. -/
structure Registry where
  stored : List Blueprint
  slots : List (Bytes × ActiveSlot)
  deriving DecidableEq

/-- Why a blueprint is not stored. -/
inductive StoreError
  | nothing
  | otherContent (id : BlueprintId)
  deriving DecidableEq

/-- The wording of the reason. -/
def StoreError.message : StoreError → Bytes
  | nothing => utf8 "Cannot store a null blueprint"
  | otherContent id =>
    utf8 "blueprint " ++ id.toText ++ utf8 " is already stored with different content"

/-- What storing a blueprint comes to: the stored blueprint of that content, the registry, and a
warning where two contents have the same hash. -/
structure Stored where
  blueprint : Blueprint
  registry : Registry
  warnings : List Warning
  deriving DecidableEq

namespace Registry

/-- The registry without blueprints. -/
def empty : Registry := ⟨[], []⟩

instance : Inhabited Registry := ⟨empty⟩

/-! ## The repository -/

/-- The blueprint of an id. -/
def find? (r : Registry) (id : BlueprintId) : Option Blueprint := r.stored.find? (·.id == id)

/-- The first blueprint that was stored with a hash. -/
def firstWithHash? (r : Registry) (hash : UInt64) : Option Blueprint :=
  r.stored.find? (·.id.contentHash == hash)

/-- The ids of all blueprints, in their order. -/
def list (r : Registry) : List BlueprintId :=
  (r.stored.map (·.id)).mergeSort fun a b => !b.before a

/-- The number of blueprints. -/
def size (r : Registry) : Nat := r.stored.length

/-- The registry with a new blueprint. -/
def append (r : Registry) (b : Blueprint) : Registry := { r with stored := r.stored ++ [b] }

/-- The warning about two contents of the same hash. -/
def collision (b first : Blueprint) : Warning :=
  .ofPieces [utf8 "blueprint ", b.id.toText, utf8 " shares content hash with ", first.id.toText,
    utf8 "; stored by id only"]

/-- Stores a blueprint whose content is not stored under the hash of its id, next to the first
blueprint of that hash if there is one. -/
def storeById (r : Registry) (b : Blueprint) (first : Option Blueprint) :
    Except StoreError Stored :=
  match r.find? b.id with
  | some known =>
    if known.encoded = b.encoded then .ok ⟨known, r, []⟩ else .error (.otherContent b.id)
  | none => .ok ⟨b, r.append b, first.toList.map (collision b)⟩

/-- Stores a blueprint. -/
def store (r : Registry) (b : Blueprint) : Except StoreError Stored :=
  match r.firstWithHash? b.id.contentHash with
  | some first =>
    if first.encoded = b.encoded then .ok ⟨first, r, []⟩ else r.storeById b (some first)
  | none => r.storeById b none

/-- Stores a blueprint that may be missing. -/
def store? (r : Registry) : Option Blueprint → Except StoreError Stored
  | some b => r.store b
  | none => .error .nothing

/-! ## What is active -/

/-- The byte between the parts of a key. -/
def separator : UInt8 := 0x1f

/-- The key of a tenant and a decision type. -/
def slotKey (tenant decisionType : Bytes) : Bytes := tenant ++ separator :: decisionType

/-- The slot of a tenant and a decision type. -/
def slot (r : Registry) (tenant decisionType : Bytes) : ActiveSlot :=
  (Keyed.find? r.slots (slotKey tenant decisionType)).getD .fresh

/-- The blueprint that is active for a tenant and a decision type. -/
def active? (r : Registry) (tenant decisionType : Bytes) : Option Blueprint :=
  (r.slot tenant decisionType).current

/-- How often it changed what is active for a tenant and a decision type. -/
def generation (r : Registry) (tenant decisionType : Bytes) : Nat :=
  (r.slot tenant decisionType).generation

/-- Puts something else in force. -/
def switch (r : Registry) (tenant decisionType : Bytes) (current : Option Blueprint) : Registry :=
  { r with
    slots := Keyed.assign (slotKey tenant decisionType)
      ⟨current, r.generation tenant decisionType + 1⟩ r.slots }

/-- Makes a blueprint active for its tenant and decision type, and says whether that is new. There
has to be a blueprint of the id. -/
def activate (r : Registry) (id : BlueprintId) : Except BlueprintId (Bool × Registry) :=
  match r.find? id with
  | none => .error id
  | some b =>
    match r.active? b.tenant b.decisionType with
    | some current =>
      if current.id = b.id then .ok (false, r)
      else .ok (true, r.switch b.tenant b.decisionType (some b))
    | none => .ok (true, r.switch b.tenant b.decisionType (some b))

/-- Puts nothing in force for a tenant and a decision type, and says whether something was. -/
def deactivate (r : Registry) (tenant decisionType : Bytes) : Bool × Registry :=
  match r.active? tenant decisionType with
  | some _ => (true, r.switch tenant decisionType none)
  | none => (false, r)

end Registry
end DecisionEngine
