/-!
# First-write-wins maps

A map in which a value, once stored for a key, stays for ever. Keys are spread over buckets by a
hash, which may be any function; a bucket lists its entries, the latest first.

* `FirstWriteMap.insertOrGet`: stores a value for a new key, and answers the value of the key.
* `FirstWriteMap.getOrCreate`: the same, where the value is made only for a new key.
* `FirstWriteMap.forEach`: visits all entries.
-/

namespace DecisionEngine

/-- A map over buckets, of which there is at least one, and the number of values stored in it. -/
structure FirstWriteMap (κ α : Type) where
  hash : κ → Nat
  buckets : List (List (κ × α))
  count : Nat
  nonempty : 0 < buckets.length

namespace FirstWriteMap

variable {κ α σ : Type} [DecidableEq κ]

/-- The map without entries; it has one bucket where none is asked for. -/
def empty (hash : κ → Nat) (bucketCount : Nat) : FirstWriteMap κ α :=
  ⟨hash, List.replicate (max bucketCount 1) [], 0, by simp only [List.length_replicate]; omega⟩

/-- The number of the bucket of a key. -/
def place (m : FirstWriteMap κ α) (key : κ) : Nat := m.hash key % m.buckets.length

/-- The bucket of a key. -/
def bucket (m : FirstWriteMap κ α) (key : κ) : List (κ × α) := m.buckets.getD (m.place key) []

/-- The value of a key. -/
def find? (m : FirstWriteMap κ α) (key : κ) : Option α :=
  ((m.bucket key).find? (·.1 = key)).map (·.2)

/-- Whether a key has a value. -/
def contains (m : FirstWriteMap κ α) (key : κ) : Bool := (m.find? key).isSome

/-- The map with an entry of a new key, in front of the others in its bucket. -/
def push (m : FirstWriteMap κ α) (key : κ) (value : α) : FirstWriteMap κ α :=
  ⟨m.hash, m.buckets.set (m.place key) ((key, value) :: m.bucket key), m.count + 1, by
    rw [List.length_set]; exact m.nonempty⟩

/-- The value of a key, which is the given one if the key is new, and whether it is new. -/
def insertOrGet (m : FirstWriteMap κ α) (key : κ) (value : α) :
    (α × Bool) × FirstWriteMap κ α :=
  match m.find? key with
  | some known => ((known, false), m)
  | none => ((value, true), m.push key value)

/-- The value of a key, which is made if the key is new. -/
def getOrCreate (m : FirstWriteMap κ α) (key : κ) (make : σ → α × σ) (s : σ) :
    (α × FirstWriteMap κ α) × σ :=
  match m.find? key with
  | some known => ((known, m), s)
  | none =>
    let (value, s) := make s
    let ((kept, _), m) := m.insertOrGet key value
    ((kept, m), s)

/-- Visits all entries, bucket by bucket. -/
def forEach (m : FirstWriteMap κ α) (visit : σ → κ → α → σ) (s : σ) : σ :=
  m.buckets.foldl (fun s entries => entries.foldl (fun s e => visit s e.1 e.2) s) s

/-- All entries in the order in which they are visited. -/
def entries (m : FirstWriteMap κ α) : List (κ × α) :=
  (m.forEach (fun visited key value => (key, value) :: visited) []).reverse

/-- The number of values that have been stored. -/
def size (m : FirstWriteMap κ α) : Nat := m.count

/-- Whether there are no entries. -/
def isEmpty (m : FirstWriteMap κ α) : Bool := m.size == 0

end FirstWriteMap
end DecisionEngine
