import DecisionEngine.Wire.Reader
/-!
# Options of an engine

Time limits, the size of the local fallback, the attributes of an unknown entity and the rules of
override tokens. Options are exchanged as an association with one entry per option; reading keeps
a given value for every option that is missing and passes over keys it does not know.
-/

namespace DecisionEngine

/-- The options of an engine. -/
structure Options where
  deadlineMicros : Int64
  hotTtlMillis : Int64
  fallbackCapacity : UInt64
  failSafe : Bool
  defaultAttributes : AttributeSet
  overrideSecret : Bytes
  overrideMaxTtlMillis : Int64
  explainByDefault : Bool
  replicaId : Bytes
  deriving DecidableEq

namespace Options

/-- What holds when nothing is said. -/
def standard : Options where
  deadlineMicros := 10000
  hotTtlMillis := 250
  fallbackCapacity := 100000
  failSafe := true
  defaultAttributes := .empty
  overrideSecret := []
  overrideMaxTtlMillis := 300000
  explainByDefault := false
  replicaId := utf8 "replica-0"

instance : Inhabited Options := ⟨standard⟩

/-- The options as bytes. -/
def encode (o : Options) : Bytes :=
  Wire.header ++ Wire.associationHead 9
    ++ Wire.entry "DeadlineMicros" (Wire.int o.deadlineMicros)
    ++ Wire.entry "HotCacheTtlMillis" (Wire.int o.hotTtlMillis)
    ++ Wire.entry "FallbackCapacity" (Wire.int o.fallbackCapacity.toInt64)
    ++ Wire.entry "FailSafeDefaults" (Wire.bool o.failSafe)
    ++ Wire.entry "DefaultContext" (Wire.attributes o.defaultAttributes)
    ++ Wire.entry "OverrideSecret" (Wire.text o.overrideSecret)
    ++ Wire.entry "OverrideMaxTtlMillis" (Wire.int o.overrideMaxTtlMillis)
    ++ Wire.entry "ExplainByDefault" (Wire.bool o.explainByDefault)
    ++ Wire.entry "ReplicaId" (Wire.text o.replicaId)

open Wire (Reader)

/-- A number that is not negative, for the option of the given key. -/
def nonNegative (key : Bytes) : Reader Int64 := do
  let start ← Reader.position
  let n ← Reader.int
  if n < 0 then Reader.failAt start (.mismatched (.negativeOption key)) else return n

/-- The reader of an option of a known key. -/
def entry (key : Bytes) (o : Options) : Option (Reader Options) :=
  if key = utf8 "DeadlineMicros" then
    some do return { o with deadlineMicros := ← nonNegative key }
  else if key = utf8 "HotCacheTtlMillis" then
    some do return { o with hotTtlMillis := ← nonNegative key }
  else if key = utf8 "FallbackCapacity" then
    some do return { o with fallbackCapacity := (← nonNegative key).toUInt64 }
  else if key = utf8 "FailSafeDefaults" then
    some do return { o with failSafe := ← Reader.bool }
  else if key = utf8 "DefaultContext" then
    some do return { o with defaultAttributes := ← Reader.attributes }
  else if key = utf8 "OverrideSecret" then
    some do return { o with overrideSecret := ← Reader.text }
  else if key = utf8 "OverrideMaxTtlMillis" then
    some do return { o with overrideMaxTtlMillis := ← nonNegative key }
  else if key = utf8 "ExplainByDefault" then
    some do return { o with explainByDefault := ← Reader.bool }
  else if key = utf8 "ReplicaId" then
    some do return { o with replicaId := ← Reader.text }
  else none

/-- The options that bytes give, on top of `base`. -/
def decode (base : Options) (bytes : Bytes) : Except Wire.Error Options :=
  Reader.run (do
    Reader.header
    let o ← Reader.associationWith entry base
    Reader.finish "options"
    return o) bytes

end Options
end DecisionEngine
