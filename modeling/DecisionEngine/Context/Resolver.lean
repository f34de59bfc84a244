import DecisionEngine.Context.SharedCache
import DecisionEngine.Options
import DecisionEngine.Warning
/-!
# Resolving the context of an entity

A resolver keeps copies of the snapshots that it fetched. A recent copy is used at once; else the
source is asked. Where the source is out of reach, a copy of any age is better than none, and
without one there is no context. An entity that the source does not know gets the default context,
and the write path is asked to materialize it. A snapshot of another entity counts as none.

* `Resolver.hot?`: the copy that is used at once.
* `Resolver.settle`: what becomes of an answer of the source.
* `Resolver.remember`: there are not too many copies; the entity that came in first goes first.
-/

namespace DecisionEngine

/-- A copy of a snapshot, with the clock reading when it was stored. -/
structure LocalCopy where
  snapshot : Snapshot
  storedAt : Int64
  deriving DecidableEq

/-- How often which way was taken. -/
structure ResolverFigures where
  hotHits : Nat
  sharedFetches : Nat
  misses : Nat
  staleFallbacks : Nat
  failClosed : Nat
  coalescedWaits : Nat
  deriving DecidableEq

/-- No way was taken yet. -/
def ResolverFigures.zero : ResolverFigures := ⟨0, 0, 0, 0, 0, 0⟩

/-- The copies of a resolver, and a queue of the entities in the order in which they came in. -/
structure Resolver where
  copies : List (ContextKey × LocalCopy)
  order : List ContextKey
  figures : ResolverFigures
  deriving DecidableEq

/-- A context that a request can be answered with; there is no snapshot only where the answer has
to be that there is no decision. -/
structure ResolvedContext where
  snapshot : Option Snapshot
  origin : ContextOrigin
  notes : List Bytes
  deriving DecidableEq

/-- Why there is no context. -/
inductive ResolveError
  | noContext (key : ContextKey)
  | sourceDown (key : ContextKey)
  | timedOut (stage : Bytes)
  | unexplained
  deriving DecidableEq

/-- What an answer of the source comes to. -/
structure Settled where
  result : Except ResolveError ResolvedContext
  resolver : Resolver
  rehydrate : Bool
  warnings : List Warning

namespace Resolver

/-- The resolver without copies. -/
def empty : Resolver := ⟨[], [], .zero⟩

/-- The copy of an entity. -/
def copy? (r : Resolver) (key : ContextKey) : Option LocalCopy := Keyed.find? r.copies key

/-- The number of copies. -/
def localSize (r : Resolver) : Nat := r.copies.length

/-- Drops the copy of an entity. -/
def invalidate (r : Resolver) (key : ContextKey) : Resolver :=
  if (r.copy? key).isNone then r
  else { r with copies := Keyed.remove key r.copies, order := r.order.erase key }

/-- Drops copies from the front of a queue while there are too many. -/
def trimmed (capacity : Nat) : List ContextKey → List (ContextKey × LocalCopy) →
    List ContextKey × List (ContextKey × LocalCopy)
  | [], copies => ([], copies)
  | first :: rest, copies =>
    if capacity < copies.length then trimmed capacity rest (Keyed.remove first copies)
    else (first :: rest, copies)

/-- Stores a copy. An entity that is new joins the queue, and where there are too many copies, those
of the entities that came in first are dropped. -/
def remember (r : Resolver) (capacity : Nat) (key : ContextKey) (copy : LocalCopy) : Resolver :=
  if capacity = 0 then r
  else
    let copies := Keyed.assign key copy r.copies
    if (r.copy? key).isSome then { r with copies := copies }
    else
      let (order, copies) := trimmed capacity (r.order ++ [key]) copies
      { r with copies := copies, order := order }

/-- How many units of the clock a millisecond has. -/
def nanosPerMilli : Int64 := 1000000

/-- The copy of an entity that is younger than the options allow. -/
def hot? (r : Resolver) (o : Options) (key : ContextKey) (now : Int64) : Option Snapshot :=
  match r.copy? key with
  | some c =>
    if now - c.storedAt < o.hotTtlMillis * nanosPerMilli then some c.snapshot else none
  | none => none

/-- The resolver after a recent copy was used. -/
def countHit (r : Resolver) : Resolver :=
  { r with figures := { r.figures with hotHits := r.figures.hotHits + 1 } }

/-- The default context of an entity. -/
def defaultSnapshot (o : Options) (key : ContextKey) : Snapshot :=
  .anonymous key o.defaultAttributes

/-- The source has no snapshot of the entity. -/
def miss (r : Resolver) (o : Options) (key : ContextKey) (note : Bytes)
    (warnings : List Warning) : Settled where
  result :=
    if o.failSafe then
      .ok ⟨some (defaultSnapshot o key), .default,
        [note, utf8 "evaluated against the default context"]⟩
    else .error (.noContext key)
  resolver := { r with figures := { r.figures with misses := r.figures.misses + 1 } }
  rehydrate := true
  warnings := warnings

/-- The source is out of reach for a reason. -/
def outage (r : Resolver) (o : Options) (key : ContextKey) (reason : Bytes) : Settled :=
  match r.copy? key with
  | some c =>
    { result :=
        .ok ⟨some c.snapshot, .staleFallback, [reason ++ utf8 "; using process-local snapshot"]⟩
      resolver :=
        { r with figures := { r.figures with staleFallbacks := r.figures.staleFallbacks + 1 } }
      rehydrate := false
      warnings := [.ofPieces [reason, utf8 "; serving stale local snapshot ", c.snapshot.id,
        utf8 " for ", key.toText]] }
  | none =>
    { result :=
        if o.failSafe then
          .ok ⟨none, .failClosed, [reason ++ utf8 "; no local snapshot, failing closed"]⟩
        else .error (.sourceDown key)
      resolver := { r with figures := { r.figures with failClosed := r.figures.failClosed + 1 } }
      rehydrate := false
      warnings := [.ofPieces [reason, utf8 "; no local snapshot for ", key.toText,
        utf8 ", failing closed"]] }

/-- A snapshot of the entity was fetched. -/
def fetched (r : Resolver) (o : Options) (key : ContextKey) (now : Int64) (s : Snapshot) :
    Settled where
  result := .ok ⟨some s, .shared, []⟩
  resolver :=
    { r with figures := { r.figures with sharedFetches := r.figures.sharedFetches + 1 } }.remember
      o.fallbackCapacity.toNat key ⟨s, now⟩
  rehydrate := false
  warnings := []

/-- Time ran out, or the source failed in a way that nothing is known about. -/
def givenUp (r : Resolver) (e : ResolveError) : Settled := ⟨.error e, r, false, []⟩

/-- What an answer of the source comes to. -/
def settle (r : Resolver) (o : Options) (key : ContextKey) (now : Int64) :
    FetchAnswer → Settled
  | .found s =>
    if s.key = key then r.fetched o key now s
    else
      r.miss o key
        (utf8 "snapshot for " ++ key.toText ++ utf8 " belongs to another tenant or entity")
        [.ofPieces [utf8 "source returned snapshot of ", s.tenant, utf8 "/", s.entity,
          utf8 " for ", key.toText, utf8 "; treated as a miss"]]
  | .missing => r.miss o key (utf8 "context cache miss for " ++ key.toText) []
  | .unavailable detail =>
    r.outage o key (Bytes.untilNul (utf8 "Context source unavailable: " ++ detail))
  | .failed what =>
    r.outage o key (utf8 "Context source failed: " ++ Bytes.untilNul what)
  | .timedOut stage => r.givenUp (.timedOut stage)
  | .unexplained => r.givenUp .unexplained

end Resolver
end DecisionEngine
