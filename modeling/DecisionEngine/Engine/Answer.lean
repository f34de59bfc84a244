import DecisionEngine.Decision.Response
import DecisionEngine.Plan.Execution
/-!
# Answering from a plan and a snapshot

How a response comes about once it is known which plan is to be run on which snapshot. The mask of
a snapshot is used as it is where the snapshot was made with the catalog of the plan and nothing
overrides its attributes; else it is derived again. Without a snapshot there is no decision.
-/

namespace DecisionEngine

/-- How the context of a request was obtained. -/
structure Pinned where
  origin : ContextOrigin
  notes : List Bytes
  overrides : Option AttributeSet
  overrideNote : Bytes
  deriving DecidableEq

/-- A context that the caller supplies, without further notes. -/
def Pinned.plain : Pinned := ⟨.pinned, [], none, []⟩

namespace Pinned

/-- The attributes that count: those of the snapshot, with the overrides on top. -/
def attributes (pin : Pinned) (s : Snapshot) : AttributeSet :=
  match pin.overrides with
  | some o => s.attributes.mergedWith o
  | none => s.attributes

end Pinned

namespace Snapshot

/-- Whether the mask of a snapshot was derived with the catalog of a plan. -/
def fits (s : Snapshot) (b : Blueprint) : Bool := s.fingerprint == b.catalog.fingerprint

/-- Whether a snapshot was made with another catalog than the one of a plan. -/
def isForeignTo (s : Snapshot) (b : Blueprint) : Bool := !s.fits b && !s.isDefault

end Snapshot

namespace Pinned

/-- The mask that counts for a plan. -/
def mask (pin : Pinned) (s : Snapshot) (b : Blueprint) : Mask :=
  if pin.overrides.isSome || s.isDefault || !s.fits b then
    b.catalog.maskOf (pin.attributes s)
  else s.mask

/-- The situation of a plan on a snapshot. -/
def situation (pin : Pinned) (b : Blueprint) (s : Snapshot) (inputs : AttributeSet)
    (verbose : Bool) (comparators : Comparators) (expired : Bool) : Situation :=
  .ofAttributes b (pin.mask s b) (pin.attributes s) inputs verbose comparators expired

/-- The notes on how the context was resolved. -/
def noteEntries (pin : Pinned) : Trail := pin.notes.map (TrailEntry.note .resolution)

/-- The trail in front of the steps. -/
def opening (pin : Pinned) (b : Blueprint) (s : Snapshot) : Trail :=
  [TrailEntry.note .resolution (utf8 "blueprint " ++ b.id.toText ++ utf8 ", context " ++ s.id ++
    utf8 " (" ++ pin.origin.name ++ utf8 ")")]
    ++ pin.noteEntries
    ++ (if pin.overrideNote = [] then [] else [TrailEntry.note .override pin.overrideNote])
    ++ (if s.isForeignTo b then
        [TrailEntry.note .resolution
          (utf8 "snapshot mask derived from another catalog; recomputed")]
      else [])

end Pinned

namespace Response

/-- The response where nothing is active for the request. -/
def withoutBlueprint (request : Request) (verbose : Bool) : Response where
  decisions := []
  alternatives := []
  trail := [TrailEntry.note .resolution
    (utf8 "no active blueprint for " ++ request.subject ++ utf8 "; no decision")]
  provenance := { Provenance.blank with failClosed := true, explain := verbose }
  stamp := .blank

/-- The response of a plan where there is no context. -/
def withoutContext (b : Blueprint) (pin : Pinned) (verbose : Bool) : Response where
  decisions := []
  alternatives := []
  trail :=
    [TrailEntry.note .resolution (utf8 "blueprint " ++ b.id.toText ++ utf8 ", no context")]
      ++ pin.noteEntries
      ++ [TrailEntry.note .failClosed
        (utf8 "no usable context; failing closed with no decision")]
  provenance :=
    { Provenance.blank with
      blueprint := some b.id, origin := pin.origin, failClosed := true, explain := verbose }
  stamp := .blank

/-- The response that a run of a plan gives. -/
def ofRun (b : Blueprint) (s : Snapshot) (pin : Pinned) (verbose : Bool)
    (r : Situation.RunResult) : Response where
  decisions := r.decisions
  alternatives := r.alternatives
  trail := pin.opening b s ++ r.trail ++
    (if r.decisions.isEmpty then [TrailEntry.note .resolution (utf8 "no decision")] else [])
  provenance :=
    { blueprint := some b.id
      snapshot := s.id
      origin := pin.origin
      defaultContext := s.isDefault
      overrideApplied := pin.overrides.isSome
      failClosed := false
      explain := verbose }
  stamp := .blank

end Response
end DecisionEngine
