import DecisionEngine.Bytes
/-!
# Single flights

Calls that want the same thing at the same time share the work. The first call for a key leads: it
does the work and hands its answer to every call that joined in the meantime. A call that waits
gives up at its time limit, which is all that can become of one that is made from within the work
it waits for.
-/

namespace DecisionEngine

/-- What a call that waited gets instead of an answer. -/
inductive FlightError (ε : Type)
  | failed (e : ε)
  | gaveUp
  deriving DecidableEq

/-- The stage at which a call that waits gives up. -/
def waitingStage : Bytes := utf8 "coalesced context fetch"

/-- The keys that are being worked for, and how often calls led and waited. -/
structure SingleFlight (κ : Type) where
  inFlight : List κ
  leaders : Nat
  waits : Nat
  deriving DecidableEq

namespace SingleFlight

variable {κ ε α : Type} [DecidableEq κ]

/-- Nothing is being worked for. -/
def idle : SingleFlight κ := ⟨[], 0, 0⟩

/-- A call for a key, and whether it leads. -/
def join (f : SingleFlight κ) (key : κ) : Bool × SingleFlight κ :=
  if key ∈ f.inFlight then (false, { f with waits := f.waits + 1 })
  else (true, { f with inFlight := key :: f.inFlight, leaders := f.leaders + 1 })

/-- Several calls for a key, one after another. -/
def joinAll (f : SingleFlight κ) (key : κ) : Nat → SingleFlight κ
  | 0 => f
  | n + 1 => joinAll (f.join key).2 key n

/-- The work for a key is done. -/
def land (f : SingleFlight κ) (key : κ) : SingleFlight κ :=
  { f with inFlight := f.inFlight.filter fun k => decide (k ≠ key) }

/-- Gets what a key stands for. The work may make calls of its own. -/
def fetch (f : SingleFlight κ) (key : κ)
    (work : SingleFlight κ → Except ε α × SingleFlight κ) :
    Except (FlightError ε) α × SingleFlight κ :=
  match f.join key with
  | (false, f) => (.error .gaveUp, f)
  | (true, f) =>
    let (answer, f) := work f
    (answer.mapError .failed, f.land key)

end SingleFlight
end DecisionEngine
