import DecisionEngine.Mask
/-!
# Trails

A trail explains a decision: what was resolved, which guards were tested, what fired, how
selections were settled and what guardrails did, in the order in which it happened. `Trail.render`
is its text, one line an entry.
-/

namespace DecisionEngine

/-- What an entry of a trail is about. -/
inductive TrailKind
  | resolution
  | override
  | maskSkip
  | guardPassed
  | guardFailed
  | guardFault
  | fired
  | candidate
  | arbitration
  | guardrailVeto
  | guardrailCap
  | guardrailDefault
  | guardrailFault
  | failClosed
  deriving DecidableEq, Inhabited

namespace TrailKind

/-- The kinds in the order of their numbers. -/
def all : List TrailKind :=
  [resolution, override, maskSkip, guardPassed, guardFailed, guardFault, fired, candidate,
    arbitration, guardrailVeto, guardrailCap, guardrailDefault, guardrailFault, failClosed]

/-- The name of a kind. -/
def name : TrailKind → Bytes
  | resolution => utf8 "resolution"
  | override => utf8 "override"
  | maskSkip => utf8 "mask-skip"
  | guardPassed => utf8 "guard-passed"
  | guardFailed => utf8 "guard-failed"
  | guardFault => utf8 "guard-fault"
  | fired => utf8 "fired"
  | candidate => utf8 "candidate"
  | arbitration => utf8 "arbitration"
  | guardrailVeto => utf8 "guardrail-veto"
  | guardrailCap => utf8 "guardrail-cap"
  | guardrailDefault => utf8 "guardrail-default"
  | guardrailFault => utf8 "guardrail-fault"
  | failClosed => utf8 "fail-closed"

end TrailKind

/-- An entry of a trail. -/
structure TrailEntry where
  kind : TrailKind
  step : Option Nat
  node : Bytes
  mask : Mask
  detail : Bytes
  deriving DecidableEq

namespace TrailEntry

/-- An entry that belongs to no step. -/
def note (kind : TrailKind) (detail : Bytes) : TrailEntry := ⟨kind, none, [], 0, detail⟩

/-- The line of an entry; parts that say nothing are left out. -/
def render (e : TrailEntry) : Bytes :=
  utf8 "[" ++ e.kind.name ++ utf8 "]"
    ++ (match e.step with | some n => utf8 " step " ++ Bytes.decimal n | none => [])
    ++ (if e.node = [] then [] else utf8 " " ++ e.node)
    ++ (if e.mask = 0 then [] else utf8 " mask=0x" ++ Bytes.hexadecimal e.mask.toNat)
    ++ (if e.detail = [] then [] else utf8 ": " ++ e.detail)
    ++ utf8 "\n"

end TrailEntry

/-- The entries of an explanation, in the order in which they were made. -/
abbrev Trail := List TrailEntry

namespace Trail

/-- The text of a trail. -/
def render (t : Trail) : Bytes := t.flatMap TrailEntry.render

/-- The entries of a kind. -/
def ofKind (kind : TrailKind) (t : Trail) : Trail := t.filter (·.kind == kind)

/-- Where the entries of a kind stand. -/
def positionsOf (kind : TrailKind) (t : Trail) : List Nat :=
  (t.zipIdx.filter (·.1.kind == kind)).map (·.2)

end Trail
end DecisionEngine
