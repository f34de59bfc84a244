import DecisionEngine.Options
import DecisionEngine.Proofs.Wire.Nesting
import DecisionEngine.Trace.Decode
/-!
# How decoders go through bytes

The parts of blueprints, of trace records and of options are read in walks, as items are.  What is
more in a decoder stands behind its walk: that nothing is left, and for a blueprint, in the midst
of it, that its labels make a catalog.

* `Walk.branch`, `Walk.step`, … — the walks of the parts of blueprints.
* `Walk.request`, `Walk.response`, … — the walks of the parts of trace records.
* `whole` — reading something behind which nothing may follow.
* `TraceRecord.decode_eq_whole`, `Options.decode_eq_whole`, `Blueprint.decode_eq_whole` — the
  decoders, made of walks.
-/

namespace DecisionEngine
namespace Wire
namespace Reader

variable {α β : Type} {inner : Reader Unit}

namespace Walk

/-! ## Parts of blueprints -/

-- Fewer than nine bytes are no instruction; where the code is a whole number of them, none is left.
def instructions (at_ : Nat) : ∀ code, Walk inner (instructions at_ code)
  | op :: _ :: _ :: _ :: _ :: _ :: _ :: _ :: _ :: rest => match h : Opcode.ofCode? op with
    | none => .ofEq (by rw [Reader.instructions, h]) (.failAt at_ _)
    | some _ => .ofEq (by rw [Reader.instructions, h]) (.map _ (instructions at_ rest))
  | [] | [_] | [_, _] | [_, _, _] | [_, _, _, _] | [_, _, _, _, _] | [_, _, _, _, _, _]
  | [_, _, _, _, _, _, _] | [_, _, _, _, _, _, _, _] => .done _

def program : Walk inner program :=
  .bind (.function _) fun _ => .bind .int fun _ => .bind (.list .value) fun _ =>
    .bind .position fun start => .bind .binary fun code =>
      .choose (.failAt _ _) (.map _ (.instructions start code))

def outcome : Walk inner outcome :=
  .bind (.function _) fun _ => .bind .text fun _ => .map _ .attributes

def guard : Walk inner guard :=
  .bind (.function _) fun _ => .bind .word fun _ => .bind .program fun _ => .bind .texts fun _ =>
    .map _ .text

def nodeIndex (count : Nat) : Walk inner (nodeIndex count) :=
  .bind .position fun _ => .bind .int fun _ => .choose (.failAt _ _) (.done _)

def planNode : Walk inner planNode :=
  .bind (.function _) fun _ => .bind .text fun _ => .bind (.enumeration _) fun _ => .map _ .text

def orNull (what : String) {item : Reader α} (w : Walk inner item) :
    Walk inner (orNull what item) :=
  .bind .peekTag fun _ => .choose
    (.bind .position fun _ => .bind .symbol fun _ => .choose (.done _) (.failAt _ _))
    (.map _ w)

def branch (count : Nat) : Walk inner (branch count) :=
  .bind (.function _) fun _ => .bind (.nodeIndex count) fun _ => .bind .guard fun _ =>
    .bind .int fun _ => .bind .real fun _ => .bind (.orNull _ .outcome) fun _ => .map _ .int

def dominance (count : Nat) : Walk inner (dominance count) :=
  .bind .listHead fun _ => .bind (.nodeIndex count) fun _ => .map _ (.nodeIndex count)

def step (count : Nat) : Walk inner (step count) :=
  .bind .position fun _ => .bind .anyFunction fun _ => .choose
    (.bind (.nodeIndex count) fun _ => .map _ .guard)
    (.choose
      (.bind (.nodeIndex count) fun _ => .bind .guard fun _ => .map _ .outcome)
      (.choose
        (.bind .text fun _ => .bind (.enumeration _) fun _ => .bind .text fun _ =>
          .bind (.list (.branch count)) fun _ => .map _ (.list (.dominance count)))
        (.failAt _ _)))

def guardrail : Walk inner guardrail :=
  .bind (.function _) fun _ => .bind .text fun _ => .bind .text fun _ =>
    .bind (.enumeration _) fun _ => .bind .texts fun _ => .bind .program fun _ =>
      .bind .text fun _ => .bind (.enumeration _) fun _ => .bind .text fun _ =>
        .bind .value fun _ => .map _ .outcome

/-! ## Parts of trace records -/

def step64 : Walk inner step64 := .map _ .int

def blueprintId : Walk inner blueprintId :=
  .bind (.function _) fun _ => .bind .text fun _ => .bind .word fun _ => .map _ .word

def blueprintId? : Walk inner blueprintId? := .orNull _ .blueprintId

def request : Walk inner request :=
  .bind (.function _) fun _ => .bind .text fun _ => .bind .text fun _ => .bind .text fun _ =>
    .bind .attributes fun _ => .bind .bool fun _ => .map _ .int

def decision : Walk inner decision :=
  .bind (.function _) fun _ => .bind .text fun _ => .bind .text fun _ =>
    .bind .attributes fun _ => .bind (.enumeration _) fun _ => .bind .text fun _ =>
      .map _ .step64

def alternative : Walk inner alternative :=
  .bind (.function _) fun _ => .bind .text fun _ => .bind .text fun _ => .bind .step64 fun _ =>
    .map _ .text

def trailEntry : Walk inner trailEntry :=
  .bind (.function _) fun _ => .bind (.enumeration _) fun _ => .bind .int fun _ =>
    .bind .text fun _ => .bind .word fun _ => .map _ .text

theorem sure_orNull (what : String) {item : Reader α} {w : Walk inner item} (h : w.Sure) :
    (orNull what w).Sure := .later fun _ => .choose (.later fun _ => .first sure_symbol) (.first h)

theorem sure_blueprintId? : (blueprintId? : Walk inner _).Sure :=
  sure_orNull _ (.first (sure_function _))

def metadataEntry (key : Bytes) (m : Provenance × Stamp) : Entry m (metadataEntry key m) :=
  .known (.map _ .blueprintId?) (.first sure_blueprintId?) <|
  .known (.map _ .text) (.first sure_text) <|
  .known (.map _ (.enumeration _)) (.first (sure_enumeration _)) <|
  .known (.map _ .text) (.first sure_text) <|
  .known (.map _ .int) (.first sure_int) <|
  .known (.map _ .int) (.first sure_int) <|
  .known (.map _ .int) (.first sure_int) <|
  .known (.map _ .bool) (.first sure_bool) <|
  .known (.map _ .bool) (.first sure_bool) <|
  .known (.map _ .bool) (.first sure_bool) <|
  .known (.map _ .bool) (.first sure_bool) <| .unknown m

def response : Walk skip response :=
  .bind (.function _) fun _ => .bind (.list .decision) fun _ => .bind (.list .alternative) fun _ =>
    .bind (.list .trailEntry) fun _ => .map _ (.associationWith metadataEntry _)

def recordHead (name : Bytes) (fields : Nat) : Walk inner (recordHead name fields) :=
  .bind .position fun _ => .bind (.function _) fun _ => .choose (.done _) (.failAt _ _)

end Walk

/-! ## Decoders -/

/-- Reads something behind which nothing may follow. -/
def whole (what : String) (r : Reader α) : Reader α := do
  let x ← r
  finish what
  return x

theorem finish_nil {what : String} {c : Cursor} (h : c.rest = []) :
    finish what c = .ok ((), c) := by
  simp only [finish, atEnd, Bind.bind, StateT.bind, Except.bind, h, List.isEmpty_nil]
  rfl

theorem finish_ne_nil {what : String} {c : Cursor} (h : c.rest ≠ []) :
    finish what c = .error ⟨.malformed (.trailing (utf8 what)), c.position⟩ := by
  simp only [finish, atEnd, Bind.bind, StateT.bind, Except.bind, List.isEmpty_eq_false_iff.2 h]
  rfl

end Reader
end Wire

open Wire (Cursor Reader)
open Wire.Reader (Walk)

namespace Blueprint

def headerEntry.walk (key : Bytes) (h : Header) : Walk.Entry h (headerEntry key h) :=
  .known (.map _ .text) (.first Walk.sure_text) <|
  .known (.map _ .word) (.first Walk.sure_word) <|
  .known (.map _ .text) (.first Walk.sure_text) <|
  .known (.map _ .text) (.first Walk.sure_text) <| .unknown h

def readFront.walk : Walk Reader.skip readFront :=
  .bind .header fun _ => .bind (.function _) fun _ =>
    .bind (.associationWith headerEntry.walk _) fun _ => .map _ .texts

/-- What stands behind the catalog. -/
structure Parts where
  symbols : List Bytes
  nodes : List PlanNode
  steps : List Step
  guardrails : List PlanGuardrail

/-- The reader of what stands behind the catalog. -/
def readParts : Reader Parts := do
  let symbols ← Reader.texts
  let nodes ← Reader.list Reader.planNode
  let steps ← Reader.list (Reader.step nodes.length)
  return ⟨symbols, nodes, steps, ← Reader.list Reader.guardrail⟩

def readParts.walk : Walk Reader.skip readParts :=
  .bind .texts fun _ => .bind (.list .planNode) fun nodes =>
    .bind (.list (.step nodes.length)) fun _ => .map _ (.list .guardrail)

/-- The blueprint that has been read. -/
def assembled (h : Header) (catalog : Catalog) (bytes : Bytes) (p : Parts) : Blueprint :=
  ⟨⟨h.graph, h.version, Fnv.hash bytes⟩, h.tenant, h.decisionType, catalog, .ofList p.symbols,
    p.nodes, p.steps, p.guardrails, bytes⟩

theorem readBack_eq (h : Header) (catalog : Catalog) (bytes : Bytes) :
    readBack h catalog bytes = (do
      let p ← Reader.whole "blueprint" readParts
      return assembled h catalog bytes p) := by
  unfold readBack Reader.whole readParts assembled
  simp only [bind_assoc, pure_bind]

/-- A blueprint is its front, then a catalog, and then the parts behind it and nothing more. -/
theorem decode_eq_whole (bytes : Bytes) :
    decode bytes = (do
      let ((h, labels), c) ← (readFront (Cursor.start bytes)).mapError .unreadable
      let catalog ← (Catalog.ofLabels labels).mapError .badCatalog
      let (p, _) ← (Reader.whole "blueprint" readParts c).mapError .unreadable
      return assembled h catalog bytes p) := by
  unfold decode
  congr 1
  funext ⟨⟨h, labels⟩, c⟩
  dsimp only
  congr 1
  funext catalog
  rw [readBack_eq]
  simp only [Bind.bind, StateT.bind]
  cases Reader.whole "blueprint" readParts c with
  | error e => rfl
  | ok p => rfl

end Blueprint

namespace TraceRecord

/-- The reader of the fields of a record. -/
def readFields : Reader TraceRecord := do
  Reader.header
  Reader.recordHead (utf8 "TraceRecord") 9
  let traceId ← Reader.text
  let request ← Reader.request
  let blueprint ← Reader.blueprintId?
  let snapshot ← Reader.text
  let origin ← Reader.enumeration ContextOrigin.all
  let notes ← Reader.texts
  let overrides ← Reader.orNull "attributes or Null" Reader.attributes
  let overrideNote ← Reader.text
  return ⟨traceId, request, blueprint, snapshot, origin, notes, overrides, overrideNote,
    ← Reader.response⟩

def readFields.walk : Walk Reader.skip readFields :=
  .bind .header fun _ => .bind (.recordHead _ _) fun _ => .bind .text fun _ => .bind .request
    fun _ => .bind .blueprintId? fun _ => .bind .text fun _ => .bind (.enumeration _) fun _ =>
      .bind .texts fun _ => .bind (.orNull _ .attributes) fun _ => .bind .text fun _ =>
        .map _ .response

theorem decode_eq_whole (bytes : Bytes) :
    decode bytes = Reader.run (Reader.whole "TraceRecord" readFields) bytes := by
  unfold decode Reader.whole readFields
  simp only [bind_assoc, pure_bind]

end TraceRecord

namespace Options

def nonNegative.walk (key : Bytes) : Walk Reader.skip (nonNegative key) :=
  .bind .position fun _ => .bind .int fun _ => .choose (.failAt _ _) (.done _)

theorem nonNegative.sure (key : Bytes) : (nonNegative.walk key).Sure :=
  .later fun _ => .first Walk.sure_int

def entry.walk (key : Bytes) (o : Options) : Walk.Entry o (entry key o) :=
  .known (.map _ (nonNegative.walk key)) (.first (nonNegative.sure key)) <|
  .known (.map _ (nonNegative.walk key)) (.first (nonNegative.sure key)) <|
  .known (.map _ (nonNegative.walk key)) (.first (nonNegative.sure key)) <|
  .known (.map _ .bool) (.first Walk.sure_bool) <|
  .known (.map _ .attributes) (.first Walk.sure_attributes) <|
  .known (.map _ .text) (.first Walk.sure_text) <|
  .known (.map _ (nonNegative.walk key)) (.first (nonNegative.sure key)) <|
  .known (.map _ .bool) (.first Walk.sure_bool) <|
  .known (.map _ .text) (.first Walk.sure_text) <| .unknown o

/-- The reader of the options. -/
def readEntries (base : Options) : Reader Options := do
  Reader.header
  Reader.associationWith entry base

def readEntries.walk (base : Options) : Walk Reader.skip (readEntries base) :=
  .bind .header fun _ => .associationWith entry.walk base

theorem decode_eq_whole (base : Options) (bytes : Bytes) :
    decode base bytes = Reader.run (Reader.whole "options" (readEntries base)) bytes := by
  unfold decode Reader.whole readEntries
  simp only [bind_assoc]

end Options
end DecisionEngine
