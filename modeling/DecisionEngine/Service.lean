import DecisionEngine.Compile.Compiler
import DecisionEngine.Engine.Execute
/-!
# Services

A service compiles revisions into the registry of its engine, activates blueprints, and answers
requests alone or in batches. A request of a batch that cannot be answered carries its error and
does not concern the others.
-/

namespace DecisionEngine
namespace Service

variable {σ : Type}

/-- The engine with another registry. -/
def withRegistry (e : Engine) (r : Registry) : Engine := { e with registry := r }

/-- Compiles a revision and stores the blueprint, which then is the stored one of its content. -/
def compile (options : CompilerOptions) (revision : Revision) (e : Engine) :
    Except StoreError (Compilation × Engine × List Warning) :=
  let c := revision.compile options
  match c.blueprint with
  | none => .ok (c, e, [])
  | some b => do
    let s ← e.registry.store b
    return ({ c with blueprint := some s.blueprint }, withRegistry e s.registry, s.warnings)

/-- Makes a stored blueprint active, and says whether that is new. -/
def activate (id : BlueprintId) (e : Engine) : Except ResolutionError (Bool × Engine) :=
  match e.registry.activate id with
  | .error id => .error (.unknownBlueprint id)
  | .ok (isNew, r) => .ok (isNew, withRegistry e r)

/-! ## Batches -/

/-- The answer to a request of a batch. -/
abbrev BatchResult := Except EngineError Response

/-- The text of an error of a batch. -/
def errorText (e : EngineError) : Bytes :=
  match e.message? with
  | some m => Bytes.untilNul m
  | none => utf8 "unknown exception"

/-- The warning about an error that says nothing. -/
def batchWarnings (index : Nat) : BatchResult → List Warning
  | .error .unexplained =>
    [.ofPieces [utf8 "request ", Bytes.decimal index,
      utf8 " of batch failed with a non-standard exception"]]
  | _ => []

/-- Answers requests one after another. -/
def evaluateBatch (out : Surroundings σ) (clock : Clock) :
    List (Request × Nat) → World σ → List BatchResult × World σ
  | [], w => ([], w)
  | (request, index) :: rest, w =>
    let (r, w) := (Engine.execute out clock request).run.run w
    let w := { w with warnings := w.warnings ++ batchWarnings index r }
    let (rs, w) := evaluateBatch out clock rest w
    (r :: rs, w)

/-! ## Replay -/

/-- Computes the answer again that was recorded under an id; `find?` looks records up. -/
def replay (out : Surroundings σ) (traceId : Bytes) (find? : Bytes → Option TraceRecord) :
    Call σ Response :=
  match find? traceId with
  | none => Call.stop (.resolution (.noTraceRecord traceId))
  | some record => Engine.replay out record

end Service
end DecisionEngine
