import DecisionEngine.Compile.Emission
/-!
# Compiling a revision

A revision is brought into normal form, checked, pruned, ordered, and its contests are settled;
then the plan is emitted. The first of these that finds an error ends the attempt. The result is a
function of the revision and the options, down to the bytes of the blueprint.
-/

namespace DecisionEngine

/-- The options of compilation. -/
structure CompilerOptions where
  maxAttributeBits : Nat
  warningsAsErrors : Bool
  dropUnreachable : Bool
  deriving DecidableEq

/-- What holds when nothing is said. -/
def CompilerOptions.standard : CompilerOptions := ⟨maxCatalogSize, false, true⟩

/-- Figures about a compilation. -/
structure CompileFigures where
  id : BlueprintId
  inputNodes : Nat
  inputEdges : Nat
  emittedNodes : Nat
  prunedNodes : Nat
  steps : Nat
  selectorSteps : Nat
  guardPrograms : Nat
  instructions : Nat
  encodedBytes : Nat
  deriving DecidableEq

/-- The result of an attempt; there is a blueprint exactly if there are no errors. -/
structure Compilation where
  blueprint : Option Blueprint
  figures : CompileFigures
  errors : List Diagnostic
  warnings : List Diagnostic
  deriving DecidableEq

namespace CompileFigures

/-- What is known before the attempt. -/
def ofInput (r : Revision) : CompileFigures :=
  ⟨.blank, r.nodes.length, r.edges.length, 0, 0, 0, 0, 0, 0, 0⟩

/-- The programs of a blueprint that have instructions. -/
def programs (b : Blueprint) : List Program :=
  ((b.steps.flatMap fun s => s.guards.map (·.program)) ++ b.guardrails.map (·.violation)).filter
    fun p => !p.isEmpty

/-- The figures of a blueprint. -/
def withBlueprint (f : CompileFigures) (b : Blueprint) : CompileFigures :=
  { f with
    id := b.id
    emittedNodes := b.nodes.length
    steps := b.steps.length
    selectorSteps := (b.steps.filter fun s => s matches .selector _).length
    guardPrograms := (programs b).length
    instructions := (programs b).foldl (fun n p => n + p.code.length) 0
    encodedBytes := b.encoded.length }

end CompileFigures

/-- The end of an attempt. -/
def Compilation.finish (o : CompilerOptions) (figures : CompileFigures) (found : Findings)
    (b : Option Blueprint) : Compilation :=
  let f := if o.warningsAsErrors then found.strict else found
  ⟨if f.failed then none else b, figures, f.errors, f.warnings⟩

/-- Compiles a revision. -/
def Revision.compile (r : Revision) (o : CompilerOptions) : Compilation :=
  let figures := CompileFigures.ofInput r
  let (normal, found) := NormalGraph.ofRevision r
  if found.failed then .finish o figures found none
  else
    let found := found.also (normal.lint r.guardrails)
    if found.failed then .finish o figures found none
    else
      let (flat, pruning, pruned) := FlatGraph.ofNormal normal o.dropUnreachable
      let figures := { figures with prunedNodes := pruned }
      let (units, ordering) := flat.ordered
      let found := (found.also pruning).also ordering
      if found.failed then .finish o figures found none
      else
        let (contests, settling) := flat.contests units
        let found := found.also settling
        if found.failed then .finish o figures found none
        else
          let (b, emission) := r.emit o.maxAttributeBits flat contests
          .finish o (figures.withBlueprint b) (found.also emission) (some b)

/-- Compiles a revision, or gives the errors. -/
def Revision.compileOrErrors (r : Revision) (o : CompilerOptions) :
    Except (List Diagnostic) Blueprint :=
  let c := r.compile o
  match c.blueprint with
  | some b => .ok b
  | none => .error c.errors

end DecisionEngine
