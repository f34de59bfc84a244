import DecisionEngine.Bytes
/-!
# Diagnostics of a compilation

What compilation has to say about a revision: errors, which keep a plan from being made, and
warnings. Each diagnostic has a code and names the nodes and edges it is about.
-/

namespace DecisionEngine

/-- What a diagnostic is about. The last four are found in revisions that still compile. -/
inductive DiagnosticCode
  | cycleDetected
  | danglingReference
  | duplicateNode
  | ambiguousArbitration
  | invalidExpression
  | invalidNode
  | invalidGuardrail
  | noEntryPoint
  | unreachableNode
  | unsatisfiableNode
  | ignoredEdge
  | uncataloguedAttribute
  deriving DecidableEq, Inhabited

namespace DiagnosticCode

/-- The codes in the order of their numbers. -/
def all : List DiagnosticCode :=
  [cycleDetected, danglingReference, duplicateNode, ambiguousArbitration, invalidExpression,
    invalidNode, invalidGuardrail, noEntryPoint, unreachableNode, unsatisfiableNode, ignoredEdge,
    uncataloguedAttribute]

/-- The name of a code. -/
def name : DiagnosticCode → Bytes
  | cycleDetected => utf8 "CycleDetected"
  | danglingReference => utf8 "DanglingReference"
  | duplicateNode => utf8 "DuplicateNode"
  | ambiguousArbitration => utf8 "AmbiguousArbitration"
  | invalidExpression => utf8 "InvalidExpression"
  | invalidNode => utf8 "InvalidNode"
  | invalidGuardrail => utf8 "InvalidGuardrail"
  | noEntryPoint => utf8 "NoEntryPoint"
  | unreachableNode => utf8 "UnreachableNode"
  | unsatisfiableNode => utf8 "UnsatisfiableNode"
  | ignoredEdge => utf8 "IgnoredEdge"
  | uncataloguedAttribute => utf8 "UncataloguedAttribute"

end DiagnosticCode

/-- A finding of compilation. -/
structure Diagnostic where
  code : DiagnosticCode
  message : Bytes
  nodes : List Bytes
  edges : List Bytes
  deriving DecidableEq, Inhabited

namespace Diagnostic

/-- A list of names behind a word; nothing for an empty list. -/
def namesText (word : String) (names : List Bytes) : Bytes :=
  if names.isEmpty then []
  else utf8 " " ++ utf8 word ++ utf8 "=[" ++ Bytes.joined (utf8 ",") names ++ utf8 "]"

/-- The diagnostic as text. -/
def toText (d : Diagnostic) : Bytes :=
  d.code.name ++ utf8 ": " ++ d.message ++ namesText "nodes" d.nodes ++ namesText "edges" d.edges

/-- The wording of a failed compilation: how many errors there are, and the first of them. -/
def summary (errors : List Diagnostic) : Bytes :=
  utf8 "Compilation failed with " ++ Bytes.decimal errors.length ++ utf8 " error(s)" ++
    match errors with
    | [] => []
    | d :: _ => utf8 ": " ++ d.toText

end Diagnostic

/-! ## Findings of a stage -/

/-- Errors and warnings, each in the order in which they were found. -/
structure Findings where
  errors : List Diagnostic
  warnings : List Diagnostic
  deriving DecidableEq

namespace Findings

/-- Nothing was found. -/
def clear : Findings := ⟨[], []⟩

/-- Findings followed by further ones. -/
def also (a b : Findings) : Findings := ⟨a.errors ++ b.errors, a.warnings ++ b.warnings⟩

/-- Only errors. -/
def ofErrors (errors : List Diagnostic) : Findings := ⟨errors, []⟩

/-- Only warnings. -/
def ofWarnings (warnings : List Diagnostic) : Findings := ⟨[], warnings⟩

/-- Whether an error was found. -/
def failed (f : Findings) : Bool := !f.errors.isEmpty

/-- The findings where every warning counts as an error. -/
def strict (f : Findings) : Findings := ⟨f.errors ++ f.warnings, []⟩

end Findings
end DecisionEngine
