import DecisionEngine.Value
/-!
# Guard expressions

An expression is built from literals, references to attributes of the context, to inputs of the
request and (in guardrails) to parameters of an outcome, the test whether a reference has a value,
and operators. Every part knows the byte of its source it comes from.
-/

namespace DecisionEngine

/-- Where a referenced value is looked up. -/
inductive Scope
  | context
  | input
  | outcome
  deriving DecidableEq

/-- A reference to a value by its name. -/
structure Reference where
  position : Nat
  scope : Scope
  name : Bytes
  deriving DecidableEq

/-- The operators on one value. -/
inductive UnaryOp
  | not
  | neg
  deriving DecidableEq

/-- The operators on two values. -/
inductive BinaryOp
  | add
  | sub
  | mul
  | div
  | mod
  | eq
  | ne
  | lt
  | le
  | gt
  | ge
  | and
  | or
  deriving DecidableEq

/-- A guard expression. -/
inductive Expr
  | literal (position : Nat) (value : Value)
  | reference (target : Reference)
  | present (position : Nat) (target : Reference)
  | unary (position : Nat) (op : UnaryOp) (operand : Expr)
  | binary (position : Nat) (op : BinaryOp) (left right : Expr)
  deriving DecidableEq

/-- The sign an operator is written with. -/
def UnaryOp.sign : UnaryOp → Bytes
  | not => utf8 "!"
  | neg => utf8 "-"

/-- The sign an operator is written with. -/
def BinaryOp.sign : BinaryOp → Bytes
  | add => utf8 "+"
  | sub => utf8 "-"
  | mul => utf8 "*"
  | div => utf8 "/"
  | mod => utf8 "%"
  | eq => utf8 "=="
  | ne => utf8 "!="
  | lt => utf8 "<"
  | le => utf8 "<="
  | gt => utf8 ">"
  | ge => utf8 ">="
  | and => utf8 "&&"
  | or => utf8 "||"

/-- What stands in front of a name to say where it is looked up. -/
def Scope.qualifier : Scope → Bytes
  | context => utf8 "ctx."
  | input => utf8 "input."
  | outcome => utf8 "outcome."

/-! ## Errors -/

namespace Expr

/-- Why a source is no expression, or an expression not allowed where it stands. -/
inductive Cause
  | malformedNumber
  | integerOutOfRange
  | unterminatedText
  | unexpectedByte (b : UInt8)
  | expectedMark (mark : Bytes)
  | emptyReference (scope : Scope)
  | trailingDot
  | presenceOfNoReference
  | unexpectedKeyword (word : Bytes)
  | unknownFunction (name : Bytes)
  | unexpectedMark (mark : Bytes)
  | unexpectedEnd
  | trailing (text : Bytes)
  | outcomeReference (name : Bytes)
  deriving DecidableEq

/-- An error at a byte of the source. -/
structure Error where
  cause : Cause
  position : Nat
  deriving DecidableEq

/-- The wording of a cause. -/
def Cause.text : Cause → Bytes
  | malformedNumber => utf8 "malformed number"
  | integerOutOfRange => utf8 "integer literal out of range"
  | unterminatedText => utf8 "unterminated string literal"
  | unexpectedByte b => utf8 "unexpected character " ++ Bytes.quoted [b]
  | expectedMark mark => utf8 "expected " ++ Bytes.quoted mark
  | emptyReference scope => utf8 "empty reference after " ++ Bytes.quoted scope.qualifier
  | trailingDot => utf8 "reference ends with '.'"
  | presenceOfNoReference => utf8 "has() expects an attribute reference"
  | unexpectedKeyword word => utf8 "unexpected keyword " ++ Bytes.quoted word
  | unknownFunction name => utf8 "unknown function " ++ Bytes.quoted name
  | unexpectedMark mark => utf8 "unexpected " ++ Bytes.quoted mark
  | unexpectedEnd => utf8 "unexpected end of expression"
  | trailing text => utf8 "unexpected trailing " ++ Bytes.quoted text
  | outcomeReference name =>
    utf8 "outcome." ++ name ++ utf8 " is only available in guardrails"

/-- The wording of an error. -/
def Error.message (e : Error) : Bytes :=
  utf8 "Expression error at " ++ Bytes.decimal e.position ++ utf8 ": " ++ e.cause.text

end Expr

/-! ## Text -/

/-- A reference with its qualifier. -/
def Reference.toText (r : Reference) : Bytes := r.scope.qualifier ++ r.name

/-- A literal: texts stand in double quotes, as they are. -/
def Value.literalText : Value → Bytes
  | .text s => 34 :: s ++ [34]
  | v => v.toText

/-- The expression with brackets around every operator on two values. -/
def Expr.toText : Expr → Bytes
  | .literal _ v => v.literalText
  | .reference r => r.toText
  | .present _ r => utf8 "has(" ++ r.toText ++ utf8 ")"
  | .unary _ op x => op.sign ++ x.toText
  | .binary _ op l r =>
    utf8 "(" ++ l.toText ++ utf8 " " ++ op.sign ++ utf8 " " ++ r.toText ++ utf8 ")"

end DecisionEngine
