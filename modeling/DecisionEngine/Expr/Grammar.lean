import DecisionEngine.Expr.Token
/-!
# Reading expressions

The grammar, from the loosest to the tightest level:

* `or`, `and`: chains of `||` or `or`, and of `&&` or `and`;
* `not`: `!` or `not` in front of an operand of the same level;
* comparison: at most one of `==`, `!=`, `<=`, `>=`, `<`, `>` between two sums;
* `sum`, `term`: chains of `+` and `-`, and of `*`, `/` and `%`;
* minus: `-` in front of an operand of the same level;
* primary: a literal, a reference, `has(reference)`, or an expression in brackets.

Chains associate to the left. Every reader takes at least one token and says so in its result,
which is what makes reading end.
-/

namespace DecisionEngine
namespace Expr

/-- A result and the tokens behind what was read, fewer than there were. -/
abbrev Taken (α : Type) (ts : List Token) := { r : α × List Token // r.2.length < ts.length }

/-- A result and the tokens behind what was read, not more than there were. -/
abbrev Left (α : Type) (ts : List Token) := { r : α × List Token // r.2.length ≤ ts.length }

/-! ## Words and marks -/

/-- Whether a token is a mark or a word that stands for it. -/
def Token.stands (t : Token) (m : Mark) (word : String) : Bool :=
  t.lexeme == .mark m || t.lexeme == .name (utf8 word)

/-- Whether a token is a mark. -/
def Token.isMark (t : Token) (m : Mark) : Bool := t.lexeme == .mark m

/-- The levels whose operators form chains. -/
inductive Chain
  | or
  | and
  | sum
  | term
  deriving DecidableEq

/-- The place of a level among the levels, the loosest with the highest number. -/
@[simp] def Chain.rank : Chain → Nat
  | or => 10
  | and => 8
  | sum => 4
  | term => 2

/-- The operator of a level that a token stands for. -/
def Chain.operator? (level : Chain) (t : Token) : Option BinaryOp :=
  match level with
  | .or => if t.stands .or "or" then some .or else none
  | .and => if t.stands .and "and" then some .and else none
  | .sum =>
    if t.isMark .plus then some .add
    else if t.isMark .minus then some .sub
    else none
  | .term =>
    if t.isMark .times then some .mul
    else if t.isMark .slash then some .div
    else if t.isMark .percent then some .mod
    else none

/-- The comparison that a token stands for. -/
def comparison? (t : Token) : Option BinaryOp :=
  match t.lexeme with
  | .mark .eq => some .eq
  | .mark .ne => some .ne
  | .mark .le => some .le
  | .mark .ge => some .ge
  | .mark .lt => some .lt
  | .mark .gt => some .gt
  | _ => none

/-! ## References -/

/-- What is left of a name behind a qualifier. -/
def strip? (scope : Scope) (name : Bytes) : Option Bytes :=
  if scope.qualifier.isPrefixOf name then some (name.drop scope.qualifier.length) else none

/-- The scope of a name and the name in it; one without a qualifier belongs to the context. -/
def qualified (name : Bytes) : Except Cause (Scope × Bytes) :=
  let found := [Scope.context, Scope.input, Scope.outcome].findSome? fun s =>
    (strip? s name).map fun n => (s, n)
  match found with
  | none => .ok (.context, name)
  | some (s, []) => .error (.emptyReference s)
  | some p => .ok p

/-- The reference that a name stands for. -/
def referenceTo (position : Nat) (name : Bytes) : Except Error Reference :=
  match qualified name with
  | .error cause => .error ⟨cause, position⟩
  | .ok (scope, n) =>
    if n.getLast? = some 46 then .error ⟨.trailingDot, position⟩ else .ok ⟨position, scope, n⟩

/-- The literal that a word stands for. -/
def wordLiteral? (name : Bytes) : Option Value :=
  if name = utf8 "true" then some (.bool true)
  else if name = utf8 "false" then some (.bool false)
  else if name = utf8 "null" then some .null
  else none

/-- A word that joins expressions and so is none. -/
def isKeyword (name : Bytes) : Bool :=
  name == utf8 "and" || name == utf8 "or" || name == utf8 "not"

/-! ## Reading tokens -/

section Reading

/-- A closing bracket is the next token. -/
def closing (finish : Nat) (ts : List Token) : Except Error (Taken Unit ts) :=
  match ts with
  | [] => .error ⟨.expectedMark Mark.closing.text, finish⟩
  | t :: rest =>
    if t.isMark .closing then .ok ⟨((), rest), by simp⟩
    else .error ⟨.expectedMark Mark.closing.text, t.position⟩

/-- The test `has(reference)`, from its opening bracket on. -/
def presence (finish position : Nat) (ts : List Token) : Except Error (Taken Expr ts) :=
  match ts with
  | _ :: t :: rest =>
    match t.lexeme with
    | .name name => do
      let target ← referenceTo t.position name
      let ⟨((), back), h⟩ ← closing finish rest
      return ⟨(.present position target, back), by simp only [List.length_cons] at h ⊢; omega⟩
    | _ => .error ⟨.presenceOfNoReference, t.position⟩
  | _ => .error ⟨.presenceOfNoReference, finish⟩

/-- Whether an opening bracket is the next token. -/
def opens (ts : List Token) : Bool :=
  match ts with
  | t :: _ => t.isMark .opening
  | [] => false

mutual

/-- A chain of a level. -/
def chain (finish : Nat) (level : Chain) (ts : List Token) : Except Error (Taken Expr ts) := do
  let ⟨(l, rest), h⟩ ← operand finish level ts
  let ⟨(x, back), h'⟩ ← chainFrom finish level l rest
  return ⟨(x, back), Nat.lt_of_le_of_lt h' h⟩
termination_by (ts.length, level.rank + 2)

/-- The rest of a chain whose left part has been read. -/
def chainFrom (finish : Nat) (level : Chain) (l : Expr) (ts : List Token) :
    Except Error (Left Expr ts) :=
  match ts with
  | [] => .ok ⟨(l, []), Nat.le_refl _⟩
  | t :: rest =>
    match level.operator? t with
    | none => .ok ⟨(l, t :: rest), Nat.le_refl _⟩
    | some op => do
      let ⟨(r, mid), h⟩ ← operand finish level rest
      have shorter : mid.length < rest.length := h
      let ⟨(x, back), h'⟩ ← chainFrom finish level (.binary t.position op l r) mid
      return ⟨(x, back), by simp only [List.length_cons] at h h' ⊢; omega⟩
termination_by (ts.length, 0)

/-- An operand of a chain. -/
def operand (finish : Nat) (level : Chain) (ts : List Token) : Except Error (Taken Expr ts) :=
  match level with
  | .or => chain finish .and ts
  | .and => negation finish ts
  | .sum => chain finish .term ts
  | .term => negative finish ts
termination_by (ts.length, level.rank + 1)

/-- A comparison, or one with `!` or `not` in front. -/
def negation (finish : Nat) (ts : List Token) : Except Error (Taken Expr ts) :=
  match ts with
  | [] => comparison finish []
  | t :: rest =>
    if t.stands .bang "not" then do
      let ⟨(x, back), h⟩ ← negation finish rest
      return ⟨(.unary t.position .not x, back), by simp only [List.length_cons] at h ⊢; omega⟩
    else comparison finish (t :: rest)
termination_by (ts.length, 8)

/-- A sum, or two with a comparison between them. -/
def comparison (finish : Nat) (ts : List Token) : Except Error (Taken Expr ts) := do
  let ⟨(l, rest), h⟩ ← chain finish .sum ts
  match rest, h with
  | [], h => return ⟨(l, []), h⟩
  | t :: after, h =>
    match comparison? t with
    | none => return ⟨(l, t :: after), h⟩
    | some op => do
      have : after.length < ts.length := by simp only [List.length_cons] at h; omega
      let ⟨(r, back), h'⟩ ← chain finish .sum after
      return ⟨(.binary t.position op l r, back), by simp only [List.length_cons] at h h' ⊢; omega⟩
termination_by (ts.length, 7)

/-- A primary expression, or one with `-` in front. -/
def negative (finish : Nat) (ts : List Token) : Except Error (Taken Expr ts) :=
  match ts with
  | [] => primary finish []
  | t :: rest =>
    if t.isMark .minus then do
      let ⟨(x, back), h⟩ ← negative finish rest
      return ⟨(.unary t.position .neg x, back), by simp only [List.length_cons] at h ⊢; omega⟩
    else primary finish (t :: rest)
termination_by (ts.length, 2)

/-- A literal, a reference, a test for presence, or an expression in brackets. -/
def primary (finish : Nat) (ts : List Token) : Except Error (Taken Expr ts) :=
  match ts with
  | [] => .error ⟨.unexpectedEnd, finish⟩
  | t :: rest =>
    match t.lexeme with
    | .number _ v => .ok ⟨(.literal t.position v, rest), by simp⟩
    | .text s => .ok ⟨(.literal t.position (.text s), rest), by simp⟩
    | .name n =>
      match wordLiteral? n with
      | some v => .ok ⟨(.literal t.position v, rest), by simp⟩
      | none =>
        if n = utf8 "has" ∧ opens rest then do
          let ⟨(x, back), h⟩ ← presence finish t.position rest
          return ⟨(x, back), by simp only [List.length_cons] at h ⊢; omega⟩
        else if isKeyword n then .error ⟨.unexpectedKeyword n, t.position⟩
        else if opens rest then .error ⟨.unknownFunction n, t.position⟩
        else do return ⟨(.reference (← referenceTo t.position n), rest), by simp⟩
    | .mark .opening => do
      let ⟨(x, mid), h⟩ ← chain finish .or rest
      let ⟨((), back), h'⟩ ← closing finish mid
      return ⟨(x, back), by simp only [List.length_cons] at h h' ⊢; omega⟩
    | .mark m => .error ⟨.unexpectedMark m.text, t.position⟩
termination_by (ts.length, 1)

end

end Reading

/-- The expression that a list of tokens is. -/
def ofTokens (ts : Tokens) : Except Error Expr := do
  let ⟨(x, rest), _⟩ ← chain ts.finish .or ts.tokens
  match rest with
  | [] => return x
  | t :: _ => throw ⟨.trailing t.lexeme.quotedAs, t.position⟩

/-- The expression that a source is. -/
def parse (source : Bytes) : Except Error Expr := do ofTokens (← tokenize source)

end Expr
end DecisionEngine
