import DecisionEngine.Catalog
import DecisionEngine.Expr.Basic
import DecisionEngine.Program.Basic
/-!
# Assembling guard programs

A guard is assembled as a conjunction. Each conjunct leaves one value; in front of the next one
stands a jump to the end of the program, taken when the value is false, and the last value is
checked to be a truth value. Operators are written behind their operands; `&&` and `||` jump over
their right operand when the left one decides.

An assembly keeps what it has when a conjunct is refused half-way: the state is what was written
so far. `Assembly.finish` is the program, and leaves an assembly that is ready for the next one.
-/

namespace DecisionEngine

/-- A program in the making. `exits` are the jumps whose target is the end, `depth` is the number
of values on the stack at the end of the code. -/
structure Assembly where
  symbols : SymbolTable
  allowOutcome : Bool
  code : List Instruction
  constants : List Value
  maxStack : UInt32
  exits : List Nat
  conjuncts : Nat
  depth : UInt32

/-- Why a conjunct is refused. -/
inductive AssemblyError
  | expression (e : Expr.Error)
  | noNodes
  deriving DecidableEq

/-- The wording of a refusal. -/
def AssemblyError.message : AssemblyError → Bytes
  | expression e => e.message
  | noNodes => utf8 "emit_any_fired needs at least one node"

namespace Assembly

/-- Changes an assembly; what was written before a refusal stays. -/
abbrev Emitter := ExceptT AssemblyError (StateM Assembly)

/-- An assembly without conjuncts. -/
def start (symbols : SymbolTable) (allowOutcome : Bool) : Assembly :=
  ⟨symbols, allowOutcome, [], [], 0, [], 0, 0⟩

/-! ## Writing instructions -/

/-- Writes an instruction. -/
def emit (op : Opcode) (a b : UInt32) : Emitter Unit :=
  modify fun s => { s with code := s.code ++ [⟨op, a, b⟩] }

/-- The number of the next instruction. -/
def here : Emitter Nat := do return (← get).code.length

/-- A value more is on the stack. -/
def pushed : Emitter Unit :=
  modify fun s =>
    { s with depth := s.depth + 1, maxStack := max s.maxStack (s.depth + 1) }

/-- A value less is on the stack. -/
def popped : Emitter Unit := modify fun s => { s with depth := s.depth - 1 }

/-- The number of a name. -/
def symbol (name : Bytes) : Emitter UInt32 := do
  modify fun s => { s with symbols := s.symbols.intern name }
  return (← get).symbols.index name

/-- The number of a constant; equal constants share one. -/
def constant (v : Value) : Emitter UInt32 := do
  let known := (← get).constants
  match known.findIdx? (·.same v) with
  | some i => return UInt32.ofNat i
  | none =>
    modify fun s => { s with constants := known ++ [v] }
    return UInt32.ofNat known.length

/-- Gives a jump that was written before its target. -/
def patch (jump target : Nat) (code : List Instruction) : List Instruction :=
  code.modify jump fun ins => { ins with a := UInt32.ofNat target }

/-- Lets a jump go to the next instruction. -/
def landHere (jump : Nat) : Emitter Unit :=
  modify fun s => { s with code := patch jump s.code.length s.code }

/-- Starts a conjunct: the one before it, if any, ends the program when it is false. -/
def beginConjunct : Emitter Unit := do
  if 0 < (← get).conjuncts then
    let jump ← here
    modify fun s => { s with exits := s.exits ++ [jump] }
    emit .jumpIfFalse 0 0
    popped
  modify fun s => { s with conjuncts := s.conjuncts + 1 }

/-! ## Expressions -/

/-- The opcode of an operator that evaluates both sides. -/
def strictOpcode? : BinaryOp → Option Opcode
  | .add => some .add
  | .sub => some .sub
  | .mul => some .mul
  | .div => some .div
  | .mod => some .mod
  | .eq => some .eq
  | .ne => some .ne
  | .lt => some .lt
  | .le => some .le
  | .gt => some .gt
  | .ge => some .ge
  | .and | .or => none

/-- Loads what a reference stands for. -/
def load (r : Reference) : Emitter Unit := do
  match r.scope with
  | .context => emit .loadContext (← symbol r.name) 0
  | .input => emit .loadInput (← symbol r.name) 0
  | .outcome =>
    if (← get).allowOutcome then emit .loadOutcome (← symbol r.name) 0
    else throw (.expression ⟨.outcomeReference r.name, r.position⟩)
  pushed

/-- Writes an expression. -/
def expression : Expr → Emitter Unit
  | .literal _ v => do
    emit .pushConst (← constant v) 0
    pushed
  | .reference r => load r
  | .present _ r => do
    load r
    emit .isPresent 0 0
  | .unary _ op x => do
    expression x
    emit (match op with | .not => .not | .neg => .neg) 0 0
  | .binary _ op l r => do
    expression l
    match strictOpcode? op with
    | some code =>
      expression r
      emit code 0 0
      popped
    | none =>
      let jump ← here
      emit (match op with | .and => .jumpIfFalse | _ => .jumpIfTrue) 0 0
      popped
      expression r
      emit .checkBool 0 0
      landHere jump

/-! ## Conjuncts -/

/-- The conjunct that a categorical predicate holds. -/
def emitCategorical (p : Predicate) : Emitter Unit := do
  beginConjunct
  let key ← symbol p.key
  match p.expected with
  | some text => emit .testEquals key (← constant (.text text))
  | none => emit .testFlag key 0
  pushed

/-- The conjunct that an expression is true. -/
def emitExpression (x : Expr) : Emitter Unit := do
  beginConjunct
  expression x

/-- The conjunct that a node has fired. -/
def emitFired (node : UInt32) : Emitter Unit := do
  beginConjunct
  emit .fired node 0
  pushed

/-- The conjunct that a node has not fired. -/
def emitNotFired (node : UInt32) : Emitter Unit := do
  beginConjunct
  emit .notFired node 0
  pushed

/-- Tests of further nodes, each only made when the ones before have not fired; the answer is the
jumps that skip them. -/
def orFired : List UInt32 → Emitter (List Nat)
  | [] => return []
  | node :: rest => do
    let jump ← here
    emit .jumpIfTrue 0 0
    popped
    emit .fired node 0
    pushed
    return jump :: (← orFired rest)

/-- The conjunct that one of the nodes has fired. -/
def emitAnyFired : List UInt32 → Emitter Unit
  | [] => throw .noNodes
  | node :: rest => do
    beginConjunct
    emit .fired node 0
    pushed
    let jumps ← orFired rest
    jumps.forM landHere

/-! ## The finished program -/

/-- The program of the conjuncts, and the assembly after it. -/
def finish (s : Assembly) : Program × Assembly :=
  if s.conjuncts = 0 then (.empty, s)
  else
    let checked := s.code ++ [⟨.checkBool, 0, 0⟩]
    let landed := s.exits.foldl (fun code jump => patch jump checked.length code) checked
    (⟨landed ++ [⟨.return, 0, 0⟩], s.constants, s.maxStack⟩, .start s.symbols s.allowOutcome)

end Assembly
end DecisionEngine
