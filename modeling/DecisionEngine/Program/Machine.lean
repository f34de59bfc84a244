import DecisionEngine.Program.Operation
/-!
# Running guard programs

A run starts at the first instruction with an empty stack. Names are bound to values before: an
environment has a slot per symbol for the context and for the inputs, and a flag per node that
says whether the node has fired. A value that is missing reads as null.

* `run` is the answer of a program, or the fault it ends with.
* `constantResult?` is the answer of a program that reads nothing.
-/

namespace DecisionEngine
namespace Program

/-- What a program reads. A part that a caller does not have is empty. -/
structure Env where
  context : List (Option Value)
  inputs : List (Option Value)
  outcome : AttributeSet
  symbols : List Bytes
  fired : List Bool

/-- The environment that has nothing to read. -/
def Env.blank : Env := ⟨[], [], .empty, [], []⟩

/-- The value of a slot; null if there is none. -/
def slot (slots : List (Option Value)) (symbol : UInt32) : Value :=
  (slots[symbol.toNat]?.join).getD .null

/-- The values of the symbols in an attribute set. -/
def bind (symbols : List Bytes) (attributes : AttributeSet) : List (Option Value) :=
  symbols.map attributes.find?

namespace Env

/-- The parameter of the outcome that a symbol names. -/
def outcomeValue (env : Env) (symbol : UInt32) : Value :=
  ((env.symbols[symbol.toNat]?).bind env.outcome.find?).getD .null

/-- Whether a node has fired. -/
def nodeFired (env : Env) (node : UInt32) : Except FaultCause Bool :=
  match env.fired[node.toNat]? with
  | some b => .ok b
  | none => .error .firedUnavailable

end Env

/-! ## Steps -/

/-- Where a run goes after an instruction. -/
inductive Next
  | proceed (stack : List Value)
  | jump (target : Nat) (stack : List Value)
  | done (answer : Bool)

/-- A constant of the program. -/
def constant (p : Program) (index : UInt32) : Except FaultCause Value :=
  match p.constants[index.toNat]? with
  | some v => .ok v
  | none => .error .constantIndex

/-- Replaces the value on top. -/
def onTop (f : Value → Except FaultCause Value) : List Value → Except FaultCause Next
  | [] => .error .stackUnderflow
  | v :: rest => do return .proceed ((← f v) :: rest)

/-- Replaces the two values on top; the upper one is the right operand. -/
def onTopTwo (f : Value → Value → Except FaultCause Value) :
    List Value → Except FaultCause Next
  | r :: l :: rest => do return .proceed ((← f l r) :: rest)
  | _ => .error .stackUnderflow

/-- The truth value on top. -/
def topBool : List Value → Except FaultCause Bool
  | [] => .error .stackUnderflow
  | v :: _ => Operation.toBool v

/-- Jumps if the value on top is `taken` and keeps it then; drops it otherwise. -/
def jumpIf (taken : Bool) (target : UInt32) (stack : List Value) : Except FaultCause Next := do
  if (← topBool stack) = taken then return .jump target.toNat stack else return .proceed stack.tail

/-- The truth value of a comparison. -/
def ordered (accept : Ordering → Bool) (l r : Value) : Except FaultCause Value := do
  return .bool (accept (← Operation.order l r))

/-- Whether the text of a context value is an expected one. -/
def textEquals (v expected : Value) : Bool :=
  match expected with
  | .text s => !v.isNull && v.toText == s
  | _ => false

/-- What an instruction does to the stack. -/
def step (p : Program) (env : Env) (ins : Instruction) (stack : List Value) :
    Except FaultCause Next :=
  match ins.op with
  | .pushConst => do return .proceed ((← p.constant ins.a) :: stack)
  | .loadContext => .ok (.proceed (slot env.context ins.a :: stack))
  | .loadInput => .ok (.proceed (slot env.inputs ins.a :: stack))
  | .loadOutcome => .ok (.proceed (env.outcomeValue ins.a :: stack))
  | .isPresent => onTop (fun v => .ok (.bool (!v.isNull))) stack
  | .testFlag => .ok (.proceed (.bool (slot env.context ins.a).truthy :: stack))
  | .testEquals => do
    let expected ← p.constant ins.b
    return .proceed (.bool (textEquals (slot env.context ins.a) expected) :: stack)
  | .fired => do return .proceed (.bool (← env.nodeFired ins.a) :: stack)
  | .notFired => do return .proceed (.bool (!(← env.nodeFired ins.a)) :: stack)
  | .not => onTop (fun v => do return .bool (!(← Operation.toBool v))) stack
  | .neg => onTop Operation.negate stack
  | .add => onTopTwo (Operation.arithmetic .add) stack
  | .sub => onTopTwo (Operation.arithmetic .sub) stack
  | .mul => onTopTwo (Operation.arithmetic .mul) stack
  | .div => onTopTwo (Operation.arithmetic .div) stack
  | .mod => onTopTwo (Operation.arithmetic .mod) stack
  | .eq => onTopTwo (fun l r => .ok (.bool (Operation.equal l r))) stack
  | .ne => onTopTwo (fun l r => .ok (.bool (!Operation.equal l r))) stack
  | .lt => onTopTwo (ordered (·.isLT)) stack
  | .le => onTopTwo (ordered (·.isLE)) stack
  | .gt => onTopTwo (ordered (·.isGT)) stack
  | .ge => onTopTwo (ordered (·.isGE)) stack
  | .jumpIfFalse => jumpIf false ins.a stack
  | .jumpIfTrue => jumpIf true ins.a stack
  | .checkBool => do
    let _ ← topBool stack
    return .proceed stack
  | .return => do
    let b ← topBool stack
    if stack.length = 1 then return .done b else throw .unbalancedStack

/-! ## Runs -/

/-- Runs from an instruction on. -/
def runFrom (p : Program) (env : Env) (pc : Nat) (stack : List Value) : Except Fault Bool :=
  match h : p.code[pc]? with
  | none => .error ⟨.noReturn, pc⟩
  | some ins =>
    have _inside : pc < p.code.length := (List.getElem?_eq_some_iff.1 h).1
    match p.step env ins stack with
    | .error cause => .error ⟨cause, pc⟩
    | .ok (.done b) => .ok b
    | .ok (.proceed stack) => p.runFrom env (pc + 1) stack
    | .ok (.jump target stack) =>
      if _forward : pc < target ∧ target ≤ p.code.length then p.runFrom env target stack
      else .error ⟨.jumpTarget, pc⟩
termination_by p.code.length - pc

/-- The answer of a program. -/
def run (p : Program) (env : Env) : Except Fault Bool :=
  if p.isEmpty then .ok true else p.runFrom env 0 []

/-- The answer of a program that reads nothing of its environment; none if it reads something or
ends with a fault. -/
def constantResult? (p : Program) : Option Bool :=
  if p.code.any (·.op.readsEnvironment) then none else (p.run .blank).toOption

end Program
end DecisionEngine
