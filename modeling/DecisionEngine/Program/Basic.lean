import DecisionEngine.AttributeSet
/-!
# Guard programs

A guard is run as a program of a small stack machine. Jumps go forward only, so a run passes each
instruction at most once; a program has to leave exactly one truth value, and the empty program
always passes.

* `Opcode`, `Instruction`, `Program`: the code.
* `Fault`: why a run ends without an answer, and at which instruction.
* `SymbolTable`: the names that instructions address by number.
-/

namespace DecisionEngine

/-! ## Code -/

/-- What an instruction does. -/
inductive Opcode
  | pushConst
  | loadContext
  | loadInput
  | loadOutcome
  | isPresent
  | testFlag
  | testEquals
  | fired
  | notFired
  | not
  | neg
  | add
  | sub
  | mul
  | div
  | mod
  | eq
  | ne
  | lt
  | le
  | gt
  | ge
  | jumpIfFalse
  | jumpIfTrue
  | checkBool
  | return
  deriving DecidableEq

namespace Opcode

/-- All opcodes in the order of their numbers. -/
def all : List Opcode :=
  [pushConst, loadContext, loadInput, loadOutcome, isPresent, testFlag, testEquals, fired,
    notFired, not, neg, add, sub, mul, div, mod, eq, ne, lt, le, gt, ge, jumpIfFalse, jumpIfTrue,
    checkBool, .return]

/-- The number of an opcode. -/
def code (op : Opcode) : UInt8 := UInt8.ofNat (all.idxOf op)

/-- The opcode of a number. -/
def ofCode? (b : UInt8) : Option Opcode := all[b.toNat]?

/-- The name of an opcode. -/
def name : Opcode → Bytes
  | pushConst => utf8 "PushConst"
  | loadContext => utf8 "LoadContext"
  | loadInput => utf8 "LoadInput"
  | loadOutcome => utf8 "LoadOutcome"
  | isPresent => utf8 "IsPresent"
  | testFlag => utf8 "TestFlag"
  | testEquals => utf8 "TestEquals"
  | fired => utf8 "Fired"
  | notFired => utf8 "NotFired"
  | not => utf8 "Not"
  | neg => utf8 "Neg"
  | add => utf8 "Add"
  | sub => utf8 "Sub"
  | mul => utf8 "Mul"
  | div => utf8 "Div"
  | mod => utf8 "Mod"
  | eq => utf8 "Eq"
  | ne => utf8 "Ne"
  | lt => utf8 "Lt"
  | le => utf8 "Le"
  | gt => utf8 "Gt"
  | ge => utf8 "Ge"
  | jumpIfFalse => utf8 "JumpIfFalse"
  | jumpIfTrue => utf8 "JumpIfTrue"
  | checkBool => utf8 "CheckBool"
  | .return => utf8 "Return"

/-- The opcodes whose effect depends on the context, the inputs, the outcome or what has fired. -/
def readsEnvironment : Opcode → Bool
  | loadContext => true
  | loadInput => true
  | loadOutcome => true
  | testFlag => true
  | testEquals => true
  | fired => true
  | notFired => true
  | _ => false

end Opcode

/-- An opcode with its two operands; what they mean depends on the opcode. -/
structure Instruction where
  op : Opcode
  a : UInt32
  b : UInt32
  deriving DecidableEq

/-- A guard program. -/
structure Program where
  code : List Instruction
  constants : List Value
  maxStack : UInt32
  deriving DecidableEq

namespace Program

/-- The program without instructions, which always passes. -/
def empty : Program := ⟨[], [], 0⟩

instance : Inhabited Program := ⟨empty⟩

/-- Whether there are no instructions. -/
def isEmpty (p : Program) : Bool := p.code.isEmpty

end Program

/-! ## Faults -/

namespace Program

/-- Why a run ends without an answer. Kinds of values are given by their names. -/
inductive FaultCause
  | stackUnderflow
  | constantIndex
  | expectedBoolean (got : Bytes)
  | cannotNegate (got : Bytes)
  | arithmeticOn (left right : Bytes)
  | divisionByZero
  | moduloByZero
  | integerOverflow
  | comparisonWithNaN
  | cannotOrder (left right : Bytes)
  | firedUnavailable
  | jumpTarget
  | unbalancedStack
  | noReturn
  deriving DecidableEq

/-- A fault at an instruction. -/
structure Fault where
  cause : FaultCause
  pc : Nat
  deriving DecidableEq

/-- The wording of a cause. -/
def FaultCause.text : FaultCause → Bytes
  | stackUnderflow => utf8 "stack underflow"
  | constantIndex => utf8 "constant index out of range"
  | expectedBoolean got => utf8 "expected boolean, got " ++ got
  | cannotNegate got => utf8 "cannot negate " ++ got
  | arithmeticOn l r => utf8 "arithmetic on " ++ l ++ utf8 " and " ++ r
  | divisionByZero => utf8 "division by zero"
  | moduloByZero => utf8 "modulo by zero"
  | integerOverflow => utf8 "integer overflow"
  | comparisonWithNaN => utf8 "comparison with NaN"
  | cannotOrder l r => utf8 "cannot order " ++ l ++ utf8 " and " ++ r
  | firedUnavailable => utf8 "fired state unavailable"
  | jumpTarget => utf8 "jump target out of range"
  | unbalancedStack => utf8 "unbalanced stack on return"
  | noReturn => utf8 "program ended without Return"

/-- The wording of a fault. -/
def Fault.message (f : Fault) : Bytes :=
  utf8 "Guard fault: " ++ f.cause.text ++ utf8 " at pc " ++ Bytes.decimal f.pc

end Program

/-! ## Symbols -/

/-- The names that programs of a plan address by number. -/
structure SymbolTable where
  names : List Bytes
  nodup : names.Nodup
  deriving DecidableEq

namespace SymbolTable

/-- The table without names. -/
def empty : SymbolTable := ⟨[], List.nodup_nil⟩

instance : Inhabited SymbolTable := ⟨empty⟩

/-- The number of a name. -/
def find? (t : SymbolTable) (name : Bytes) : Option Nat := t.names.findIdx? (· == name)

/-- The table with a name in it; a new name comes last. -/
def intern (t : SymbolTable) (name : Bytes) : SymbolTable :=
  if known : name ∈ t.names then t
  else ⟨t.names ++ [name], List.nodup_append.2 ⟨t.nodup, List.nodup_cons.2
    ⟨List.not_mem_nil, List.nodup_nil⟩, fun _ ha _ hb => by
      rw [List.mem_singleton.1 hb]
      exact fun e => known (e ▸ ha)⟩⟩

/-- The number of a name that is in the table. -/
def index (t : SymbolTable) (name : Bytes) : UInt32 := UInt32.ofNat (t.names.idxOf name)

/-- The table of a list of names. -/
def ofList (names : List Bytes) : SymbolTable := names.foldl intern empty

end SymbolTable
end DecisionEngine
