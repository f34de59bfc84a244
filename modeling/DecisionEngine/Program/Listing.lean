import DecisionEngine.Expr.Basic
import DecisionEngine.Program.Basic
/-!
# Listings of guard programs

A program as text, one instruction a line: its number, its name and what its operands stand for.
Symbols are named by a table; without one, and where the table ends, they are numbered.
-/

namespace DecisionEngine
namespace Program

/-- The name of a symbol. -/
def symbolText (names : List Bytes) (symbol : UInt32) : Bytes :=
  (names[symbol.toNat]?).getD (utf8 "#" ++ Bytes.decimal symbol.toNat)

/-- A constant as it is written in expressions. -/
def constantText (p : Program) (index : UInt32) : Bytes :=
  match p.constants[index.toNat]? with
  | some v => v.literalText
  | none => utf8 "?"

/-- The operands of an instruction. -/
def operandText (p : Program) (names : List Bytes) (ins : Instruction) : Bytes :=
  match ins.op with
  | .pushConst => utf8 " " ++ p.constantText ins.a
  | .loadContext | .loadInput | .loadOutcome | .testFlag => utf8 " " ++ symbolText names ins.a
  | .testEquals => utf8 " " ++ symbolText names ins.a ++ utf8 " " ++ p.constantText ins.b
  | .fired | .notFired => utf8 " node " ++ Bytes.decimal ins.a.toNat
  | .jumpIfFalse | .jumpIfTrue => utf8 " -> " ++ Bytes.decimal ins.a.toNat
  | _ => []

/-- The line of an instruction. -/
def lineText (p : Program) (names : List Bytes) (pc : Nat) (ins : Instruction) : Bytes :=
  Bytes.padLeft 4 48 (Bytes.decimal pc) ++ utf8 "  " ++ ins.op.name ++ p.operandText names ins
    ++ utf8 "\n"

/-- The listing of a program. -/
def listing (p : Program) (names : List Bytes) : Bytes :=
  p.code.zipIdx.flatMap fun line => p.lineText names line.2 line.1

end Program
end DecisionEngine
