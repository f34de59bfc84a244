import DecisionEngine.Binary64.Remainder
import DecisionEngine.Program.Basic
/-!
# Operations on values

What the operators of expressions compute. Integer arithmetic is exact and faults where the result
needs more than 64 bits; a division is always one of reals; with an integer and a real the integer
is converted first.
-/

namespace DecisionEngine
namespace Operation

open Program (FaultCause)

/-- A number as a real. -/
def toReal? : Value → Option Binary64
  | .int n => some (Binary64.ofInt64 n)
  | .real x => some x
  | _ => none

/-- Equality; numbers are compared as numbers. -/
def equal (l r : Value) : Bool :=
  match l, r with
  | .int a, .int b => a == b
  | l, r =>
    match toReal? l, toReal? r with
    | some x, some y => x.same y
    | _, _ => l.same r

/-- The order of two numbers or two texts. -/
def order (l r : Value) : Except FaultCause Ordering :=
  match l, r with
  | .int a, .int b => .ok (if a < b then .lt else if b < a then .gt else .eq)
  | .text s, .text t => .ok (if s < t then .lt else if t < s then .gt else .eq)
  | l, r =>
    match toReal? l, toReal? r with
    | some x, some y =>
      if x.isNaN || y.isNaN then .error .comparisonWithNaN
      else .ok (if x.less y then .lt else if y.less x then .gt else .eq)
    | _, _ => .error (.cannotOrder l.kindName r.kindName)

/-- An integer result, which has to fit into 64 bits. -/
def exact (n : Int) : Except FaultCause Value :=
  if -9223372036854775808 ≤ n ∧ n < 9223372036854775808 then .ok (.int (Int64.ofInt n))
  else .error .integerOverflow

/-- The operators of arithmetic. -/
inductive Arithmetic
  | add
  | sub
  | mul
  | div
  | mod
  deriving DecidableEq

/-- Arithmetic on integers; a remainder has the sign of the left operand. -/
def onIntegers (op : Arithmetic) (a b : Int64) : Except FaultCause Value :=
  match op with
  | .add => exact (a.toInt + b.toInt)
  | .sub => exact (a.toInt - b.toInt)
  | .mul => exact (a.toInt * b.toInt)
  | .div =>
    if b = 0 then .error .divisionByZero
    else .ok (.real ((Binary64.ofInt64 a).div (Binary64.ofInt64 b)))
  | .mod => if b = 0 then .error .moduloByZero else exact (a.toInt.tmod b.toInt)

/-- Arithmetic on reals. -/
def onReals (op : Arithmetic) (x y : Binary64) : Except FaultCause Value :=
  match op with
  | .add => .ok (.real (x.add y))
  | .sub => .ok (.real (x.sub y))
  | .mul => .ok (.real (x.mul y))
  | .div => if y.isZero then .error .divisionByZero else .ok (.real (x.div y))
  | .mod => if y.isZero then .error .moduloByZero else .ok (.real (x.rem y))

/-- Arithmetic on values; texts can be added, which joins them. -/
def arithmetic (op : Arithmetic) (l r : Value) : Except FaultCause Value :=
  match op, l, r with
  | .add, .text s, .text t => .ok (.text (s ++ t))
  | op, .int a, .int b => onIntegers op a b
  | op, l, r =>
    match toReal? l, toReal? r with
    | some x, some y => onReals op x y
    | _, _ => .error (.arithmeticOn l.kindName r.kindName)

/-- The number with the other sign. -/
def negate : Value → Except FaultCause Value
  | .int n => exact (-n.toInt)
  | .real x => .ok (.real x.neg)
  | v => .error (.cannotNegate v.kindName)

/-- The truth value that a value is. -/
def toBool : Value → Except FaultCause Bool
  | .bool b => .ok b
  | v => .error (.expectedBoolean v.kindName)

end Operation
end DecisionEngine
