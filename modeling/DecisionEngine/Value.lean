import DecisionEngine.Binary64.Decimal
/-!
# Attribute values

A value is a dynamically typed scalar: nothing, a truth value, a 64-bit integer, a real or a text.
Attributes of an entity, inputs of a request, parameters of an outcome and constants of a guard
are all values.

* `Value.same`: the equality that rules see. Values of different kinds differ, and reals compare
  as numbers, so NaN differs from itself and the two zeros agree.
* `Value.truthy`: what counts as set.
* `Value.text`: the canonical text, which categorical labels are compared with.
-/

namespace DecisionEngine

/-- A dynamically typed scalar. -/
inductive Value
  | null
  | bool (b : Bool)
  | int (n : Int64)
  | real (x : Binary64)
  | text (s : Bytes)
  deriving DecidableEq, Inhabited

namespace Value

/-- Equality as rules see it. -/
def same : Value → Value → Bool
  | null, null => true
  | bool a, bool b => a == b
  | int a, int b => a == b
  | real a, real b => a.same b
  | text a, text b => a == b
  | _, _ => false

/-- No value at all. -/
def isNull : Value → Bool
  | null => true
  | _ => false

/-- A number. -/
def isNumber : Value → Bool
  | int _ => true
  | real _ => true
  | _ => false

/-- Set: true, a number other than zero (NaN included), or a text that is not empty. -/
def truthy : Value → Bool
  | null => false
  | bool b => b
  | int n => n != 0
  | real x => !x.isZero
  | text s => !s.isEmpty

/-- The name of the kind of value. -/
def kindName : Value → Bytes
  | null => utf8 "null"
  | bool _ => utf8 "bool"
  | int _ => utf8 "int"
  | real _ => utf8 "real"
  | text _ => utf8 "string"

/-- The canonical text. A text stands for itself, a real has the fewest digits that read back. -/
def toText : Value → Bytes
  | null => utf8 "null"
  | bool true => utf8 "true"
  | bool false => utf8 "false"
  | int n => Bytes.signedDecimal n.toInt
  | real x => x.shortest
  | text s => s

end Value
end DecisionEngine
