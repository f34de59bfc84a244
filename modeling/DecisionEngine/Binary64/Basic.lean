import DecisionEngine.Bytes
/-!
# Real numbers in 64 bits

A real is the word of an IEEE 754 binary64 number. Two reals are equal as data when their words
are; the numeric comparison `same` differs from that on zeros (both signs are one number) and on
NaN (which equals nothing). Comparisons are decided on the words, so that their order laws are
statements about integers; arithmetic goes through the machine's own operations.
-/

namespace DecisionEngine

/-- A binary64 number, given by its word. -/
structure Binary64 where
  bits : UInt64
  deriving DecidableEq, Inhabited

namespace Binary64

/-! ## Fields of the word -/

/-- The sign bit. -/
def negative (x : Binary64) : Bool := decide (Nat.pow 2 63 ≤ x.bits.toNat)

/-- The word without its sign bit. -/
def magnitude (x : Binary64) : Nat := x.bits.toNat % Nat.pow 2 63

/-- The biased exponent. -/
def exponentField (x : Binary64) : Nat := x.magnitude / Nat.pow 2 52

/-- The fraction. -/
def fraction (x : Binary64) : Nat := x.magnitude % Nat.pow 2 52

/-- Not a number. -/
def isNaN (x : Binary64) : Bool := decide (2047 * Nat.pow 2 52 < x.magnitude)

/-- One of the two infinities. -/
def isInfinite (x : Binary64) : Bool := decide (x.magnitude = 2047 * Nat.pow 2 52)

/-- One of the two zeros. -/
def isZero (x : Binary64) : Bool := decide (x.magnitude = 0)

/-- The integer significand of a finite number: its size is `significand * 2 ^ scale`. -/
def significand (x : Binary64) : Nat :=
  if x.exponentField = 0 then x.fraction else Nat.pow 2 52 + x.fraction

/-- The power of two that goes with the significand. -/
def scale (x : Binary64) : Int :=
  if x.exponentField = 0 then -1074 else (x.exponentField : Int) - 1075

/-! ## Constants -/

/-- Positive zero. -/
def zero : Binary64 := ⟨0⟩

/-- Negative zero. -/
def negativeZero : Binary64 := ⟨0x8000000000000000⟩

/-- The quiet NaN. -/
def nan : Binary64 := ⟨0x7ff8000000000000⟩

/-! ## Comparison -/

/-- The place of a number in the numeric order; both zeros have the same. -/
def rank (x : Binary64) : Int := if x.negative then -(x.magnitude : Int) else x.magnitude

/-- Numeric equality. -/
def same (x y : Binary64) : Bool := !x.isNaN && !y.isNaN && decide (x.rank = y.rank)

/-- Numeric order, strict. -/
def less (x y : Binary64) : Bool := !x.isNaN && !y.isNaN && decide (x.rank < y.rank)

/-- Numeric order. -/
def lessOrSame (x y : Binary64) : Bool := !x.isNaN && !y.isNaN && decide (x.rank ≤ y.rank)

/-! ## Arithmetic -/

/-- The machine's number for a word. -/
def toFloat (x : Binary64) : Float := Float.ofBits x.bits

/-- The word of a machine number. -/
def ofFloat (f : Float) : Binary64 := ⟨f.toBits⟩

/-- The nearest real to an integer; a tie goes to the even significand. -/
def ofInt64 (n : Int64) : Binary64 := ofFloat n.toFloat

/-- The sum, rounded. -/
def add (x y : Binary64) : Binary64 := ofFloat (x.toFloat + y.toFloat)

/-- The difference, rounded. -/
def sub (x y : Binary64) : Binary64 := ofFloat (x.toFloat - y.toFloat)

/-- The product, rounded. -/
def mul (x y : Binary64) : Binary64 := ofFloat (x.toFloat * y.toFloat)

/-- The quotient, rounded. -/
def div (x y : Binary64) : Binary64 := ofFloat (x.toFloat / y.toFloat)

/-- The number with the other sign. -/
def neg (x : Binary64) : Binary64 := ⟨x.bits ^^^ 0x8000000000000000⟩

/-- The number with its negative zero replaced by positive zero. -/
def withoutNegativeZero (x : Binary64) : Binary64 := if x = negativeZero then zero else x

end Binary64
end DecisionEngine
