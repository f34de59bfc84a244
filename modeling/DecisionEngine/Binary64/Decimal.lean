import DecisionEngine.Binary64.Basic
/-!
# Decimal text of reals

`general precision` writes a real with a number of significant digits: rounded to nearest (a tie
to the even digit), trailing zeros dropped, positional between `1e-4` and `10 ^ precision` and
with an exponent of at least two digits elsewhere. `shortest` uses the fewest digits, at most 17,
whose text reads back as the same number. All of it is exact arithmetic on natural numbers.
-/

namespace DecisionEngine
namespace Binary64

/-! ## Exact decimal digits -/

/-- A positive rational number. -/
structure Ratio where
  num : Nat
  den : Nat

namespace Ratio

/-- The number `m * b ^ e`. -/
def scaled (m b : Nat) (e : Int) : Ratio :=
  if 0 ≤ e then ⟨m * Nat.pow b e.toNat, 1⟩ else ⟨m, Nat.pow b (-e).toNat⟩

/-- At most. -/
def le (x y : Ratio) : Bool := decide (x.num * y.den ≤ y.num * x.den)

/-- Less than. -/
def lt (x y : Ratio) : Bool := decide (x.num * y.den < y.num * x.den)

/-- Times a power of ten. -/
def timesTen (x : Ratio) (e : Int) : Ratio :=
  if 0 ≤ e then ⟨x.num * Nat.pow 10 e.toNat, x.den⟩ else ⟨x.num, x.den * Nat.pow 10 (-e).toNat⟩

/-- The nearest natural number; a tie goes to the even one. -/
def rounded (x : Ratio) : Nat :=
  let q := x.num / x.den
  let r := x.num % x.den
  if x.den < 2 * r ∨ (x.den = 2 * r ∧ q % 2 = 1) then q + 1 else q

/-- How often a number below one can be multiplied by ten before it reaches one. -/
def tenthsBelow (den : Nat) : Nat → Nat → Nat
  | 0, _ => 0
  | steps + 1, num => if den ≤ num then 0 else tenthsBelow den steps (num * 10) + 1

/-- The exponent of the largest power of ten that is not above the number. -/
def decade (x : Ratio) : Int :=
  if x.den ≤ x.num then ((Bytes.decimal (x.num / x.den)).length : Int) - 1
  else -(tenthsBelow x.den x.den.log2.succ x.num : Int)

end Ratio

/-- `digits * 10 ^ (exponent - precision + 1)`, where `digits` has `precision` digits. -/
structure Scientific where
  digits : Nat
  exponent : Int

/-- The nearest number with `precision` significant digits. -/
def Scientific.nearest (precision : Nat) (x : Ratio) : Scientific :=
  let k := x.decade
  let d := (x.timesTen (precision - 1 - k)).rounded
  if d = Nat.pow 10 precision then ⟨Nat.pow 10 (precision - 1), k + 1⟩ else ⟨d, k⟩

/-- The exact size of a finite number. -/
def size (x : Binary64) : Ratio := Ratio.scaled x.significand 2 x.scale

/-- Whether a positive number is read as `x`: it lies between the midpoints to the neighbours of
`x`, and on a midpoint only if the significand of `x` is even. The lower neighbour of a power of
two is half as far away. -/
def reads (x : Binary64) (r : Ratio) : Bool :=
  let m := x.significand
  let below := if x.fraction = 0 ∧ 1 < x.exponentField then 4 * m - 1 else 4 * m - 2
  let low := Ratio.scaled below 2 (x.scale - 2)
  let high := Ratio.scaled (4 * m + 2) 2 (x.scale - 2)
  if m % 2 = 0 then low.le r && r.le high else low.lt r && r.lt high

/-! ## Layout -/

/-- A text without the zeros at its end. -/
def dropTrailingZeros (s : Bytes) : Bytes := (s.reverse.dropWhile (· == 48)).reverse

/-- The exponent of a number: its sign and at least two digits. -/
def exponentText (e : Int) : Bytes :=
  utf8 "e" ++ (if e < 0 then utf8 "-" else utf8 "+") ++ Bytes.padLeft 2 48 (Bytes.decimal e.natAbs)

/-- Digits, the point behind the first `whole` of them; no point without digits behind it. -/
def pointed (whole : Nat) (digits : Bytes) : Bytes :=
  let front := digits.take whole ++ List.replicate (whole - digits.length) 48
  let back := digits.drop whole
  if back.isEmpty then front else front ++ utf8 "." ++ back

/-- The text of a positive number that was rounded to `precision` digits. -/
def Scientific.text (precision : Nat) (s : Scientific) : Bytes :=
  let digits := dropTrailingZeros (Bytes.decimal s.digits)
  if s.exponent < -4 ∨ (precision : Int) ≤ s.exponent then
    pointed 1 digits ++ exponentText s.exponent
  else if s.exponent < 0 then
    pointed 1 (List.replicate (-s.exponent).toNat 48 ++ digits)
  else pointed (s.exponent.toNat + 1) digits

/-- The sign in front of a number. -/
def signText (x : Binary64) : Bytes := if x.negative then utf8 "-" else []

/-- The text of a number that has no digits, or whose digits are a single zero. -/
def special? (x : Binary64) : Option Bytes :=
  if x.isNaN then some (utf8 "nan")
  else if x.isInfinite then some (utf8 "inf")
  else if x.isZero then some (utf8 "0")
  else none

/-- The text with a given number of significant digits. -/
def general (precision : Nat) (x : Binary64) : Bytes :=
  x.signText ++ match x.special? with
    | some s => s
    | none => (Scientific.nearest precision x.size).text precision

/-- The first of the precisions whose digits read back as `x`; the last one if none does. -/
def readingPrecision (x : Binary64) : List Nat → Nat
  | [] => 17
  | p :: rest =>
    let s := Scientific.nearest p x.size
    if x.reads (Ratio.scaled s.digits 10 (s.exponent - p + 1)) then p else x.readingPrecision rest

/-- The text with the fewest significant digits that reads back as the number. -/
def shortest (x : Binary64) : Bytes :=
  match x.special? with
  | some s => x.signText ++ s
  | none => x.general (x.readingPrecision ((List.range 17).map (· + 1)))

end Binary64
end DecisionEngine
