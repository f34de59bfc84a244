import DecisionEngine.Binary64.Basic
/-!
# The remainder of two reals

The remainder of a division that truncates toward zero. It is exact: both numbers are brought to
the smaller of their two scales, where the remainder is one of natural numbers, and the result
fits into 53 bits because it is smaller than the operand that had that scale.
-/

namespace DecisionEngine
namespace Binary64

/-- The number of size `m * 2 ^ e`, for `m` below `2 ^ 53` and `e` at least `-1074`. -/
def compose (negative : Bool) (m : Nat) (e : Int) : Binary64 :=
  let sign : Nat := if negative then Nat.pow 2 63 else 0
  if m = 0 then ⟨UInt64.ofNat sign⟩
  else
    let shift := min (52 - m.log2) (e + 1074).toNat
    let wide := m * Nat.pow 2 shift
    let exponent := e - shift
    if wide < Nat.pow 2 52 then ⟨UInt64.ofNat (sign + wide)⟩
    else ⟨UInt64.ofNat (sign + (exponent + 1075).toNat * Nat.pow 2 52 + (wide - Nat.pow 2 52))⟩

/-- The remainder has the sign of `x` and is smaller than `y`. There is none for an infinite `x`
or a zero `y`; an infinite `y` leaves `x` as it is. -/
def rem (x y : Binary64) : Binary64 :=
  if x.isNaN || y.isNaN || x.isInfinite || y.isZero then nan
  else if y.isInfinite then x
  else
    let e := min x.scale y.scale
    let a := x.significand * Nat.pow 2 (x.scale - e).toNat
    let b := y.significand * Nat.pow 2 (y.scale - e).toNat
    compose x.negative (a % b) e

end Binary64
end DecisionEngine
