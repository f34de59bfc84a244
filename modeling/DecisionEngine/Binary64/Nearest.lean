import DecisionEngine.Binary64.Decimal
import DecisionEngine.Binary64.Remainder
/-!
# The nearest real to a rational number

Numbers written in decimal are read as the nearest real; a tie goes to the even significand, and
what lies beyond the largest real by half a unit or more is infinite.
-/

namespace DecisionEngine
namespace Binary64

/-- Positive infinity. -/
def infinity : Binary64 := ⟨0x7ff0000000000000⟩

/-- The power of two of a unit of the significand: the number is at least `2 ^ 52` and below
`2 ^ 53` such units, unless that unit would be smaller than the smallest one. -/
def unitExponent (x : Ratio) : Int :=
  let guess : Int := (x.num.log2 : Int) - x.den.log2 - 52
  let fits := (Ratio.scaled (Nat.pow 2 52) 2 guess).le x
  max (if fits then guess else guess - 1) (-1074)

/-- The nearest real to a rational number that is not negative. -/
def nearest (x : Ratio) : Binary64 :=
  if x.num = 0 then zero
  else
    let e := unitExponent x
    let units : Ratio :=
      if 0 ≤ e then ⟨x.num, x.den * Nat.pow 2 e.toNat⟩ else ⟨x.num * Nat.pow 2 (-e).toNat, x.den⟩
    let m := units.rounded
    let carried := if m = Nat.pow 2 53 then (Nat.pow 2 52, e + 1) else (m, e)
    if 971 < carried.2 then infinity else compose false carried.1 carried.2

end Binary64
end DecisionEngine
