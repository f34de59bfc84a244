import DecisionEngine.Bytes
/-!
# Attribute masks

A mask holds one bit for each categorical predicate of a catalog. Masks are put together from
`Mask.single` bits.
-/

namespace DecisionEngine

/-- Sixty-four truth values, one a bit. -/
abbrev Mask := UInt64

namespace Mask

/-- The mask that has a single bit. -/
def single (bit : Nat) : Mask := 1 <<< UInt64.ofNat bit

/-- Whether a bit is set. -/
def has (mask : Mask) (bit : Nat) : Bool := mask.toNat.testBit bit

/-- Whether every bit of `required` is set. -/
def covers (mask required : Mask) : Bool := mask &&& required == required

end Mask
end DecisionEngine
