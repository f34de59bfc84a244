import DecisionEngine.Bytes
/-!
# The 64-bit FNV-1a hash

Contents are identified by the FNV-1a hash of their bytes. Absorbing one text after another is
absorbing their concatenation (`absorb_append`), so a hash can be fed piece by piece.
-/

namespace DecisionEngine
namespace Fnv

/-- The state a hash starts from. -/
def basis : UInt64 := 14695981039346656037

/-- The multiplier of a step. -/
def prime : UInt64 := 1099511628211

/-- One byte is mixed into the state. -/
def step (h : UInt64) (b : UInt8) : UInt64 := (h ^^^ b.toUInt64) * prime

/-- The bytes are mixed into the state one after another. -/
def absorb (h : UInt64) (bs : Bytes) : UInt64 := bs.foldl step h

/-- The hash of a byte string. -/
def hash (bs : Bytes) : UInt64 := absorb basis bs

theorem absorb_append (h : UInt64) (a b : Bytes) :
    absorb h (a ++ b) = absorb (absorb h a) b := by
  simp [absorb, List.foldl_append]

end Fnv
end DecisionEngine
