import DecisionEngine.Bytes
/-!
# Warnings

What an operator should see: outages, rejected tokens, failing sinks. A warning is a line that is
put together from pieces; a piece ends at its first zero byte, and a line has at most 1023 bytes.
-/

namespace DecisionEngine

/-- A line for the operator. -/
abbrev Warning := Bytes

namespace Warning

/-- The greatest number of bytes of a line. -/
def maxLength : Nat := 1023

/-- The line of the given pieces. -/
def ofPieces (pieces : List Bytes) : Warning := (pieces.flatMap Bytes.untilNul).take maxLength

end Warning
end DecisionEngine
