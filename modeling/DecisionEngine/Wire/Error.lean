import DecisionEngine.Bytes
/-!
# Reading errors

Why bytes cannot be read, and where. A *malformation* is damage to the encoding itself, a
*mismatch* is an intact item of another kind than the one that belongs there.
-/

namespace DecisionEngine
namespace Wire

/-- Damage to the encoding. -/
inductive Malformation
  | endOfData
  | varintTooLarge
  | wrongMagic
  | wrongVersion
  | unknownTag
  | enumeration
  | nodeIndex
  | codeLength
  | unknownOpcode (code : UInt8)
  | trailing (what : Bytes)
  | fieldCount (what : Bytes) (fields : Nat)
  | truncatedLength
  | truncatedRecord
  deriving DecidableEq

/-- An item of another kind than the expected one. -/
inductive Mismatch
  | expected (what : Bytes)
  | expectedHead (head got : Bytes)
  | notBoolean (symbol : Bytes)
  | unexpectedSymbol (symbol : Bytes)
  | unknownStepKind (head : Bytes)
  | negativeOption (key : Bytes)
  deriving DecidableEq

/-- Why reading fails. A list of more texts than can be addressed is refused as oversized. -/
inductive Cause
  | malformed (m : Malformation)
  | mismatched (m : Mismatch)
  | oversized
  deriving DecidableEq

/-- A reading error at a byte position. -/
structure Error where
  cause : Cause
  position : Nat
  deriving DecidableEq

/-- The wording of a malformation. -/
def Malformation.text : Malformation → Bytes
  | endOfData => utf8 "Unexpected end of data"
  | varintTooLarge => utf8 "Varint too large"
  | wrongMagic => utf8 "Invalid header"
  | wrongVersion => utf8 "Unsupported format version"
  | unknownTag => utf8 "Unknown token"
  | enumeration => utf8 "Enumeration value out of range"
  | nodeIndex => utf8 "Node index out of range"
  | codeLength => utf8 "Program code length is not a whole number of instructions"
  | unknownOpcode code => utf8 "Unknown opcode " ++ Bytes.decimal code.toNat
  | trailing what => utf8 "Trailing bytes after " ++ what
  | fieldCount what fields =>
    what ++ utf8 " must have " ++ Bytes.decimal fields ++ utf8 " fields"
  | truncatedLength => utf8 "Truncated record length"
  | truncatedRecord => utf8 "Truncated record"

/-- The wording of a mismatch. -/
def Mismatch.text : Mismatch → Bytes
  | expected what => utf8 "Expected " ++ what
  | expectedHead head got => utf8 "Expected " ++ head ++ utf8 ", got " ++ got
  | notBoolean symbol => utf8 "Expected True or False, got " ++ symbol
  | unexpectedSymbol symbol => utf8 "Unexpected symbol " ++ symbol
  | unknownStepKind head => utf8 "Unknown step kind " ++ head
  | negativeOption key => utf8 "Option " ++ key ++ utf8 " must not be negative"

/-- The wording of a cause. -/
def Cause.message : Cause → Bytes
  | malformed m => utf8 "Parse error: " ++ m.text
  | mismatched m => utf8 "Type error: " ++ m.text
  | oversized => utf8 "vector::reserve"

/-- The wording of an error. -/
def Error.message (e : Error) : Bytes := e.cause.message

end Wire
end DecisionEngine
