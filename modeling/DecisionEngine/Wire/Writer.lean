import DecisionEngine.AttributeSet
/-!
# Writing items

Everything that is stored or hashed is written as a sequence of tagged items: a tag byte, lengths
in groups of seven bits, numbers with the least significant byte first, records as functions of a
head and a number of arguments, and keyed data as associations. An item has one written form, so
bytes can stand for contents; the only value that is written like another is negative zero, which
is written as zero.
-/

namespace DecisionEngine
namespace Wire

/-! ## Tags -/

/-- The kind of an item, told by its first byte. -/
inductive Tag
  | text
  | symbol
  | int8
  | int16
  | int32
  | int64
  | real
  | function
  | association
  | rule
  | binary
  deriving DecidableEq

namespace Tag

/-- The byte of a tag. -/
def byte : Tag → UInt8
  | text => 83
  | symbol => 115
  | int8 => 67
  | int16 => 106
  | int32 => 105
  | int64 => 76
  | real => 114
  | function => 102
  | association => 65
  | rule => 45
  | binary => 66

/-- All tags. -/
def all : List Tag :=
  [text, symbol, int8, int16, int32, int64, real, function, association, rule, binary]

/-- The tag of a byte. -/
def ofByte? (b : UInt8) : Option Tag := all.find? (·.byte == b)

/-- How many bytes an integer has behind its tag. -/
def intWidth? : Tag → Option Nat
  | int8 => some 1
  | int16 => some 2
  | int32 => some 4
  | int64 => some 8
  | _ => none

end Tag

/-! ## Numbers -/

/-- A length: seven bits a byte, the lowest first, with the top bit set on all but the last. -/
def varint (n : Nat) : Bytes :=
  if n < 128 then [UInt8.ofNat n] else UInt8.ofNat (n % 128 + 128) :: varint (n / 128)

/-- The lowest bytes of a number, the least significant first. -/
def littleEndian : Nat → Nat → Bytes
  | 0, _ => []
  | width + 1, n => UInt8.ofNat (n % 256) :: littleEndian width (n / 256)

/-- Whether an integer fits into a number of bits, sign included. -/
def fitsInt (n : Int64) (bits : Nat) : Bool :=
  decide (-(Nat.pow 2 (bits - 1) : Int) ≤ n.toInt ∧ n.toInt < (Nat.pow 2 (bits - 1) : Int))

/-- The tag of the smallest integer item that holds a number. -/
def intTag (n : Int64) : Tag :=
  if fitsInt n 8 then .int8
  else if fitsInt n 16 then .int16
  else if fitsInt n 32 then .int32
  else .int64

/-- A signed number in its smallest form. -/
def int (n : Int64) : Bytes :=
  let tag := intTag n
  tag.byte :: littleEndian (tag.intWidth?.getD 8) n.toUInt64.toNat

/-- A word, always in eight bytes. -/
def word (w : UInt64) : Bytes := Tag.int64.byte :: littleEndian 8 w.toNat

/-- A natural number as a signed item; it is taken modulo `2 ^ 64`. -/
def nat (n : Nat) : Bytes := int (Int64.ofNat n)

/-- A real; negative zero is written as zero. -/
def real (x : Binary64) : Bytes :=
  Tag.real.byte :: littleEndian 8 x.withoutNegativeZero.bits.toNat

/-! ## Texts -/

/-- Bytes behind a tag and their number. -/
def counted (tag : Tag) (s : Bytes) : Bytes := tag.byte :: varint s.length ++ s

/-- A text. -/
def text (s : Bytes) : Bytes := counted .text s

/-- A symbol. -/
def symbol (s : Bytes) : Bytes := counted .symbol s

/-- A byte string that is no text. -/
def binary (s : Bytes) : Bytes := counted .binary s

/-- A truth value. -/
def bool (b : Bool) : Bytes := symbol (if b then utf8 "True" else utf8 "False")

/-- Nothing. -/
def null : Bytes := symbol (utf8 "Null")

/-! ## Structures -/

/-- The two bytes at the start of every encoding. -/
def header : Bytes := [86, 49]

/-- A scalar. -/
def value : Value → Bytes
  | .null => null
  | .bool b => bool b
  | .int n => int n
  | .real x => real x
  | .text s => text s

/-- The head of a record with a number of arguments, which follow it. -/
def functionHead (head : Bytes) (arguments : Nat) : Bytes :=
  Tag.function.byte :: varint arguments ++ symbol head

/-- The head of a list, whose elements follow it. -/
def listHead (length : Nat) : Bytes := functionHead (utf8 "List") length

/-- A list of items. -/
def list {α : Type} (item : α → Bytes) (xs : List α) : Bytes :=
  listHead xs.length ++ xs.flatMap item

/-- A list of texts. -/
def texts (xs : List Bytes) : Bytes := list text xs

/-- The head of an association, whose entries follow it. -/
def associationHead (entries : Nat) : Bytes := Tag.association.byte :: varint entries

/-- The key of an entry, whose value follows it. -/
def key (k : Bytes) : Bytes := Tag.rule.byte :: text k

/-- An entry of an association. -/
def entry (k : String) (v : Bytes) : Bytes := key (utf8 k) ++ v

/-- An attribute set, in the order of the names. -/
def attributes (a : AttributeSet) : Bytes :=
  associationHead a.size ++ a.entries.flatMap fun e => key e.1 ++ value e.2

end Wire
end DecisionEngine
