import DecisionEngine.Wire.Error
import DecisionEngine.Wire.Writer
/-!
# Reading items

A reader takes an item from the front of the remaining bytes and knows how many bytes were taken
before, for its errors. Every successful read of an item takes at least its tag byte, so a reader
that repeats another one as often as a length in the data says stops when the data runs out, and
nested structures are never deeper than the data is long.
-/

namespace DecisionEngine
namespace Wire

/-- What is left to read, and where that starts. -/
structure Cursor where
  position : Nat
  rest : Bytes
  deriving DecidableEq

/-- Reads something from the front. -/
abbrev Reader (α : Type) := StateT Cursor (Except Error) α

/-- The start of a byte string. -/
def Cursor.start (bs : Bytes) : Cursor := ⟨0, bs⟩

namespace Reader

variable {α σ : Type}

/-! ## Bytes and errors -/

/-- The reading position. -/
def position : Reader Nat := fun c => .ok (c.position, c)

/-- Whether everything has been read. -/
def atEnd : Reader Bool := fun c => .ok (c.rest.isEmpty, c)

/-- Stops with an error at a position. -/
def failAt (position : Nat) (cause : Cause) : Reader α := fun _ => .error ⟨cause, position⟩

/-- Stops with an error at the reading position. -/
def fail (cause : Cause) : Reader α := fun c => .error ⟨cause, c.position⟩

/-- Stops because another kind of item was expected here. -/
def expected (what : String) : Reader α := fail (.mismatched (.expected (utf8 what)))

/-- The first bytes of a string and the others, if it has that many. -/
def split? : Nat → Bytes → Option (Bytes × Bytes)
  | 0, bs => some ([], bs)
  | _ + 1, [] => none
  | n + 1, b :: bs => (split? n bs).map fun p => (b :: p.1, p.2)

/-- A number of bytes. -/
def take (n : Nat) : Reader Bytes := fun c =>
  match split? n c.rest with
  | some (front, back) => .ok (front, ⟨c.position + n, back⟩)
  | none => .error ⟨.malformed .endOfData, c.position⟩

/-- One byte. -/
def byte : Reader UInt8 := fun c =>
  match c.rest with
  | b :: back => .ok (b, ⟨c.position + 1, back⟩)
  | [] => .error ⟨.malformed .endOfData, c.position⟩

/-- The next byte, which stays. -/
def peek : Reader UInt8 := fun c =>
  match c.rest with
  | b :: _ => .ok (b, c)
  | [] => .error ⟨.malformed .endOfData, c.position⟩

/-- The kind of the next item. -/
def peekTag : Reader (Option Tag) := do return Tag.ofByte? (← peek)

/-- A length of at most `groups` bytes. -/
def varintWithin : Nat → Reader Nat
  | 0 => do
    let at_ ← position
    let _ ← byte
    failAt at_ (.malformed .varintTooLarge)
  | groups + 1 => do
    let b ← byte
    if b.toNat < 128 then return b.toNat
    else return b.toNat - 128 + 128 * (← varintWithin groups)

/-- A length; it has at most nine bytes and so is below `2 ^ 63`. -/
def varint : Reader Nat := varintWithin 9

/-- The two bytes at the start of an encoding; both are there before either is judged. -/
def header : Reader Unit := do
  let first ← byte
  let second ← byte
  if [first] ≠ Wire.header.take 1 then failAt 0 (.malformed .wrongMagic)
  else if [second] ≠ Wire.header.drop 1 then failAt 1 (.malformed .wrongVersion)
  else pure ()

/-! ## Scalars -/

/-- The number whose bytes are given, the least significant first. -/
def ofLittleEndian : Bytes → Nat
  | [] => 0
  | b :: rest => b.toNat + 256 * ofLittleEndian rest

/-- A signed number of any width. -/
def int : Reader Int64 := do
  match (← peekTag).bind Tag.intWidth? with
  | none => expected "integer"
  | some width =>
    let _ ← byte
    let bs ← take width
    return Int64.ofInt ((ofLittleEndian bs : Int).bmod (Nat.pow 2 (8 * width)))

/-- A word; narrower numbers are extended with their sign. -/
def word : Reader UInt64 := do return (← int).toUInt64

/-- A real; an integer is converted. -/
def real : Reader Binary64 := do
  match ← peekTag with
  | some .real =>
    let _ ← byte
    let bs ← take 8
    return ⟨UInt64.ofNat (ofLittleEndian bs)⟩
  | some tag =>
    if tag.intWidth?.isSome then return Binary64.ofInt64 (← int) else expected "real"
  | none => expected "real"

/-- A tag byte, a length and as many bytes. -/
def counted : Reader Bytes := do
  let _ ← byte
  take (← varint)

/-- A text. -/
def text : Reader Bytes := do
  if (← peekTag) = some .text then counted else expected "string"

/-- A symbol. -/
def symbol : Reader Bytes := do
  if (← peekTag) = some .symbol then counted else expected "symbol"

/-- A byte string that is no text. -/
def binary : Reader Bytes := do
  if (← peekTag) = some .binary then counted else expected "binary string"

/-- A truth value. -/
def bool : Reader Bool := do
  let at_ ← position
  let s ← symbol
  if s = utf8 "True" then return true
  else if s = utf8 "False" then return false
  else failAt at_ (.mismatched (.notBoolean s))

/-- A scalar. -/
def value : Reader Value := do
  match ← peekTag with
  | some .text => return .text (← text)
  | some .real => return .real (← real)
  | some .symbol =>
    let at_ ← position
    let s ← symbol
    if s = utf8 "Null" then return .null
    else if s = utf8 "True" then return .bool true
    else if s = utf8 "False" then return .bool false
    else failAt at_ (.mismatched (.unexpectedSymbol s))
  | some tag =>
    if tag.intWidth?.isSome then return .int (← int) else expected "scalar value"
  | none => expected "scalar value"

/-! ## Structures -/

/-- The head of a record: its name and the number of its arguments. -/
def anyFunction : Reader (Bytes × Nat) := do
  if (← peekTag) = some .function then
    let _ ← byte
    let arguments ← varint
    return (← symbol, arguments)
  else expected "function"

/-- The head of a record of a given name; the answer is the number of its arguments. -/
def function (head : Bytes) : Reader Nat := do
  if (← peekTag) = some .function then
    let _ ← byte
    let arguments ← varint
    let at_ ← position
    let got ← symbol
    if got = head then return arguments
    else failAt at_ (.mismatched (.expectedHead head got))
  else fail (.mismatched (.expected head))

/-- The head of a list; the answer is its length. -/
def listHead : Reader Nat := function (utf8 "List")

/-- The head of an association; the answer is the number of its entries. -/
def associationHead : Reader Nat := do
  if (← peekTag) = some .association then
    let _ ← byte
    varint
  else expected "association"

/-- The key of an entry. -/
def key : Reader Bytes := do
  if (← peekTag) = some .rule then
    let _ ← byte
    text
  else expected "rule marker in association"

/-- As many items as said, one after another. -/
def times : Nat → Reader α → Reader (List α)
  | 0, _ => pure []
  | n + 1, item => do
    let x ← item
    let xs ← times n item
    return x :: xs

/-- A list of items. -/
def list (item : Reader α) : Reader (List α) := do times (← listHead) item

/-- The number of texts that can be addressed. -/
def maxTexts : Nat := Nat.pow 2 58 - 1

/-- A list of texts. -/
def texts : Reader (List Bytes) := do
  let n ← listHead
  if maxTexts < n then fail .oversized else times n text

/-- Attributes that are set one after another. -/
def attributeEntries : Nat → AttributeSet → Reader AttributeSet
  | 0, acc => pure acc
  | n + 1, acc => do
    let k ← key
    let v ← value
    attributeEntries n (acc.set k v)

/-- An attribute set. -/
def attributes : Reader AttributeSet := do attributeEntries (← associationHead) .empty

/-! ## Skipping -/

/-- Does something as often as said. -/
def repeated : Nat → Reader Unit → Reader Unit
  | 0, _ => pure ()
  | n + 1, item => do
    item
    repeated n item

/-- Passes over an item that is nested at most `depth` deep. -/
def skipWithin : Nat → Reader Unit
  | 0 => fail (.malformed .unknownTag)
  | depth + 1 => do
    match ← peekTag with
    | some .text | some .symbol | some .binary =>
      let _ ← counted
      pure ()
    | some .real =>
      let _ ← real
      pure ()
    | some .function =>
      let _ ← byte
      let arguments ← varint
      let _ ← symbol
      repeated arguments (skipWithin depth)
    | some .association =>
      let entries ← associationHead
      repeated entries do
        let _ ← key
        skipWithin depth
    | some .rule | none => fail (.malformed .unknownTag)
    | some .int8 | some .int16 | some .int32 | some .int64 =>
      let _ ← int
      pure ()

/-- Passes over an item of any kind, with everything inside it. -/
def skip : Reader Unit := fun c => skipWithin (c.rest.length + 1) c

/-- The entries of an association, each given to `visit` with what was gathered before; an entry
that `visit` has no reader for is skipped. -/
def entriesWith (visit : Bytes → σ → Option (Reader σ)) : Nat → σ → Reader σ
  | 0, acc => pure acc
  | n + 1, acc => do
    let k ← key
    match visit k acc with
    | some r => entriesWith visit n (← r)
    | none =>
      skip
      entriesWith visit n acc

/-- An association whose entries are gathered by `visit`. -/
def associationWith (visit : Bytes → σ → Option (Reader σ)) (start : σ) : Reader σ := do
  entriesWith visit (← associationHead) start

/-! ## Common parts of records -/

/-- A number of an enumeration, which lists its members from zero on. -/
def enumeration (members : List α) : Reader α := do
  let at_ ← position
  let n ← int
  match (if 0 ≤ n.toInt then members[n.toInt.toNat]? else none) with
  | some m => return m
  | none => failAt at_ (.malformed .enumeration)

/-- The end of the data. -/
def finish (what : String) : Reader Unit := do
  if ← atEnd then pure () else fail (.malformed (.trailing (utf8 what)))

/-- Reads a whole byte string. -/
def run (r : Reader α) (bs : Bytes) : Except Error α := (r (Cursor.start bs)).map Prod.fst

end Reader
end Wire
end DecisionEngine
