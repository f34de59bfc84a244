import DecisionEngine.Proofs.Wire.Items
/-!
# Items, one after another

Whatever is written is a sequence of items without anything between them, and a reader asks for
items of certain kinds.  Every item says by itself where it ends, so a sequence that is asked for
kind by kind comes back item by item, whatever the bytes inside the items look like.

* `Item`, `Item.bytes` — something that is written in one go.
* `Item.Kind`, `Item.Kind.read` — something that is asked for in one go.
* `Item.exact_read` — an item is read back by every kind that it is of.
* `Item.sequence_round_trip` — so is a sequence of items.
-/

namespace DecisionEngine
namespace Wire

/-- Something that is written in one go. -/
inductive Item
  | int (n : Int64)
  | word (w : UInt64)
  | real (x : Binary64)
  | text (s : Bytes)
  | symbol (s : Bytes)
  | bool (b : Bool)
  | null
  | binary (s : Bytes)
  | value (v : Value)
  | attributes (a : AttributeSet)
  | function (head : Bytes) (arguments : Nat)
  | association (entries : Nat)
  | key (k : Bytes)
  deriving DecidableEq

namespace Item

open Reader (Exact)

/-- What is written of an item. -/
def bytes : Item → Bytes
  | int n => Wire.int n
  | word w => Wire.word w
  | real x => Wire.real x
  | text s => Wire.text s
  | symbol s => Wire.symbol s
  | bool b => Wire.bool b
  | null => Wire.null
  | binary s => Wire.binary s
  | value v => Wire.value v
  | attributes a => Wire.attributes a
  | function head arguments => functionHead head arguments
  | association entries => associationHead entries
  | key k => Wire.key k

/-- The lengths and numbers in front of what is counted are below `2 ^ 63`. -/
def Short : Item → Prop
  | text s | symbol s | binary s | key s => Reader.Short s
  | value v => v.Short
  | attributes a => a.Short
  | function head arguments => Reader.Short head ∧ arguments < 2 ^ 63
  | association entries => entries < 2 ^ 63
  | int _ | word _ | real _ | bool _ | null => True

instance (i : Item) : Decidable i.Short := by
  cases i <;> unfold Short <;> infer_instance

/-! ## Kinds -/

/-- What is asked for in one go.  A record is asked for by its head, or whatever its head is. -/
inductive Kind
  | int
  | word
  | real
  | text
  | symbol
  | bool
  | binary
  | value
  | attributes
  | function (head : Bytes)
  | anyFunction
  | association
  | key
  deriving DecidableEq

/-- Reads an item of a kind. -/
def Kind.read : Kind → Reader Item
  | int => do return .int (← Reader.int)
  | word => do return .word (← Reader.word)
  | real => do return .real (← Reader.real)
  | text => do return .text (← Reader.text)
  | symbol => do return .symbol (← Reader.symbol)
  | bool => do return .bool (← Reader.bool)
  | binary => do return .binary (← Reader.binary)
  | value => do return .value (← Reader.value)
  | attributes => do return .attributes (← Reader.attributes)
  | function head => do return .function head (← Reader.function head)
  | anyFunction => do
    let (head, arguments) ← Reader.anyFunction
    return .function head arguments
  | association => do return .association (← Reader.associationHead)
  | key => do return .key (← Reader.key)

/-- The kinds that an item is of.  There is no kind of its own for nothing, which is a value. -/
def kinds : Item → List Kind
  | int _ => [.int]
  | word _ => [.word]
  | real _ => [.real]
  | text _ => [.text]
  | symbol _ => [.symbol]
  | bool _ => [.bool]
  | null => [.value]
  | binary _ => [.binary]
  | value _ => [.value]
  | attributes _ => [.attributes]
  | function head _ => [.function head, .anyFunction]
  | association _ => [.association]
  | key _ => [.key]

/-- An item as it is read back: zero has lost its sign, and nothing has become a value. -/
def readBack : Item → Item
  | real x => .real x.withoutNegativeZero
  | null => .value .null
  | value v => .value v.withoutNegativeZero
  | attributes a => .attributes a.withoutNegativeZero
  | i => i

/-- Whether there is negative zero in an item. -/
def hasNegativeZero : Item → Bool
  | real x => x == .negativeZero
  | value v => v == .real .negativeZero
  | attributes a => a.hasNegativeZero
  | _ => false

theorem readBack_eq_self {i : Item} (hnull : i ≠ null) (h : i.hasNegativeZero = false) :
    i.readBack = i := by
  cases i with
  | real x =>
    have hx : x ≠ .negativeZero := beq_eq_false_iff_ne.1 h
    exact congrArg real (if_neg hx)
  | value v => exact congrArg value (Value.withoutNegativeZero_eq_self (beq_eq_false_iff_ne.1 h))
  | attributes a => exact congrArg attributes (AttributeSet.withoutNegativeZero_eq_self h)
  | null => exact absurd rfl hnull
  | _ => rfl

/-- An item is read back by every kind that it is of, and exactly its bytes are taken. -/
theorem exact_read {i : Item} {k : Kind} (hkind : k ∈ i.kinds) (h : i.Short) :
    Exact k.read i.bytes i.readBack := by
  cases i with
  | int n =>
    cases List.mem_singleton.1 hkind
    exact (Reader.exact_int n).map Item.int
  | word w =>
    cases List.mem_singleton.1 hkind
    exact (Reader.exact_word w).map Item.word
  | real x =>
    cases List.mem_singleton.1 hkind
    exact (Reader.exact_real x).map Item.real
  | text s =>
    cases List.mem_singleton.1 hkind
    exact (Reader.exact_text h).map Item.text
  | symbol s =>
    cases List.mem_singleton.1 hkind
    exact (Reader.exact_symbol h).map Item.symbol
  | bool b =>
    cases List.mem_singleton.1 hkind
    exact (Reader.exact_bool b).map Item.bool
  | null =>
    cases List.mem_singleton.1 hkind
    have hshort : Value.null.Short := trivial
    exact (Reader.exact_value hshort).map Item.value
  | binary s =>
    cases List.mem_singleton.1 hkind
    exact (Reader.exact_binary h).map Item.binary
  | value v =>
    cases List.mem_singleton.1 hkind
    exact (Reader.exact_value h).map Item.value
  | attributes a =>
    cases List.mem_singleton.1 hkind
    exact (Reader.exact_attributes h).map Item.attributes
  | function head arguments =>
    obtain ⟨hhead, harguments⟩ := h
    rcases List.mem_pair.1 hkind with rfl | rfl
    · exact (Reader.exact_function hhead harguments).map (Item.function head)
    · exact (Reader.exact_anyFunction hhead harguments).map fun p => Item.function p.1 p.2
  | association entries =>
    cases List.mem_singleton.1 hkind
    exact (Reader.exact_associationHead h).map Item.association
  | key k =>
    cases List.mem_singleton.1 hkind
    exact (Reader.exact_key h).map Item.key

/-! ## Sequences -/

/-- Reads an item of each kind, one after another, with the position behind it. -/
def Kind.readEach : List Kind → Reader (List (Item × Nat))
  | [] => pure []
  | k :: rest => do
    let i ← k.read
    let behind ← Reader.position
    return (i, behind) :: (← readEach rest)

/-- Items as they are read back from a position on, each with the position behind it. -/
def readBackFrom : Nat → List Item → List (Item × Nat)
  | _, [] => []
  | start, i :: rest =>
    (i.readBack, start + i.bytes.length) :: readBackFrom (start + i.bytes.length) rest

/-- Items that are asked for by their kinds are read back, whatever follows them. -/
theorem readEach_eq {items : List Item} {kinds : List Kind} (hshort : ∀ i ∈ items, i.Short)
    (hkinds : List.Forall₂ (fun i k => k ∈ i.kinds) items kinds) (start : Nat) (rest : Bytes) :
    Kind.readEach kinds ⟨start, items.flatMap bytes ++ rest⟩ =
      .ok (readBackFrom start items, ⟨start + (items.flatMap bytes).length, rest⟩) := by
  induction hkinds generalizing start with
  | nil => rfl
  | @cons i k items kinds hkind _ ih =>
    have hitem := exact_read hkind (hshort i (List.mem_cons_self ..)) start
      (items.flatMap bytes ++ rest)
    have hrest := ih (fun j hj => hshort j (List.mem_cons_of_mem _ hj)) (start + i.bytes.length)
    rw [List.flatMap_cons, List.append_assoc, List.length_append, ← Nat.add_assoc]
    simp only [Kind.readEach, Reader.position, Bind.bind, StateT.bind, Except.bind, hitem, hrest]
    rfl

theorem map_fst_readBackFrom (start : Nat) (items : List Item) :
    (readBackFrom start items).map (·.1) = items.map readBack := by
  induction items generalizing start with
  | nil => rfl
  | cons i rest ih => rw [readBackFrom, List.map_cons, List.map_cons, ih]

/-- **Sequences of items are read back.**  Items whose lengths can be written, of any kinds and in
any order, are written one after another.  Asked for by kinds that they are of, they come back in
order, each with the position right behind its bytes, and at the end all bytes are read.  Negative
zero comes back as positive zero; whatever has none in it comes back as it was, to the bit. -/
theorem sequence_round_trip {items : List Item} {kinds : List Kind}
    (hshort : ∀ i ∈ items, i.Short)
    (hkinds : List.Forall₂ (fun i k => k ∈ i.kinds) items kinds) :
    Kind.readEach kinds (Cursor.start (items.flatMap bytes)) =
        .ok (readBackFrom 0 items, ⟨(items.flatMap bytes).length, []⟩) ∧
      (readBackFrom 0 items).map (·.1) = items.map readBack ∧
      (∀ i ∈ items, i ≠ null → i.hasNegativeZero = false → i.readBack = i) ∧
      (real .negativeZero).readBack = real .zero := by
  have hread := readEach_eq hshort hkinds 0 []
  rw [List.append_nil, Nat.zero_add] at hread
  refine ⟨hread, map_fst_readBackFrom 0 items, fun i _ => readBack_eq_self, ?_⟩
  rfl

/-- Numbers at the borders of their widths, zeros and a payload of a number that is none, texts at
the borders of their lengths and with tags in them, and heads. -/
def samples : List Item :=
  [.int 127, .int 128, .int (-32769), .int 2147483648, .word 0xffffffffffffffff,
    .real .negativeZero, .real ⟨0x7ff0000000000001⟩, .text (List.replicate 127 83),
    .text (List.replicate 128 115), .symbol (utf8 "True"), .bool true, .null, .binary [67, 0],
    .value (.text (utf8 "Null")), .attributes (.ofList [(utf8 "k", .real .negativeZero)]),
    .function (utf8 "List") 2, .function (utf8 "List") (2 ^ 63 - 1), .association 128,
    .key (utf8 "A")]

/-- What the samples are asked for by: the same head once by its name, and once as any head. -/
def sampleKinds : List Kind :=
  [.int, .int, .int, .int, .word, .real, .real, .text, .text, .symbol, .bool, .value, .binary,
    .value, .attributes, .function (utf8 "List"), .anyFunction, .association, .key]

theorem sequence_round_trip_samples :
    (∀ i ∈ samples, i.Short) ∧
      List.Forall₂ (fun i k => k ∈ i.kinds) samples sampleKinds ∧
      Kind.readEach sampleKinds (Cursor.start (samples.flatMap bytes)) =
        .ok (readBackFrom 0 samples, ⟨(samples.flatMap bytes).length, []⟩) ∧
      (readBackFrom 0 samples).map (·.1) = samples.map readBack := by
  have hshort : ∀ i ∈ samples, i.Short := by decide +kernel
  have hkinds : List.Forall₂ (fun i k => k ∈ i.kinds) samples sampleKinds := by decide
  obtain ⟨hread, hback, -⟩ := sequence_round_trip hshort hkinds
  exact ⟨hshort, hkinds, hread, hback⟩

end Item
end Wire
end DecisionEngine
