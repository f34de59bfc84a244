import DecisionEngine.AttributeSet
/-!
# Documents

A document is an account of something for people and for other programs: a tree of named fields,
lists and leaves, which says what each leaf is. How a leaf is written (an escape, a base, a digit
count) is left to those who print or parse documents.

* `Document`: the tree.
* `Documented`: what an account can be given of.
* `Readable`: what can be read from an account; what is missing reads as a default.
-/

namespace DecisionEngine

/-- An account of something. -/
inductive Document
  | nothing
  | flag (b : Bool)
  | number (n : Int)
  | real (x : Binary64)
  | text (b : Bytes)
  | word (w : UInt64)
  | binary (b : Bytes)
  | list (items : List Document)
  | record (fields : List (String × Document))

instance : Inhabited Document := ⟨.nothing⟩

/-- The fields of a record. -/
abbrev Fields := List (String × Document)

/-- Fields that are there only under a condition. -/
def Fields.when (b : Bool) (fields : Fields) : Fields := if b then fields else []

/-- What an account can be given of. -/
class Documented (α : Type) where
  document : α → Document

instance {α : Type} [Documented α] : CoeOut α Document := ⟨Documented.document⟩

/-- What can be read from an account. -/
class Readable (α : Type) where
  read : Document → α

namespace Document

/-! ## Parts -/

/-- Whether there is nothing. -/
def isNothing : Document → Bool
  | nothing => true
  | _ => false

/-- The parts of a list. -/
def items : Document → List Document
  | list items => items
  | _ => []

/-- The part of a list at a position; nothing if there is none. -/
def item (d : Document) (i : Nat) : Document := d.items.getD i nothing

/-- The part of a record with a name; nothing if there is none. -/
def field (d : Document) (name : String) : Document :=
  match d with
  | record fields => (fields.lookup name).getD nothing
  | _ => nothing

/-! ## Reading -/

variable {α : Type} [Readable α]

/-- What is read from an account, or something else where there is nothing. -/
def readOr (d : Document) (missing : α) : α := if d.isNothing then missing else Readable.read d

/-- What is read from the part of a list at a position. -/
def nth (d : Document) (i : Nat) : α := Readable.read (d.item i)

/-- What is read from a field. -/
def get (d : Document) (name : String) : α := Readable.read (d.field name)

/-- What is read from a field, or something else where there is nothing. -/
def getOr (d : Document) (name : String) (missing : α) : α := (d.field name).readOr missing

end Document

/-! ## Leaves -/

instance : Documented Document := ⟨id⟩
instance : Documented Unit := ⟨fun _ => .nothing⟩
instance : Documented Bool := ⟨.flag⟩
instance : Documented Int := ⟨.number⟩
instance : Documented Nat := ⟨fun n => .number n⟩
instance : Documented Int64 := ⟨fun n => .number n.toInt⟩
instance : Documented Binary64 := ⟨.real⟩
instance : Documented Bytes := ⟨.text⟩
instance : Documented String := ⟨fun s => .text (utf8 s)⟩
instance : Documented UInt64 := ⟨.word⟩

instance : Readable Document := ⟨id⟩
instance : Readable Bool := ⟨fun | .flag b => b | _ => false⟩
instance : Readable Int := ⟨fun | .number n => n | _ => 0⟩
instance : Readable Int64 := ⟨fun d => Int64.ofInt (Readable.read d)⟩
instance : Readable Int32 := ⟨fun d => Int32.ofInt (Readable.read d)⟩
instance : Readable UInt32 := ⟨fun d => UInt32.ofInt (Readable.read d)⟩
instance : Readable Bytes := ⟨fun | .text b => b | _ => []⟩

/-- Numbers that count or point at something are words, so a negative one reads as a large one. -/
instance : Readable Nat := ⟨fun d => (UInt64.ofInt (Readable.read d)).toNat⟩

/-- A whole number reads as the real number nearest to it. -/
instance : Readable Binary64 :=
  ⟨fun | .real x => x | .number n => .ofInt64 (Int64.ofInt n) | _ => ⟨0⟩⟩

/-- A text reads as the word that its hexadecimal digits stand for. -/
instance : Readable UInt64 := ⟨fun
  | .word w => w
  | .number n => UInt64.ofInt n
  | .text b => UInt64.ofNat (b.foldl (fun n c => 16 * n + (Bytes.hexValue? c).getD 0) 0)
  | _ => 0⟩

/-! ## Collections -/

instance {α : Type} [Documented α] : Documented (List α) :=
  ⟨fun xs => .list (xs.map Documented.document)⟩

instance {α : Type} [Documented α] : Documented (Option α) :=
  ⟨fun | some x => Documented.document x | none => .nothing⟩

instance {α β : Type} [Documented α] [Documented β] : Documented (α × β) :=
  ⟨fun p => .list [p.1, p.2]⟩

instance {α : Type} [Readable α] : Readable (List α) := ⟨fun d => d.items.map Readable.read⟩

instance {α : Type} [Readable α] : Readable (Option α) :=
  ⟨fun d => if d.isNothing then none else some (Readable.read d)⟩

instance {α β : Type} [Readable α] [Readable β] : Readable (α × β) := ⟨fun d => (d.nth 0, d.nth 1)⟩

/-- The member of an enumeration with the name that is read, or a default. -/
def Document.member {α : Type} (all : List α) (name : α → Bytes) (missing : α) (d : Document) : α :=
  (all.find? fun x => name x == Readable.read d).getD missing

/-! ## Values -/

/-- The value itself, as the leaf of its kind. -/
instance : Documented Value := ⟨fun
  | .null => .nothing
  | .bool b => b
  | .int n => n
  | .real x => x
  | .text s => s⟩

instance : Readable Value := ⟨fun
  | .flag b => .bool b
  | .number n => .int (Int64.ofInt n)
  | .real x => .real x
  | .text b => .text b
  | _ => .null⟩

/-- The names with their values, in the order of the set. -/
instance : Documented AttributeSet := ⟨fun a => a.entries⟩

instance : Readable AttributeSet := ⟨fun d => .ofList (Readable.read d)⟩

end DecisionEngine
