import DecisionEngine.Blueprint.Decode
import DecisionEngine.Proofs.Attributes.Entries
import DecisionEngine.Proofs.Wire.Numbers
import Mathlib.Data.List.Basic
/-!
# Reading items back

Texts, symbols, scalars, lists and attribute sets are read back as they were written, but for
negative zero, which is written as zero.

* `Value.Short`, `AttributeSet.Short` — no text is longer than a length can count.
* `Reader.exact_text`, `Reader.exact_bool`, `Reader.exact_value` — scalars.
* `Reader.exact_function`, `Reader.exact_associationHead`, `Reader.exact_key` — heads.
* `Reader.reads_list`, `Reader.reads_texts`, `Reader.exact_attributes` — collections.
* `Reader.Reads.entry` — entries of an association.
-/

namespace DecisionEngine

/-- The value with positive zero in the place of negative zero. -/
def Value.withoutNegativeZero : Value → Value
  | .real x => .real x.withoutNegativeZero
  | v => v

/-- The set with positive zero in the place of negative zero. -/
def AttributeSet.withoutNegativeZero (a : AttributeSet) : AttributeSet where
  names := a.names
  values := a.values.map Value.withoutNegativeZero
  ascending := a.ascending
  aligned := by rw [List.length_map, a.aligned]

theorem AttributeSet.entries_withoutNegativeZero (a : AttributeSet) :
    a.withoutNegativeZero.entries = a.entries.map fun e => (e.1, e.2.withoutNegativeZero) :=
  List.zip_map_right ..

/-- Whether there is negative zero among the values. -/
def AttributeSet.hasNegativeZero (a : AttributeSet) : Bool :=
  a.entries.any fun e => e.2 == .real .negativeZero

/-- A value of which the text, if it is one, has a length that can be written. -/
def Value.Short : Value → Prop
  | .text s => Wire.Reader.Short s
  | _ => True

instance (v : Value) : Decidable v.Short := by
  cases v <;> unfold Value.Short <;> infer_instance

/-- A set of which the size and all texts have lengths that can be written. -/
structure AttributeSet.Short (a : AttributeSet) : Prop where
  size : a.size < 2 ^ 63
  entries : ∀ e ∈ a.entries, Wire.Reader.Short e.1 ∧ e.2.Short

instance (a : AttributeSet) : Decidable a.Short :=
  decidable_of_iff
    (a.size < 2 ^ 63 ∧ ∀ e ∈ a.entries, Wire.Reader.Short e.1 ∧ e.2.Short)
    ⟨fun h => ⟨h.1, h.2⟩, fun h => ⟨h.size, h.entries⟩⟩

theorem Value.withoutNegativeZero_eq_self {v : Value} (h : v ≠ .real .negativeZero) :
    v.withoutNegativeZero = v := by
  cases v with
  | real x =>
    have hx : x ≠ .negativeZero := fun hx => h (congrArg Value.real hx)
    simp [withoutNegativeZero, Binary64.withoutNegativeZero, hx]
  | _ => rfl

theorem AttributeSet.withoutNegativeZero_eq_self {a : AttributeSet}
    (h : a.hasNegativeZero = false) : a.withoutNegativeZero = a := by
  unfold hasNegativeZero at h
  simp only [List.any_eq_false, beq_iff_eq] at h
  refine eq_of_entries ?_
  rw [entries_withoutNegativeZero]
  refine (List.map_congr_left fun e he => ?_).trans (List.map_id _)
  rw [Value.withoutNegativeZero_eq_self (h e he)]
  rfl

namespace Wire
namespace Reader

variable {α β σ : Type}

/-! ## Texts and symbols -/

theorem exact_counted (tag : Tag) {s : Bytes} (h : Short s) :
    Exact counted (Wire.counted tag s) s :=
  Exact.byte ((exact_varint h).bind (exact_take s))

theorem exact_text {s : Bytes} (h : Short s) : Exact text (Wire.text s) s :=
  Exact.peekTag .text (exact_counted .text h)

theorem reads_text (s : Bytes) : Reads text (Wire.text s) s :=
  fun hs => exact_text (Short.right hs)

theorem exact_symbol {s : Bytes} (h : Short s) : Exact symbol (Wire.symbol s) s :=
  Exact.peekTag .symbol (exact_counted .symbol h)

theorem reads_symbol (s : Bytes) : Reads symbol (Wire.symbol s) s :=
  fun hs => exact_symbol (Short.right hs)

theorem exact_binary {s : Bytes} (h : Short s) : Exact binary (Wire.binary s) s :=
  Exact.peekTag .binary (exact_counted .binary h)

theorem reads_binary (s : Bytes) : Reads binary (Wire.binary s) s :=
  fun hs => exact_binary (Short.right hs)

theorem exact_bool (b : Bool) : Exact bool (Wire.bool b) b := by
  cases b with
  | true => exact Exact.position fun p => (exact_symbol (by decide)).last (exact_pure true)
  | false => exact Exact.position fun p => (exact_symbol (by decide)).last (exact_pure false)

theorem reads_bool (b : Bool) : Reads bool (Wire.bool b) b := (exact_bool b).reads

/-! ## Scalars -/

theorem exact_value {v : Value} (h : v.Short) :
    Exact value (Wire.value v) v.withoutNegativeZero := by
  cases v with
  | null =>
    refine Exact.peekTag .symbol (Exact.position fun p => (exact_symbol (by decide)).last ?_)
    exact exact_pure _
  | bool b =>
    cases b with
    | true =>
      refine Exact.peekTag .symbol (Exact.position fun p => (exact_symbol (by decide)).last ?_)
      exact exact_pure _
    | false =>
      refine Exact.peekTag .symbol (Exact.position fun p => (exact_symbol (by decide)).last ?_)
      exact exact_pure _
  | int n =>
    obtain ⟨width, htag, -⟩ := intTag_spec n
    have hread := (exact_int n).map Value.int
    unfold Wire.value
    unfold Wire.int at hread ⊢
    dsimp only at hread ⊢
    generalize intTag n = tag at hread htag ⊢
    cases tag with
    | int8 => exact Exact.peekTag _ hread
    | int16 => exact Exact.peekTag _ hread
    | int32 => exact Exact.peekTag _ hread
    | int64 => exact Exact.peekTag _ hread
    | _ => cases htag
  | real x => exact Exact.peekTag .real ((exact_real x).map Value.real)
  | text s => exact Exact.peekTag .text ((exact_text h).map Value.text)

theorem short_of_value {v : Value} (h : Short (Wire.value v)) : v.Short := by
  cases v with
  | text s => exact Short.right h
  | _ => trivial

theorem reads_value (v : Value) : Reads value (Wire.value v) v.withoutNegativeZero :=
  fun hs => exact_value (short_of_value hs)

/-- A member of an enumeration is read back by its number. -/
theorem reads_enumeration [BEq α] [LawfulBEq α] {members : List α} {x : α} (hx : x ∈ members)
    (hsmall : members.length < 2 ^ 63) :
    Reads (enumeration members) (Wire.nat (members.idxOf x)) x := by
  have hlt : members.idxOf x < 2 ^ 63 := Nat.lt_trans (List.idxOf_lt_length_of_mem hx) hsmall
  refine Reads.position fun p => (reads_int _).last ?_
  rw [Int64.toInt_ofNat_of_lt hlt, if_pos (Int.natCast_nonneg _), Int.toNat_natCast,
    List.getElem?_idxOf hx]
  exact reads_pure x

/-! ## Heads -/

theorem reads_header : Reads header Wire.header () := fun _ _ _ => rfl

theorem exact_function {head : Bytes} (hhead : Short head) {arguments : Nat}
    (h : arguments < 2 ^ 63) :
    Exact (function head) (functionHead head arguments) arguments := by
  refine Exact.peekTag .function (Exact.byte ?_)
  refine (exact_varint h).bind (Exact.position fun p => (exact_symbol hhead).last ?_)
  rw [if_pos rfl]
  exact exact_pure arguments

theorem short_of_functionHead {head : Bytes} {arguments : Nat}
    (h : Short (functionHead head arguments)) : Short head := Short.right (Short.right h)

theorem reads_function {head : Bytes} {arguments : Nat} (h : arguments < 2 ^ 63) :
    Reads (function head) (functionHead head arguments) arguments :=
  fun hs => exact_function (short_of_functionHead hs) h

theorem reads_listHead {n : Nat} (h : n < 2 ^ 63) : Reads listHead (Wire.listHead n) n :=
  reads_function h

theorem exact_anyFunction {head : Bytes} (hhead : Short head) {arguments : Nat}
    (h : arguments < 2 ^ 63) :
    Exact anyFunction (functionHead head arguments) (head, arguments) := by
  refine Exact.peekTag .function (Exact.byte ?_)
  exact (exact_varint h).bind ((exact_symbol hhead).last (exact_pure _))

theorem reads_anyFunction {head : Bytes} {arguments : Nat} (h : arguments < 2 ^ 63) :
    Reads anyFunction (functionHead head arguments) (head, arguments) :=
  fun hs => exact_anyFunction (short_of_functionHead hs) h

theorem exact_associationHead {n : Nat} (h : n < 2 ^ 63) :
    Exact associationHead (Wire.associationHead n) n :=
  Exact.peekTag .association (Exact.byte (exact_varint h))

theorem reads_associationHead {n : Nat} (h : n < 2 ^ 63) :
    Reads associationHead (Wire.associationHead n) n := (exact_associationHead h).reads

theorem exact_key {k : Bytes} (h : Short k) : Exact key (Wire.key k) k :=
  Exact.peekTag .rule (Exact.byte (exact_text h))

theorem short_of_key {k : Bytes} (h : Short (Wire.key k)) : Short k :=
  Short.right (@Short.right [Tag.rule.byte] (Wire.text k) h)

theorem reads_key (k : Bytes) : Reads key (Wire.key k) k := fun hs => exact_key (short_of_key hs)

/-! ## Lists -/

theorem reads_times {item : Reader α} {write : β → Bytes} {back : β → α} {xs : List β}
    (h : ∀ x ∈ xs, Reads item (write x) (back x)) :
    Reads (times xs.length item) (xs.flatMap write) (xs.map back) := by
  induction xs with
  | nil => exact reads_pure []
  | cons x xs ih =>
    rw [List.flatMap_cons, List.map_cons, List.length_cons, times]
    refine (h x (List.mem_cons_self ..)).bind ?_
    exact (ih fun y hy => h y (List.mem_cons_of_mem _ hy)).map fun ys => back x :: ys

/-- Items that take at least a byte are not more than the bytes that they take. -/
theorem length_le_flatMap {write : β → Bytes} {xs : List β} (h : ∀ x, write x ≠ []) :
    xs.length ≤ (xs.flatMap write).length := by
  induction xs with
  | nil => exact Nat.le_refl 0
  | cons x xs ih =>
    have hx : 0 < (write x).length := List.length_pos_iff.2 (h x)
    rw [List.flatMap_cons, List.length_append, List.length_cons]
    omega

theorem reads_list {item : Reader α} {write : β → Bytes} {back : β → α} {xs : List β}
    (hwrite : ∀ x, write x ≠ []) (h : ∀ x ∈ xs, Reads item (write x) (back x)) :
    Reads (list item) (Wire.list write xs) (xs.map back) := by
  refine Reads.of_short fun hs => ?_
  have hlength : xs.length < 2 ^ 63 := Nat.lt_of_le_of_lt (length_le_flatMap hwrite) hs.right
  exact (reads_listHead hlength).bind (reads_times h)

/-- Items that are read back as they were. -/
theorem reads_list_self {item : Reader α} {write : α → Bytes} {xs : List α}
    (hwrite : ∀ x, write x ≠ []) (h : ∀ x ∈ xs, Reads item (write x) x) :
    Reads (list item) (Wire.list write xs) xs := by
  have hread : Reads (list item) (Wire.list write xs) (xs.map id) := reads_list hwrite h
  rwa [List.map_id] at hread

/-- Texts are read back, if they can be addressed. -/
theorem reads_texts {xs : List Bytes} (h : xs.length ≤ maxTexts) :
    Reads texts (Wire.texts xs) xs := by
  have hlength : xs.length < 2 ^ 63 := Nat.lt_of_le_of_lt h (by decide)
  refine (reads_listHead hlength).bind ?_
  rw [if_neg (Nat.not_lt.2 h)]
  have hread : Reads (times xs.length text) (xs.flatMap Wire.text) (xs.map id) :=
    reads_times fun x _ => reads_text x
  rwa [List.map_id] at hread

/-! ## Associations -/

/-- An entry whose key has a reader is read by it. -/
theorem Reads.entry {visit : Bytes → σ → Option (Reader σ)} {r : Reader σ} {k : String} {n : Nat}
    {start next final : σ} {bs more : Bytes} (hvisit : visit (utf8 k) start = some r)
    (hr : Reads r bs next) (hmore : Reads (entriesWith visit n next) more final) :
    Reads (entriesWith visit (n + 1) start) (Wire.entry k bs ++ more) final := by
  rw [Wire.entry, List.append_assoc, entriesWith]
  refine (reads_key (utf8 k)).bind ?_
  rw [hvisit]
  exact hr.bind hmore

/-- Entries in order are taken in one behind the other. -/
theorem exact_attributeEntries {entries : List Entry} {acc final : AttributeSet}
    (hshort : ∀ e ∈ entries, Short e.1 ∧ e.2.Short)
    (h : final.entries = acc.entries ++ entries.map fun e => (e.1, e.2.withoutNegativeZero)) :
    Exact (attributeEntries entries.length acc)
      (entries.flatMap fun e => Wire.key e.1 ++ Wire.value e.2) final := by
  induction entries generalizing acc with
  | nil =>
    rw [List.map_nil, List.append_nil] at h
    rw [← AttributeSet.eq_of_entries h]
    exact exact_pure final
  | cons e rest ih =>
    obtain ⟨hkey, hvalue⟩ := hshort e (List.mem_cons_self ..)
    have hrest : ∀ x ∈ rest, Short x.1 ∧ x.2.Short := fun x hx =>
      hshort x (List.mem_cons_of_mem _ hx)
    rw [List.length_cons, List.flatMap_cons, attributeEntries, List.append_assoc]
    refine (exact_key hkey).bind ((exact_value hvalue).bind (ih hrest ?_))
    have hascending := final.ascending_entries
    rw [h, List.pairwise_append] at hascending
    have hset : (acc.set e.1 e.2.withoutNegativeZero).entries =
        acc.entries ++ [(e.1, e.2.withoutNegativeZero)] :=
      AttributeSet.entries_set_last fun x hx =>
        hascending.2.2 x hx (e.1, e.2.withoutNegativeZero) (List.mem_cons_self ..)
    rw [h, hset, List.map_cons, List.append_assoc]
    rfl

theorem exact_attributes {a : AttributeSet} (h : a.Short) :
    Exact attributes (Wire.attributes a) a.withoutNegativeZero := by
  refine (exact_associationHead h.size).bind ?_
  rw [← a.length_entries]
  exact exact_attributeEntries h.entries a.entries_withoutNegativeZero

theorem short_of_attributes {a : AttributeSet} (h : Short (Wire.attributes a)) : a.Short where
  size := by
    rw [← a.length_entries]
    exact Nat.lt_of_le_of_lt (length_le_flatMap fun e => List.cons_ne_nil _ _) h.right
  entries e he := by
    obtain ⟨front, back, hsplit⟩ := List.append_of_mem he
    have hentries := h.right
    rw [hsplit, List.flatMap_append, List.flatMap_cons] at hentries
    have hentry : Short (Wire.key e.1 ++ Wire.value e.2) := hentries.right.left
    exact ⟨short_of_key hentry.left, short_of_value hentry.right⟩

theorem reads_attributes (a : AttributeSet) :
    Reads attributes (Wire.attributes a) a.withoutNegativeZero :=
  fun hs => exact_attributes (short_of_attributes hs)

/-! ## What may be missing -/

/-- Nothing is read back, and so is something that begins with another tag than symbols do. -/
theorem reads_orNull (what : String) (tag : Tag) {item : Reader α} {write : β → Bytes}
    {back : β → α} (htag : tag ≠ .symbol) (hwrite : ∀ y, ∃ bs, write y = tag.byte :: bs)
    (h : ∀ y, Reads item (write y) (back y)) (x : Option β) :
    Reads (orNull what item) (match x with | some y => write y | none => Wire.null)
      (x.map back) := by
  cases x with
  | none =>
    refine Reads.peekTag .symbol ?_
    exact Reads.position fun p => (reads_symbol _).last (reads_pure none)
  | some y =>
    have hread := (h y).map some
    obtain ⟨bs, hbs⟩ := hwrite y
    dsimp only
    rw [hbs] at hread ⊢
    refine Reads.peekTag tag ?_
    rw [if_neg (by simpa using htag)]
    exact hread

end Reader
end Wire
end DecisionEngine
