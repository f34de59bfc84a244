import DecisionEngine.Proofs.Wire.Items
import DecisionEngine.Proofs.Wire.Nesting
/-!
# Passing over items

An item of any shape, however deep things are nested in it, is passed over as a whole, up to the
byte behind it.  So the entries of an association can be read by their keys, and those that nothing
reads leave no trace.

* `Complete` — the bytes of one item, of any shape.
* `Complete.skip` — passing over an item takes its bytes and no others.
* `Reader.Gathers`, `Reader.exact_entriesWith` — what one entry does, and what all entries do.
-/

namespace DecisionEngine
namespace Wire

/-- An association of keys and the bytes of their values. -/
def association (entries : List (Bytes × Bytes)) : Bytes :=
  associationHead entries.length ++ entries.flatMap fun e => key e.1 ++ e.2

/-- The bytes of one item: a scalar, a byte string, a record with its arguments, or an association
with its entries.  An integer may have more bytes than it needs. -/
inductive Complete : Bytes → Prop
  | int {tag : Tag} {width : Nat} {payload : Bytes} (htag : tag.intWidth? = some width)
      (hwidth : payload.length = width) : Complete (tag.byte :: payload)
  | real {payload : Bytes} (hwidth : payload.length = 8) : Complete (Tag.real.byte :: payload)
  | text {s : Bytes} (h : Reader.Short s) : Complete (Wire.text s)
  | symbol {s : Bytes} (h : Reader.Short s) : Complete (Wire.symbol s)
  | binary {s : Bytes} (h : Reader.Short s) : Complete (Wire.binary s)
  | function {head : Bytes} {arguments : List Bytes} (hhead : Reader.Short head)
      (hcount : arguments.length < 2 ^ 63) (harguments : ∀ a ∈ arguments, Complete a) :
      Complete (functionHead head arguments.length ++ arguments.flatten)
  | association {entries : List (Bytes × Bytes)} (hcount : entries.length < 2 ^ 63)
      (hkeys : ∀ e ∈ entries, Reader.Short e.1) (hvalues : ∀ e ∈ entries, Complete e.2) :
      Complete (Wire.association entries)

namespace Reader

variable {σ : Type}

/-! ## Items without anything in them -/

/-- An integer of any width is read, whatever it is. -/
theorem exact_int_width {tag : Tag} {width : Nat} {payload : Bytes}
    (htag : tag.intWidth? = some width) (hwidth : payload.length = width) :
    ∃ n, Exact int (tag.byte :: payload) n := by
  subst hwidth
  refine ⟨Int64.ofInt ((ofLittleEndian payload : Int).bmod (Nat.pow 2 (8 * payload.length))), ?_⟩
  refine Exact.peekTag tag ?_
  rw [Option.bind_some, htag]
  exact Exact.byte ((exact_take payload).map _)

/-- A real is read, whatever its bits are. -/
theorem exact_real_width {payload : Bytes} (hwidth : payload.length = 8) :
    ∃ x, Exact real (Tag.real.byte :: payload) x := by
  refine ⟨⟨UInt64.ofNat (ofLittleEndian payload)⟩, Exact.peekTag .real (Exact.byte ?_)⟩
  exact hwidth ▸ (exact_take payload).map fun bs => (⟨UInt64.ofNat (ofLittleEndian bs)⟩ : Binary64)

/-! ## Items in one another -/

/-- What passes over each of some byte strings passes over all of them. -/
theorem exact_repeated {item : Reader Unit} {parts : List Bytes}
    (h : ∀ part ∈ parts, Exact item part ()) :
    Exact (repeated parts.length item) parts.flatten () := by
  induction parts with
  | nil => exact exact_pure ()
  | cons part parts ih =>
    rw [List.length_cons, List.flatten_cons, repeated]
    refine (h part (List.mem_cons_self ..)).bind ?_
    exact ih fun other hother => h other (List.mem_cons_of_mem _ hother)

/-- To pass over an item, its head is passed over, and then what is nested in it. -/
theorem Exact.skip (nested : Nested) {head inside : Bytes} (hhead : Exact skipHead head nested)
    (hinside : Exact (skipNested Reader.skip nested) inside ()) :
    Exact Reader.skip (head ++ inside) () := by
  rw [skip_eq]
  exact hhead.bind hinside

/-- An item that is all head is passed over with it. -/
theorem Exact.skip_head {head : Bytes} (hhead : Exact skipHead head (.items 0)) :
    Exact Reader.skip head () := by
  rw [skip_eq]
  exact hhead.last (exact_pure ())

end Reader

open Reader (Exact)

/-- **Passing over an item takes its bytes and no others**, of whatever shape it is and however
deep things are nested in it. -/
theorem Complete.skip {bs : Bytes} (h : Complete bs) : Exact Reader.skip bs () := by
  induction h with
  | @int tag width payload htag hwidth =>
    obtain ⟨n, hread⟩ := Reader.exact_int_width htag hwidth
    have hhead := hread.map fun _ => Reader.Nested.items 0
    refine Exact.skip_head ?_
    cases tag with
    | int8 | int16 | int32 | int64 => exact Exact.peekTag _ hhead
    | _ => cases htag
  | real hwidth =>
    obtain ⟨x, hread⟩ := Reader.exact_real_width hwidth
    exact Exact.skip_head (Exact.peekTag .real (hread.map fun _ => Reader.Nested.items 0))
  | text h => exact Exact.skip_head (Exact.peekTag .text ((Reader.exact_counted _ h).map _))
  | symbol h => exact Exact.skip_head (Exact.peekTag .symbol ((Reader.exact_counted _ h).map _))
  | binary h => exact Exact.skip_head (Exact.peekTag .binary ((Reader.exact_counted _ h).map _))
  | @function head arguments hhead hcount _ ih =>
    refine Exact.skip (.items arguments.length) ?_ (Reader.exact_repeated ih)
    refine Exact.peekTag .function (Exact.byte ((Reader.exact_varint hcount).bind ?_))
    exact (Reader.exact_symbol hhead).map fun _ => Reader.Nested.items arguments.length
  | @association entries hcount hkeys _ ih =>
    have hentries : Exact (Reader.repeated entries.length do let _ ← Reader.key; Reader.skip)
        (entries.flatMap fun e => key e.1 ++ e.2) () := by
      rw [List.flatMap_def, ← List.length_map fun e : Bytes × Bytes => key e.1 ++ e.2]
      refine Reader.exact_repeated fun part hpart => ?_
      obtain ⟨e, he, rfl⟩ := List.mem_map.1 hpart
      exact (Reader.exact_key (hkeys e he)).bind (ih e he)
    have hhead := (Reader.exact_associationHead hcount).map Reader.Nested.entries
    exact Exact.skip (.entries entries.length) (Exact.peekTag .association hhead) hentries

/-! ## What is written is complete -/

theorem complete_int (n : Int64) : Complete (int n) := by
  obtain ⟨width, htag, -⟩ := Reader.intTag_spec n
  have hlength := Reader.length_littleEndian width n.toUInt64.toNat
  unfold int
  dsimp only
  rw [htag]
  exact .int htag hlength

theorem complete_real (x : Binary64) : Complete (real x) :=
  .real (Reader.length_littleEndian 8 _)

theorem complete_value {v : Value} (h : v.Short) : Complete (value v) := by
  cases v with
  | null => exact .symbol (by decide)
  | bool b => cases b <;> exact .symbol (by decide)
  | int n => exact complete_int n
  | real x => exact complete_real x
  | text s => exact .text h

/-! ## Entries that are read by their keys -/

namespace Reader

/-- What an entry does to what was gathered before it: its key has a reader, which reads its value,
or no reader, and it changes nothing. -/
inductive Gathers {σ : Type} (visit : Bytes → σ → Option (Reader σ)) (e : Bytes × Bytes) (acc : σ) :
    σ → Prop
  | known {r : Reader σ} {next : σ} (hvisit : visit e.1 acc = some r) (hread : Exact r e.2 next) :
      Gathers visit e acc next
  | unknown (hvisit : visit e.1 acc = none) (hcomplete : Complete e.2) : Gathers visit e acc acc

/-- The entries of an association are gathered one after another. -/
theorem exact_entriesWith {visit : Bytes → σ → Option (Reader σ)}
    {gather : Bytes × Bytes → σ → σ} {entries : List (Bytes × Bytes)}
    (hkeys : ∀ e ∈ entries, Short e.1)
    (h : ∀ e ∈ entries, ∀ acc, Gathers visit e acc (gather e acc)) (start : σ) :
    Exact (entriesWith visit entries.length start) (entries.flatMap fun e => Wire.key e.1 ++ e.2)
      (entries.foldl (fun acc e => gather e acc) start) := by
  induction entries generalizing start with
  | nil => exact exact_pure start
  | cons e rest ih =>
    have hrest := ih (fun x hx => hkeys x (List.mem_cons_of_mem _ hx))
      (fun x hx => h x (List.mem_cons_of_mem _ hx)) (gather e start)
    rw [List.length_cons, List.flatMap_cons, List.foldl_cons, entriesWith, List.append_assoc]
    refine (exact_key (hkeys e (List.mem_cons_self ..))).bind ?_
    have hentry := h e (List.mem_cons_self ..) start
    generalize gather e start = next at hentry hrest
    cases hentry with
    | known hvisit hread =>
      rw [hvisit]
      exact hread.bind hrest
    | unknown hvisit hcomplete =>
      rw [hvisit]
      exact hcomplete.skip.bind hrest

/-- So is the association as a whole. -/
theorem exact_associationWith {visit : Bytes → σ → Option (Reader σ)}
    {gather : Bytes × Bytes → σ → σ} {entries : List (Bytes × Bytes)}
    (hcount : entries.length < 2 ^ 63) (hkeys : ∀ e ∈ entries, Short e.1)
    (h : ∀ e ∈ entries, ∀ acc, Gathers visit e acc (gather e acc)) (start : σ) :
    Exact (associationWith visit start) (Wire.association entries)
      (entries.foldl (fun acc e => gather e acc) start) :=
  (exact_associationHead hcount).bind (exact_entriesWith hkeys h start)

end Reader
end Wire
end DecisionEngine
