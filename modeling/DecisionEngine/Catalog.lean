import DecisionEngine.AttributeSet
import DecisionEngine.Hash.Fnv
import DecisionEngine.Keyed
import DecisionEngine.Mask
/-!
# Attribute catalogs

A categorical predicate is written as a label: `has_contract` holds when the attribute is set, and
`tier=premium` when its text is exactly `premium`. A catalog numbers up to 64 predicates in the
order in which they were added; the number of a predicate is its bit in a mask. An index leads from
a label to its bit.

* `Predicate.ofLabel?` reads a label, `Predicate.label` writes it.
* `Numbering.enter` numbers a label; one that is known keeps its bit, also when there is no room.
* `Catalog.enter`, `Catalog.add` do so in a catalog, where the index and the predicates agree.
* `Catalog.maskOf` is the mask of an attribute set, `Catalog.describe` the labels of a mask.
* `Catalog.fingerprint` identifies the labels and their order.
-/

namespace DecisionEngine

/-! ## Predicates -/

/-- The byte between the key of a label and the text it asks for. -/
def equalsSign : UInt8 := 61

/-- A categorical test of one attribute. -/
structure Predicate where
  key : Bytes
  expected : Option Bytes
  key_nonempty : key ≠ []
  key_plain : equalsSign ∉ key
  deriving DecidableEq

namespace Predicate

/-- The label that is read as the predicate. -/
def label (p : Predicate) : Bytes :=
  match p.expected with
  | some text => p.key ++ equalsSign :: text
  | none => p.key

/-- The part of a label in front of its first equals sign. -/
def keyOf (label : Bytes) : Bytes := label.takeWhile (· != equalsSign)

/-- The part of a label behind its first equals sign. -/
def expectedOf (label : Bytes) : Option Bytes := (label.dropWhile (· != equalsSign)).tail?

theorem equalsSign_not_mem_keyOf (label : Bytes) : equalsSign ∉ keyOf label := by
  intro h
  have := List.all_takeWhile (p := (· != equalsSign)) (l := label)
  rw [List.all_eq_true] at this
  simpa using this _ h

/-- Reads a label; there is no predicate without a key. -/
def ofLabel? (label : Bytes) : Option Predicate :=
  if h : keyOf label = [] then none
  else some ⟨keyOf label, expectedOf label, h, equalsSign_not_mem_keyOf label⟩

/-- Whether an attribute set passes the test. A null value equals no text. -/
def holds (p : Predicate) (attributes : AttributeSet) : Bool :=
  match attributes.find? p.key with
  | none => false
  | some value =>
    match p.expected with
    | some text => !value.isNull && value.toText == text
    | none => value.truthy

end Predicate

/-! ## Catalogs -/

/-- Why a label gets no bit. -/
inductive CatalogError
  | noKey (label : Bytes)
  | full
  deriving DecidableEq

/-- The wording of the reason. -/
def CatalogError.message : CatalogError → Bytes
  | noKey label => utf8 "Attribute predicate has no key: " ++ Bytes.quoted label
  | full => utf8 "Attribute catalog is full (64 bits)"

/-- The number of bits of a mask. -/
def maxCatalogSize : Nat := 64

/-- Predicates in the order of their bits, and an index from labels to bits. -/
structure Numbering where
  predicates : List Predicate
  index : List (Bytes × Nat)
  deriving DecidableEq

namespace Numbering

/-- The bit that the index has for a label. -/
def bitOf? (t : Numbering) (label : Bytes) : Option Nat := Keyed.find? t.index label

/-- Numbers a label, which gets the next bit if it has none yet. -/
def enter (label : Bytes) : ExceptT CatalogError (StateM Numbering) Nat := do
  match Predicate.ofLabel? label with
  | none => throw (.noKey label)
  | some p =>
    match (← get).bitOf? p.label with
    | some bit => return bit
    | none =>
      if maxCatalogSize ≤ (← get).predicates.length then throw .full
      let bit := (← get).predicates.length
      modify fun t => { t with predicates := t.predicates ++ [p] }
      modify fun t => { t with index := Keyed.keep p.label bit t.index }
      return bit

/-- The index of predicates that are numbered one after another. -/
def indexOf (predicates : List Predicate) : List (Bytes × Nat) :=
  predicates.zipIdx.map fun p => (p.1.label, p.2)

/-- No predicate has two bits, there are no more predicates than bits, and the index has the place
of each predicate under its label. -/
structure Agrees (t : Numbering) : Prop where
  nodup : t.predicates.Nodup
  size_le : t.predicates.length ≤ maxCatalogSize
  filed : t.index = indexOf t.predicates

theorem map_fst_indexOf (predicates : List Predicate) :
    (indexOf predicates).map (·.1) = predicates.map Predicate.label := by
  rw [indexOf, List.map_map, ← List.zipIdx_map_fst 0 predicates, List.map_map,
    List.zipIdx_map_fst]
  rfl

/-- A predicate whose label is not in the index is a new one. -/
theorem Agrees.not_mem {t : Numbering} (h : t.Agrees) {p : Predicate}
    (hnew : t.bitOf? p.label = none) : p ∉ t.predicates := by
  intro hp
  have hmem : p.label ∈ t.index.map (·.1) := by
    rw [h.filed, map_fst_indexOf]
    exact List.mem_map_of_mem hp
  obtain ⟨e, he, hlabel⟩ := List.mem_map.1 hmem
  rw [bitOf?, Keyed.find?, Option.map_eq_none_iff, List.find?_eq_none] at hnew
  exact hnew e he (by simpa using hlabel)

/-- A new predicate that there is room for comes last. -/
theorem Agrees.concat {t : Numbering} (h : t.Agrees) {p : Predicate}
    (hnew : t.bitOf? p.label = none) (hroom : t.predicates.length < maxCatalogSize) :
    Agrees ⟨t.predicates ++ [p], Keyed.keep p.label t.predicates.length t.index⟩ where
  nodup := List.nodup_append.2 ⟨h.nodup, List.nodup_cons.2 ⟨List.not_mem_nil, List.nodup_nil⟩,
    fun _ ha _ hb => by
      rw [List.mem_singleton.1 hb]
      exact fun e => h.not_mem hnew (e ▸ ha)⟩
  size_le := by
    rw [List.length_append]
    exact hroom
  filed := by
    have hkeep : Keyed.keep p.label t.predicates.length t.index =
        t.index ++ [(p.label, t.predicates.length)] := by
      unfold bitOf? at hnew
      rw [Keyed.keep, hnew]
      rfl
    rw [hkeep, h.filed]
    simp [indexOf, List.zipIdx_append]

/-- All that can become of a label: only one that is new, has a key and finds room changes what is
there. -/
theorem run_enter (t : Numbering) (label : Bytes) : (enter label).run.run t =
    match Predicate.ofLabel? label with
    | none => (.error (.noKey label), t)
    | some p =>
      match t.bitOf? p.label with
      | some bit => (.ok bit, t)
      | none =>
        if maxCatalogSize ≤ t.predicates.length then (.error .full, t)
        else (.ok t.predicates.length,
          ⟨t.predicates ++ [p], Keyed.keep p.label t.predicates.length t.index⟩) := by
  -- What is decided about the state is decided behind the reading of it.
  have hget : ∀ f : Numbering → ExceptT CatalogError (StateM Numbering) Nat,
      (get >>= f).run.run t = (f t).run.run t := fun _ => rfl
  unfold enter
  cases Predicate.ofLabel? label with
  | none => rfl
  | some p =>
    dsimp only
    rw [hget]
    cases t.bitOf? p.label with
    | some bit => rfl
    | none =>
      by_cases hfull : maxCatalogSize ≤ t.predicates.length
      · simp only [hget, hfull, if_true]
        rfl
      · simp only [hget, hfull, if_false]
        rfl

/-- Whatever becomes of a label, the index and the predicates go on agreeing. -/
theorem Agrees.enter {t : Numbering} (h : t.Agrees) (label : Bytes) :
    ((Numbering.enter label).run.run t).2.Agrees := by
  rw [run_enter]
  split
  · exact h
  · split
    · exact h
    · split
      · exact h
      · exact h.concat ‹_› (Nat.lt_of_not_le ‹_›)

end Numbering

/-- Predicates that are numbered, with an index that agrees with them. -/
structure Catalog extends Numbering where
  agrees : toNumbering.Agrees
  deriving DecidableEq

namespace Catalog

/-- The catalog of predicates that differ and for which there are bits. -/
def ofPredicates (predicates : List Predicate) (nodup : predicates.Nodup)
    (size_le : predicates.length ≤ maxCatalogSize) : Catalog :=
  ⟨⟨predicates, Numbering.indexOf predicates⟩, nodup, size_le, rfl⟩

/-- The catalog without predicates. -/
def empty : Catalog := ofPredicates [] List.nodup_nil (Nat.zero_le _)

instance : Inhabited Catalog := ⟨empty⟩

/-- The number of predicates. -/
def size (c : Catalog) : Nat := c.predicates.length

/-- The labels in the order of their bits. -/
def labels (c : Catalog) : List Bytes := c.predicates.map Predicate.label

/-- Numbers a label; the answer is its bit, or why it gets none. -/
def enter (c : Catalog) (label : Bytes) : Except CatalogError Nat × Catalog :=
  (((Numbering.enter label).run.run c.toNumbering).1, ⟨_, c.agrees.enter label⟩)

/-- The bit of a label and the catalog that has it, or why it gets none. -/
def add (c : Catalog) (label : Bytes) : Except CatalogError (Nat × Catalog) :=
  match c.enter label with
  | (.ok bit, c') => .ok (bit, c')
  | (.error e, _) => .error e

/-- The labels added one after another, up to the first that gets no bit. -/
def addAll (c : Catalog) : List Bytes → Except CatalogError Catalog
  | [] => .ok c
  | label :: rest => do (← c.add label).2.addAll rest

/-- The catalog of a list of labels. -/
def ofLabels (labels : List Bytes) : Except CatalogError Catalog := empty.addAll labels

/-- The mask of an attribute set: a bit is set when its predicate holds. -/
def maskOf (c : Catalog) (attributes : AttributeSet) : Mask :=
  c.predicates.zipIdx.foldl
    (fun mask p => if p.1.holds attributes then mask ||| Mask.single p.2 else mask) 0

/-- The labels of the bits of a mask, in the order of the bits. -/
def describe (c : Catalog) (mask : Mask) : List Bytes :=
  (c.predicates.zipIdx.filter fun p => mask &&& Mask.single p.2 != 0).map (·.1.label)

/-- What a fingerprint is taken of: the labels, each with a separator behind it. -/
def fingerprintBytes (c : Catalog) : Bytes := c.labels.flatMap (· ++ [0x1f])

/-- Identifies the labels and their order, up to collisions of the hash. -/
def fingerprint (c : Catalog) : UInt64 := Fnv.hash c.fingerprintBytes

end Catalog
end DecisionEngine
