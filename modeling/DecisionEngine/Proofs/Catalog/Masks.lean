import DecisionEngine.Catalog
import Mathlib.Data.List.TakeWhile
import Mathlib.Data.Nat.Bitwise
/-!
# What a mask says

A mask covers another one if it has all of its bits.  The mask of an attribute set has the bits of
the predicates that hold, so a mask of some bits is covered exactly if their predicates hold.

* `Mask.covers_iff`, `Mask.has_single`, `Mask.has_union` — masks by their bits.
* `Catalog.bitOf?_eq` — the index finds the first predicate with a label.
* `Catalog.has_maskOf`, `Catalog.describe_maskOf` — the bits of an attribute set and their labels.
* `Catalog.covers_union_iff` — when an attribute set has all of some bits.
-/

namespace DecisionEngine
namespace Mask

/-! ## Bits -/

@[simp] theorem has_and (a b : Mask) (i : Nat) : (a &&& b).has i = (a.has i && b.has i) := by
  unfold has
  rw [UInt64.toNat_and, Nat.testBit_and]

/-- Masks with the same bits are the same. -/
theorem ext_has {a b : Mask} (h : ∀ i, a.has i = b.has i) : a = b :=
  UInt64.toNat_inj.1 (Nat.eq_of_testBit_eq h)

theorem covers_iff {m required : Mask} :
    m.covers required = true ↔ ∀ i, required.has i = true → m.has i = true := by
  unfold covers
  rw [beq_iff_eq]
  constructor
  · intro h i hi
    have hbit := congrArg (·.has i) h
    rwa [has_and, hi, Bool.and_true] at hbit
  · intro h
    refine ext_has fun i => ?_
    rw [has_and]
    cases hi : required.has i with
    | false => rw [Bool.and_false]
    | true => rw [h i hi, Bool.and_true]

@[simp] theorem has_zero (i : Nat) : (0 : Mask).has i = false := Nat.zero_testBit i

@[simp] theorem has_or (a b : Mask) (i : Nat) : (a ||| b).has i = (a.has i || b.has i) := by
  unfold has
  rw [UInt64.toNat_or, Nat.testBit_or]

theorem has_shiftLeft {m : Mask} {n i : Nat} (hn : n < 64) :
    (m <<< UInt64.ofNat n).has i = (decide (i < 64) && decide (n ≤ i) && m.has (i - n)) := by
  unfold has
  have hsize : n < UInt64.size := by
    rw [show UInt64.size = 2 ^ 64 from rfl]
    omega
  rw [UInt64.toNat_shiftLeft, UInt64.toNat_ofNat_of_lt' hsize, Nat.mod_eq_of_lt hn,
    Nat.testBit_mod_two_pow, Nat.testBit_shiftLeft, Bool.and_assoc]

theorem has_one (i : Nat) : (1 : Mask).has i = decide (i = 0) := by
  unfold has
  rw [UInt64.toNat_one, Bool.eq_iff_iff, Nat.testBit_one_eq_true_iff_self_eq_zero,
    decide_eq_true_iff]

theorem has_single {b i : Nat} (hb : b < 64) : (single b).has i = decide (i = b) := by
  unfold single
  rw [has_shiftLeft hb, has_one]
  by_cases h : i = b
  · simp [h, hb]
  · simp [h]
    omega

/-- A bit is set if the mask that has it alone leaves something. -/
theorem and_single_bne_zero (m : Mask) {b : Nat} (hb : b < 64) :
    (m &&& single b != 0) = m.has b := by
  cases hm : m.has b with
  | true =>
    rw [bne_iff_ne]
    intro hzero
    have hbit := congrArg (·.has b) hzero
    simp [hm, has_single hb] at hbit
  | false =>
    have hzero : m &&& single b = 0 := ext_has fun i => by
      rw [has_and, has_zero, has_single hb]
      by_cases hi : i = b
      · simp [hi, hm]
      · simp [hi]
    rw [hzero]
    rfl

/-- Single bits put together have exactly those bits. -/
theorem has_union {bits : List Nat} (h : ∀ b ∈ bits, b < 64) (i : Nat) :
    (bits.foldl (fun m b => m ||| single b) 0).has i = true ↔ i ∈ bits := by
  suffices hfrom : ∀ m : Mask, (bits.foldl (fun m b => m ||| single b) m).has i = true ↔
      m.has i = true ∨ i ∈ bits by
    simpa using hfrom 0
  induction bits with
  | nil => simp
  | cons b bits ih =>
    intro m
    rw [List.foldl_cons, ih (fun c hc => h c (List.mem_cons_of_mem _ hc)), has_or,
      has_single (h b (List.mem_cons_self ..)), Bool.or_eq_true, decide_eq_true_iff,
      List.mem_cons, or_assoc]

end Mask

/-! ## Attribute sets -/

namespace Predicate

/-- The label of a predicate is read as that predicate. -/
theorem ofLabel?_label (p : Predicate) : ofLabel? p.label = some p := by
  have hkey : ∀ b ∈ p.key, (b != equalsSign) = true := fun b hb => by
    rw [bne_iff_ne]
    exact fun h => p.key_plain (h ▸ hb)
  have hsplit : keyOf p.label = p.key ∧ expectedOf p.label = p.expected := by
    unfold keyOf expectedOf label
    cases p.expected with
    | some text =>
      rw [List.takeWhile_append_of_pos hkey, List.dropWhile_append_of_pos hkey]
      simp
    | none =>
      rw [List.takeWhile_eq_self_iff.2 hkey, List.dropWhile_eq_nil_iff.2 hkey]
      exact ⟨rfl, rfl⟩
  unfold ofLabel?
  rw [dif_neg (by rw [hsplit.1]; exact p.key_nonempty)]
  rcases p with ⟨key, expected, hne, hplain⟩
  simp only at hsplit
  simp only [hsplit]

end Predicate

namespace Catalog

variable {c : Catalog}

theorem nodup (c : Catalog) : c.predicates.Nodup := c.agrees.nodup

theorem size_le (c : Catalog) : c.predicates.length ≤ maxCatalogSize := c.agrees.size_le

/-- The index finds the first predicate that has a label. -/
theorem bitOf?_eq (c : Catalog) (label : Bytes) :
    c.bitOf? label = c.predicates.findIdx? (·.label == label) := by
  have hsame : ((fun e : Bytes × Nat => decide (e.1 = label)) ∘
      fun p : Predicate × Nat => (p.1.label, p.2)) = fun p => p.1.label == label :=
    funext fun p => (beq_eq_decide ..).symm
  rw [Numbering.bitOf?, Keyed.find?, c.agrees.filed, Numbering.indexOf, List.find?_map,
    Option.map_map, hsame, List.findIdx?_eq_fst_find?_zipIdx]
  rfl

/-- The bit of a label belongs to the predicate that the label is read as. -/
theorem bitOf?_spec {label : Bytes} {i : Nat} (h : c.bitOf? label = some i) :
    i < 64 ∧ ∃ p, c.predicates[i]? = some p ∧ Predicate.ofLabel? label = some p := by
  rw [bitOf?_eq] at h
  obtain ⟨hlt, heq, -⟩ := List.findIdx?_eq_some_iff_getElem.1 h
  have hsize := c.size_le
  rw [maxCatalogSize] at hsize
  refine ⟨by omega, c.predicates[i], List.getElem?_eq_getElem hlt, ?_⟩
  rw [← eq_of_beq heq]
  exact Predicate.ofLabel?_label _

/-- The bits of an attribute set are the places of the predicates that hold. -/
theorem has_maskOf (c : Catalog) (attributes : AttributeSet) (i : Nat) :
    (c.maskOf attributes).has i = true ↔
      ∃ p, c.predicates[i]? = some p ∧ p.holds attributes = true := by
  have hsize := c.size_le
  have hunion : c.maskOf attributes =
      ((c.predicates.zipIdx.filter fun p => p.1.holds attributes).map (·.2)).foldl
        (fun mask bit => mask ||| Mask.single bit) 0 := by
    rw [List.foldl_map, List.foldl_filter]
    rfl
  rw [hunion, Mask.has_union]
  · simp only [List.mem_map, List.mem_filter, List.mem_zipIdx_iff_getElem?]
    exact ⟨fun ⟨p, ⟨hp, hholds⟩, hi⟩ => ⟨p.1, hi ▸ hp, hholds⟩,
      fun ⟨p, hp, hholds⟩ => ⟨(p, i), ⟨hp, hholds⟩, rfl⟩⟩
  · intro b hb
    obtain ⟨p, hp, rfl⟩ := List.mem_map.1 hb
    have hlt := List.snd_lt_of_mem_zipIdx (List.mem_filter.1 hp).1
    rw [maxCatalogSize] at hsize
    omega

theorem has_maskOf_iff {attributes : AttributeSet} {i : Nat} {p : Predicate}
    (h : c.predicates[i]? = some p) :
    (c.maskOf attributes).has i = true ↔ p.holds attributes = true := by
  rw [has_maskOf, h]
  exact ⟨fun ⟨q, hq, hholds⟩ => Option.some.inj hq ▸ hholds, fun hholds => ⟨p, rfl, hholds⟩⟩

/-- The labels of the bits of an attribute set are those of the predicates that hold. -/
theorem describe_maskOf (c : Catalog) (attributes : AttributeSet) :
    c.describe (c.maskOf attributes) =
      (c.predicates.filter (·.holds attributes)).map Predicate.label := by
  have hsize := c.size_le
  rw [maxCatalogSize] at hsize
  have hbits : ∀ p ∈ c.predicates.zipIdx,
      (c.maskOf attributes &&& Mask.single p.2 != 0) = p.1.holds attributes := by
    intro p hp
    have hlt := List.snd_lt_of_mem_zipIdx hp
    rw [Mask.and_single_bne_zero _ (by omega), Bool.eq_iff_iff]
    exact has_maskOf_iff (List.mem_zipIdx_iff_getElem?.1 hp)
  unfold describe
  rw [List.filter_congr hbits]
  conv_rhs => rw [← List.zipIdx_map_fst 0 c.predicates, List.filter_map, List.map_map]
  rfl

/-- An attribute set has the bits of some labels exactly if the predicates of the labels hold. -/
theorem covers_union_iff {attributes : AttributeSet} {labels : List Bytes}
    {bit? : Bytes → Option Nat} (hbit : ∀ l i, bit? l = some i → c.bitOf? l = some i) :
    (c.maskOf attributes).covers
        ((labels.filterMap bit?).foldl (fun m b => m ||| Mask.single b) 0) = true ↔
      ∀ l ∈ labels, (bit? l).isSome →
        ∃ p, Predicate.ofLabel? l = some p ∧ p.holds attributes = true := by
  have hbits : ∀ b ∈ labels.filterMap bit?, b < 64 := fun b hb => by
    obtain ⟨l, -, hl⟩ := List.mem_filterMap.1 hb
    exact (bitOf?_spec (hbit l b hl)).1
  rw [Mask.covers_iff]
  constructor
  · intro h l hl hsome
    obtain ⟨i, hi⟩ := Option.isSome_iff_exists.1 hsome
    obtain ⟨-, p, hp, hlabel⟩ := bitOf?_spec (hbit l i hi)
    have hhas := h i ((Mask.has_union hbits i).2 (List.mem_filterMap.2 ⟨l, hl, hi⟩))
    exact ⟨p, hlabel, (has_maskOf_iff hp).1 hhas⟩
  · intro h i hi
    obtain ⟨l, hl, hli⟩ := List.mem_filterMap.1 ((Mask.has_union hbits i).1 hi)
    obtain ⟨-, p, hp, hlabel⟩ := bitOf?_spec (hbit l i hli)
    obtain ⟨q, hq, hholds⟩ := h l hl (Option.isSome_iff_exists.2 ⟨i, hli⟩)
    rw [hlabel] at hq
    cases hq
    exact (has_maskOf_iff hp).2 hholds

end Catalog
end DecisionEngine
