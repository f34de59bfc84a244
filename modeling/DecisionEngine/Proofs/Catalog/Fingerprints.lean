import DecisionEngine.Engine.Answer
import DecisionEngine.Proofs.Catalog.Labels
/-!
# What a fingerprint says about a catalog

A fingerprint is the hash of the labels, each with a separator behind it.  Labels are free byte
strings, and the separator may occur in one, so the stream gives back the words between the
separators and not the labels.

* `Catalog.words` — the labels, cut at the separators.
* `Catalog.fingerprintBytes_eq_iff` — equal streams are equal words.
* `Catalog.exists_same_stream` — a catalog of two labels or more shares its stream.
* `Snapshot.DerivedWith` — the mask of a snapshot is that of a catalog.
* `Catalog.fingerprint_determines` — without separators, only a collision of the hash misleads.
* `Catalog.foreign_mask_trusted` — with one, the mask of another catalog is trusted.
-/

namespace DecisionEngine
namespace Catalog

/-! ## Streams -/

/-- The byte behind every label of a stream. -/
def separator : UInt8 := 0x1f

/-- The stream of a list of labels. -/
def stream (labels : List Bytes) : Bytes := labels.flatMap (· ++ [separator])

theorem fingerprintBytes_eq_stream (c : Catalog) : c.fingerprintBytes = stream c.labels := rfl

theorem stream_cons (label : Bytes) (rest : List Bytes) :
    stream (label :: rest) = label ++ separator :: stream rest := by
  simp [stream]

/-- The words of a catalog are its labels, cut at the separators. -/
def words (c : Catalog) : List Bytes := c.labels.flatMap (List.splitOn separator)

/-- Cutting a stream gives the words of its labels, and the nothing behind the last separator. -/
theorem splitOn_stream (labels : List Bytes) :
    List.splitOn separator (stream labels) =
      labels.flatMap (List.splitOn separator) ++ [[]] := by
  induction labels with
  | nil => exact List.splitOn_nil separator
  | cons label rest ih =>
    rw [stream_cons, List.splitOn_append_cons_self, ih, List.flatMap_cons, List.append_assoc]

/-- **Two catalogs have the same stream** exactly if they have the same words. -/
theorem fingerprintBytes_eq_iff {c d : Catalog} :
    c.fingerprintBytes = d.fingerprintBytes ↔ c.words = d.words := by
  rw [fingerprintBytes_eq_stream, fingerprintBytes_eq_stream]
  constructor
  · intro h
    have hcut := congrArg (List.splitOn separator) h
    rw [splitOn_stream, splitOn_stream] at hcut
    exact List.append_cancel_right hcut
  · intro h
    have hjoin : ∀ bytes : Bytes,
        [separator].intercalate (bytes.splitOn separator) = bytes := fun bytes =>
      List.intercalate_splitOn separator
    rw [← hjoin (stream c.labels), ← hjoin (stream d.labels), splitOn_stream, splitOn_stream]
    exact congrArg (fun ws => [separator].intercalate (ws ++ [[]])) h

/-! ## Catalogs that share a stream -/

/-- A label with a key keeps it when more text is put behind the label. -/
theorem keyOf_append_ne_nil {label : Bytes} (h : Predicate.keyOf label ≠ []) (text : Bytes) :
    Predicate.keyOf (label ++ text) ≠ [] := by
  cases label with
  | nil => exact absurd rfl h
  | cons b rest =>
    rw [Predicate.keyOf, List.takeWhile_cons] at h
    rw [Predicate.keyOf, List.cons_append, List.takeWhile_cons]
    split
    · exact List.cons_ne_nil _ _
    · rename_i hb
      rw [if_neg hb] at h
      exact absurd rfl h

/-- The labels behind a first one can be written into it. -/
theorem stream_joined (label : Bytes) (rest : List Bytes) :
    stream [label ++ rest.flatMap (separator :: ·)] = stream (label :: rest) := by
  induction rest generalizing label with
  | nil => rw [List.flatMap_nil, List.append_nil]
  | cons next rest ih =>
    have hjoin : label ++ (next :: rest).flatMap (separator :: ·) =
        (label ++ separator :: next) ++ rest.flatMap (separator :: ·) := by
      simp
    rw [hjoin, ih]
    simp [stream_cons]

/-- **A catalog of two labels or more** shares its stream with a catalog of one label. -/
theorem exists_same_stream {c : Catalog} (h : 2 ≤ c.size) :
    ∃ d : Catalog, d.size = 1 ∧ d.fingerprintBytes = c.fingerprintBytes := by
  have hlength := c.length_labels
  cases hlabels : c.labels with
  | nil =>
    rw [hlabels, List.length_nil] at hlength
    omega
  | cons label rest =>
    have hkey := keyOf_ne_nil_of_mem (hlabels ▸ List.mem_cons_self : label ∈ c.labels)
    have hjoined := keyOf_append_ne_nil hkey (rest.flatMap (separator :: ·))
    cases hread : Predicate.ofLabel? (label ++ rest.flatMap (separator :: ·)) with
    | none => exact absurd (Predicate.ofLabel?_eq_none_iff.1 hread) hjoined
    | some p =>
      refine ⟨.ofPredicates [p] (List.nodup_singleton p) (Nat.succ_le_succ (Nat.zero_le 63)), rfl, ?_⟩
      rw [fingerprintBytes_eq_stream, fingerprintBytes_eq_stream, hlabels, ← stream_joined]
      exact congrArg (fun l => stream [l]) (Predicate.label_of_ofLabel? hread)

/-! ## Labels without separators -/

/-- No label has the separator in it. -/
def Unseparated (c : Catalog) : Prop := ∀ label ∈ c.labels, separator ∉ label

instance (c : Catalog) : Decidable c.Unseparated :=
  inferInstanceAs (Decidable (∀ label ∈ c.labels, separator ∉ label))

theorem words_of_unseparated {c : Catalog} (h : c.Unseparated) : c.words = c.labels := by
  have hwhole : ∀ label ∈ c.labels, List.splitOn separator label = [label] := fun label hl =>
    List.splitOn_eq_singleton (h label hl)
  rw [words, List.flatMap_congr hwhole]
  exact List.flatMap_singleton' c.labels

theorem labels_eq_of_unseparated {c d : Catalog} (hc : c.Unseparated) (hd : d.Unseparated)
    (h : c.fingerprintBytes = d.fingerprintBytes) : c.labels = d.labels := by
  have hwords := fingerprintBytes_eq_iff.1 h
  rwa [words_of_unseparated hc, words_of_unseparated hd] at hwords

end Catalog

/-! ## Masks that are trusted -/

namespace Snapshot

/-- A snapshot has the mask of its attributes in a catalog, and says so. -/
structure DerivedWith (s : Snapshot) (c : Catalog) : Prop where
  mask : s.mask = c.maskOf s.attributes
  fingerprint : s.fingerprint = c.fingerprint

theorem derivedWith_make (tenant entity : Bytes) (attributes : AttributeSet) (c : Catalog)
    (at_ : Int64) (id : Bytes) : (make tenant entity attributes c at_ id).DerivedWith c :=
  ⟨rfl, rfl⟩

end Snapshot

namespace Pinned

/-- The mask that counts is that of the attributes that count, in the catalog of the plan or in
another one that has the same fingerprint. -/
theorem mask_eq_or (pin : Pinned) {s : Snapshot} {b : Blueprint} {c : Catalog}
    (h : s.DerivedWith c) :
    pin.mask s b = b.catalog.maskOf (pin.attributes s) ∨
      (pin.mask s b = c.maskOf (pin.attributes s) ∧ c.fingerprint = b.catalog.fingerprint) := by
  unfold mask
  split
  · exact .inl rfl
  · rename_i htrusted
    simp only [Bool.or_eq_true, Bool.not_eq_true', not_or, Bool.not_eq_true,
      Bool.not_eq_false] at htrusted
    obtain ⟨⟨hoverrides, -⟩, hfits⟩ := htrusted
    have hplain : pin.attributes s = s.attributes := by
      unfold attributes
      rw [Option.isSome_eq_false_iff, Option.isNone_iff_eq_none] at hoverrides
      rw [hoverrides]
    refine .inr ⟨hplain ▸ h.mask, ?_⟩
    rw [← h.fingerprint]
    exact eq_of_beq hfits

end Pinned

namespace Catalog

/-- **A fingerprint determines the catalog** if no label has the separator in it: equal streams
have equal labels, and a mask that is trusted is the one that would have been derived, unless the
streams collide. -/
theorem fingerprint_determines {c d : Catalog} (hc : c.Unseparated) (hd : d.Unseparated) :
    (c.fingerprintBytes = d.fingerprintBytes → c.labels = d.labels) ∧
      ∀ (s : Snapshot) (b : Blueprint) (pin : Pinned), s.DerivedWith c → b.catalog = d →
        pin.mask s b = d.maskOf (pin.attributes s) ∨
          (c.fingerprintBytes ≠ d.fingerprintBytes ∧
            Fnv.hash c.fingerprintBytes = Fnv.hash d.fingerprintBytes) := by
  refine ⟨labels_eq_of_unseparated hc hd, ?_⟩
  rintro s b pin hs rfl
  rcases pin.mask_eq_or (b := b) hs with h | ⟨hmask, hhash⟩
  · exact .inl h
  · by_cases hstream : c.fingerprintBytes = b.catalog.fingerprintBytes
    · have hcd : c = b.catalog := labels_injective (labels_eq_of_unseparated hc hd hstream)
      rw [← hcd]
      exact .inl hmask
    · exact .inr ⟨hstream, hhash⟩

/-- A catalog with the labels `a` and `b`. -/
def pairSample : Catalog :=
  .ofPredicates [⟨[0x61], none, by decide, by decide⟩, ⟨[0x62], none, by decide, by decide⟩]
    (by decide) (by decide)

/-- A snapshot of an entity with the attribute `b`. -/
def pairSnapshot : Snapshot :=
  .make [0x74] [0x65] (.ofList [([0x62], .bool true)]) pairSample 0 []

/-- A blueprint with a catalog. -/
def blueprintWith (c : Catalog) : Blueprint :=
  ⟨.blank, [0x74], [0x64], c, .empty, [], [], [], []⟩

theorem fingerprint_determines_sample :
    pairSample.Unseparated ∧ pairSnapshot.DerivedWith pairSample ∧
      (Pinned.plain.mask pairSnapshot (blueprintWith pairSample) =
          pairSample.maskOf (Pinned.plain.attributes pairSnapshot) ∨
        (pairSample.fingerprintBytes ≠ pairSample.fingerprintBytes ∧
          Fnv.hash pairSample.fingerprintBytes = Fnv.hash pairSample.fingerprintBytes)) := by
  have hplain : pairSample.Unseparated := by decide
  have hmade : pairSnapshot.DerivedWith pairSample := Snapshot.derivedWith_make ..
  exact ⟨hplain, hmade, (fingerprint_determines hplain hplain).2 _ _ _ hmade rfl⟩

/-- A catalog with one label, in which the separator stands between `a` and `b`. -/
def joinedSample : Catalog :=
  .ofPredicates [⟨[0x61, 0x1f, 0x62], none, by decide, by decide⟩] (by decide) (by decide)

/-- A snapshot of an entity with the attribute of that label. -/
def joinedSnapshot : Snapshot :=
  .make [0x74] [0x65] (.ofList [([0x61, 0x1f, 0x62], .bool true)]) joinedSample 0 []

/-- Two catalogs with different labels have the same stream, and the mask that was derived with
one is trusted by a blueprint with the other: its first bit says `a`, which does not hold. -/
theorem foreign_mask_trusted :
    ofLabels [[0x61, 0x1f, 0x62]] = .ok joinedSample ∧
      ofLabels [[0x61], [0x62]] = .ok pairSample ∧
      joinedSample.fingerprintBytes = pairSample.fingerprintBytes ∧
      joinedSample.labels ≠ pairSample.labels ∧
      joinedSnapshot.DerivedWith joinedSample ∧
      (Pinned.plain.mask joinedSnapshot (blueprintWith pairSample)).has 0 = true ∧
      (pairSample.maskOf (Pinned.plain.attributes joinedSnapshot)).has 0 = false := by
  refine ⟨by rfl, by rfl, by rfl, by decide, Snapshot.derivedWith_make .., ?_, ?_⟩ <;> decide

end Catalog
end DecisionEngine
