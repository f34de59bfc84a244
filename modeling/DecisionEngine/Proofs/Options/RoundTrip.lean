import DecisionEngine.Proofs.Wire.Complete
import DecisionEngine.Proofs.Wire.Prefixes
/-!
# Options on top of others

Options are an association, and reading one takes its entries one after another on top of what is
given.  So what holds of every entry holds of the association: an entry of a known key sets its
option and no other, an entry of any other key sets none, and an option whose key is missing stays
as it was given.

* `Options.entries` — the entries that options are written as.
* `Options.replacing` — options by whose keys others are replaced.
* `Options.gathers` — what one entry does.
* `Options.survives_unknown_keys` — what all entries do, among any others.
-/

namespace DecisionEngine
namespace Options

open Wire (Reader Complete)
open Wire.Reader (Exact Gathers)

/-! ## The entries -/

/-- The keys of the options. -/
def keys : List Bytes :=
  ["DeadlineMicros", "HotCacheTtlMillis", "FallbackCapacity", "FailSafeDefaults", "DefaultContext",
    "OverrideSecret", "OverrideMaxTtlMillis", "ExplainByDefault", "ReplicaId"].map utf8

/-- The keys of the options, each with the bytes of its value. -/
def entries (o : Options) : List (Bytes × Bytes) :=
  [(utf8 "DeadlineMicros", Wire.int o.deadlineMicros),
    (utf8 "HotCacheTtlMillis", Wire.int o.hotTtlMillis),
    (utf8 "FallbackCapacity", Wire.int o.fallbackCapacity.toInt64),
    (utf8 "FailSafeDefaults", Wire.bool o.failSafe),
    (utf8 "DefaultContext", Wire.attributes o.defaultAttributes),
    (utf8 "OverrideSecret", Wire.text o.overrideSecret),
    (utf8 "OverrideMaxTtlMillis", Wire.int o.overrideMaxTtlMillis),
    (utf8 "ExplainByDefault", Wire.bool o.explainByDefault),
    (utf8 "ReplicaId", Wire.text o.replicaId)]

theorem map_fst_entries (o : Options) : o.entries.map (·.1) = keys := rfl

theorem encode_eq (o : Options) : o.encode = Wire.header ++ Wire.association o.entries := by
  simp only [encode, entries, Wire.association, Wire.entry, List.flatMap_cons, List.flatMap_nil,
    List.append_nil, List.append_assoc, List.length_cons, List.length_nil, Nat.reduceAdd]

/-- An entry of a key that is no option's. -/
structure Unknown (e : Bytes × Bytes) : Prop where
  key : e.1 ∉ keys
  short : Reader.Short e.1
  complete : Complete e.2

/-- Options that can be written: no number is negative, and no length is too long. -/
structure Storable (o : Options) : Prop where
  deadline : 0 ≤ o.deadlineMicros
  hotTtl : 0 ≤ o.hotTtlMillis
  capacity : o.fallbackCapacity.toNat < 2 ^ 63
  attributes : o.defaultAttributes.Short
  secret : Reader.Short o.overrideSecret
  maxTtl : 0 ≤ o.overrideMaxTtlMillis
  replica : Reader.Short o.replicaId

/-! ## Options by whose keys others are replaced -/

/-- The options with positive zeros in the place of negative ones among the attributes. -/
def withoutNegativeZero (o : Options) : Options :=
  { o with defaultAttributes := o.defaultAttributes.withoutNegativeZero }

/-- The new one of two values if the key of the option is among some keys, and else the old one. -/
def taken {α : Type} (given : List Bytes) (key : String) (new old : α) : α :=
  if given.contains (utf8 key) then new else old

/-- The options whose keys are given, and the others as they are in `base`. -/
def replacing (o : Options) (given : List Bytes) (base : Options) : Options where
  deadlineMicros := taken given "DeadlineMicros" o.deadlineMicros base.deadlineMicros
  hotTtlMillis := taken given "HotCacheTtlMillis" o.hotTtlMillis base.hotTtlMillis
  fallbackCapacity := taken given "FallbackCapacity" o.fallbackCapacity base.fallbackCapacity
  failSafe := taken given "FailSafeDefaults" o.failSafe base.failSafe
  defaultAttributes := taken given "DefaultContext" o.defaultAttributes base.defaultAttributes
  overrideSecret := taken given "OverrideSecret" o.overrideSecret base.overrideSecret
  overrideMaxTtlMillis :=
    taken given "OverrideMaxTtlMillis" o.overrideMaxTtlMillis base.overrideMaxTtlMillis
  explainByDefault := taken given "ExplainByDefault" o.explainByDefault base.explainByDefault
  replicaId := taken given "ReplicaId" o.replicaId base.replicaId

theorem taken_cons {α : Type} (k : Bytes) (given : List Bytes) (key : String) (new old : α) :
    taken (k :: given) key new old = taken given key new (taken [k] key new old) := by
  unfold taken
  simp only [List.contains_iff_mem]
  by_cases hgiven : utf8 key ∈ given
  · rw [if_pos (List.mem_cons_of_mem _ hgiven), if_pos hgiven]
  · simp only [List.mem_cons, hgiven, or_false, if_false, List.not_mem_nil]

theorem replacing_nil (o base : Options) : o.replacing [] base = base := rfl

theorem replacing_cons (o : Options) (k : Bytes) (given : List Bytes) (base : Options) :
    o.replacing (k :: given) base = o.replacing given (o.replacing [k] base) := by
  simp only [replacing, ← taken_cons]

/-- Keys that are given one after another are all given. -/
theorem foldl_replacing (o : Options) (es : List (Bytes × Bytes)) (base : Options) :
    es.foldl (fun acc e => o.replacing [e.1] acc) base = o.replacing (es.map (·.1)) base := by
  induction es generalizing base with
  | nil => exact (replacing_nil o base).symm
  | cons e rest ih => rw [List.foldl_cons, ih, List.map_cons, ← replacing_cons]

/-- Only the keys of options count among those that are given. -/
theorem replacing_congr (o : Options) {given given' : List Bytes}
    (h : ∀ k ∈ keys, k ∈ given ↔ k ∈ given') (base : Options) :
    o.replacing given base = o.replacing given' base := by
  have htaken : ∀ key : String, utf8 key ∈ keys → ∀ {α : Type} (new old : α),
      taken given key new old = taken given' key new old := by
    intro key hkey α new old
    unfold taken
    simp only [List.contains_iff_mem, h (utf8 key) hkey]
  simp (disch := decide) only [replacing, htaken]

theorem replacing_unknown (o : Options) {k : Bytes} (h : k ∉ keys) (base : Options) :
    o.replacing [k] base = base := by
  refine (o.replacing_congr (fun k' hk' => ?_) base).trans (o.replacing_nil base)
  exact iff_of_false (fun hmem => h (List.mem_singleton.1 hmem ▸ hk')) List.not_mem_nil

theorem replacing_all (o : Options) {given : List Bytes} (h : keys ⊆ given) (base : Options) :
    o.replacing given base = o :=
  o.replacing_congr (fun _ hk => iff_of_true (h hk) hk) base

/-! ## One entry -/

theorem exact_nonNegative {key : Bytes} {n : Int64} (h : 0 ≤ n) :
    Exact (nonNegative key) (Wire.int n) n := by
  refine Exact.position fun p => (Reader.exact_int n).last ?_
  rw [if_neg (Int64.not_lt.2 h)]
  exact Reader.exact_pure n

theorem toInt64_nonneg {n : UInt64} (h : n.toNat < 2 ^ 63) : 0 ≤ n.toInt64 := by
  have hofNat : n.toInt64 = Int64.ofNat n.toNat := by
    rw [← UInt64.toInt64_ofNat', UInt64.ofNat_toNat]
  rw [Int64.le_iff_toInt_le, hofNat, Int64.toInt_ofNat_of_lt h]
  exact Int.natCast_nonneg _

theorem entry_eq_none {key : Bytes} (h : key ∉ keys) (acc : Options) : entry key acc = none := by
  simp only [keys, List.map_cons, List.map_nil, List.mem_cons, List.not_mem_nil, or_false,
    not_or] at h
  obtain ⟨h₁, h₂, h₃, h₄, h₅, h₆, h₇, h₈, h₉⟩ := h
  rw [entry, if_neg h₁, if_neg h₂, if_neg h₃, if_neg h₄, if_neg h₅, if_neg h₆, if_neg h₇,
    if_neg h₈, if_neg h₉]

/-- **What one entry does**: it sets the option of its key, and no other. -/
theorem gathers {o : Options} (h : o.Storable) {e : Bytes × Bytes}
    (he : e ∈ o.entries ∨ Unknown e) (acc : Options) :
    Gathers entry e acc (o.withoutNegativeZero.replacing [e.1] acc) := by
  rcases he with he | he
  · simp only [entries, List.mem_cons, List.not_mem_nil, or_false] at he
    rcases he with rfl | rfl | rfl | rfl | rfl | rfl | rfl | rfl | rfl
    · exact .known rfl ((exact_nonNegative h.deadline).map _)
    · exact .known rfl ((exact_nonNegative h.hotTtl).map _)
    · exact .known rfl ((exact_nonNegative (toInt64_nonneg h.capacity)).map _)
    · exact .known rfl ((Reader.exact_bool _).map _)
    · exact .known rfl ((Reader.exact_attributes h.attributes).map _)
    · exact .known rfl ((Reader.exact_text h.secret).map _)
    · exact .known rfl ((exact_nonNegative h.maxTtl).map _)
    · exact .known rfl ((Reader.exact_bool _).map _)
    · exact .known rfl ((Reader.exact_text h.replica).map _)
  · rw [replacing_unknown _ he.key]
    exact .unknown (entry_eq_none he.key acc) he.complete

theorem short_key {o : Options} {e : Bytes × Bytes} (he : e ∈ o.entries ∨ Unknown e) :
    Reader.Short e.1 := by
  rcases he with he | he
  · have hkey : e.1 ∈ keys := map_fst_entries o ▸ List.mem_map_of_mem he
    exact (by decide : ∀ k ∈ keys, Reader.Short k) e.1 hkey
  · exact he.short

/-! ## All entries -/

/-- Entries are read on top of other options; what their keys are not among stays. -/
theorem decode_association {o : Options} (h : o.Storable) (base : Options)
    {es : List (Bytes × Bytes)} (hcount : es.length < 2 ^ 63)
    (hes : ∀ e ∈ es, e ∈ o.entries ∨ Unknown e) :
    decode base (Wire.header ++ Wire.association es) =
      .ok (o.withoutNegativeZero.replacing (es.map (·.1)) base) := by
  have hheader : Exact Reader.header Wire.header () := fun _ _ => rfl
  have hentries := Reader.exact_associationWith hcount (fun e he => short_key (hes e he))
    (fun e he acc => gathers h (hes e he) acc) base
  have hread : Exact (readEntries base) _ _ := hheader.bind hentries
  have hwhole := hread 0 []
  rw [List.append_nil, foldl_replacing] at hwhole
  rw [decode_eq_whole, Reader.run_eq_ok_iff]
  exact ⟨_, Reader.whole_eq_ok_iff.2 ⟨hwhole, rfl⟩⟩

/-- **Options survive being written, among entries that nobody knows.**  Options that can be
written are an association of their entries.  Of any such entries, in any order, with entries of
other keys and of any complete values anywhere among them, the options of the keys that are there
come back as they were written, but for negative zeros among the attributes, and the others are
those of the base; with all keys there, the base is of no account. -/
theorem survives_unknown_keys {o : Options} (h : o.Storable) (base : Options)
    {es : List (Bytes × Bytes)} (hcount : es.length < 2 ^ 63)
    (hes : ∀ e ∈ es, e ∈ o.entries ∨ Unknown e) :
    o.encode = Wire.header ++ Wire.association o.entries ∧
      decode base (Wire.header ++ Wire.association es) =
        .ok (o.withoutNegativeZero.replacing (es.map (·.1)) base) ∧
      (o.entries ⊆ es →
        decode base (Wire.header ++ Wire.association es) = .ok o.withoutNegativeZero) := by
  have hdecode := decode_association h base hcount hes
  refine ⟨encode_eq o, hdecode, fun hall => ?_⟩
  have hkeys : keys ⊆ es.map (·.1) := map_fst_entries o ▸ List.map_subset _ hall
  rw [hdecode, replacing_all _ hkeys]

/-- Options with numbers at their bounds, and with negative zero among the attributes. -/
def sample : Options where
  deadlineMicros := 0
  hotTtlMillis := 128
  fallbackCapacity := 0x7fffffffffffffff
  failSafe := false
  defaultAttributes := .ofList [(utf8 "risk", .real .negativeZero), (utf8 "tier", .null)]
  overrideSecret := utf8 "secret"
  overrideMaxTtlMillis := 9223372036854775807
  explainByDefault := true
  replicaId := []

/-- A byte string that begins as a key does, and an association with a known key. -/
def sampleArguments : List Bytes :=
  [Wire.binary [45, 83], Wire.association [(utf8 "ReplicaId", Wire.value (.int (-129)))]]

/-- The entries of the sample but for the secret, with two others among them. -/
def sampleEntries : List (Bytes × Bytes) :=
  (utf8 "Region", Wire.functionHead (utf8 "Region") sampleArguments.length ++
      sampleArguments.flatten) ::
    sample.entries.take 5 ++ (utf8 "Ratio", Wire.value .null) :: sample.entries.drop 6

theorem complete_of_mem_sampleArguments : ∀ a ∈ sampleArguments, Complete a := by
  intro a ha
  rcases List.mem_pair.1 ha with rfl | rfl
  · exact .binary (by decide)
  · refine .association (by decide) (by decide) fun e he => ?_
    cases List.mem_singleton.1 he
    have hshort : (Value.int (-129)).Short := trivial
    exact Wire.complete_value hshort

theorem survives_unknown_keys_sample :
    sample.Storable ∧ sampleEntries.length < 2 ^ 63 ∧
      (∀ e ∈ sampleEntries, e ∈ sample.entries ∨ Unknown e) ∧
      decode standard (Wire.header ++ Wire.association sampleEntries) =
        .ok { sample with
          defaultAttributes := .ofList [(utf8 "risk", .real .zero), (utf8 "tier", .null)]
          overrideSecret := [] } := by
  have hstorable : sample.Storable :=
    ⟨by decide, by decide, by decide, by decide, by decide, by decide, by decide⟩
  have hes : ∀ e ∈ sampleEntries, e ∈ sample.entries ∨ Unknown e := by
    intro e he
    rcases List.mem_append.1 he with he | he
    · rcases List.mem_cons.1 he with rfl | he
      · have hrecord := Complete.function (by decide : Reader.Short (utf8 "Region")) (by decide)
          complete_of_mem_sampleArguments
        exact .inr ⟨by decide, by decide, hrecord⟩
      · exact .inl (List.mem_of_mem_take he)
    · rcases List.mem_cons.1 he with rfl | he
      · have hshort : Value.null.Short := trivial
        exact .inr ⟨by decide, by decide, Wire.complete_value hshort⟩
      · exact .inl (List.mem_of_mem_drop he)
  have hcount : sampleEntries.length < 2 ^ 63 := by decide
  obtain ⟨-, hdecode, -⟩ := survives_unknown_keys hstorable standard hcount hes
  exact ⟨hstorable, hcount, hes, hdecode⟩

end Options
end DecisionEngine
