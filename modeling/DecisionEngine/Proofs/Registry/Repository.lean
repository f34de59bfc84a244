import DecisionEngine.Proofs.Registry.Slots
import DecisionEngine.Proofs.Sorting
import Mathlib.Data.List.Dedup
import Mathlib.Data.List.Induction
/-!
# The repository of blueprints

A registry keeps each content once. It looks a new blueprint up in two ways, by the hash of its
content and by its id, and where two contents share a hash only the first one is found by it. This
does not matter as long as the id of a blueprint is determined by its content: a history of stores
then keeps one blueprint for each content that was ever accepted.

* `Registry.events` — what the calls of a history bring about, one after another.
* `Registry.store_spec` — the three things that a store can come to.
* `Registry.mem_stored_iff` — what is stored is what the stores of the history returned.
* `Registry.remembers_contents` — what is stored, found, listed and refused after any history.
-/

namespace DecisionEngine

/-! ## The order of ids -/

namespace BlueprintId

theorem before_iff (a b : BlueprintId) :
    a.before b = true ↔ a.graph < b.graph ∨ a.graph = b.graph ∧
      (a.version < b.version ∨ a.version = b.version ∧ a.contentHash < b.contentHash) := by
  simp [before]

/-- Ids are ordered by graph, version and hash. -/
theorem strictOrder_before : StrictOrder before := by
  refine ⟨fun a => ?_, fun a b c hab hbc => ?_, fun a b hne => ?_⟩
  · rw [Bool.eq_false_iff, ne_eq, before_iff]
    grind
  · rw [before_iff] at *
    grind
  · cases a
    cases b
    rw [before_iff, before_iff]
    grind

end BlueprintId

/-- The id that a content has, if it names its graph and version by `name`. -/
def BlueprintId.ofContent (name : Bytes → Bytes × UInt64) (content : Bytes) : BlueprintId :=
  ⟨(name content).1, (name content).2, Fnv.hash content⟩

/-- The id of the blueprint is determined by its content. -/
def Blueprint.NamedBy (name : Bytes → Bytes × UInt64) (b : Blueprint) : Prop :=
  b.id = .ofContent name b.encoded

namespace Registry

/-! ## Histories -/

/-- What the calls of a history bring about, in the order of the calls; `event?` says what a call
brings about in the registry that it finds. -/
def events {ε : Type} (event? : Registry → Change → Option ε) (r : Registry) :
    List Change → List ε
  | [] => []
  | c :: rest => (event? r c).toList ++ events event? (r.after c) rest

/-- The last call of a history finds what the earlier ones left. -/
theorem events_concat {ε : Type} (event? : Registry → Change → Option ε) (r : Registry)
    (changes : List Change) (c : Change) :
    r.events event? (changes ++ [c]) =
      r.events event? changes ++ (event? (r.afterAll changes) c).toList := by
  induction changes generalizing r with
  | nil => exact List.append_nil _
  | cons first rest ih =>
    rw [List.cons_append, events, ih, events, List.append_assoc]
    rfl

theorem afterAll_concat (r : Registry) (changes : List Change) (c : Change) :
    r.afterAll (changes ++ [c]) = (r.afterAll changes).after c := by
  unfold afterAll
  rw [List.foldl_append]
  rfl

/-- A store that succeeded: the blueprint that was given and the stored one that was returned. -/
structure Receipt where
  given : Blueprint
  kept : Blueprint

/-- The receipt of a call; only a store that succeeds has one. -/
def receipt? (r : Registry) : Change → Option Receipt
  | .store b => match r.store b with
    | .ok s => some ⟨b, s.blueprint⟩
    | .error _ => none
  | .activate _ => none
  | .deactivate _ _ => none

/-- The receipts of a history. -/
def receipts (r : Registry) (changes : List Change) : List Receipt := r.events receipt? changes

/-- The receipt of a call is for the blueprint that it was given. -/
theorem given_of_receipt? {r : Registry} {c : Change} {receipt : Receipt}
    (h : receipt ∈ r.receipt? c) : c = .store receipt.given := by
  unfold receipt? at h
  split at h
  · split at h
    · cases h
      rfl
    · cases h
  · cases h
  · cases h

/-! ## What a store comes to -/

/-- Every stored blueprint is named by its content, and no two have one id. -/
structure Named (name : Bytes → Bytes × UInt64) (r : Registry) : Prop where
  named : ∀ b ∈ r.stored, b.NamedBy name
  distinct : (r.stored.map (·.id)).Nodup

variable {name : Bytes → Bytes × UInt64} {r : Registry}

/-- A stored blueprint is the one that is found by its id. -/
theorem Named.find?_eq (h : r.Named name) {b : Blueprint} (hb : b ∈ r.stored) :
    r.find? b.id = some b := by
  unfold find?
  cases hf : r.stored.find? (·.id == b.id) with
  | none => exact absurd (List.find?_eq_none.1 hf b hb) (by simp)
  | some known =>
    have hid : known.id = b.id := by simpa using List.find?_some hf
    rw [List.inj_on_of_nodup_map h.distinct (List.mem_of_find?_eq_some hf) hb hid]

theorem Named.ids_eq (h : r.Named name) :
    r.stored.map (·.id) = (r.stored.map (·.encoded)).map (.ofContent name) := by
  rw [List.map_map]
  exact List.map_congr_left h.named

/-- Equal contents are stored once. -/
theorem Named.nodup_contents (h : r.Named name) : (r.stored.map (·.encoded)).Nodup :=
  List.Nodup.of_map _ (h.ids_eq ▸ h.distinct)

theorem mem_of_find? {id : BlueprintId} {b : Blueprint} (h : r.find? id = some b) :
    b ∈ r.stored := List.mem_of_find?_eq_some h

theorem mem_of_firstWithHash? {hash : UInt64} {b : Blueprint}
    (h : r.firstWithHash? hash = some b) : b ∈ r.stored := List.mem_of_find?_eq_some h

/-- What a store can come to: a blueprint of the content is known and returned; the content is new
and the blueprint appended; or the id stands for another content. -/
inductive StoreOutcome (r : Registry) (b : Blueprint) : Except StoreError Stored → Prop
  | known (first : Blueprint) : first ∈ r.stored → first.encoded = b.encoded →
    StoreOutcome r b (.ok ⟨first, r, []⟩)
  | fresh (warnings : List Warning) : r.find? b.id = none →
    StoreOutcome r b (.ok ⟨b, r.append b, warnings⟩)
  | refused (other : Blueprint) : r.find? b.id = some other → other.encoded ≠ b.encoded →
    StoreOutcome r b (.error (.otherContent b.id))

theorem storeById_spec (r : Registry) (b : Blueprint) (first : Option Blueprint) :
    r.StoreOutcome b (r.storeById b first) := by
  unfold storeById
  cases hf : r.find? b.id with
  | none => exact .fresh _ hf
  | some other =>
    dsimp only
    split
    case isTrue hsame => exact .known other (mem_of_find? hf) hsame
    case isFalse hother => exact .refused other hf hother

theorem store_spec (r : Registry) (b : Blueprint) : r.StoreOutcome b (r.store b) := by
  unfold store
  cases hf : r.firstWithHash? b.id.contentHash with
  | none => exact r.storeById_spec b none
  | some first =>
    dsimp only
    split
    case isTrue hsame => exact .known first (mem_of_firstWithHash? hf) hsame
    case isFalse => exact r.storeById_spec b (some first)

/-- The blueprint that a store returns is stored and has the content that was given. -/
theorem kept_of_store {b : Blueprint} {s : Stored} (h : r.store b = .ok s) :
    s.blueprint ∈ s.registry.stored ∧ s.blueprint.encoded = b.encoded := by
  have hspec := r.store_spec b
  rw [h] at hspec
  cases hspec with
  | known first hmem hsame => exact ⟨hmem, hsame⟩
  | fresh _ _ => exact ⟨List.mem_append_right _ (List.mem_singleton_self b), rfl⟩

/-- A store fails exactly when its id stands for another content. -/
theorem Named.store_eq_error_iff (h : r.Named name) {b : Blueprint} (hb : b.NamedBy name)
    (e : StoreError) :
    r.store b = .error e ↔ e = .otherContent b.id ∧
      ∃ other, r.find? b.id = some other ∧ other.encoded ≠ b.encoded := by
  have hspec := r.store_spec b
  generalize r.store b = outcome at hspec ⊢
  cases hspec with
  | known first hmem hsame =>
    -- The known blueprint has the id too, so nothing else is found by it.
    have hid : first.id = b.id := by rw [h.named first hmem, hb, hsame]
    simp [← hid, h.find?_eq hmem, hsame]
  | fresh _ hf => simp [hf]
  | refused other hf hother =>
    simp only [Except.error.injEq, hf, Option.some.injEq, exists_eq_left', ne_eq, hother,
      not_false_eq_true, and_true]
    exact eq_comm

/-! ## One call -/

/-- Only a store changes what is stored. -/
theorem stored_after (r : Registry) {c : Change} (hc : ∀ b, c ≠ .store b) :
    (r.after c).stored = r.stored := by
  have hchange := r.changed_after c
  generalize r.after c = r' at hchange ⊢
  cases hchange with
  | nothing => rfl
  | stored b _ => exact absurd rfl (hc b)
  | activated b _ => rfl
  | deactivated tenant type => rfl

/-- A call adds the blueprint that it has a receipt for, unless that is stored already. -/
theorem mem_stored_after (r : Registry) (c : Change) (b : Blueprint) :
    b ∈ (r.after c).stored ↔ b ∈ r.stored ∨ ∃ receipt ∈ r.receipt? c, receipt.kept = b := by
  cases c with
  | store given =>
    have hspec := r.store_spec given
    unfold after receipt?
    dsimp only
    generalize r.store given = outcome at hspec ⊢
    cases hspec with
    | known first hmem _ =>
      simp only [Option.mem_some_iff, exists_eq_left', iff_self_or]
      rintro rfl
      exact hmem
    | fresh warnings _ => simp [append, eq_comm]
    | refused other _ _ => simp
  | activate id =>
    rw [stored_after r (by simp)]
    simp [receipt?]
  | deactivate tenant type =>
    rw [stored_after r (by simp)]
    simp [receipt?]

/-- A receipt is for one content. -/
theorem content_of_receipt? {c : Change} {receipt : Receipt} (h : receipt ∈ r.receipt? c) :
    receipt.kept.encoded = receipt.given.encoded := by
  unfold receipt? at h
  split at h
  · split at h
    case h_1 s hs =>
      cases h
      exact (kept_of_store hs).2
    case h_2 => cases h
  · cases h
  · cases h

/-- Appending a blueprint whose id is not known keeps the ids apart. -/
theorem Named.append (h : r.Named name) {b : Blueprint} (hb : b.NamedBy name)
    (hnew : r.find? b.id = none) : (r.append b).Named name := by
  refine ⟨?_, ?_⟩
  · intro c hc
    rcases List.mem_append.1 hc with hc | hc
    · exact h.named c hc
    · rw [List.mem_singleton.1 hc]
      exact hb
  · have hnotmem : b.id ∉ r.stored.map (·.id) := by
      intro hmem
      obtain ⟨c, hc, hid⟩ := List.mem_map.1 hmem
      exact List.find?_eq_none.1 hnew c hc (by simp [hid])
    simp only [Registry.append, List.map_append, List.map_cons, List.map_nil]
    exact List.nodup_append.2 ⟨h.distinct, by simp, by
      rintro id hid _ hb rfl
      exact hnotmem (List.mem_singleton.1 hb ▸ hid)⟩

/-- Storing blueprints that are named by their contents keeps the registry so. -/
theorem Named.after (h : r.Named name) {c : Change} (hc : ∀ b, c = .store b → b.NamedBy name) :
    (r.after c).Named name := by
  have hchange := r.changed_after c
  generalize r.after c = r' at hchange ⊢
  cases hchange with
  | nothing => exact h
  | stored b hnew => exact h.append (hc b rfl) hnew
  | activated b _ => exact ⟨h.named, h.distinct⟩
  | deactivated tenant type => exact ⟨h.named, h.distinct⟩

/-! ## A history -/

theorem named_empty (name : Bytes → Bytes × UInt64) : Named name empty :=
  ⟨fun _ h => absurd h List.not_mem_nil, List.nodup_nil⟩

theorem Named.afterAll (h : r.Named name) {changes : List Change}
    (hchanges : ∀ b, .store b ∈ changes → b.NamedBy name) : (r.afterAll changes).Named name := by
  induction changes generalizing r with
  | nil => exact h
  | cons c rest ih =>
    refine ih (h.after ?_) fun b hb => hchanges b (List.mem_cons_of_mem c hb)
    rintro b rfl
    exact hchanges b List.mem_cons_self

/-- What brings about an event is one of the calls of the history. -/
theorem mem_events {ε : Type} {event? : Registry → Change → Option ε} {changes : List Change}
    {e : ε} (h : e ∈ r.events event? changes) : ∃ r', ∃ c ∈ changes, e ∈ event? r' c := by
  induction changes generalizing r with
  | nil => cases h
  | cons c rest ih =>
    rcases List.mem_append.1 h with h | h
    · exact ⟨r, c, List.mem_cons_self, Option.mem_toList.1 h⟩
    · obtain ⟨r', c', hc', he⟩ := ih h
      exact ⟨r', c', List.mem_cons_of_mem c hc', he⟩

/-- A receipt of a history is for a blueprint that was given in the history. -/
theorem given_of_receipt {changes : List Change} {receipt : Receipt}
    (h : receipt ∈ r.receipts changes) : .store receipt.given ∈ changes := by
  obtain ⟨r', c, hc, hreceipt⟩ := mem_events h
  exact given_of_receipt? hreceipt ▸ hc

/-- What is stored after a history is what the stores of the history returned. -/
theorem mem_stored_iff (changes : List Change) (b : Blueprint) :
    b ∈ (empty.afterAll changes).stored ↔
      ∃ receipt ∈ empty.receipts changes, receipt.kept = b := by
  induction changes using List.reverseRecOn with
  | nil => simp [afterAll, empty, receipts, events]
  | append_singleton changes c ih =>
    rw [afterAll_concat, mem_stored_after, ih]
    simp only [receipts, events_concat, List.mem_append, Option.mem_toList, Option.mem_def,
      or_and_right, exists_or]

/-- The stored contents are those for which there are receipts. -/
theorem mem_contents_iff (changes : List Change) (content : Bytes) :
    content ∈ (empty.afterAll changes).stored.map (·.encoded) ↔
      content ∈ (empty.receipts changes).map (·.given.encoded) := by
  have hcontent : ∀ receipt ∈ empty.receipts changes,
      receipt.kept.encoded = receipt.given.encoded := by
    intro receipt h
    obtain ⟨r', c, -, hreceipt⟩ := mem_events h
    exact content_of_receipt? hreceipt
  simp only [List.mem_map, mem_stored_iff]
  constructor
  · rintro ⟨_, ⟨receipt, hr, rfl⟩, rfl⟩
    exact ⟨receipt, hr, (hcontent receipt hr).symm⟩
  · rintro ⟨receipt, hr, rfl⟩
    exact ⟨receipt.kept, ⟨receipt, hr, rfl⟩, hcontent receipt hr⟩

/-! ## The list of ids -/

theorem list_perm (r : Registry) : r.list.Perm (r.stored.map (·.id)) := List.mergeSort_perm _ _

/-- Different ids are listed in their order. -/
theorem Named.list_ascending (h : r.Named name) :
    r.list.Pairwise fun a b => a.before b = true := by
  have hdistinct : r.list.Nodup := r.list_perm.nodup_iff.2 h.distinct
  exact BlueprintId.strictOrder_before.ascending
    (BlueprintId.strictOrder_before.pairwise_mergeSort _) hdistinct

/-- The list has one id for each content for which there is a receipt. -/
theorem Named.list_perm {changes : List Change} (h : (empty.afterAll changes).Named name) :
    (empty.afterAll changes).list.Perm
      (((empty.receipts changes).map (·.given.encoded)).dedup.map (.ofContent name)) := by
  have hcontents : ((empty.afterAll changes).stored.map (·.encoded)).Perm
      ((empty.receipts changes).map (·.given.encoded)).dedup := by
    refine (List.perm_ext_iff_of_nodup h.nodup_contents (List.nodup_dedup _)).2 fun content => ?_
    rw [mem_contents_iff, List.mem_dedup]
  have hids := (empty.afterAll changes).list_perm
  rw [h.ids_eq] at hids
  exact hids.trans (hcontents.map _)

/-! ## The repository -/

/-- What a registry remembers of the stores that succeeded. -/
structure Remembers (name : Bytes → Bytes × UInt64) (r : Registry) (receipts : List Receipt) :
    Prop where
  /-- No content is stored twice. -/
  distinct : (r.stored.map (·.encoded)).Nodup
  /-- What a store returns is stored and has the content that was given. -/
  returned : ∀ b s, r.store b = .ok s →
    s.blueprint ∈ s.registry.stored ∧ s.blueprint.encoded = b.encoded
  /-- Under the id of a blueprint whose store succeeded, its content is found. -/
  found : ∀ receipt ∈ receipts, ∃ known,
    r.find? receipt.given.id = some known ∧ known.encoded = receipt.given.encoded
  /-- The list has one id for each content that was stored, -/
  listed : r.list.Perm ((receipts.map (·.given.encoded)).dedup.map (.ofContent name))
  /-- in the order of ids. -/
  ascending : r.list.Pairwise fun a b => a.before b = true
  /-- A store fails exactly when another content is stored under the id, -/
  refused : ∀ b e, b.NamedBy name → (r.store b = .error e ↔ e = .otherContent b.id ∧
    ∃ other, r.find? b.id = some other ∧ other.encoded ≠ b.encoded)
  /-- and then nothing changes. -/
  unchanged : ∀ b e, r.store b = .error e → r.after (.store b) = r

/-- **The repository remembers every content once**: after any history of calls in which the ids of
the stored blueprints are determined by their contents, whether or not their hashes differ. -/
theorem remembers_contents (name : Bytes → Bytes × UInt64) (changes : List Change)
    (h : ∀ b, .store b ∈ changes → b.NamedBy name) :
    (empty.afterAll changes).Remembers name (empty.receipts changes) := by
  have hnamed := (named_empty name).afterAll h
  refine ⟨hnamed.nodup_contents, fun _ _ => kept_of_store, ?_, hnamed.list_perm,
    hnamed.list_ascending, fun b e hb => hnamed.store_eq_error_iff hb e, ?_⟩
  · intro receipt hreceipt
    obtain ⟨known, hmem, hsame⟩ :=
      List.mem_map.1 ((mem_contents_iff changes _).2 (List.mem_map_of_mem hreceipt))
    have hid : receipt.given.id = known.id := by
      rw [h _ (given_of_receipt hreceipt), hnamed.named known hmem, hsame]
    exact ⟨known, hid ▸ hnamed.find?_eq hmem, hsame⟩
  · intro b e hstore
    unfold after
    dsimp only
    rw [hstore]

/-- A blueprint of a content; its first byte is the name of its graph. -/
def sampleOf (content : Bytes) : Blueprint where
  id := .ofContent (fun content => (content.take 1, 1)) content
  tenant := utf8 "acme"
  decisionType := utf8 "pricing"
  catalog := .empty
  symbols := .empty
  nodes := []
  steps := []
  guardrails := []
  encoded := content

/-- Two contents of one hash, and the first one again: each of the two is kept once. -/
theorem remembers_contents_sample :
    let changes : List Change := [.store (sampleOf (utf8 "GReLUrM4wMqfg9yzV3KQ")),
      .store (sampleOf (utf8 "8yn0iYCKYHlIj4-BwPqk")),
      .store (sampleOf (utf8 "GReLUrM4wMqfg9yzV3KQ"))]
    Fnv.hash (utf8 "GReLUrM4wMqfg9yzV3KQ") = Fnv.hash (utf8 "8yn0iYCKYHlIj4-BwPqk") ∧
      (empty.afterAll changes).stored.map (·.id) = [⟨utf8 "G", 1, 0x4eac0c95540867e4⟩,
        ⟨utf8 "8", 1, 0x4eac0c95540867e4⟩] ∧
      (empty.afterAll changes).Remembers (fun content => (content.take 1, 1))
        (empty.receipts changes) := by
  refine ⟨by decide, by decide, remembers_contents _ _ fun b hb => ?_⟩
  simp only [List.mem_cons, Change.store.injEq, List.not_mem_nil, or_false] at hb
  rcases hb with rfl | rfl | rfl <;> rfl

end Registry
end DecisionEngine
