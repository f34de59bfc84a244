import DecisionEngine.Context.SharedCache
import DecisionEngine.Proofs.Keyed
import Mathlib.Data.List.Induction
/-!
# What the archive of snapshots answers

The archive finds a snapshot by a text that joins its tenant and its id. A name that is taken stays
with the snapshot that took it, and the oldest names go when there are too many. So the answer for
a name is the snapshot that took the name when it was last free, which need not be the one that was
published under the name most recently.

* `SharedCache.Filed.publish` — no name is archived twice, and the archive keeps to its capacity.
* `SharedCache.findSnapshot?_publish_other` — publishing under another name can only lose a name.
* `SharedCache.findSnapshot?_publish_own` — after publishing, the name is found.
* `SharedCache.archive_answers` — the answer after any history.
* `SharedCache.earlier_snapshot_found` — a name that is published again keeps its first snapshot.
-/

namespace DecisionEngine

namespace SharedCache

/-! ## One publication -/

/-- An archive in good order: no name is archived twice, and there are not too many. -/
structure Filed (c : SharedCache) : Prop where
  distinct : Keyed.Distinct c.archive
  bounded : c.archive.length ≤ c.capacity

theorem filed_empty (capacity : Nat) : (empty capacity).Filed :=
  ⟨List.nodup_nil, Nat.zero_le _⟩

theorem Filed.publish {c : SharedCache} (h : c.Filed) (s : Snapshot) : (c.publish s).Filed :=
  ⟨(h.distinct.keep _ _).latest _, Keyed.length_latest_le _ _⟩

/-- A snapshot that is published under another name leaves the answer as it was, unless it crowds
the name out. -/
theorem findSnapshot?_publish_other {c : SharedCache} (h : c.Filed) {s : Snapshot}
    {tenant id : Bytes} (hs : archiveKey s.tenant s.id ≠ archiveKey tenant id) :
    (c.publish s).findSnapshot? tenant id = none ∨
      (c.publish s).findSnapshot? tenant id = c.findSnapshot? tenant id := by
  have hkeep := Keyed.find?_keep (archiveKey s.tenant s.id) (archiveKey tenant id) s c.archive
  rw [if_neg hs] at hkeep
  have hdrop := (h.distinct.keep (archiveKey s.tenant s.id) s).find?_drop
    ((Keyed.keep (archiveKey s.tenant s.id) s c.archive).length - c.capacity)
    (archiveKey tenant id)
  rwa [hkeep] at hdrop

/-- A snapshot that has just been published is found under its name, unless the name was taken:
then it stays with the snapshot that has it. -/
theorem findSnapshot?_publish_own {c : SharedCache} (h : c.Filed) (hpos : 0 < c.capacity)
    {s : Snapshot} {tenant id : Bytes} (hs : archiveKey s.tenant s.id = archiveKey tenant id) :
    (c.publish s).findSnapshot? tenant id = some ((c.findSnapshot? tenant id).getD s) := by
  show Keyed.find? (c.archived s) (archiveKey tenant id) =
    some ((Keyed.find? c.archive (archiveKey tenant id)).getD s)
  rw [← hs]
  unfold archived Keyed.keep
  cases hf : Keyed.find? c.archive (archiveKey s.tenant s.id) with
  | some old =>
    have hnone : c.archive.length - c.capacity = 0 := Nat.sub_eq_zero_of_le h.bounded
    simp [Keyed.latest, hnone, hf]
  | none =>
    -- The new entry comes last, so with room for one entry it is not among those that go.
    have hroom : (c.archive ++ [(archiveKey s.tenant s.id, s)]).length - c.capacity ≤
        c.archive.length := by
      rw [List.length_append, List.length_singleton]
      omega
    have hgone : Keyed.find?
        (c.archive.drop ((c.archive ++ [(archiveKey s.tenant s.id, s)]).length - c.capacity))
        (archiveKey s.tenant s.id) = none := by
      rcases h.distinct.find?_drop _ (archiveKey s.tenant s.id) with hd | hd
      · exact hd
      · exact hd.trans hf
    simp only [Option.isSome_none, Bool.false_eq_true, if_false, Keyed.latest]
    rw [List.drop_append_of_le_length hroom, Keyed.find?_append, hgone]
    simp [Keyed.find?]

/-! ## Histories -/

/-- The cache after a history of publications. -/
def publishAll (c : SharedCache) (history : List Snapshot) : SharedCache := history.foldl publish c

theorem publishAll_append_singleton (c : SharedCache) (history : List Snapshot) (s : Snapshot) :
    c.publishAll (history ++ [s]) = (c.publishAll history).publish s := by
  simp [publishAll]

theorem Filed.publishAll {c : SharedCache} (h : c.Filed) (history : List Snapshot) :
    (c.publishAll history).Filed := by
  induction history generalizing c with
  | nil => exact h
  | cons s rest ih => exact ih (h.publish s)

theorem capacity_publishAll (c : SharedCache) (history : List Snapshot) :
    (c.publishAll history).capacity = c.capacity := by
  induction history generalizing c with
  | nil => rfl
  | cons s rest ih => exact ih (c.publish s)

/-- In a history, the snapshot took the name when it was free, and has kept it since. -/
structure Keeps (capacity : Nat) (history : List Snapshot) (tenant id : Bytes) (s : Snapshot)
    (before after : List Snapshot) : Prop where
  split : history = before ++ s :: after
  tenant_eq : s.tenant = tenant
  id_eq : s.id = id
  free : ((empty capacity).publishAll before).findSnapshot? tenant id = none
  kept : ∀ more, more <+: after →
    ((empty capacity).publishAll (before ++ s :: more)).findSnapshot? tenant id = some s

/-- No other pair of a tenant and an id in a history has the text of the one that is looked up. -/
def Unambiguous (history : List Snapshot) (tenant id : Bytes) : Prop :=
  ∀ s ∈ history, archiveKey s.tenant s.id = archiveKey tenant id → s.tenant = tenant ∧ s.id = id

instance (history : List Snapshot) (tenant id : Bytes) :
    Decidable (Unambiguous history tenant id) := by
  unfold Unambiguous
  infer_instance

/-- What is found after a history took its name when it was free. By induction from the last
publication back: either that one took the name, or whoever has the name had it before. -/
theorem exists_keeps {capacity : Nat} (hpos : 0 < capacity) {tenant id : Bytes}
    {history : List Snapshot} (hname : Unambiguous history tenant id) {s : Snapshot}
    (hs : ((empty capacity).publishAll history).findSnapshot? tenant id = some s) :
    ∃ before after, Keeps capacity history tenant id s before after := by
  induction history using List.reverseRecOn with
  | nil => cases hs
  | append_singleton history last ih =>
    have hfiled : ((empty capacity).publishAll history).Filed :=
      (filed_empty capacity).publishAll history
    have hroom : 0 < ((empty capacity).publishAll history).capacity := by
      rw [capacity_publishAll]
      exact hpos
    have ih := ih fun t ht => hname t (List.mem_append_left _ ht)
    rw [publishAll_append_singleton] at hs
    have hkept : ((empty capacity).publishAll history).findSnapshot? tenant id = some s →
        ∃ before after, Keeps capacity (history ++ [last]) tenant id s before after := by
      intro hold
      obtain ⟨before, after, h⟩ := ih hold
      refine ⟨before, after ++ [last], by simp [h.split], h.tenant_eq, h.id_eq, h.free, ?_⟩
      intro more hmore
      rcases List.prefix_concat_iff.mp hmore with rfl | hmore
      · have hall : before ++ s :: (after ++ [last]) = history ++ [last] := by simp [h.split]
        rw [hall, publishAll_append_singleton]
        exact hs
      · exact h.kept more hmore
    by_cases hlast : archiveKey last.tenant last.id = archiveKey tenant id
    · have hown := findSnapshot?_publish_own hfiled hroom hlast
      cases hold : ((empty capacity).publishAll history).findSnapshot? tenant id with
      | some old =>
        rw [hown, hold, Option.getD_some] at hs
        exact hkept (hold.trans hs)
      | none =>
        rw [hold, Option.getD_none] at hown
        obtain rfl := Option.some.inj (hown.symm.trans hs)
        obtain ⟨ht, hi⟩ := hname last (by simp) hlast
        refine ⟨history, [], rfl, ht, hi, hold, ?_⟩
        intro more hmore
        rw [List.prefix_nil.mp hmore, publishAll_append_singleton]
        exact hown
    · rcases findSnapshot?_publish_other hfiled hlast with hnone | hold
      · rw [hnone] at hs
        cases hs
      · exact hkept (hold.symm.trans hs)

/-- The snapshot that was published most recently under a name. -/
def mostRecent? (history : List Snapshot) (tenant id : Bytes) : Option Snapshot :=
  history.reverse.find? fun s => s.tenant = tenant ∧ s.id = id

/-- Where no other snapshot was published under a name, the one that has the name is the most
recent. -/
theorem Keeps.mostRecent? {capacity : Nat} {history before after : List Snapshot}
    {tenant id : Bytes} {s : Snapshot} (h : Keeps capacity history tenant id s before after)
    (honly : ∀ t ∈ history, t.tenant = tenant → t.id = id → t = s) :
    mostRecent? history tenant id = some s := by
  unfold SharedCache.mostRecent?
  cases hf : history.reverse.find? fun s => s.tenant = tenant ∧ s.id = id with
  | none =>
    have hs : s ∈ history.reverse := by simp [h.split]
    have hnot := List.find?_eq_none.mp hf s hs
    simp [h.tenant_eq, h.id_eq] at hnot
  | some t =>
    have ht := List.find?_some hf
    simp only [decide_eq_true_eq] at ht
    rw [honly t (List.mem_reverse.mp (List.mem_of_find?_eq_some hf)) ht.1 ht.2]

/-- **What the archive answers** after any history: if anything, the snapshot of the tenant and the
id that took the name when it was last free, which is the most recent one of the name if there is
no other. Right after a publication under the name, it is the snapshot that had the name before, or
else the one just published. -/
theorem archive_answers {capacity : Nat} (hpos : 0 < capacity) {tenant id : Bytes}
    {history : List Snapshot} (hname : Unambiguous history tenant id) :
    (∀ s, ((empty capacity).publishAll history).findSnapshot? tenant id = some s →
      (∃ before after, Keeps capacity history tenant id s before after) ∧
      ((∀ t ∈ history, t.tenant = tenant → t.id = id → t = s) →
        mostRecent? history tenant id = some s)) ∧
    ∀ s, s.tenant = tenant → s.id = id →
      (((empty capacity).publishAll history).publish s).findSnapshot? tenant id =
        some ((((empty capacity).publishAll history).findSnapshot? tenant id).getD s) := by
  refine ⟨fun s hs => ⟨exists_keeps hpos hname hs, fun honly => ?_⟩, fun s ht hi => ?_⟩
  · obtain ⟨before, after, h⟩ := exists_keeps hpos hname hs
    exact h.mostRecent? honly
  · refine findSnapshot?_publish_own ((filed_empty capacity).publishAll history) ?_ (by rw [ht, hi])
    rw [capacity_publishAll]
    exact hpos

/-- Editions of what is known about an entity, under one name. -/
def sampleEdition (edition : Int64) : Snapshot :=
  .make (utf8 "bank") (utf8 "ann") (.ofList [(utf8 "edition", .int edition)]) .empty 0
    (utf8 "today")

/-- A snapshot that is named after its content, which leaves the catalog and the mask out. -/
def sampleMarked (catalog : Catalog) : Snapshot :=
  .make (utf8 "bank") (utf8 "ann") (.ofList [(utf8 "edition", .int 1)]) catalog 0 []

/-- With room for one snapshot, a name that was crowded out in between goes to the snapshot that is
published under it next. -/
theorem archive_answers_sample :
    Unambiguous [sampleEdition 1, sampleMarked .empty, sampleEdition 2] (utf8 "bank")
      (utf8 "today") ∧
    ∃ before after, Keeps 1 [sampleEdition 1, sampleMarked .empty, sampleEdition 2]
      (utf8 "bank") (utf8 "today") (sampleEdition 2) before after := by
  have hname : Unambiguous [sampleEdition 1, sampleMarked .empty, sampleEdition 2] (utf8 "bank")
      (utf8 "today") := by decide +kernel
  have hfound : ((empty 1).publishAll [sampleEdition 1, sampleMarked .empty,
      sampleEdition 2]).findSnapshot? (utf8 "bank") (utf8 "today") = some (sampleEdition 2) := by
    decide +kernel
  exact ⟨hname, ((archive_answers Nat.one_pos hname).1 _ hfound).1⟩

/-- A name that is published again keeps its first snapshot, be it given or taken from the content:
what is found is neither the snapshot published most recently nor the one just published. -/
theorem earlier_snapshot_found :
    (((empty 2).publishAll [sampleEdition 1, sampleEdition 2]).findSnapshot? (utf8 "bank")
        (utf8 "today") = some (sampleEdition 1) ∧
      mostRecent? [sampleEdition 1, sampleEdition 2] (utf8 "bank") (utf8 "today") =
        some (sampleEdition 2) ∧
      sampleEdition 1 ≠ sampleEdition 2) ∧
    ∃ catalog, Catalog.ofLabels [utf8 "edition"] = .ok catalog ∧
      (sampleMarked .empty).id = (sampleMarked catalog).id ∧
      ((empty 2).publishAll [sampleMarked .empty, sampleMarked catalog]).findSnapshot?
        (utf8 "bank") (sampleMarked catalog).id = some (sampleMarked .empty) ∧
      sampleMarked .empty ≠ sampleMarked catalog :=
  ⟨by decide +kernel, .ofPredicates [⟨utf8 "edition", none, by decide, by decide⟩] (by decide)
    (by decide), by decide +kernel⟩

end SharedCache
end DecisionEngine
