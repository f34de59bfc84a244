import DecisionEngine.Compile.Schedule
import DecisionEngine.Proofs.Compile.Components
import Mathlib.Data.List.Nodup
/-!
# Exclusion groups

Uniting the ends of the exclusion edges of a graph gives the classes of the equivalence that the
edges generate, and the units of a plan are these classes.

* `FlatGraph.Excludes` — the relation whose classes the units are.
* `FlatGraph.mem_unit_iff` — the rules of a unit are the rivals of any one of them.
* `FlatGraph.units_perm` — the units hold every rule once.
-/

namespace DecisionEngine

open Relation (EqvGen)

theorem eqvGen_map {α β : Type} {R : α → α → Prop} {S : β → β → Prop} {f : α → β}
    (hf : ∀ a b, R a b → S (f a) (f b)) {a b : α} (h : EqvGen R a b) : EqvGen S (f a) (f b) := by
  induction h with
  | rel a b hab => exact .rel _ _ (hf a b hab)
  | refl a => exact .refl _
  | symm a b _ ih => exact .symm _ _ ih
  | trans a b c _ _ ihab ihbc => exact .trans _ _ _ ihab ihbc

theorem filterMap_getElem?_range {α : Type} (l : List α) :
    (List.range l.length).filterMap (fun i => l[i]?) = l := by
  induction l with
  | nil => rfl
  | cons a l ih =>
    rw [List.length_cons, List.range_succ_eq_map, List.filterMap_cons, List.filterMap_map]
    simpa [Function.comp_def] using ih

/-! ## Units -/

namespace PlanUnit

theorem has_iff {u : PlanUnit} {id : Bytes} : u.has id = true ↔ ∃ n ∈ u.members, n.id = id := by
  simp [has, List.any_eq_true]

end PlanUnit

namespace FlatGraph

variable {g : FlatGraph}

/-- Two rules exclude each other by an edge. -/
def Excludes (g : FlatGraph) (a b : Bytes) : Prop :=
  ∃ e ∈ g.edges, e.kind = .excludes ∧ e.source = a ∧ e.target = b

/-- The ids of a graph are distinct, and its edges join its rules. -/
structure Tidy (g : FlatGraph) : Prop where
  nodup : g.ids.Nodup
  ends : ∀ e ∈ g.edges, e.source ∈ g.ids ∧ e.target ∈ g.ids

theorem length_ids (g : FlatGraph) : g.ids.length = g.nodes.length := List.length_map ..

/-- The sets that the units are taken from. -/
def parting (g : FlatGraph) : DisjointSets g.ids.length := exclusionSets g.ids g.edges

/-- The unit of a root. -/
def unitAt (g : FlatGraph) (root : Fin g.ids.length) : PlanUnit :=
  ⟨((List.finRange g.ids.length).filter fun v => g.parting.top v == root).filterMap
    fun i => g.nodes[i.val]?⟩

/-- The smallest places of the sets. -/
def roots (g : FlatGraph) : List (Fin g.ids.length) :=
  (List.finRange g.ids.length).filter fun v => g.parting.top v == v

theorem units_eq (g : FlatGraph) : g.units = g.roots.map g.unitAt := by
  unfold units roots
  rw [DisjointSets.groups_eq, List.map_map]
  rfl

/-- Uniting the ends of an edge adds a pair to the relation, if both ends are listed. -/
theorem represents_uniteEnds {ids : List Bytes} {d : DisjointSets ids.length}
    {R : Fin ids.length → Fin ids.length → Prop} (h : d.Represents R) (e : Edge) :
    (uniteEnds ids d e).Represents fun v w =>
      R v w ∨ (ids.finIdxOf? e.source = some v ∧ ids.finIdxOf? e.target = some w) := by
  unfold uniteEnds
  split
  · next a b ha hb =>
    have hadded := h.unite a b
    simpa only [ha, hb, Option.some.injEq, eq_comm] using hadded
  · next hnone =>
    have hsame : (fun v w => R v w ∨
        (ids.finIdxOf? e.source = some v ∧ ids.finIdxOf? e.target = some w)) = R := by
      funext v w
      refine propext (or_iff_left ?_)
      rintro ⟨hs, ht⟩
      exact hnone v w hs ht
    rwa [hsame]

/-- Uniting the ends of one edge after another represents what all of them connect. -/
theorem represents_foldl_uniteEnds {ids : List Bytes} {d : DisjointSets ids.length}
    {R : Fin ids.length → Fin ids.length → Prop} (h : d.Represents R) (edges : List Edge) :
    (edges.foldl (uniteEnds ids) d).Represents fun v w => R v w ∨
      ∃ e ∈ edges, ids.finIdxOf? e.source = some v ∧ ids.finIdxOf? e.target = some w := by
  induction edges generalizing d R with
  | nil => simpa using h
  | cons e rest ih =>
    have hrest := ih (represents_uniteEnds h e)
    simpa only [List.foldl_cons, List.exists_mem_cons_iff, or_assoc] using hrest

/-- Two places are in one set exactly if exclusion connects them. -/
theorem parting_represents (g : FlatGraph) :
    g.parting.Represents fun v w => ∃ e ∈ g.edges.filter (·.kind == .excludes),
      g.ids.finIdxOf? e.source = some v ∧ g.ids.finIdxOf? e.target = some w := by
  have h := represents_foldl_uniteEnds (DisjointSets.represents_discrete g.ids.length)
    (g.edges.filter (·.kind == .excludes))
  simp only [false_or] at h
  exact h

theorem mem_unitAt_iff {root : Fin g.ids.length} {n : FlatNode} :
    n ∈ (g.unitAt root).members ↔
      ∃ i, g.nodes[i.val]? = some n ∧ g.parting.top i = root := by
  unfold unitAt
  simp only [List.mem_filterMap, List.mem_filter, List.mem_finRange, true_and, beq_iff_eq]
  constructor
  · rintro ⟨i, hi, hn⟩
    exact ⟨i, hn, hi⟩
  · rintro ⟨i, hn, hi⟩
    exact ⟨i, hi, hn⟩

/-- A rule is at a place. -/
theorem exists_place {n : FlatNode} (hn : n ∈ g.nodes) :
    ∃ i : Fin g.ids.length, g.nodes[i.val]? = some n := by
  obtain ⟨i, hi⟩ := List.mem_iff_getElem?.1 hn
  have hlt : i < g.nodes.length := (List.getElem?_eq_some_iff.1 hi).1
  exact ⟨⟨i, hlt.trans_eq g.length_ids.symm⟩, hi⟩

theorem getElem_ids {i : Fin g.ids.length} {n : FlatNode} (h : g.nodes[i.val]? = some n) :
    g.ids[i] = n.id := by
  obtain ⟨hi, rfl⟩ := List.getElem?_eq_some_iff.1 h
  exact List.getElem_map ..

/-- The units keep the order of the rules. -/
theorem unitAt_sublist (g : FlatGraph) (root : Fin g.ids.length) :
    (g.unitAt root).members.Sublist g.nodes := by
  have hsub := (List.filter_sublist (p := fun v => g.parting.top v == root)
    (l := List.finRange g.ids.length)).filterMap fun i => g.nodes[i.val]?
  have hall : (List.finRange g.ids.length).filterMap (fun i => g.nodes[i.val]?) = g.nodes := by
    have hrange := filterMap_getElem?_range g.nodes
    rwa [← g.length_ids, ← List.map_coe_finRange_eq_range, List.filterMap_map] at hrange
  rwa [hall] at hsub

theorem sublist_of_mem_units {u : PlanUnit} (hu : u ∈ g.units) : u.members.Sublist g.nodes := by
  rw [g.units_eq] at hu
  obtain ⟨root, -, rfl⟩ := List.mem_map.1 hu
  exact g.unitAt_sublist root

namespace Tidy

variable (hg : g.Tidy)
include hg

theorem place_eq {i j : Fin g.ids.length} {n : FlatNode} (hi : g.nodes[i.val]? = some n)
    (hj : g.nodes[j.val]? = some n) : i = j := by
  have hids : g.ids[i] = g.ids[j] := (getElem_ids hi).trans (getElem_ids hj).symm
  exact Fin.ext ((hg.nodup.getElem_inj_iff).1 hids)

theorem finIdxOf?_eq_some_iff {id : Bytes} {i : Fin g.ids.length} :
    g.ids.finIdxOf? id = some i ↔ g.ids[i] = id := by
  rw [List.finIdxOf?_eq_some_iff]
  refine ⟨And.left, fun h => ⟨h, fun j hj heq => ?_⟩⟩
  exact absurd ((hg.nodup.getElem_inj_iff).1 (heq.trans h.symm)) (Fin.val_ne_of_ne hj.ne)

/-- Two rules are in one set exactly if they are rivals. -/
theorem top_eq_iff {i j : Fin g.ids.length} {n m : FlatNode}
    (hn : g.nodes[i.val]? = some n) (hm : g.nodes[j.val]? = some m) :
    g.parting.top i = g.parting.top j ↔ EqvGen g.Excludes n.id m.id := by
  rw [g.parting_represents, ← getElem_ids hn, ← getElem_ids hm]
  constructor
  · refine eqvGen_map (f := fun k => g.ids[k]) fun v w => ?_
    rintro ⟨e, he, hs, ht⟩
    obtain ⟨he, hk⟩ := List.mem_filter.1 he
    exact ⟨e, he, by simpa using hk, ((hg.finIdxOf?_eq_some_iff).1 hs).symm,
      ((hg.finIdxOf?_eq_some_iff).1 ht).symm⟩
  · intro h
    have hplace : ∀ k : Fin g.ids.length, (g.ids.finIdxOf? g.ids[k]).getD i = k := by
      intro k
      rw [(hg.finIdxOf?_eq_some_iff).2 rfl, Option.getD_some]
    have hmapped := eqvGen_map (f := fun id => (g.ids.finIdxOf? id).getD i)
      (S := fun v w => ∃ e ∈ g.edges.filter (·.kind == .excludes),
        g.ids.finIdxOf? e.source = some v ∧ g.ids.finIdxOf? e.target = some w) (by
        rintro _ _ ⟨e, he, hk, rfl, rfl⟩
        obtain ⟨hs, ht⟩ := hg.ends e he
        obtain ⟨v, hv⟩ := Option.isSome_iff_exists.1
          (List.isSome_finIdxOf?.trans (List.contains_iff_mem.2 hs))
        obtain ⟨w, hw⟩ := Option.isSome_iff_exists.1
          (List.isSome_finIdxOf?.trans (List.contains_iff_mem.2 ht))
        rw [hv, hw]
        exact ⟨e, List.mem_filter.2 ⟨he, by simp [hk]⟩, hv, hw⟩) h
    rwa [hplace, hplace] at hmapped

end Tidy

/-- The rules of a unit are rules of the graph, and the rivals of any one of them. -/
theorem Tidy.mem_unit_iff (hg : g.Tidy) {u : PlanUnit} (hu : u ∈ g.units) {n m : FlatNode}
    (hn : n ∈ u.members) : m ∈ u.members ↔ m ∈ g.nodes ∧ EqvGen g.Excludes n.id m.id := by
  rw [g.units_eq] at hu
  obtain ⟨root, -, rfl⟩ := List.mem_map.1 hu
  obtain ⟨i, hi, hroot⟩ := mem_unitAt_iff.1 hn
  rw [mem_unitAt_iff]
  constructor
  · rintro ⟨j, hj, hroot'⟩
    exact ⟨List.mem_of_getElem? hj, (hg.top_eq_iff hi hj).1 (hroot.trans hroot'.symm)⟩
  · rintro ⟨hm, hrivals⟩
    obtain ⟨j, hj⟩ := exists_place hm
    exact ⟨j, hj, ((hg.top_eq_iff hi hj).2 hrivals).symm.trans hroot⟩

/-- Units that share a rule are the same. -/
theorem Tidy.unit_eq (hg : g.Tidy) {u v : PlanUnit} (hu : u ∈ g.units) (hv : v ∈ g.units)
    {n : FlatNode} (hn : n ∈ u.members) (hn' : n ∈ v.members) : u = v := by
  rw [g.units_eq] at hu hv
  obtain ⟨root, -, rfl⟩ := List.mem_map.1 hu
  obtain ⟨root', -, rfl⟩ := List.mem_map.1 hv
  obtain ⟨i, hi, rfl⟩ := mem_unitAt_iff.1 hn
  obtain ⟨j, hj, rfl⟩ := mem_unitAt_iff.1 hn'
  rw [hg.place_eq hi hj]

/-- A unit is not empty. -/
theorem members_ne_nil {u : PlanUnit} (hu : u ∈ g.units) :
    u.members ≠ [] := by
  rw [g.units_eq] at hu
  obtain ⟨root, hroot, rfl⟩ := List.mem_map.1 hu
  have hself := beq_iff_eq.1 (List.mem_filter.1 hroot).2
  have hlt : root.val < g.nodes.length := root.isLt.trans_eq g.length_ids
  exact List.ne_nil_of_mem (mem_unitAt_iff.2 ⟨root, List.getElem?_eq_getElem hlt, hself⟩)

/-- The units hold every rule of the graph once. -/
theorem Tidy.units_perm (hg : g.Tidy) : (g.units.flatMap (·.members)).Perm g.nodes := by
  have hnodes : g.nodes.Nodup := List.Nodup.of_map _ hg.nodup
  have hdisjoint : ∀ root root', root ≠ root' →
      List.Disjoint (g.unitAt root).members (g.unitAt root').members := by
    intro root root' hne n hn hn'
    obtain ⟨i, hi, rfl⟩ := mem_unitAt_iff.1 hn
    obtain ⟨j, hj, rfl⟩ := mem_unitAt_iff.1 hn'
    exact hne (congrArg _ (hg.place_eq hi hj))
  rw [g.units_eq]
  refine (List.perm_ext_iff_of_nodup ?_ hnodes).2 ?_
  · rw [List.nodup_flatMap]
    refine ⟨fun u hu => ?_, ?_⟩
    · obtain ⟨root, -, rfl⟩ := List.mem_map.1 hu
      exact (g.unitAt_sublist root).nodup hnodes
    · rw [List.pairwise_map]
      exact ((List.nodup_finRange _).filter _).imp fun hne => hdisjoint _ _ hne
  · intro n
    simp only [List.mem_flatMap, List.mem_map]
    constructor
    · rintro ⟨_, ⟨root, -, rfl⟩, hn⟩
      exact (g.unitAt_sublist root).subset hn
    · intro hn
      obtain ⟨i, hi⟩ := exists_place hn
      refine ⟨_, ⟨g.parting.top i, ?_, rfl⟩, mem_unitAt_iff.2 ⟨i, hi, rfl⟩⟩
      exact List.mem_filter.2 ⟨List.mem_finRange _, beq_iff_eq.2 (g.parting.top_top i)⟩

end FlatGraph
end DecisionEngine
