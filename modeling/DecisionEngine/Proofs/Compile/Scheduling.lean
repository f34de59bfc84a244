import DecisionEngine.Proofs.Compile.Kept
import DecisionEngine.Proofs.Compile.Ordering
/-!
# When kept leaves can be put in order and arbitrated

Units can be scheduled exactly if none of them waits for itself through others.  For the leaves of a
checked revision this says that no dependency joins rivals, that no exclusion group has to come
before itself, and that no leaf beats itself.

* `schedule_stuck_iff` — a schedule takes all units exactly if none waits for itself.
* `FlatGraph.ordered_failed_iff` — the same for the units of a graph.
* `FlatGraph.Depicts.groups_iff`, `FlatGraph.Depicts.dominance_iff` — what that means for the leaves.
* `Revision.exists_passed_iff` — no stage finds an error exactly if the revision is well-formed.
-/

namespace DecisionEngine

open Relation (EqvGen TransGen)

/-! ## Schedules -/

/-- A unit waits for another one of a list. -/
def Waits (depends : PlanUnit → PlanUnit → Bool) (units : List PlanUnit) (u v : PlanUnit) : Prop :=
  u ∈ units ∧ v ∈ units ∧ v ≠ u ∧ depends u v = true

section

variable {depends : PlanUnit → PlanUnit → Bool}

/-- A relation along which places in a list only go down does not run in circles. -/
theorem acyclic_of_idxOf_lt {α : Type} [BEq α] {R : α → α → Prop} (order : List α)
    (h : ∀ x y, R x y → order.idxOf y < order.idxOf x) (x : α) : ¬TransGen R x x := by
  intro hcycle
  have hlt : TransGen (· > ·) (order.idxOf x) (order.idxOf x) := hcycle.lift order.idxOf h
  rw [Relation.transGen_eq_self] at hlt
  exact Nat.lt_irrefl _ hlt

/-- Where no unit waits for itself, one of those left is next. -/
theorem exists_nextUnit? {left : List PlanUnit} (hne : left ≠ [])
    (hacyclic : ∀ u, ¬TransGen (Waits depends left) u u) : ∃ u, nextUnit? depends left = some u := by
  obtain ⟨u, hu, hfree⟩ := exists_unbeaten (R := Function.swap (Waits depends left)) hne
    fun u _ hcycle => hacyclic u (Relation.TransGen.swap _ _ hcycle)
  have hready : u ∈ left.filter fun u => !left.any fun v => v != u && depends u v := by
    refine List.mem_filter.2 ⟨hu, ?_⟩
    simp only [Bool.not_eq_true', List.any_eq_false, Bool.and_eq_true, bne_iff_ne, not_and]
    exact fun v hv hvu hdepends => hfree v hv ⟨hu, hv, hvu, hdepends⟩
  unfold nextUnit?
  dsimp only
  cases hr : left.filter fun u => !left.any fun v => v != u && depends u v with
  | nil =>
    rw [hr] at hready
    cases hready
  | cons first rest => exact ⟨_, rfl⟩

theorem scheduleWithin_complete {steps : Nat} {left : List PlanUnit} (hsteps : left.length ≤ steps)
    (hacyclic : ∀ u, ¬TransGen (Waits depends left) u u) :
    (scheduleWithin depends steps left).2 = [] := by
  induction steps generalizing left with
  | zero => exact List.length_eq_zero_iff.1 (Nat.le_zero.1 hsteps)
  | succ steps ih =>
    rw [scheduleWithin]
    by_cases hne : left = []
    · subst hne
      rfl
    · obtain ⟨u, hu⟩ := exists_nextUnit? hne hacyclic
      have hmem := (nextUnit?_spec hu).1
      rw [hu]
      refine ih ?_ fun v hcycle => hacyclic v
        (Relation.TransGen.mono (fun a b hab => ?_) v v hcycle)
      · rw [List.length_erase_of_mem hmem]
        omega
      · exact ⟨List.mem_of_mem_erase hab.1, List.mem_of_mem_erase hab.2.1, hab.2.2⟩

/-- A schedule takes all units exactly if none of them waits for itself. -/
theorem schedule_stuck_iff {units : List PlanUnit} :
    (schedule depends units).2 = [] ↔ ∀ u, ¬TransGen (Waits depends units) u u := by
  refine ⟨fun hstuck u => ?_, scheduleWithin_complete (Nat.le_refl _)⟩
  rcases hschedule : schedule depends units with ⟨order, stuck⟩
  rw [hschedule] at hstuck
  obtain rfl : stuck = [] := hstuck
  obtain ⟨hperm, htopological⟩ := scheduleWithin_spec hschedule
  refine acyclic_of_idxOf_lt order ?_ u
  rintro u v ⟨hu, hv, hne, hdepends⟩
  obtain ⟨before, after, hsplit, hfirst⟩ := List.eq_append_cons_of_mem (hperm.mem_iff.2 hu)
  have hbefore : v ∈ before := by
    have hmem : v ∈ before ++ u :: after := hsplit ▸ hperm.mem_iff.2 hv
    rcases List.mem_append.1 hmem with hmem | hmem
    · exact hmem
    · have hafter := (List.mem_cons.1 hmem).resolve_left hne
      rw [htopological before u after hsplit v hafter hne] at hdepends
      cases hdepends
  rw [hsplit, List.idxOf_append_of_mem hbefore, List.idxOf_append_of_notMem hfirst,
    List.idxOf_cons_self]
  exact Nat.lt_of_lt_of_le (List.idxOf_lt_length_of_mem hbefore) (Nat.le_add_right _ _)

end

/-! ## Units of a graph -/

namespace FlatGraph

variable {k : FlatGraph}

/-- The edges that put rules of different units in order. -/
def outerEdges (k : FlatGraph) : List Edge :=
  k.orderingEdges.filter fun e => !isInner k.units e

/-- A graph can be put in order exactly if only neutralization joins rules of one unit, and no unit
waits for itself. -/
theorem ordered_failed_iff : k.ordered.2.failed = false ↔
    (∀ e ∈ k.edges, e.ordering?.isSome → isInner k.units e = true → e.kind = .neutralizes) ∧
    ∀ u, ¬TransGen (Waits (dependsOn k.outerEdges) k.units) u u := by
  have hconflicts : innerDependencies (k.orderingEdges.filter (isInner k.units)) = [] ↔
      ∀ e ∈ k.edges, e.ordering?.isSome → isInner k.units e = true → e.kind = .neutralizes := by
    unfold innerDependencies
    dsimp only
    rw [report_eq_nil_iff, List.filter_eq_nil_iff]
    simp only [orderingEdges, List.mem_filter, and_imp, bne_iff_ne, ne_eq, not_not]
  have hpart : k.orderingEdges.partition (isInner k.units) =
      (k.orderingEdges.filter (isInner k.units), k.outerEdges) := by
    rw [List.partition_eq_filter_filter]
    rfl
  rw [← hconflicts, ← schedule_stuck_iff]
  unfold ordered
  dsimp only
  rw [hpart]
  dsimp only
  by_cases hnone : innerDependencies (k.orderingEdges.filter (isInner k.units)) = []
  · rw [if_neg (by simp [hnone])]
    by_cases hstuck : (schedule (dependsOn k.outerEdges) k.units).2 = []
    · rw [if_pos (by simp [hstuck])]
      exact ⟨fun _ => ⟨hnone, hstuck⟩, fun _ => rfl⟩
    · rw [if_neg (by simpa using hstuck)]
      exact ⟨fun h => (nomatch h), fun h => absurd h.2 hstuck⟩
  · rw [if_pos (by simpa using hnone)]
    refine ⟨fun h => absurd (Findings.failed_iff.1 h) hnone, fun h => absurd h.1 hnone⟩

theorem Tidy.has_iff_rivals (hk : k.Tidy) {u : PlanUnit} (hu : u ∈ k.units) {a b : Bytes}
    (ha : u.has a = true) (hb : b ∈ k.ids) : u.has b = true ↔ EqvGen k.Excludes a b := by
  obtain ⟨n, hn, rfl⟩ := PlanUnit.has_iff.1 ha
  obtain ⟨m, hm, rfl⟩ := List.mem_map.1 hb
  constructor
  · intro hhas
    obtain ⟨m', hm', hid⟩ := PlanUnit.has_iff.1 hhas
    rw [← hid]
    exact ((hk.mem_unit_iff hu hn).1 hm').2
  · exact fun hrivals => PlanUnit.has_iff.2 ⟨m, (hk.mem_unit_iff hu hn).2 ⟨hm, hrivals⟩, rfl⟩

/-- Both ends of an edge are in one unit exactly if they are rivals. -/
theorem Tidy.isInner_iff_rivals (hk : k.Tidy) {e : Edge} (hsource : e.source ∈ k.ids)
    (htarget : e.target ∈ k.ids) :
    isInner k.units e = true ↔ EqvGen k.Excludes e.source e.target := by
  rw [isInner_iff]
  constructor
  · rintro ⟨u, hu, hs, ht⟩
    exact (hk.has_iff_rivals hu hs htarget).1 ht
  · intro hrivals
    obtain ⟨u, hu, hs⟩ := hk.exists_unit hsource
    exact ⟨u, hu, hs, (hk.has_iff_rivals hu hs htarget).2 hrivals⟩

theorem Tidy.eq_of_has (hk : k.Tidy) {u v : PlanUnit} (hu : u ∈ k.units) (hv : v ∈ k.units)
    {a : Bytes} (ha : a ∈ k.ids) (hua : u.has a = true) (hva : v.has a = true) : u = v := by
  obtain ⟨n, hn, rfl⟩ := PlanUnit.has_iff.1 hua
  obtain ⟨m, hm, hid⟩ := PlanUnit.has_iff.1 hva
  have hmu : u.has m.id = true := hid ▸ hua
  obtain ⟨m', hm', hid'⟩ := PlanUnit.has_iff.1 hmu
  have hnodes : ∀ {w : PlanUnit} {x : FlatNode}, w ∈ k.units → x ∈ w.members → x ∈ k.nodes :=
    fun hw hx => ((hk.mem_unit_iff hw hx).1 hx).1
  have hsame : n = m := List.inj_on_of_nodup_map hk.nodup (hnodes hu hn) (hnodes hv hm) hid.symm
  exact hk.unit_eq hu hv hn (hsame ▸ hm)

/-- The unit of a rule. -/
def unitOf (k : FlatGraph) (id : Bytes) : PlanUnit := (k.units.find? (·.has id)).getD default

theorem Tidy.unitOf_spec (hk : k.Tidy) {id : Bytes} (hid : id ∈ k.ids) :
    k.unitOf id ∈ k.units ∧ (k.unitOf id).has id = true := by
  obtain ⟨u, hu, hhas⟩ := hk.exists_unit hid
  obtain ⟨v, hv⟩ : ∃ v, k.units.find? (·.has id) = some v := by
    rw [← Option.isSome_iff_exists, List.find?_isSome]
    exact ⟨u, hu, hhas⟩
  have hvid : v.has id = true := by simpa using List.find?_some hv
  unfold unitOf
  rw [hv]
  exact ⟨List.mem_of_find?_eq_some hv, hvid⟩

theorem firstId_mem {u : PlanUnit} (hne : u.members ≠ []) : u.has u.firstId = true := by
  obtain ⟨n, rest, hmembers⟩ := List.exists_cons_of_ne_nil hne
  simp [PlanUnit.has, PlanUnit.firstId, hmembers]

end FlatGraph

/-! ## Kept leaves -/

namespace FlatGraph.Depicts

variable {k : FlatGraph} {r : Revision} {o : CompilerOptions}

theorem ends (h : k.Depicts r o) {e : Edge} (he : e ∈ k.edges) :
    e.source ∈ k.ids ∧ e.target ∈ k.ids := h.tidy.ends e he

/-- Only neutralization joins rules of one unit exactly if no rivals require or flow to each
other. -/
theorem inner_iff (h : k.Depicts r o) :
    (∀ e ∈ k.edges, e.ordering?.isSome → isInner k.units e = true → e.kind = .neutralizes) ↔
    ∀ a b, r.Kept o a → r.Kept o b → r.Rivals o a b →
      ¬r.Joins .requires a b ∧ ¬r.Joins .flowsTo a b := by
  constructor
  · intro hinner a b ha hb hrivals
    have hnone : ∀ kind, (⟨a, kind, b⟩ : Edge).ordering?.isSome → r.Joins kind a b →
        kind = .neutralizes := by
      intro kind hordering hjoins
      have he : (⟨a, kind, b⟩ : Edge) ∈ k.edges :=
        (h.edges _).2 ⟨h.apart kind a b hordering hjoins, ha, hb, hjoins⟩
      refine hinner _ he hordering ((h.tidy.isInner_iff_rivals (h.ends he).1 (h.ends he).2).2 ?_)
      exact h.rivals_iff.1 hrivals
    exact ⟨fun hjoins => (nomatch hnone .requires rfl hjoins),
      fun hjoins => (nomatch hnone .flowsTo rfl hjoins)⟩
  · rintro hapart ⟨a, kind, b⟩ he hordering hinner
    obtain ⟨-, ha, hb, hjoins⟩ := (h.edges _).1 he
    have hrivals := h.rivals_iff.2
      ((h.tidy.isInner_iff_rivals (h.ends he).1 (h.ends he).2).1 hinner)
    obtain ⟨hrequires, hflows⟩ := hapart a b ha hb hrivals
    cases kind with
    | requires => exact absurd hjoins hrequires
    | flowsTo => exact absurd hjoins hflows
    | excludes => cases hordering
    | dominates => cases hordering
    | neutralizes => rfl

/-- A group that has to come after another one is waiting for it. -/
theorem waits_of_groupPrecedes (h : k.Depicts r o) {a b : Bytes} (hab : r.GroupPrecedes o a b) :
    Waits (dependsOn k.outerEdges) k.units (k.unitOf b) (k.unitOf a) := by
  obtain ⟨hapart, x, y, hax, hby, hx, hy, hprecedes⟩ := hab
  have ha : a ∈ k.ids := (h.kept a).2 ((Revision.kept_of_rivals hax).2 hx)
  have hb : b ∈ k.ids := (h.kept b).2 ((Revision.kept_of_rivals hby).2 hy)
  obtain ⟨hua, hhasa⟩ := h.tidy.unitOf_spec ha
  obtain ⟨hub, hhasb⟩ := h.tidy.unitOf_spec hb
  have hhasx := (h.tidy.has_iff_rivals hua hhasa ((h.kept x).2 hx)).2 (h.rivals_iff.1 hax)
  have hhasy := (h.tidy.has_iff_rivals hub hhasb ((h.kept y).2 hy)).2 (h.rivals_iff.1 hby)
  refine ⟨hub, hua, fun hsame => hapart (h.rivals_iff.2 ?_), ?_⟩
  · rw [hsame] at hhasa
    exact ((h.tidy.has_iff_rivals hub hhasb ha).1 hhasa).symm
  · obtain ⟨e, hjoins, hordering⟩ := Revision.precedes_iff.1 hprecedes
    have hne : e.source ≠ e.target := h.apart e.kind e.source e.target (by rw [hordering]; rfl) hjoins
    have he : e ∈ k.edges := by
      rcases Edge.ends_of_ordering? hordering with ⟨rfl, rfl⟩ | ⟨rfl, rfl⟩
      · exact (h.edges e).2 ⟨hne, hx, hy, hjoins⟩
      · exact (h.edges e).2 ⟨hne, hy, hx, hjoins⟩
    have houter : e ∈ k.outerEdges := by
      refine List.mem_filter.2 ⟨List.mem_filter.2 ⟨he, by rw [hordering]; rfl⟩, ?_⟩
      rw [Bool.not_eq_true', Bool.eq_false_iff]
      intro hinner
      have hrivals := h.rivals_iff.2
        ((h.tidy.isInner_iff_rivals (h.ends he).1 (h.ends he).2).1 hinner)
      refine hapart (hax.trans _ _ _ (EqvGen.trans _ _ _ ?_ (hby.symm)))
      rcases Edge.ends_of_ordering? hordering with ⟨rfl, rfl⟩ | ⟨rfl, rfl⟩
      · exact hrivals
      · exact hrivals.symm
    exact List.any_eq_true.2 ⟨e, houter, by rw [hordering]; simp [hhasx, hhasy]⟩

/-- A unit that waits for another one has to come after it. -/
theorem groupPrecedes_of_waits (h : k.Depicts r o) {u v : PlanUnit}
    (hwaits : Waits (dependsOn k.outerEdges) k.units u v) :
    r.GroupPrecedes o v.firstId u.firstId := by
  obtain ⟨hu, hv, hne, hdepends⟩ := hwaits
  obtain ⟨e, he, hends⟩ := List.any_eq_true.1 hdepends
  obtain ⟨⟨x, y⟩, hordering, hhas⟩ := (Option.any_eq_true ..).1 hends
  obtain ⟨hhasx, hhasy⟩ := Bool.and_eq_true_iff.1 hhas
  have hek : e ∈ k.edges := (List.mem_filter.1 (List.mem_filter.1 he).1).1
  have hfirstu := firstId_mem (members_ne_nil hu)
  have hfirstv := firstId_mem (members_ne_nil hv)
  have hids : x ∈ k.ids ∧ y ∈ k.ids := by
    rcases Edge.ends_of_ordering? hordering with ⟨rfl, rfl⟩ | ⟨rfl, rfl⟩
    · exact h.ends hek
    · exact (h.ends hek).symm
  have hmem : ∀ {w : PlanUnit}, w ∈ k.units → w.has w.firstId = true → w.firstId ∈ k.ids := by
    intro w hw hfirst
    obtain ⟨n, hn, hid⟩ := PlanUnit.has_iff.1 hfirst
    rw [← hid]
    exact List.mem_map_of_mem ((h.tidy.mem_unit_iff hw hn).1 hn).1
  refine ⟨fun hrivals => ?_, x, y, ?_, ?_, (h.kept x).1 hids.1, (h.kept y).1 hids.2, ?_⟩
  · have hshared := (h.tidy.has_iff_rivals hv hfirstv (hmem hu hfirstu)).2 (h.rivals_iff.1 hrivals)
    exact hne (h.tidy.eq_of_has hv hu (hmem hu hfirstu) hshared hfirstu)
  · exact h.rivals_iff.2 ((h.tidy.has_iff_rivals hv hfirstv hids.1).1 hhasx)
  · exact h.rivals_iff.2 ((h.tidy.has_iff_rivals hu hfirstu hids.2).1 hhasy)
  · exact Revision.precedes_iff.2 ⟨e, ((h.edges e).1 hek).2.2.2, hordering⟩

/-- No unit waits for itself exactly if no exclusion group has to come before itself. -/
theorem groups_iff (h : k.Depicts r o) :
    (∀ u, ¬TransGen (Waits (dependsOn k.outerEdges) k.units) u u) ↔
    ∀ id, ¬TransGen (r.GroupPrecedes o) id id := by
  constructor
  · intro hacyclic id hcycle
    exact hacyclic (k.unitOf id) ((Relation.TransGen.swap _ _ hcycle).lift k.unitOf
      fun _ _ hba => h.waits_of_groupPrecedes hba)
  · intro hacyclic u hcycle
    exact hacyclic u.firstId ((Relation.TransGen.swap _ _ hcycle).lift PlanUnit.firstId
      fun _ _ hvu => h.groupPrecedes_of_waits hvu)

/-- Dominance inside units does not run in circles exactly if no leaf beats itself. -/
theorem dominance_iff (h : k.Depicts r o) {units : List PlanUnit} (hunits : units.Perm k.units) :
    (∀ a, ¬TransGen (fun x y => ∃ e ∈ k.dominanceEdges.filter (isInner units),
      e.source = x ∧ e.target = y) a a) ↔ ∀ id, ¬TransGen (r.Beats o) id id := by
  have hsame : (fun x y => ∃ e ∈ k.dominanceEdges.filter (isInner units),
      e.source = x ∧ e.target = y) = r.Beats o := by
    funext x y
    have hinner : ∀ e, isInner units e = true ↔ isInner k.units e = true := by
      intro e
      simp only [isInner_iff, hunits.mem_iff]
    refine propext ⟨?_, ?_⟩
    · rintro ⟨e, he, rfl, rfl⟩
      obtain ⟨he, hin⟩ := List.mem_filter.1 he
      obtain ⟨he, hkind⟩ := List.mem_filter.1 he
      obtain ⟨hne, hs, ht, hjoins⟩ := (h.edges e).1 he
      refine ⟨hne, hs, ht, h.rivals_iff.2 ?_, by rwa [← beq_iff_eq.1 hkind]⟩
      exact (h.tidy.isInner_iff_rivals (h.ends he).1 (h.ends he).2).1 ((hinner e).1 hin)
    · rintro ⟨hne, hx, hy, hrivals, hjoins⟩
      have he : (⟨x, .dominates, y⟩ : Edge) ∈ k.edges := (h.edges _).2 ⟨hne, hx, hy, hjoins⟩
      refine ⟨_, List.mem_filter.2 ⟨List.mem_filter.2 ⟨he, rfl⟩, (hinner _).2 ?_⟩, rfl, rfl⟩
      exact (h.tidy.isInner_iff_rivals (h.ends he).1 (h.ends he).2).2 (h.rivals_iff.1 hrivals)
  rw [hsame]

end FlatGraph.Depicts

namespace Revision

/-- The stages of a compilation find no error exactly if the revision is well-formed. -/
theorem exists_passed_iff {r : Revision} {o : CompilerOptions} :
    (∃ b, r.Passed o b) ↔ r.WellFormed o := by
  constructor
  · rintro ⟨b, h⟩
    have hd := h.depicts
    obtain ⟨hinner, hwaits⟩ := FlatGraph.ordered_failed_iff.1 h.ordered
    have hunits := (FlatGraph.ordered_spec h.ordered).1
    exact ⟨checked_iff.1 h.checked, hd.inner_iff.1 hinner, hd.groups_iff.1 hwaits,
      (hd.dominance_iff hunits).1 ((FlatGraph.contests_failed_iff hd.tidy).1 h.settled)⟩
  · intro h
    have hchecked := checked_iff.2 h.toCoherent
    have hd := hchecked.depicts o
    have hordered := FlatGraph.ordered_failed_iff.2
      ⟨hd.inner_iff.2 h.apart, hd.groups_iff.2 h.groups⟩
    have hunits := (FlatGraph.ordered_spec hordered).1
    exact ⟨_, hchecked.normal, hchecked.lint, hordered, (FlatGraph.contests_failed_iff hd.tidy).2
      ((hd.dominance_iff hunits).2 h.dominance), rfl⟩

end Revision
end DecisionEngine
