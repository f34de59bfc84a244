import DecisionEngine.Compile.Contest
import DecisionEngine.Proofs.Compile.Grouping
import DecisionEngine.Proofs.Compile.Stages
import DecisionEngine.Proofs.Plan.Arbitration
/-!
# The order of contests

A plan takes its units one after another, each when nothing that is left has to come before it.
So every rule comes after what it depends on, save that a rule may be neutralized from inside its
own contest.

* `scheduleWithin_spec` — a complete schedule is a topological order.
* `FlatGraph.Arranges` — contests hold every rule of a graph once, by groups, in an order that
  dependencies allow, and with dominance that does not run in circles.
* `FlatGraph.contests_failed_iff` — contests are settled where dominance does not run in circles.
* `FlatGraph.arranges_contests` — the contests of a graph without errors do.
-/

namespace DecisionEngine

open Relation (EqvGen TransGen)

/-! ## Schedules -/

/-- The next unit is one of those left, and depends on no other one of them. -/
theorem nextUnit?_spec {depends : PlanUnit → PlanUnit → Bool} {left : List PlanUnit} {u : PlanUnit}
    (h : nextUnit? depends left = some u) :
    u ∈ left ∧ ∀ v ∈ left, v ≠ u → depends u v = false := by
  have hready : u ∈ left.filter fun u => !left.any fun v => v != u && depends u v := by
    unfold nextUnit? at h
    dsimp only at h
    split at h
    · cases h
    · rename_i first rest hr
      rw [hr]
      rw [← Option.some.inj h]
      refine foldl_mem_cons (fun a b => ?_) rest first
      by_cases hb : b.before a = true
      · exact .inr (if_pos hb)
      · exact .inl (if_neg hb)
  obtain ⟨hu, hnone⟩ := List.mem_filter.1 hready
  refine ⟨hu, fun v hv hne => ?_⟩
  simp only [Bool.not_eq_true', List.any_eq_false, Bool.and_eq_true, bne_iff_ne, not_and,
    Bool.not_eq_true] at hnone
  exact hnone v hv hne

/-- A schedule that leaves nothing over is an order of all units in which each one comes after
those it depends on. -/
theorem scheduleWithin_spec {depends : PlanUnit → PlanUnit → Bool} {steps : Nat}
    {left order : List PlanUnit} (h : scheduleWithin depends steps left = (order, [])) :
    order.Perm left ∧ ∀ before u after, order = before ++ u :: after →
      ∀ v ∈ after, v ≠ u → depends u v = false := by
  induction steps generalizing left order with
  | zero =>
    obtain ⟨rfl, rfl⟩ := Prod.mk.inj h
    exact ⟨.refl _, fun before u after hsplit => by simp at hsplit⟩
  | succ steps ih =>
    rw [scheduleWithin] at h
    cases hnext : nextUnit? depends left with
    | none =>
      rw [hnext] at h
      obtain ⟨rfl, rfl⟩ := Prod.mk.inj h
      exact ⟨.refl _, fun before u after hsplit => by simp at hsplit⟩
    | some u =>
      rw [hnext] at h
      dsimp only at h
      obtain ⟨rfl, hstuck⟩ := Prod.mk.inj h
      obtain ⟨hu, hfree⟩ := nextUnit?_spec hnext
      obtain ⟨hperm, htopological⟩ := ih (Prod.ext rfl hstuck)
      refine ⟨(hperm.cons u).trans (List.perm_cons_erase hu).symm, ?_⟩
      intro before w after hsplit v hv hne
      cases before with
      | nil =>
        obtain ⟨rfl, rfl⟩ := List.cons.inj hsplit
        exact hfree v (List.mem_of_mem_erase (hperm.mem_iff.1 hv)) hne
      | cons _ before =>
        obtain ⟨-, hrest⟩ := List.cons.inj hsplit
        exact htopological before w after hrest v hv hne

/-! ## Contests -/

namespace Contest

/-- Whether a rule takes part in a contest. -/
def Has (c : Contest) (id : Bytes) : Prop := ∃ n ∈ c.members, n.id = id

end Contest

namespace FlatGraph

/-- Contests hold every rule of a graph once, by groups.  Each rule comes after what it depends
on, unless that neutralizes it from inside its contest; and no rule dominates itself. -/
structure Arranges (k : FlatGraph) (cs : List Contest) : Prop where
  perm : (cs.flatMap (·.members)).Perm k.nodes
  nonempty : ∀ c ∈ cs, c.members ≠ []
  rivals : ∀ c ∈ cs, ∀ n ∈ c.members, ∀ m,
    m ∈ c.members ↔ m ∈ k.nodes ∧ EqvGen k.Excludes n.id m.id
  order : ∀ before c after, cs = before ++ c :: after → ∀ n ∈ c.members, ∀ e ∈ k.edges, ∀ a,
    e.ordering? = some (a, n.id) →
      (∃ d ∈ before, d.Has a) ∨ (e.kind = .neutralizes ∧ c.Has a)
  dominates : ∀ c ∈ cs, ∀ a b,
    (a, b) ∈ c.dominates ↔ c.Has a ∧ c.Has b ∧ (⟨a, .dominates, b⟩ : Edge) ∈ k.edges
  acyclic : ∀ c ∈ cs, ∀ a, ¬TransGen (fun x y => (x, y) ∈ c.dominates) a a

variable {k : FlatGraph}

/-- A graph without errors is one whose schedule takes all units, and in which only neutralization
joins rules of one unit. -/
theorem ordered_schedule (h : k.ordered.2.failed = false) :
    schedule (dependsOn (k.orderingEdges.filter fun e => !isInner k.units e)) k.units =
        (k.ordered.1, []) ∧
      innerDependencies (k.orderingEdges.filter (isInner k.units)) = [] := by
  have hpart : k.orderingEdges.partition (isInner k.units) =
      (k.orderingEdges.filter (isInner k.units),
        k.orderingEdges.filter fun e => !isInner k.units e) := by
    rw [List.partition_eq_filter_filter]
    rfl
  unfold ordered at h ⊢
  dsimp only at h ⊢
  rw [hpart] at h ⊢
  dsimp only at h ⊢
  by_cases hconflicts : (innerDependencies
      (k.orderingEdges.filter (isInner k.units))).isEmpty = true
  · rw [if_neg (by simp [hconflicts])] at h ⊢
    by_cases hstuck : (schedule (dependsOn
        (k.orderingEdges.filter fun e => !isInner k.units e)) k.units).2.isEmpty = true
    · rw [if_pos hstuck]
      exact ⟨Prod.ext rfl (List.isEmpty_iff.1 hstuck), List.isEmpty_iff.1 hconflicts⟩
    · rw [if_neg hstuck] at h
      cases h
  · rw [if_pos (by simpa using hconflicts)] at h
    simp only [Findings.failed, Bool.not_eq_false'] at h
    exact absurd h hconflicts

/-- The units of a plan without errors, in their order. -/
theorem ordered_spec (h : k.ordered.2.failed = false) :
    k.ordered.1.Perm k.units ∧
    (∀ before u after, k.ordered.1 = before ++ u :: after → ∀ v ∈ after, v ≠ u →
      dependsOn (k.orderingEdges.filter fun e => !isInner k.units e) u v = false) ∧
    ∀ e ∈ k.edges, e.ordering?.isSome → isInner k.units e = true → e.kind = .neutralizes := by
  obtain ⟨hschedule, hconflicts⟩ := ordered_schedule h
  obtain ⟨hperm, htopological⟩ := scheduleWithin_spec hschedule
  refine ⟨hperm, htopological, ?_⟩
  intro e he hordering hinner
  by_contra hkind
  have hbad : e ∈ (k.orderingEdges.filter (isInner k.units)).filter (·.kind != .neutralizes) := by
    refine List.mem_filter.2 ⟨List.mem_filter.2 ⟨List.mem_filter.2 ⟨he, hordering⟩, hinner⟩, ?_⟩
    simpa using hkind
  unfold innerDependencies at hconflicts
  dsimp only at hconflicts
  rw [if_neg (by simpa using List.ne_nil_of_mem hbad)] at hconflicts
  cases hconflicts

theorem isInner_iff {units : List PlanUnit} {e : Edge} :
    isInner units e = true ↔ ∃ u ∈ units, u.has e.source = true ∧ u.has e.target = true := by
  simp [isInner, List.any_eq_true]

/-- If both ends of an edge are in one unit, then any unit that has one end has the other. -/
theorem Tidy.has_of_inner (hk : k.Tidy) {u : PlanUnit} (hu : u ∈ k.units) {a b : Bytes}
    (hb : u.has b = true) {v : PlanUnit} (hv : v ∈ k.units) (hva : v.has a = true)
    (hvb : v.has b = true) : u.has a = true := by
  obtain ⟨n, hn, rfl⟩ := PlanUnit.has_iff.1 hb
  obtain ⟨m, hm, hmn⟩ := PlanUnit.has_iff.1 hvb
  obtain ⟨x, hx, rfl⟩ := PlanUnit.has_iff.1 hva
  obtain ⟨hxk, hrivals⟩ := (hk.mem_unit_iff hv hm).1 hx
  rw [hmn] at hrivals
  exact PlanUnit.has_iff.2 ⟨x, (hk.mem_unit_iff hu hn).2 ⟨hxk, hrivals⟩, rfl⟩

theorem Tidy.exists_unit (hk : k.Tidy) {id : Bytes} (h : id ∈ k.ids) :
    ∃ u ∈ k.units, u.has id = true := by
  obtain ⟨n, hn, rfl⟩ := List.mem_map.1 h
  obtain ⟨u, hu, hnu⟩ := List.mem_flatMap.1 (hk.units_perm.mem_iff.2 hn)
  exact ⟨u, hu, PlanUnit.has_iff.2 ⟨n, hnu, rfl⟩⟩

theorem mem_declared {u : PlanUnit} {n : FlatNode} : n ∈ u.declared ↔ n ∈ u.members :=
  List.mem_mergeSort

theorem declared_perm (u : PlanUnit) : u.declared.Perm u.members := List.mergeSort_perm _ _

/-- The contests of the units, in the order of the units. -/
theorem contests_eq (k : FlatGraph) (units : List PlanUnit) :
    (k.contests units).1 = units.map fun u => ⟨u.declared,
      (((k.dominanceEdges.filter (isInner units)).filter fun e => u.has e.source).map
        fun e => (e.source, e.target))⟩ := by
  unfold contests
  rw [List.partition_eq_filter_filter]
  rfl

/-- The contests of a graph are settled exactly if dominance inside units does not run in
circles. -/
theorem contests_failed_iff (hk : k.Tidy) {units : List PlanUnit} :
    (k.contests units).2.failed = false ↔ ∀ a, ¬TransGen (fun x y =>
      ∃ e ∈ k.dominanceEdges.filter (isInner units), e.source = x ∧ e.target = y) a a := by
  have hedge : ∀ e ∈ k.dominanceEdges.filter (isInner units), e ∈ k.edges := fun e he =>
    (List.mem_filter.1 (List.mem_filter.1 he).1).1
  have herrors : (k.contests units).2.failed = false ↔
      k.dominanceCycles (k.dominanceEdges.filter (isInner units)) = [] := by
    unfold contests
    rw [List.partition_eq_filter_filter, Findings.failed_iff]
  rw [herrors]
  unfold dominanceCycles
  dsimp only
  rw [List.map_eq_nil_iff]
  refine Digraph.cycles_eq_nil_iff_acyclic (fun x y => ?_) ?_
  · unfold Digraph.Step
    simp only [List.mem_map, List.mem_filter, beq_iff_eq, and_assoc]
  · rintro x y ⟨e, he, rfl, rfl⟩
    exact hk.ends e (hedge e he)

/-- What a rule of a unit depends on is in an earlier unit, or neutralizes it from inside the
unit. -/
theorem mem_earlier_unit (hk : k.Tidy) (hordered : k.ordered.2.failed = false)
    {before after : List PlanUnit} {u : PlanUnit} (hsplit : k.ordered.1 = before ++ u :: after)
    {id a : Bytes} (hid : u.has id = true) {e : Edge} (he : e ∈ k.edges)
    (hea : e.ordering? = some (a, id)) :
    (∃ v ∈ before, v.has a = true) ∨ (e.kind = .neutralizes ∧ u.has a = true) := by
  obtain ⟨hperm, htopological, hinner⟩ := ordered_spec hordered
  have hu : u ∈ k.units := hperm.mem_iff.1 (by simp [hsplit])
  have hends := Edge.ends_of_ordering? hea
  by_cases hin : isInner k.units e = true
  · obtain ⟨v, hv, hvs, hvt⟩ := isInner_iff.1 hin
    refine .inr ⟨hinner e he (by rw [hea]; rfl) hin, ?_⟩
    have hva : v.has a = true ∧ v.has id = true := by
      rcases hends with ⟨rfl, ht⟩ | ⟨rfl, ht⟩ <;> rw [ht]
      · exact ⟨hvs, hvt⟩
      · exact ⟨hvt, hvs⟩
    exact hk.has_of_inner hu hid hv hva.1 hva.2
  · have hak : a ∈ k.ids := by
      rcases hends with ⟨rfl, -⟩ | ⟨rfl, -⟩
      · exact (hk.ends e he).1
      · exact (hk.ends e he).2
    obtain ⟨v, hv, hva⟩ := hk.exists_unit hak
    have hdepends : dependsOn (k.orderingEdges.filter fun e => !isInner k.units e) u v =
        true := by
      refine List.any_eq_true.2 ⟨e, List.mem_filter.2 ⟨List.mem_filter.2 ⟨he, ?_⟩, ?_⟩, ?_⟩
      · rw [hea]
        rfl
      · simpa using hin
      · rw [hea]
        simp [hva, hid]
    have hne : v ≠ u := by
      rintro rfl
      refine hin (isInner_iff.2 ⟨v, hv, ?_⟩)
      rcases hends with ⟨rfl, ht⟩ | ⟨rfl, ht⟩ <;> rw [← ht]
      · exact ⟨hva, hid⟩
      · exact ⟨hid, hva⟩
    have hmem : v ∈ before ++ u :: after := hsplit ▸ hperm.mem_iff.2 hv
    rcases List.mem_append.1 hmem with hbefore | hafter
    · exact .inl ⟨v, hbefore, hva⟩
    · rcases List.mem_cons.1 hafter with rfl | hafter
      · exact absurd rfl hne
      · rw [htopological before u after hsplit v hafter hne] at hdepends
        cases hdepends

/-- The contests of a graph without errors arrange its rules. -/
theorem arranges_contests (hk : k.Tidy) (hordered : k.ordered.2.failed = false)
    (hsettled : (k.contests k.ordered.1).2.failed = false) :
    k.Arranges (k.contests k.ordered.1).1 := by
  have hperm := (ordered_spec hordered).1
  have hacyclic := (contests_failed_iff hk).1 hsettled
  have hunit : ∀ u, u ∈ k.ordered.1 ↔ u ∈ k.units := fun u => hperm.mem_iff
  have hinner_iff : ∀ e, isInner k.ordered.1 e = true ↔ isInner k.units e = true := by
    intro e
    simp only [isInner_iff, hunit]
  have hhas : ∀ (u : PlanUnit) ds id, (⟨u.declared, ds⟩ : Contest).Has id ↔ u.has id = true := by
    intro u ds id
    simp only [Contest.Has, mem_declared, PlanUnit.has_iff]
  rw [contests_eq]
  refine ⟨?_, ?_, ?_, ?_, ?_, ?_⟩
  · rw [List.flatMap_map]
    refine List.Perm.trans ?_ hk.units_perm
    exact (List.Perm.flatMap_left _ fun u _ => declared_perm u).trans (hperm.flatMap_right _)
  · intro c hc
    obtain ⟨u, hu, rfl⟩ := List.mem_map.1 hc
    intro hnil
    have hempty := (declared_perm u).symm
    rw [show u.declared = [] from hnil] at hempty
    exact members_ne_nil ((hunit u).1 hu) hempty.eq_nil
  · intro c hc n hn m
    obtain ⟨u, hu, rfl⟩ := List.mem_map.1 hc
    simp only [mem_declared] at hn ⊢
    exact hk.mem_unit_iff ((hunit u).1 hu) hn
  · intro before c after hsplit n hn e he a hea
    obtain ⟨us, rest, hus, rfl, hrest⟩ := List.map_eq_append_iff.1 hsplit
    obtain ⟨u, vs, rfl, rfl, rfl⟩ := List.map_eq_cons_iff.1 hrest
    have hun : u.has n.id = true := PlanUnit.has_iff.2 ⟨n, mem_declared.1 hn, rfl⟩
    rw [hhas]
    refine (mem_earlier_unit hk hordered hus hun he hea).imp_left ?_
    rintro ⟨v, hv, hva⟩
    exact ⟨_, List.mem_map_of_mem hv, (hhas ..).2 hva⟩
  · intro c hc a b
    obtain ⟨u, hu, rfl⟩ := List.mem_map.1 hc
    have huk := (hunit u).1 hu
    simp only [hhas, List.mem_map, List.mem_filter, dominanceEdges, beq_iff_eq, hinner_iff,
      Prod.mk.injEq]
    constructor
    · rintro ⟨e, ⟨⟨⟨he, hkind⟩, hin⟩, hs⟩, rfl, rfl⟩
      obtain ⟨v, hv, hvs, hvt⟩ := isInner_iff.1 hin
      exact ⟨hs, hk.has_of_inner huk hs hv hvt hvs, by rwa [← hkind]⟩
    · rintro ⟨ha, hb, he⟩
      exact ⟨_, ⟨⟨⟨he, rfl⟩, isInner_iff.2 ⟨u, huk, ha, hb⟩⟩, ha⟩, rfl, rfl⟩
  · intro c hc a hcycle
    obtain ⟨u, hu, rfl⟩ := List.mem_map.1 hc
    refine hacyclic a (Relation.TransGen.mono ?_ a a hcycle)
    intro x y hxy
    obtain ⟨e, he, hxy⟩ := List.mem_map.1 hxy
    obtain ⟨rfl, rfl⟩ := Prod.mk.inj hxy
    exact ⟨e, (List.mem_filter.1 he).1, rfl, rfl⟩

end FlatGraph
end DecisionEngine
