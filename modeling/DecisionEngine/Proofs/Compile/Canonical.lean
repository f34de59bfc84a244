import DecisionEngine.Proofs.Blueprint.RoundTrip
import DecisionEngine.Proofs.Compile.Scheduling
import DecisionEngine.Proofs.Compile.Shape
/-!
# Canonical graphs

Declaring the nodes of a revision in another order changes where they are declared, and which of
several declarations that agree is taken; the latter may differ in the signs of zeros.  A canonical
graph has lost both: nothing in it has a place, and all zeros are positive.  Each stage of a
compilation makes the same of a canonical graph, in canonical form, and finds the same.

* `NormalGraph.canonical`, `FlatGraph.canonical`, `Contest.canonical` — canonical forms.
* `NormalGraph.lint_canonical` — the checks find the same.
* `FlatGraph.ofNormal_canonical` — pruning keeps the same leaves.
* `FlatGraph.ordered_canonical` — units are put in the same order.
* `FlatGraph.contests_canonical` — single rules become the same contests.
-/

namespace DecisionEngine

open Relation (EqvGen)

/-! ## Canonical forms -/

/-- The content with positive zeros in the place of negative ones. -/
def NodeBody.withoutNegativeZero : NodeBody → NodeBody
  | decision c => decision c
  | evaluator c => evaluator c
  | action c o => action c o.withoutNegativeZero
  | composite c ms => composite c ms

/-- The node with positive zeros in the place of negative ones. -/
def Node.withoutNegativeZero (n : Node) : Node :=
  { n with weight := n.weight.withoutNegativeZero, body := n.body.withoutNegativeZero }

/-- The node of a normal form without its place. -/
def NormalNode.canonical (m : NormalNode) : NormalNode := ⟨m.node.withoutNegativeZero, 0⟩

/-- The normal form without places. -/
def NormalGraph.canonical (g : NormalGraph) : NormalGraph :=
  { g with nodes := g.nodes.map NormalNode.canonical }

/-- The flat leaf without its place. -/
def FlatNode.canonical (n : FlatNode) : FlatNode :=
  { n with
    weight := n.weight.withoutNegativeZero
    outcome := n.outcome.map Outcome.withoutNegativeZero
    order := 0 }

/-- The flat graph without places. -/
def FlatGraph.canonical (g : FlatGraph) : FlatGraph :=
  { g with nodes := g.nodes.map FlatNode.canonical }

/-- The unit without places. -/
def PlanUnit.canonical (u : PlanUnit) : PlanUnit := ⟨u.members.map FlatNode.canonical⟩

/-- The contest without places. -/
def Contest.canonical (c : Contest) : Contest :=
  { c with members := c.members.map FlatNode.canonical }

namespace NodeBody

variable (b : NodeBody)

@[simp] theorem withoutNegativeZero_kind : b.withoutNegativeZero.kind = b.kind := by
  cases b <;> rfl

@[simp] theorem withoutNegativeZero_condition :
    b.withoutNegativeZero.condition = b.condition := by
  cases b <;> rfl

@[simp] theorem withoutNegativeZero_members : b.withoutNegativeZero.members = b.members := by
  cases b <;> rfl

@[simp] theorem withoutNegativeZero_outcome? : b.withoutNegativeZero.outcome? =
    b.outcome?.map Outcome.withoutNegativeZero := by
  cases b <;> rfl

end NodeBody

namespace Node

variable (n : Node)

@[simp] theorem withoutNegativeZero_condition : n.withoutNegativeZero.condition = n.condition :=
  n.body.withoutNegativeZero_condition

@[simp] theorem withoutNegativeZero_isComposite :
    n.withoutNegativeZero.isComposite = n.isComposite :=
  congrArg (· == .composite) n.body.withoutNegativeZero_kind

@[simp] theorem withoutNegativeZero_shape : n.withoutNegativeZero.shape = n.shape :=
  shape_eq_iff.2 ⟨rfl, n.body.withoutNegativeZero_kind, n.body.withoutNegativeZero_members⟩

end Node

/-! ## Checks -/

namespace NormalGraph

variable (g : NormalGraph)

theorem sameShape_canonical : g.canonical.SameShape g := by
  refine ⟨?_, rfl⟩
  unfold canonical
  rw [List.map_map]
  exact List.map_congr_left fun m _ => m.node.withoutNegativeZero_shape

/-- The checks of a graph find the same in its canonical form. -/
theorem lint_canonical (rails : List Guardrail) : g.canonical.lint rails = g.lint rails := by
  have hexpressions : g.canonical.badExpressions = g.badExpressions := by
    unfold badExpressions canonical
    rw [List.flatMap_map]
    refine List.flatMap_congr fun m _ => ?_
    simp only [NormalNode.canonical, Node.withoutNegativeZero_condition]
    rfl
  exact g.sameShape_canonical.lint_eq hexpressions rails

/-! ## Flat graphs -/

theorem scopes_canonical (id : Bytes) :
    g.canonical.scopes id = (g.scopes id).map Node.withoutNegativeZero := by
  have hnodes : g.canonical.nodes.map (·.node) =
      (g.nodes.map (·.node)).map Node.withoutNegativeZero := by
    unfold canonical
    rw [List.map_map, List.map_map]
    rfl
  exact g.sameShape_canonical.scopes_eq_map hnodes Node.withoutNegativeZero_shape id

theorem flatNode_canonical (m : NormalNode) :
    g.canonical.flatNode m.canonical = (g.flatNode m).canonical := by
  have hconditions : (g.canonical.scopes m.node.id).map Node.condition =
      (g.scopes m.node.id).map Node.condition := by
    rw [scopes_canonical, List.map_map]
    exact List.map_congr_left fun n _ => n.withoutNegativeZero_condition
  have hown := m.node.withoutNegativeZero_condition
  have hkind := m.node.body.withoutNegativeZero_kind
  have houtcome := m.node.body.withoutNegativeZero_outcome?
  unfold flatNode FlatNode.canonical
  dsimp only
  rw [← hconditions]
  refine (FlatNode.mk.injEq ..).mpr ⟨rfl, hkind, rfl, rfl, rfl, ?_, ?_, houtcome, rfl⟩
  · exact congrArg (fun c => sortedDistinct ((_ ++ [c]).flatMap (·.labels))) hown
  · exact congrArg (fun c => (_ ++ [c]).filterMap Condition.sourced?) hown

/-- The flat form of a canonical graph is canonical. -/
theorem flat_canonical : g.canonical.flat = g.flat.canonical := by
  unfold flat FlatGraph.canonical
  rw [g.sameShape_canonical.expandedEdges_eq]
  congr 1
  unfold canonical
  rw [List.filter_map, List.map_map, List.map_map]
  have hleaves : ((fun m : NormalNode => !m.node.isComposite) ∘ NormalNode.canonical) =
      fun m => !m.node.isComposite := by
    funext m
    exact congrArg (!·) m.node.withoutNegativeZero_isComposite
  rw [hleaves]
  exact List.map_congr_left fun m _ => g.flatNode_canonical m

end NormalGraph

/-! ## Pruning -/

namespace FlatGraph

variable (g : FlatGraph)

@[simp] theorem ids_canonical : g.canonical.ids = g.ids := by
  unfold ids canonical
  rw [List.map_map]
  rfl

theorem unreachable_canonical : g.canonical.unreachable = g.unreachable := by
  have hdecisions : (g.canonical.nodes.filter (·.kind == .decision)).map (·.id) =
      (g.nodes.filter (·.kind == .decision)).map (·.id) := by
    unfold canonical
    rw [List.filter_map, List.map_map]
    rfl
  unfold unreachable flow
  rw [hdecisions, ids_canonical]
  rfl

theorem dropped_canonical (dropUnreachable : Bool) :
    g.canonical.dropped dropUnreachable = g.dropped dropUnreachable := by
  have honce : ∀ unreached, g.canonical.droppedAtOnce unreached dropUnreachable =
      g.droppedAtOnce unreached dropUnreachable := fun unreached => by
    unfold droppedAtOnce canonical
    dsimp only
    rw [List.filter_map, List.filterMap_map]
    rfl
  have hround : ∀ d, g.canonical.pruneRound d = g.pruneRound d := fun d => by
    unfold pruneRound
    rw [ids_canonical]
    rfl
  have hrounds : ∀ rounds d, g.canonical.pruneRounds rounds d = g.pruneRounds rounds d := by
    intro rounds
    induction rounds with
    | zero => exact fun d => rfl
    | succ rounds ih =>
      intro d
      rw [pruneRounds, pruneRounds, hround, ih]
  unfold dropped
  rw [hrounds, honce, unreachable_canonical]
  unfold canonical
  rw [List.length_map]

theorem without_canonical (d : Dropped) : g.canonical.without d = (g.without d).canonical := by
  have hkept : g.canonical.nodes.filter (fun n => !d.has n.id) =
      (g.nodes.filter fun n => !d.has n.id).map FlatNode.canonical := by
    unfold canonical
    rw [List.filter_map]
    rfl
  unfold without
  dsimp only
  rw [hkept]
  simp only [List.any_map]
  rfl

/-- Pruning keeps the same leaves of a canonical graph, and finds the same. -/
theorem ofNormal_canonical (n : NormalGraph) (dropUnreachable : Bool) :
    ofNormal n.canonical dropUnreachable =
      ((ofNormal n dropUnreachable).1.canonical, (ofNormal n dropUnreachable).2) := by
  have hlength : ∀ g : FlatGraph, g.canonical.nodes.length = g.nodes.length := fun g =>
    List.length_map ..
  unfold ofNormal hopelessWarnings
  dsimp only
  rw [n.flat_canonical, dropped_canonical, without_canonical, unreachable_canonical,
    ids_canonical, hlength, hlength]

end FlatGraph

/-! ## Units -/

namespace PlanUnit

variable (u v : PlanUnit)

@[simp] theorem has_canonical (id : Bytes) : u.canonical.has id = u.has id := by
  unfold has canonical
  rw [List.any_map]
  rfl

theorem firstId_canonical : u.canonical.firstId = u.firstId := by
  unfold firstId canonical
  rw [List.head?_map, Option.map_map]
  rfl

theorem priority_canonical : u.canonical.priority = u.priority := by
  obtain ⟨members⟩ := u
  cases members with
  | nil => rfl
  | cons m rest => exact List.foldl_map

theorem before_canonical : u.canonical.before v.canonical = u.before v := by
  unfold before
  rw [u.priority_canonical, v.priority_canonical, u.firstId_canonical, v.firstId_canonical]

end PlanUnit

namespace FlatGraph

theorem units_canonical (g : FlatGraph) : g.canonical.units = g.units.map PlanUnit.canonical := by
  unfold units
  rw [ids_canonical]
  unfold canonical
  dsimp only
  rw [List.map_map]
  refine List.map_congr_left fun places _ => congrArg PlanUnit.mk ?_
  rw [List.map_filterMap]
  exact congrArg (List.filterMap · places) (funext fun i => List.getElem?_map)

theorem isInner_canonical (units : List PlanUnit) :
    isInner (units.map PlanUnit.canonical) = isInner units := by
  funext e
  unfold isInner
  rw [List.any_map]
  simp only [Function.comp_def, PlanUnit.has_canonical]

theorem dependsOn_canonical (edges : List Edge) (u v : PlanUnit) :
    dependsOn edges u.canonical v.canonical = dependsOn edges u v := by
  simp only [dependsOn, PlanUnit.has_canonical]

/-- Units of a tidy graph that have the same canonical form are the same. -/
theorem Tidy.eq_of_canonical {g : FlatGraph} (hg : g.Tidy) {u v : PlanUnit} (hu : u ∈ g.units)
    (hv : v ∈ g.units) (h : u.canonical = v.canonical) : u = v := by
  have hfirst := firstId_mem (members_ne_nil hu)
  have hid : u.firstId ∈ g.ids := by
    obtain ⟨n, hn, hid⟩ := PlanUnit.has_iff.1 hfirst
    exact hid ▸ List.mem_map_of_mem ((hg.mem_unit_iff hu hn).1 hn).1
  refine hg.eq_of_has hu hv hid hfirst ?_
  rw [← v.has_canonical, ← h, u.has_canonical]
  exact hfirst

end FlatGraph

/-! ## Scheduling -/

/-- Erasing from a list commutes with a function that tells its members apart. -/
theorem map_erase_of_injOn {α β : Type} [DecidableEq α] [DecidableEq β] {f : α → β} {xs : List α}
    {x : α} (hf : ∀ y ∈ xs, f y = f x → y = x) : (xs.map f).erase (f x) = (xs.erase x).map f := by
  induction xs with
  | nil => rfl
  | cons y ys ih =>
    rw [List.map_cons, List.erase_cons, List.erase_cons]
    by_cases h : y = x
    · rw [if_pos (by simpa using congrArg f h), if_pos (by simpa using h)]
    · rw [if_neg (by simpa using fun heq => h (hf y (List.mem_cons_self ..) heq)),
        if_neg (by simpa using h), List.map_cons,
        ih fun z hz => hf z (List.mem_cons_of_mem _ hz)]

section

variable {depends : PlanUnit → PlanUnit → Bool}
variable (hdepends : ∀ u v, depends u.canonical v.canonical = depends u v)
include hdepends

theorem nextUnit?_canonical {left : List PlanUnit}
    (hleft : ∀ u ∈ left, ∀ v ∈ left, u.canonical = v.canonical → u = v) :
    nextUnit? depends (left.map PlanUnit.canonical) =
      (nextUnit? depends left).map PlanUnit.canonical := by
  have hready : (left.map PlanUnit.canonical).filter (fun u =>
        !(left.map PlanUnit.canonical).any fun v => v != u && depends u v) =
      (left.filter fun u => !left.any fun v => v != u && depends u v).map PlanUnit.canonical := by
    rw [List.filter_map]
    refine congrArg _ (List.filter_congr fun u hu => congrArg (!·) ?_)
    rw [List.any_map, Bool.eq_iff_iff, List.any_eq_true, List.any_eq_true]
    refine exists_congr fun v => and_congr_right fun hv => ?_
    simp only [Function.comp_apply, Bool.and_eq_true, bne_iff_ne, hdepends]
    exact and_congr_left' (not_congr ⟨hleft v hv u hu, congrArg _⟩)
  unfold nextUnit?
  dsimp only
  rw [hready]
  cases left.filter fun u => !left.any fun v => v != u && depends u v with
  | nil => rfl
  | cons u rest =>
    rw [List.map_cons]
    refine congrArg some ?_
    rw [List.foldl_map]
    refine List.foldl_hom PlanUnit.canonical fun best v => ?_
    rw [PlanUnit.before_canonical]
    split <;> rfl

theorem scheduleWithin_canonical (steps : Nat) {left : List PlanUnit}
    (hleft : ∀ u ∈ left, ∀ v ∈ left, u.canonical = v.canonical → u = v) :
    scheduleWithin depends steps (left.map PlanUnit.canonical) =
      ((scheduleWithin depends steps left).1.map PlanUnit.canonical,
        (scheduleWithin depends steps left).2.map PlanUnit.canonical) := by
  induction steps generalizing left with
  | zero => rfl
  | succ steps ih =>
    rw [scheduleWithin, scheduleWithin, nextUnit?_canonical hdepends hleft]
    cases hnext : nextUnit? depends left with
    | none => rfl
    | some u =>
      have hu : u ∈ left := (nextUnit?_spec hnext).1
      dsimp only [Option.map_some]
      rw [map_erase_of_injOn fun v hv => hleft v hv u hu, ih fun v hv w hw =>
        hleft v (List.mem_of_mem_erase hv) w (List.mem_of_mem_erase hw)]
      rfl

end

namespace FlatGraph

variable {g : FlatGraph}

/-- Units are put in the same order in a canonical graph, and the same is found. -/
theorem Tidy.ordered_canonical (hg : g.Tidy) :
    g.canonical.ordered = (g.ordered.1.map PlanUnit.canonical, g.ordered.2) := by
  have hschedule : ∀ edges, schedule (dependsOn edges) (g.units.map PlanUnit.canonical) =
      ((schedule (dependsOn edges) g.units).1.map PlanUnit.canonical,
        (schedule (dependsOn edges) g.units).2.map PlanUnit.canonical) := fun edges => by
    unfold schedule
    rw [List.length_map]
    exact scheduleWithin_canonical (dependsOn_canonical edges) _ fun u hu v hv =>
      hg.eq_of_canonical hu hv
  have hstuck : ∀ units : List PlanUnit, (units.map PlanUnit.canonical).flatMap (fun u =>
      u.members.map (·.id)) = units.flatMap fun u => u.members.map (·.id) := fun units => by
    rw [List.flatMap_map]
    exact List.flatMap_congr fun u _ => List.map_map
  have hedges : g.canonical.orderingEdges = g.orderingEdges := rfl
  unfold ordered
  dsimp only
  rw [units_canonical, isInner_canonical, hedges]
  cases g.orderingEdges.partition (isInner g.units) with
  | mk inner outer =>
    dsimp only
    rw [hschedule, hstuck, List.isEmpty_map]
    split
    · rfl
    · split <;> rfl

/-! ## Contests -/

theorem contests_canonical (g : FlatGraph) {units : List PlanUnit}
    (hsingle : ∀ u ∈ units, ∃ n, u.members = [n]) :
    g.canonical.contests (units.map PlanUnit.canonical) =
      ((g.contests units).1.map Contest.canonical, (g.contests units).2) := by
  have hcontests : ∀ inner, contestsOf (units.map PlanUnit.canonical) inner =
      (contestsOf units inner).map Contest.canonical := fun inner => by
    unfold contestsOf
    rw [List.map_map, List.map_map]
    refine List.map_congr_left fun u hu => ?_
    obtain ⟨n, hn⟩ := hsingle u hu
    simp [PlanUnit.declared, PlanUnit.canonical, Contest.canonical, hn, PlanUnit.has]
    rfl
  have hedges : g.canonical.dominanceEdges = g.dominanceEdges := rfl
  unfold contests dominanceCycles
  rw [isInner_canonical, ids_canonical, hedges]
  cases g.dominanceEdges.partition (isInner units) with
  | mk inner outer =>
    dsimp only
    rw [hcontests]

/-- Without exclusions, each unit has one rule. -/
theorem Tidy.single_of_no_excludes (hg : g.Tidy) (h : ∀ a b, ¬g.Excludes a b) {u : PlanUnit}
    (hu : u ∈ g.units) : ∃ n, u.members = [n] := by
  have hnodup : u.members.Nodup :=
    (List.nodup_flatMap.1 (hg.units_perm.nodup_iff.2 (List.Nodup.of_map _ hg.nodup))).1 u hu
  have hrivals : ∀ {a b : Bytes}, EqvGen g.Excludes a b → a = b := fun hab => by
    induction hab with
    | rel a b hab => exact absurd hab (h a b)
    | refl => rfl
    | symm _ _ _ ih => exact ih.symm
    | trans _ _ _ _ _ ih ih' => exact ih.trans ih'
  obtain ⟨n, hn⟩ := List.exists_mem_of_ne_nil _ (members_ne_nil hu)
  refine ⟨n, List.perm_singleton.1 ((List.perm_ext_iff_of_nodup hnodup
    (List.nodup_singleton n)).2 fun m => ?_)⟩
  rw [List.mem_singleton, hg.mem_unit_iff hu hn]
  constructor
  · rintro ⟨hm, hnm⟩
    exact List.inj_on_of_nodup_map hg.nodup hm ((hg.mem_unit_iff hu hn).1 hn).1 (hrivals hnm).symm
  · rintro rfl
    exact (hg.mem_unit_iff hu hn).1 hn

end FlatGraph
end DecisionEngine
