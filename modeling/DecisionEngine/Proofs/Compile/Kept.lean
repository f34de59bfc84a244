import DecisionEngine.Proofs.Compile.Grouping
import DecisionEngine.Proofs.Compile.Pruning
import DecisionEngine.Proofs.Compile.Stages
/-!
# The graph of kept leaves

The graph that plans are made of says about the kept leaves what the revision says: each leaf has
the conditions of everything around it, and each edge is one that the revision joins.

* `FlatNode.Met` — the conditions of a flat leaf.
* `Revision.Bears` — the conditions that are on a leaf.
* `FlatGraph.Portrays` — a flat graph says what the revision says about all of its leaves.
* `FlatGraph.Depicts` — a flat graph says what the revision says about its kept leaves.
* `Revision.Checked.depicts` — the graph of kept leaves of a checked revision does.
-/

namespace DecisionEngine

open Relation (EqvGen TransGen)

/-! ## Conditions -/

/-- The conditions of a flat leaf are met. -/
structure FlatNode.Met (n : FlatNode) (e : Evidence) : Prop where
  labels : ∀ l ∈ n.labels, ∃ p, Predicate.ofLabel? l = some p ∧ p.holds e.context = true
  expressions : ∀ x ∈ n.expressions, x.tree.value e = .ok (.bool true)

/-- The labels of a flat leaf are predicates, and its expressions were checked. -/
structure FlatNode.Usable (n : FlatNode) : Prop where
  labels : ∀ l ∈ n.labels, (Predicate.ofLabel? l).isSome
  expressions : ∀ x ∈ n.expressions, ∃ source, checkedExpression false source = .ok x.tree

/-- An expression that was checked is the one that was read. -/
theorem parse_of_checkedExpression {allowOutcome : Bool} {source : Bytes} {x : Expr}
    (h : checkedExpression allowOutcome source = .ok x) : Expr.parse source = .ok x :=
  (checkedExpression_eq_ok_iff.1 h).1

theorem mem_sourced?_iff {c : Condition} {x : SourcedExpr} :
    c.sourced? = some x ↔
      c.expression ≠ [] ∧ Expr.parse c.expression = .ok x.tree ∧ x.source = c.expression := by
  unfold Condition.sourced?
  by_cases hempty : c.expression = []
  · simp [hempty]
  · rw [if_neg (by simpa using hempty)]
    rcases x with ⟨source, tree⟩
    cases hp : Expr.parse c.expression with
    | error e => simp [Except.toOption]
    | ok y =>
      simp only [Except.toOption, Option.map_some, Option.some.injEq, SourcedExpr.mk.injEq,
        Except.ok.injEq]
      constructor
      · rintro ⟨rfl, rfl⟩
        exact ⟨hempty, rfl, rfl⟩
      · rintro ⟨-, rfl, rfl⟩
        exact ⟨rfl, rfl⟩

/-- A condition is on a leaf: it is the leaf's own, or that of a composite around it. -/
def Revision.Bears (r : Revision) (id : Bytes) (c : Condition) : Prop :=
  ∃ n ∈ r.nodes, (n.id = id ∨ r.Contains n.id id) ∧ n.condition = c

namespace NormalGraph

variable {g : NormalGraph} {r : Revision}

/-- The conditions on a leaf. -/
def conditions (g : NormalGraph) (m : NormalNode) : List Condition :=
  (g.scopes m.node.id).map Node.condition ++ [m.node.condition]

/-- The conditions on a leaf are those of the nodes that are the leaf or have it inside. -/
theorem mem_conditions_iff (hg : g.Stands r) (hacyclic : ∀ id, ¬TransGen r.Lists id id)
    {m : NormalNode} (hm : m ∈ g.nodes) (hleaf : m.node.isComposite = false) {c : Condition} :
    c ∈ g.conditions m ↔ ∃ n ∈ r.nodes, (n.id = m.node.id ∨ r.Contains n.id m.node.id) ∧
      c = n.condition.normal := by
  unfold conditions
  simp only [List.mem_append, List.mem_map, List.mem_singleton,
    mem_scopes_iff (hg.lists_eq ▸ hacyclic), composites, List.mem_filter, hg.standsFor_iff]
  constructor
  · rintro (⟨_, ⟨⟨⟨m', hm', rfl⟩, -⟩, hstands⟩, rfl⟩ | rfl)
    · obtain ⟨n, hn, hmn⟩ := hg.declared m' hm'
      have hr := n.represents_normal
      rw [← hmn] at hr
      rw [hr.id] at hstands
      exact ⟨n, hn, hstands.2, hr.condition⟩
    · obtain ⟨n, hn, hmn⟩ := hg.declared m hm
      have hr := n.represents_normal
      rw [← hmn] at hr
      exact ⟨n, hn, .inl hr.id.symm, hr.condition⟩
  · rintro ⟨n, hn, hid, rfl⟩
    obtain ⟨m', hm', hmn⟩ := hg.represented n hn
    rcases hid with hid | hinside
    · rw [hg.eq_of_represents hm hm' (hid.symm.trans hmn.id.symm)]
      exact .inr hmn.condition.symm
    · refine .inl ⟨m'.node, ⟨⟨⟨m', hm', rfl⟩, ?_⟩, ?_⟩, hmn.condition⟩
      · -- A node that contains something has members, so it is a composite.
        obtain ⟨inner, ⟨n', hn', hid', hin⟩, -⟩ := Relation.TransGen.head'_iff.1 hinside
        obtain ⟨m'', hm'', hmn'⟩ := hg.represented n' hn'
        have hsame := hg.eq_of_represents hm' hm'' (by rw [hmn.id, hmn'.id, hid'])
        rw [hsame, hmn'.isComposite]
        by_contra hplain
        rw [Node.members_of_not_isComposite (by simpa using hplain)] at hin
        cases hin
      · rw [hmn.id]
        exact ⟨hg.isLeaf_iff.1 ⟨m, hg.find?_eq hm, hleaf⟩, .inr hinside⟩

section FlatNodes

variable (hg : g.Stands r) (hacyclic : ∀ id, ¬TransGen r.Lists id id)
  {m : NormalNode} (hm : m ∈ g.nodes) (hleaf : m.node.isComposite = false)

include hg hacyclic hm hleaf

/-- The conditions of a flat leaf are the normal forms of those that are on the leaf. -/
theorem exists_condition_iff {P : Condition → Prop} :
    (∃ c ∈ g.conditions m, P c) ↔ ∃ c, r.Bears m.node.id c ∧ P c.normal := by
  simp only [mem_conditions_iff hg hacyclic hm hleaf]
  constructor
  · rintro ⟨_, ⟨n, hn, hid, rfl⟩, hP⟩
    exact ⟨n.condition, ⟨n, hn, hid, rfl⟩, hP⟩
  · rintro ⟨_, ⟨n, hn, hid, rfl⟩, hP⟩
    exact ⟨n.condition.normal, ⟨n, hn, hid, rfl⟩, hP⟩

theorem mem_labels_flatNode_iff {l : Bytes} :
    l ∈ (g.flatNode m).labels ↔ ∃ c, r.Bears m.node.id c ∧ l ∈ c.labels := by
  change l ∈ sortedDistinct ((g.conditions m).flatMap (·.labels)) ↔ _
  rw [mem_sortedDistinct, List.mem_flatMap, exists_condition_iff hg hacyclic hm hleaf]
  simp only [Condition.normal, mem_sortedDistinct]

theorem mem_expressions_flatNode_iff {x : SourcedExpr} :
    x ∈ (g.flatNode m).expressions ↔ ∃ c, r.Bears m.node.id c ∧ c.sourced? = some x := by
  change x ∈ (g.conditions m).filterMap Condition.sourced? ↔ _
  rw [List.mem_filterMap, exists_condition_iff hg hacyclic hm hleaf]
  rfl

/-- A flat leaf has its conditions met exactly where the leaf is enabled. -/
theorem met_flatNode_iff (hchecked : ∀ n ∈ r.nodes, n.condition.expression ≠ [] →
      ∃ x, checkedExpression false n.condition.expression = .ok x) {e : Evidence} :
    (g.flatNode m).Met e ↔ r.Enabled e m.node.id := by
  constructor
  · intro h n hn hid
    have hbears : r.Bears m.node.id n.condition := ⟨n, hn, hid, rfl⟩
    refine ⟨fun l hl => ?_, fun hne => ?_⟩
    · exact h.labels l ((mem_labels_flatNode_iff hg hacyclic hm hleaf).2 ⟨_, hbears, hl⟩)
    · obtain ⟨x, hx⟩ := hchecked n hn hne
      have hp := parse_of_checkedExpression hx
      refine ⟨x, hp, h.expressions ⟨n.condition.expression, x⟩ ?_⟩
      exact (mem_expressions_flatNode_iff hg hacyclic hm hleaf).2
        ⟨_, hbears, mem_sourced?_iff.2 ⟨hne, hp, rfl⟩⟩
  · intro h
    refine ⟨fun l hl => ?_, fun x hx => ?_⟩
    · obtain ⟨_, ⟨n, hn, hid, rfl⟩, hl⟩ := (mem_labels_flatNode_iff hg hacyclic hm hleaf).1 hl
      exact (h n hn hid).labels l hl
    · obtain ⟨_, ⟨n, hn, hid, rfl⟩, hx⟩ := (mem_expressions_flatNode_iff hg hacyclic hm hleaf).1 hx
      obtain ⟨hne, hp, -⟩ := mem_sourced?_iff.1 hx
      obtain ⟨y, hy, hv⟩ := (h n hn hid).expression hne
      rw [hy] at hp
      cases hp
      exact hv

/-- The labels and expressions of a flat leaf can be used. -/
theorem usable_flatNode (hchecked : ∀ n ∈ r.nodes, n.condition.expression ≠ [] →
      ∃ x, checkedExpression false n.condition.expression = .ok x) : (g.flatNode m).Usable := by
  refine ⟨fun l hl => ?_, fun x hx => ?_⟩
  · obtain ⟨_, ⟨n, hn, -, rfl⟩, hl⟩ := (mem_labels_flatNode_iff hg hacyclic hm hleaf).1 hl
    exact hg.labels n hn l hl
  · obtain ⟨_, ⟨n, hn, -, rfl⟩, hx⟩ := (mem_expressions_flatNode_iff hg hacyclic hm hleaf).1 hx
    obtain ⟨hne, hp, -⟩ := mem_sourced?_iff.1 hx
    obtain ⟨y, hy⟩ := hchecked n hn hne
    rw [parse_of_checkedExpression hy] at hp
    cases hp
    exact ⟨_, hy⟩

end FlatNodes

/-! ## All leaves -/

theorem mem_flat_ids_iff (hg : g.Stands r) {id : Bytes} : id ∈ g.flat.ids ↔ r.IsLeaf id := by
  unfold FlatGraph.ids flat
  rw [List.map_map]
  constructor
  · intro h
    obtain ⟨m, hm, rfl⟩ := List.mem_map.1 h
    obtain ⟨hm, hleaf⟩ := List.mem_filter.1 hm
    exact hg.isLeaf_iff.1 ⟨m, hg.find?_eq hm, by simpa using hleaf⟩
  · rintro ⟨n, hn, rfl, hleaf⟩
    obtain ⟨m, hm, hmn⟩ := hg.represented n hn
    refine List.mem_map.2 ⟨m, List.mem_filter.2 ⟨hm, by simp [hmn.isComposite, hleaf]⟩, ?_⟩
    exact hmn.id

theorem nodup_flat_ids (hg : g.Stands r) : g.flat.ids.Nodup := by
  unfold FlatGraph.ids flat
  rw [List.map_map]
  exact hg.nodup.sublist (List.filter_sublist.map _)

end NormalGraph

/-- A flat graph portrays all leaves of a revision: it says the same about them. -/
structure FlatGraph.Portrays (k : FlatGraph) (r : Revision) : Prop where
  nodup : k.ids.Nodup
  leaves : ∀ id, id ∈ k.ids ↔ r.IsLeaf id
  edges : ∀ e, e ∈ k.edges ↔ r.Joins e.kind e.source e.target
  usable : ∀ n ∈ k.nodes, n.Usable
  met : ∀ n ∈ k.nodes, ∀ e, n.Met e ↔ r.Enabled e n.id
  authored : ∀ n ∈ k.nodes, ∀ x ∈ n.expressions, ∃ m ∈ r.nodes, m.condition.sourced? = some x

/-- The ends of an edge are leaves. -/
theorem FlatGraph.Portrays.ends {k : FlatGraph} {r : Revision} (h : k.Portrays r) :
    ∀ e ∈ k.edges, e.source ∈ k.ids ∧ e.target ∈ k.ids := by
  intro e he
  obtain ⟨-, -, -, ⟨hsource, -⟩, ⟨htarget, -⟩⟩ := (h.edges e).1 he
  exact ⟨(h.leaves _).2 hsource, (h.leaves _).2 htarget⟩

/-- The graph of all leaves of a checked revision portrays them. -/
theorem Revision.Checked.portrays {r : Revision} (h : r.Checked) :
    (NormalGraph.ofRevision r).1.flat.Portrays r := by
  have hg := NormalGraph.stands_ofRevision h.normal
  have hcoherent := Revision.checked_iff.1 h
  have hacyclic := hcoherent.membership
  have hchecked : ∀ n ∈ r.nodes, n.condition.expression ≠ [] →
      ∃ x, checkedExpression false n.condition.expression = .ok x := fun n hn hne => by
    obtain ⟨x, hx, hplain⟩ := hcoherent.expressions n hn hne
    exact ⟨x, checkedExpression_eq_ok_iff.2 ⟨hx, .inr hplain⟩⟩
  have hnodes : ∀ n ∈ (NormalGraph.ofRevision r).1.flat.nodes,
      ∃ m ∈ (NormalGraph.ofRevision r).1.nodes, m.node.isComposite = false ∧
        n = (NormalGraph.ofRevision r).1.flatNode m := by
    intro n hn
    obtain ⟨m, hm, rfl⟩ := List.mem_map.1 hn
    obtain ⟨hm, hleaf⟩ := List.mem_filter.1 hm
    exact ⟨m, hm, by simpa using hleaf, rfl⟩
  refine ⟨NormalGraph.nodup_flat_ids hg, fun id => NormalGraph.mem_flat_ids_iff hg,
    fun e => hg.mem_expandedEdges_iff hacyclic, fun n hn => ?_, fun n hn e => ?_,
    fun n hn x hx => ?_⟩
  · obtain ⟨m, hm, hleaf, rfl⟩ := hnodes n hn
    exact NormalGraph.usable_flatNode hg hacyclic hm hleaf hchecked
  · obtain ⟨m, hm, hleaf, rfl⟩ := hnodes n hn
    exact NormalGraph.met_flatNode_iff hg hacyclic hm hleaf hchecked
  · obtain ⟨m, hm, hleaf, rfl⟩ := hnodes n hn
    obtain ⟨_, ⟨m', hm', -, rfl⟩, hx⟩ :=
      (NormalGraph.mem_expressions_flatNode_iff hg hacyclic hm hleaf).1 hx
    exact ⟨m', hm', hx⟩

/-! ## Kept leaves -/

/-- A flat graph depicts the kept leaves of a revision: it says the same about them. -/
structure FlatGraph.Depicts (k : FlatGraph) (r : Revision) (o : CompilerOptions) : Prop where
  nodup : k.ids.Nodup
  kept : ∀ id, id ∈ k.ids ↔ r.Kept o id
  edges : ∀ e, e ∈ k.edges ↔ e.source ≠ e.target ∧ r.Kept o e.source ∧ r.Kept o e.target ∧
    r.Joins e.kind e.source e.target
  usable : ∀ n ∈ k.nodes, n.Usable
  met : ∀ n ∈ k.nodes, ∀ e, n.Met e ↔ r.Enabled e n.id
  requires : ∀ a b, r.Kept o a → r.Joins .requires a b → r.Kept o b ∧ a ≠ b
  flowsTo : ∀ a b, r.Kept o b → r.Joins .flowsTo a b → ∃ c, r.Kept o c ∧ r.Joins .flowsTo c b
  apart : ∀ kind a b, (⟨a, kind, b⟩ : Edge).ordering?.isSome → r.Joins kind a b → a ≠ b

namespace FlatGraph

theorem mem_ids_without {g : FlatGraph} {d : Dropped} {id : Bytes} :
    id ∈ (g.without d).ids ↔ id ∈ g.ids ∧ d.has id = false := by
  simp only [without, ids, List.mem_map, List.mem_filter, Bool.not_eq_true']
  constructor
  · rintro ⟨n, ⟨hn, hd⟩, rfl⟩
    exact ⟨⟨n, hn, rfl⟩, hd⟩
  · rintro ⟨⟨n, hn, rfl⟩, hd⟩
    exact ⟨n, ⟨hn, hd⟩, rfl⟩

theorem mem_edges_without {g : FlatGraph} {d : Dropped} {e : Edge} :
    e ∈ (g.without d).edges ↔ e ∈ g.edges ∧ e.source ≠ e.target ∧
      e.source ∈ (g.without d).ids ∧ e.target ∈ (g.without d).ids := by
  have hany : ∀ id, ((g.nodes.filter fun n => !d.has n.id).any (·.id == id)) = true ↔
      id ∈ (g.without d).ids := by
    intro id
    simp [without, ids, List.any_eq_true, and_assoc]
  change e ∈ g.edges.filter _ ↔ _
  rw [List.mem_filter]
  simp only [Bool.and_eq_true, hany, bne_iff_ne, and_assoc]

end FlatGraph

/-- What is kept is a leaf. -/
theorem Revision.Checked.isLeaf_of_kept {r : Revision} {o : CompilerOptions} (h : r.Checked)
    {id : Bytes} (hkept : r.Kept o id) : r.IsLeaf id :=
  (h.portrays.leaves id).1 (FlatGraph.mem_ids_without.1 hkept).1

/-- The graph of kept leaves of a checked revision depicts them. -/
theorem Revision.Checked.depicts {r : Revision} (h : r.Checked) (o : CompilerOptions) :
    (r.keptGraph o).Depicts r o := by
  have hall := h.portrays
  let g := (NormalGraph.ofRevision r).1.flat
  let d := g.dropped o.dropUnreachable
  have hids : ∀ id, id ∈ (r.keptGraph o).ids ↔ id ∈ g.ids ∧ d.has id = false := fun id =>
    FlatGraph.mem_ids_without
  have hnodes : ∀ n ∈ (r.keptGraph o).nodes, n ∈ g.nodes := fun n hn => (List.mem_filter.1 hn).1
  have hsettled := FlatGraph.settled_dropped hall.nodup (fun e he => (hall.ends e he).1)
    o.dropUnreachable
  have hapart : ∀ kind a b, (⟨a, kind, b⟩ : Edge).ordering?.isSome → r.Joins kind a b →
      a ≠ b := by
    rintro kind a _ hsome hj rfl
    obtain ⟨⟨x, y⟩, hxy⟩ := Option.isSome_iff_exists.1 hsome
    have hx : x = a ∧ y = a := by
      rcases Edge.ends_of_ordering? hxy with ⟨h1, h2⟩ | ⟨h1, h2⟩
      · exact ⟨h1, h2⟩
      · exact ⟨h1, h2⟩
    rw [hx.1, hx.2] at hxy
    exact (Revision.checked_iff.1 h).ordering a
      (.single (Revision.precedes_iff.2 ⟨⟨a, kind, a⟩, hj, hxy⟩))
  refine ⟨?_, fun id => Iff.rfl, ?_, fun n hn => hall.usable n (hnodes n hn),
    fun n hn => hall.met n (hnodes n hn), ?_, ?_, hapart⟩
  · exact hall.nodup.sublist (List.filter_sublist.map _)
  · intro e
    change e ∈ (g.without d).edges ↔ _
    rw [FlatGraph.mem_edges_without, hall.edges]
    constructor
    · rintro ⟨h1, h2, h3, h4⟩
      exact ⟨h2, h3, h4, h1⟩
    · rintro ⟨h1, h2, h3, h4⟩
      exact ⟨h4, h1, h2, h3⟩
  · intro a b ha hj
    have he := (hall.edges ⟨a, .requires, b⟩).2 hj
    refine ⟨?_, hapart _ _ _ rfl hj⟩
    exact (hids b).2 ⟨(hall.ends _ he).2,
      FlatGraph.kept_of_requires hsettled he ((hids a).1 ha).2⟩
  · intro a b hb hj
    have hpred := FlatGraph.mem_predecessors_iff.2 ((hall.edges ⟨a, .flowsTo, b⟩).2 hj)
    obtain ⟨c, hc, hkept⟩ := FlatGraph.exists_kept_predecessor hsettled ((hids b).1 hb).1
      (List.ne_nil_of_mem hpred) ((hids b).1 hb).2
    have hedge := FlatGraph.mem_predecessors_iff.1 hc
    exact ⟨c, (hids c).2 ⟨(hall.ends _ hedge).1, hkept⟩, (hall.edges _).1 hedge⟩

theorem Revision.Passed.depicts {r : Revision} {o : CompilerOptions} {b : Blueprint}
    (h : r.Passed o b) : (r.keptGraph o).Depicts r o := h.checked.depicts o

/-- Rivals of a kept leaf are kept. -/
theorem Revision.kept_of_rivals {r : Revision} {o : CompilerOptions} {x y : Bytes}
    (h : r.Rivals o x y) : r.Kept o x ↔ r.Kept o y := by
  induction h with
  | rel x y h => exact ⟨fun _ => h.2.1, fun _ => h.1⟩
  | refl x => exact Iff.rfl
  | symm x y _ ih => exact ih.symm
  | trans x y z _ _ ihxy ihyz => exact ihxy.trans ihyz

namespace FlatGraph.Depicts

variable {k : FlatGraph} {r : Revision} {o : CompilerOptions}

theorem tidy (h : k.Depicts r o) : k.Tidy := by
  refine ⟨h.nodup, fun e he => ?_⟩
  obtain ⟨-, hsource, htarget, -⟩ := (h.edges e).1 he
  exact ⟨(h.kept _).2 hsource, (h.kept _).2 htarget⟩

/-- Rivals are what the exclusions between kept leaves connect. -/
theorem rivals_iff (h : k.Depicts r o) {x y : Bytes} :
    r.Rivals o x y ↔ EqvGen k.Excludes x y := by
  constructor
  · intro hxy
    induction hxy with
    | rel x y hjoins =>
      obtain ⟨hx, hy, hjoins⟩ := hjoins
      by_cases hsame : x = y
      · rw [hsame]
        exact .refl y
      · exact .rel x y ⟨⟨x, .excludes, y⟩, (h.edges _).2 ⟨hsame, hx, hy, hjoins⟩, rfl, rfl, rfl⟩
    | refl x => exact .refl x
    | symm x y _ ih => exact .symm x y ih
    | trans x y z _ _ ihxy ihyz => exact .trans x y z ihxy ihyz
  · intro hxy
    refine Relation.EqvGen.mono ?_ x y hxy
    rintro x y ⟨⟨_, _, _⟩, he, rfl, rfl, rfl⟩
    obtain ⟨-, hx, hy, hjoins⟩ := (h.edges _).1 he
    exact ⟨hx, hy, hjoins⟩

end FlatGraph.Depicts
end DecisionEngine
