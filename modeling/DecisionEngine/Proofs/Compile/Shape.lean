import DecisionEngine.Compile.FlatGraph
import Mathlib.Data.List.Forall2
/-!
# Graphs of one shape

Which leaves a composite has, and which leaves the edges join, depends only on the ids, the kinds
and the members of the nodes, and on the edges.  So do all checks of a graph but the one of the
expressions.

* `NormalGraph.SameShape` — two graphs have nodes of the same shapes, in order, and the same edges.
* `NormalGraph.SameShape.expandedEdges_eq` — the edges join the same leaves.
* `NormalGraph.SameShape.lint_eq` — the same is found, where the same is found in expressions.
-/

namespace DecisionEngine

/-- What a node adds to the shape of its graph. -/
def Node.shape (n : Node) : Bytes × NodeKind × List Bytes := (n.id, n.kind, n.body.members)

theorem Node.shape_eq_iff {n n' : Node} : n.shape = n'.shape ↔
    n.id = n'.id ∧ n.kind = n'.kind ∧ n.body.members = n'.body.members := by
  simp [shape]

namespace NormalGraph

/-- Two graphs have the same shape. -/
structure SameShape (g g' : NormalGraph) : Prop where
  nodes : g.nodes.map (·.node.shape) = g'.nodes.map (·.node.shape)
  edges : g.edges = g'.edges

theorem shape_find? (g : NormalGraph) (id : Bytes) : (g.find? id).map (·.node.shape) =
    (g.nodes.map (·.node.shape)).find? (·.1 == id) := by
  rw [List.find?_map]
  rfl

namespace SameShape

variable {g g' : NormalGraph}

/-! ## Looking nodes up -/

theorem find?_eq (h : g.SameShape g') (id : Bytes) :
    (g.find? id).map (·.node.shape) = (g'.find? id).map (·.node.shape) := by
  rw [shape_find?, shape_find?, h.nodes]

theorem has_eq (h : g.SameShape g') : g.has = g'.has := by
  funext id
  unfold has
  rw [← Option.isSome_map, h.find?_eq, Option.isSome_map]

theorem ids_eq (h : g.SameShape g') : g.ids = g'.ids := by
  have hids := congrArg (List.map Prod.fst) h.nodes
  rwa [List.map_map, List.map_map] at hids

/-- What is said of each node alike, given its shape, is the same for the nodes of both graphs. -/
theorem flatMap_eq {β : Type} (h : g.SameShape g') {f f' : Node → List β}
    (hf : ∀ n n', n.shape = n'.shape → f n = f' n') :
    (g.nodes.flatMap fun m => f m.node) = g'.nodes.flatMap fun m => f' m.node := by
  have hnodes := h.nodes
  rw [← List.forall₂_eq_eq_eq, List.forall₂_map_left_iff, List.forall₂_map_right_iff] at hnodes
  rw [List.flatMap_def, List.flatMap_def]
  refine congrArg List.flatten ?_
  rw [← List.forall₂_eq_eq_eq, List.forall₂_map_left_iff, List.forall₂_map_right_iff]
  exact hnodes.imp fun _ _ hm => hf _ _ hm

/-! ## Leaves -/

theorem membership_eq (h : g.SameShape g') : g.membership = g'.membership := by
  have hmembers : g.members = g'.members := by
    funext id
    have hfind := h.find?_eq id
    unfold members
    rw [h.has_eq]
    cases hg : g.find? id <;> cases hg' : g'.find? id <;> rw [hg, hg'] at hfind <;>
      simp_all [Node.shape_eq_iff]
  unfold membership
  rw [h.ids_eq, hmembers]

theorem gather_eq (h : g.SameShape g') : g.gather = g'.gather := by
  funext search id
  have hfind := h.find?_eq id
  unfold gather
  cases hg : g.find? id <;> cases hg' : g'.find? id <;> rw [hg, hg'] at hfind <;>
    simp_all [Node.shape_eq_iff, Node.isComposite]

/-- The same searches are made for leaves. -/
theorem leavesOf_eq (h : g.SameShape g') : g.leavesOf = g'.leavesOf := by
  funext depth
  induction depth with
  | zero => rfl
  | succ depth ih =>
    funext id
    rw [leavesOf, leavesOf, h.gather_eq, ih]

theorem depth_eq (h : g.SameShape g') : g.depth = g'.depth := by
  have hlength := congrArg List.length h.nodes
  rw [List.length_map, List.length_map] at hlength
  rw [depth, depth, hlength]

/-- The edges join the same leaves. -/
theorem expandedEdges_eq (h : g.SameShape g') : g.expandedEdges = g'.expandedEdges := by
  have hedge : g.expandEdge = g'.expandEdge := by
    funext e
    unfold expandEdge
    rw [h.leavesOf_eq, h.depth_eq]
  unfold expandedEdges expandEdges
  rw [hedge, h.edges]

/-- The composites around a leaf are the same ones, where nodes are changed without a change of
shape. -/
theorem scopes_eq_map (h : g.SameShape g') {f : Node → Node}
    (hnodes : g.nodes.map (·.node) = (g'.nodes.map (·.node)).map f)
    (hshape : ∀ n, (f n).shape = n.shape) (id : Bytes) :
    g.scopes id = (g'.scopes id).map f := by
  have hcomposites : g.composites = g'.composites.map f := by
    unfold composites
    rw [hnodes, List.filter_map]
    refine congrArg (List.map f) (List.filter_congr fun n _ => ?_)
    exact congrArg (· == .composite) (Node.shape_eq_iff.1 (hshape n)).2.1
  have hids : g.composites.map (·.id) = g'.composites.map (·.id) := by
    rw [hcomposites, List.map_map]
    exact List.map_congr_left fun n _ => (Node.shape_eq_iff.1 (hshape n)).1
  have hleaves : g.compositeLeaves = g'.compositeLeaves := by
    unfold compositeLeaves
    rw [hids, h.leavesOf_eq, h.depth_eq]
  unfold scopes
  rw [hleaves, hcomposites, List.zip_map_left, List.filter_map, List.map_map, List.map_map]
  rfl

/-! ## Checks -/

theorem references_eq (h : g.SameShape g') : g.references = g'.references := by
  have hdangling : g.danglingEdges = g'.danglingEdges := by
    unfold danglingEdges missingEnds
    rw [h.has_eq, h.edges]
  have hmembers : (g.nodes.flatMap fun n => g.danglingMembers n.node) =
      g'.nodes.flatMap fun n => g'.danglingMembers n.node :=
    h.flatMap_eq fun n n' hn => by
      obtain ⟨hid, -, hmembers⟩ := Node.shape_eq_iff.1 hn
      unfold danglingMembers
      rw [h.has_eq, hid, hmembers]
  have hempty : (g.nodes.flatMap fun n => emptyComposite n.node) =
      g'.nodes.flatMap fun n => emptyComposite n.node :=
    h.flatMap_eq fun n n' hn => by
      obtain ⟨hid, hkind, hmembers⟩ := Node.shape_eq_iff.1 hn
      unfold emptyComposite Node.isComposite
      rw [hid, hkind, hmembers]
  unfold references
  rw [hdangling, hmembers, hempty]

theorem membershipCycles_eq (h : g.SameShape g') : g.membershipCycles = g'.membershipCycles := by
  unfold membershipCycles
  rw [h.membership_eq]

theorem orderingCycles_eq (h : g.SameShape g') : g.orderingCycles = g'.orderingCycles := by
  unfold orderingCycles precedence
  rw [h.expandedEdges_eq, h.ids_eq]

theorem ignoredSelfEdges_eq (h : g.SameShape g') : g.ignoredSelfEdges = g'.ignoredSelfEdges := by
  unfold ignoredSelfEdges
  rw [h.edges]

theorem missingEntry_eq (h : g.SameShape g') : g.missingEntry = g'.missingEntry := by
  have hany : ∀ g : NormalGraph, (g.nodes.any fun n => n.node.kind == .decision) =
      (g.nodes.map (·.node.shape)).any fun s => s.2.1 == .decision := fun g => by
    rw [List.any_map]
    rfl
  unfold missingEntry
  rw [hany, hany, h.nodes]

theorem badGuardrails_eq (h : g.SameShape g') (seen : List Bytes) (rails : List Guardrail) :
    g.badGuardrails seen rails = g'.badGuardrails seen rails := by
  have herrors : ∀ rail, g.guardrailErrors rail = g'.guardrailErrors rail := fun rail => by
    unfold guardrailErrors
    rw [h.has_eq]
  induction rails generalizing seen with
  | nil => rfl
  | cons rail rails ih => rw [badGuardrails, badGuardrails, ih, ih, herrors]

/-- The same is found, where the same is found in expressions. -/
theorem lint_eq (h : g.SameShape g') (hexpressions : g.badExpressions = g'.badExpressions)
    (rails : List Guardrail) : g.lint rails = g'.lint rails := by
  unfold lint
  rw [h.references_eq, h.membershipCycles_eq, h.orderingCycles_eq, h.ignoredSelfEdges_eq,
    h.missingEntry_eq, hexpressions, h.badGuardrails_eq]

end SameShape
end NormalGraph
end DecisionEngine
