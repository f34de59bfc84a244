import DecisionEngine.Proofs.Compile.Kept
import DecisionEngine.Proofs.Compile.Shape
/-!
# Revisions with another expression

What happens to a rule graph when the expression of one of its nodes is replaced.  Everything but
the conditions of the leaves inside that node stays as it was: composites have the same leaves, and
edges join the same ones.  If the old expression is always false and the new one is never true, then
pruning could tell that these leaves can never fire, and they still cannot.

* `Revision.withExpression` — a revision with another expression of a node.
* `NormalGraph.ofRevision_withExpression` — its normal form has the other expression.
* `FlatNode.Dims` — a flat leaf that is the same, or could be told to be hopeless and never fires.
* `NormalGraph.forall₂_dims` — the flat leaves of the two graphs, one by one.
-/

namespace DecisionEngine

/-! ## Replacing expressions -/

/-- The condition with another expression. -/
def Condition.withExpression (c : Condition) (source : Bytes) : Condition :=
  { c with expression := source }

/-- The content of a node with another expression. -/
def NodeBody.withExpression (source : Bytes) : NodeBody → NodeBody
  | decision c => decision (c.withExpression source)
  | evaluator c => evaluator (c.withExpression source)
  | action c o => action (c.withExpression source) o
  | composite c ms => composite (c.withExpression source) ms

/-- A node, with another expression if it has a certain id. -/
def Node.withExpression (x source : Bytes) (n : Node) : Node :=
  { n with body := if n.id = x then n.body.withExpression source else n.body }

/-- A node of a normal form, with another expression if it has a certain id. -/
def NormalNode.withExpression (x source : Bytes) (m : NormalNode) : NormalNode :=
  { m with node := m.node.withExpression x source }

/-- A normal form with another expression of a node. -/
def NormalGraph.withExpression (g : NormalGraph) (x source : Bytes) : NormalGraph :=
  { g with nodes := g.nodes.map (NormalNode.withExpression x source) }

/-- A revision with another expression of a node, wherever it is declared. -/
def Revision.withExpression (r : Revision) (x source : Bytes) : Revision :=
  { r with nodes := r.nodes.map (Node.withExpression x source) }

namespace NodeBody

variable (source : Bytes) (b : NodeBody)

@[simp] theorem withExpression_kind : (b.withExpression source).kind = b.kind := by
  cases b <;> rfl

@[simp] theorem withExpression_members : (b.withExpression source).members = b.members := by
  cases b <;> rfl

@[simp] theorem withExpression_outcome? : (b.withExpression source).outcome? = b.outcome? := by
  cases b <;> rfl

@[simp] theorem withExpression_condition :
    (b.withExpression source).condition = b.condition.withExpression source := by
  cases b <;> rfl

@[simp] theorem withExpression_normal :
    (b.withExpression source).normal = b.normal.withExpression source := by
  cases b <;> rfl

end NodeBody

namespace Node

variable (x source : Bytes) (n : Node)

@[simp] theorem withExpression_id : (n.withExpression x source).id = n.id := rfl

@[simp] theorem withExpression_kind : (n.withExpression x source).kind = n.kind := by
  unfold withExpression kind
  split <;> simp

@[simp] theorem withExpression_isComposite :
    (n.withExpression x source).isComposite = n.isComposite := by
  simp [isComposite]

@[simp] theorem withExpression_members :
    (n.withExpression x source).body.members = n.body.members := by
  unfold withExpression
  split <;> simp

@[simp] theorem withExpression_shape : (n.withExpression x source).shape = n.shape :=
  shape_eq_iff.2 ⟨rfl, n.withExpression_kind x source, n.withExpression_members x source⟩

@[simp] theorem withExpression_outcome? :
    (n.withExpression x source).body.outcome? = n.body.outcome? := by
  unfold withExpression
  split <;> simp

@[simp] theorem withExpression_labels :
    (n.withExpression x source).condition.labels = n.condition.labels := by
  unfold withExpression condition
  split <;> simp [Condition.withExpression]

@[simp] theorem withExpression_normal :
    (n.withExpression x source).normal = n.normal.withExpression x source := by
  unfold withExpression normal
  dsimp only
  split <;> simp

variable {x n}

theorem withExpression_of_ne (h : n.id ≠ x) : n.withExpression x source = n := by
  unfold withExpression
  rw [if_neg h]

theorem condition_withExpression (h : n.id = x) :
    (n.withExpression x source).condition = n.condition.withExpression source := by
  unfold withExpression condition
  rw [if_pos h, NodeBody.withExpression_condition]

end Node

/-! ## Normal forms -/

namespace NormalGraph

variable (x source : Bytes)

theorem nodeError?_withExpression (position : Nat) (n : Node) :
    nodeError? position (n.withExpression x source) = nodeError? position n := by
  unfold nodeError?
  rw [Node.withExpression_id, Node.withExpression_labels]

theorem find?_map_withExpression (ms : List NormalNode) (id : Bytes) :
    (ms.map (NormalNode.withExpression x source)).find? (·.node.id == id) =
      (ms.find? (·.node.id == id)).map (NormalNode.withExpression x source) := by
  rw [List.find?_map]
  rfl

/-- The nodes that are taken in have the other expression. -/
theorem collect_withExpression (declared : List (Node × Nat)) (known : List NormalNode) :
    (collect (declared.map fun p => (p.1.withExpression x source, p.2))
      (known.map (NormalNode.withExpression x source))).1 =
      (collect declared known).1.map (NormalNode.withExpression x source) := by
  induction declared generalizing known with
  | nil => rfl
  | cons first rest ih =>
    obtain ⟨n, position⟩ := first
    rw [List.map_cons, collect, collect, nodeError?_withExpression]
    cases nodeError? position n with
    | some d => exact ih known
    | none =>
      dsimp only
      rw [Node.withExpression_id, find?_map_withExpression]
      cases known.find? (·.node.id == n.id) with
      | none =>
        have hnew := ih (known ++ [⟨n.normal, UInt32.ofNat position⟩])
        rw [List.map_append] at hnew
        simpa [NormalNode.withExpression] using hnew
      | some first =>
        -- A node that was declared before adds nothing, whether the declarations agree or not.
        dsimp only [Option.map_some]
        split <;> split <;> exact ih known

/-- The normal form of a revision with another expression. -/
theorem ofRevision_withExpression (r : Revision) :
    (ofRevision (r.withExpression x source)).1 = (ofRevision r).1.withExpression x source := by
  have hzip : (r.withExpression x source).nodes.zipIdx =
      r.nodes.zipIdx.map fun p => (p.1.withExpression x source, p.2) := by
    unfold Revision.withExpression
    rw [List.zipIdx_map]
    rfl
  have hcollect : (collect (r.withExpression x source).nodes.zipIdx []).1 =
      (collect r.nodes.zipIdx []).1.map (NormalNode.withExpression x source) := by
    rw [hzip]
    exact collect_withExpression x source r.nodes.zipIdx []
  have hsorted := List.map_mergeSort (f := NormalNode.withExpression x source)
    (r := fun a b => decide (a.node.id ≤ b.node.id))
    (s := fun a b => decide (a.node.id ≤ b.node.id))
    (l := (collect r.nodes.zipIdx []).1) fun _ _ _ _ => rfl
  unfold ofRevision withExpression
  dsimp only
  rw [hcollect, ← hsorted]
  rfl

/-! ## Leaves -/

variable (g : NormalGraph)

/-- Another expression leaves the shape of a graph as it is. -/
theorem sameShape_withExpression : (g.withExpression x source).SameShape g := by
  refine ⟨?_, rfl⟩
  unfold withExpression
  rw [List.map_map]
  exact List.map_congr_left fun m _ => Node.withExpression_shape x source m.node

@[simp] theorem withExpression_expandedEdges :
    (g.withExpression x source).expandedEdges = g.expandedEdges :=
  (g.sameShape_withExpression x source).expandedEdges_eq

theorem withExpression_scopes (id : Bytes) : (g.withExpression x source).scopes id =
    (g.scopes id).map (Node.withExpression x source) := by
  have hnodes : (g.withExpression x source).nodes.map (·.node) =
      (g.nodes.map (·.node)).map (Node.withExpression x source) := by
    unfold withExpression
    rw [List.map_map, List.map_map]
    rfl
  exact (g.sameShape_withExpression x source).scopes_eq_map hnodes
    (Node.withExpression_shape x source) id

end NormalGraph

/-! ## Flat leaves -/

/-- A flat leaf is the same in another graph, or can be told to be hopeless where it is, and has
conditions that are never met there. -/
inductive FlatNode.Dims : FlatNode → FlatNode → Prop
  | same (n : FlatNode) : Dims n n
  | hopeless {n n' : FlatNode} (id : n.id = n'.id) (kind : n.kind = n'.kind)
      (told : n.hopeless?.isSome) (unmet : ∀ e, ¬n'.Met e) : Dims n n'

/-- A leaf is hopeless by itself exactly if its labels contradict each other, or an expression is
always false. -/
theorem FlatNode.hopeless?_isSome_iff {n : FlatNode} :
    n.hopeless?.isSome ↔ (contradiction? [] n.labels).isSome ∨
      ∃ x ∈ n.expressions, x.constantResult? = some false := by
  unfold hopeless?
  cases contradiction? [] n.labels with
  | some reason => simp
  | none => simp [List.find?_isSome]

/-- The expression of a condition is recognised to be always false. -/
def Condition.FoldsToFalse (c : Condition) : Prop :=
  ∃ x, c.sourced? = some x ∧ x.constantResult? = some false

/-- An expression that is true in no context. -/
def NeverTrue (source : Bytes) : Prop :=
  ∃ x, Expr.parse source = .ok x ∧ ∀ e, x.value e ≠ .ok (.bool true)

theorem Condition.sourced?_withExpression {source : Bytes} {x : Expr}
    (h : Expr.parse source = .ok x) (c : Condition) :
    (c.withExpression source).sourced? = some ⟨source, x⟩ := by
  refine mem_sourced?_iff.2 ⟨?_, h, rfl⟩
  rintro rfl
  have hempty : (Expr.parse []).toOption = none := by cbv
  rw [h] at hempty
  cases hempty

namespace NormalGraph

variable {x source : Bytes} {g : NormalGraph}

theorem conditions_eq (g : NormalGraph) (m : NormalNode) :
    g.conditions m = (g.scopes m.node.id ++ [m.node]).map Node.condition := by
  rw [List.map_append]
  rfl

/-- The conditions on a leaf, with the other expression. -/
theorem conditions_withExpression (m : NormalNode) :
    (g.withExpression x source).conditions (m.withExpression x source) =
      (g.scopes m.node.id ++ [m.node]).map fun n => (n.withExpression x source).condition := by
  unfold conditions
  rw [List.map_append]
  change ((g.withExpression x source).scopes m.node.id).map _ ++ _ = _
  rw [withExpression_scopes, List.map_map]
  rfl

theorem flatNode_withExpression (m : NormalNode) :
    (g.withExpression x source).flatNode (m.withExpression x source) =
      { g.flatNode m with
        expressions := ((g.scopes m.node.id ++ [m.node]).map fun n =>
          (n.withExpression x source).condition).filterMap Condition.sourced? } := by
  have hlabels : ((g.withExpression x source).conditions (m.withExpression x source)).flatMap
      (·.labels) = (g.conditions m).flatMap (·.labels) := by
    rw [conditions_withExpression, conditions_eq, List.flatMap_map, List.flatMap_map]
    simp only [Node.withExpression_labels]
  have houtcome := Node.withExpression_outcome? x source m.node
  have hkind := Node.withExpression_kind x source m.node
  rw [← conditions_withExpression]
  exact (FlatNode.mk.injEq ..).mpr ⟨rfl, hkind, rfl, rfl, rfl, congrArg sortedDistinct hlabels, rfl,
    houtcome, rfl⟩

/-- A leaf that is neither the node nor inside it stays as it is; the others could be told to be
hopeless, and are never met. -/
theorem dims_flatNode (hfolds : ∀ m ∈ g.nodes, m.node.id = x → m.node.condition.FoldsToFalse)
    (hnever : NeverTrue source) {m : NormalNode} (hm : m ∈ g.nodes) :
    (g.flatNode m).Dims
      ((g.withExpression x source).flatNode (m.withExpression x source)) := by
  rw [flatNode_withExpression]
  by_cases hinside : ∃ n ∈ g.scopes m.node.id ++ [m.node], n.id = x
  · obtain ⟨n, hn, hid⟩ := hinside
    have hnode : ∃ m ∈ g.nodes, m.node = n := by
      rcases List.mem_append.1 hn with hn | hn
      · exact List.mem_map.1 (List.mem_filter.1 (mem_composites_of_mem_scopes hn)).1
      · exact ⟨m, hm, (List.mem_singleton.1 hn).symm⟩
    obtain ⟨m', hm', rfl⟩ := hnode
    obtain ⟨e, he, hfalse⟩ := hfolds m' hm' hid
    obtain ⟨t, ht, hunmet⟩ := hnever
    have hcondition : m'.node.condition ∈ g.conditions m := by
      rw [conditions_eq]
      exact List.mem_map_of_mem hn
    have htold : (g.flatNode m).hopeless?.isSome := FlatNode.hopeless?_isSome_iff.2
      (.inr ⟨e, List.mem_filterMap.2 ⟨_, hcondition, he⟩, hfalse⟩)
    refine .hopeless rfl rfl htold fun ev hmet => hunmet ev (hmet.expressions ⟨source, t⟩
      (List.mem_filterMap.2 ⟨_, List.mem_map_of_mem hn, ?_⟩))
    rw [Node.condition_withExpression source hid]
    exact Condition.sourced?_withExpression ht _
  · have hsame : ((g.scopes m.node.id ++ [m.node]).map fun n =>
        (n.withExpression x source).condition) = (g.scopes m.node.id ++ [m.node]).map
          Node.condition := by
      refine List.map_congr_left fun n hn => ?_
      rw [Node.withExpression_of_ne source fun hid => hinside ⟨n, hn, hid⟩]
    rw [hsame, List.map_append]
    exact .same _

/-- The flat leaves with the other expression, one by one. -/
theorem forall₂_dims (hfolds : ∀ m ∈ g.nodes, m.node.id = x → m.node.condition.FoldsToFalse)
    (hnever : NeverTrue source) :
    List.Forall₂ FlatNode.Dims g.flat.nodes (g.withExpression x source).flat.nodes := by
  have hleaves : (g.withExpression x source).nodes.filter (fun n => !n.node.isComposite) =
      (g.nodes.filter fun n => !n.node.isComposite).map (NormalNode.withExpression x source) := by
    unfold withExpression
    rw [List.filter_map]
    congr 2
    funext m
    simp [NormalNode.withExpression]
  unfold flat
  dsimp only
  rw [hleaves, List.forall₂_map_left_iff, List.forall₂_map_right_iff, List.forall₂_map_right_iff,
    List.forall₂_same]
  exact fun m hm => dims_flatNode hfolds hnever (List.mem_filter.1 hm).1

/-- All declarations of a node have the same expression. -/
theorem Stands.foldsToFalse {r : Revision} (hg : g.Stands r) {n : Node} (hn : n ∈ r.nodes)
    (h : n.condition.FoldsToFalse) :
    ∀ m ∈ g.nodes, m.node.id = n.id → m.node.condition.FoldsToFalse := by
  intro m hm hid
  obtain ⟨m', hm', hrepresents⟩ := hg.represented n hn
  rw [hg.eq_of_represents hm hm' (hid.trans hrepresents.id.symm), hrepresents.condition]
  exact h

end NormalGraph
end DecisionEngine
