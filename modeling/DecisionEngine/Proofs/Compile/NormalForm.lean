import DecisionEngine.Proofs.Compile.Expansion
import DecisionEngine.Proofs.Compile.Meaning
import Mathlib.Data.List.Nodup
/-!
# The normal form and the authored graph

A graph in normal form says the same as the revision it was made from: its nodes stand for the
declared ones, with the same members and conditions up to order, and its edges are the declared
ones.

* `NormalGraph.Stands` — a graph is the normal form of a revision in which no node is wrong.
* `NormalGraph.stands_ofRevision` — taking a revision in without errors gives such a graph.
* `NormalGraph.Stands.standsFor_iff` — nodes stand for the same leaves.
* `NormalGraph.Stands.mem_expandedEdges_iff` — edges between leaves are what edges join.
-/

namespace DecisionEngine

open Relation (ReflTransGen TransGen)

/-! ## Normal nodes -/

/-- A node of a normal form represents a declared node: both say the same, up to the order of
labels and members. -/
structure Node.Represents (m n : Node) : Prop where
  id : m.id = n.id
  condition : m.condition = n.condition.normal
  members : m.body.members = sortedDistinct n.body.members
  kind : m.kind = n.kind

namespace Node

theorem Represents.isComposite {m n : Node} (h : m.Represents n) :
    m.isComposite = n.isComposite := by
  unfold Node.isComposite
  rw [h.kind]

theorem represents_normal (n : Node) : n.normal.Represents n := by
  rcases n with ⟨id, label, priority, weight, body⟩
  cases body <;>
    exact ⟨rfl, rfl, by first | exact sortedDistinct_nil.symm | rfl, rfl⟩

theorem represents_of_same {m n : Node} (h : m.same n.normal = true) : m.Represents n := by
  have hn := n.represents_normal
  simp only [same, Bool.and_eq_true, beq_iff_eq] at h
  obtain ⟨⟨⟨⟨hid, -⟩, -⟩, -⟩, hbody⟩ := h
  have hsame : m.condition = n.normal.condition ∧ m.body.members = n.normal.body.members ∧
      m.kind = n.normal.kind := by
    unfold condition kind
    cases hm : m.body <;> cases hn : n.normal.body <;> rw [hm, hn] at hbody <;>
      simp_all [NodeBody.same, NodeBody.condition, NodeBody.members, NodeBody.kind]
  exact ⟨hid.trans hn.id, hsame.1.trans hn.condition, hsame.2.1.trans hn.members,
    hsame.2.2.trans hn.kind⟩

end Node

/-- Where an id is declared first. -/
def Revision.place (r : Revision) (id : Bytes) : Nat := (r.nodes.map (·.id)).idxOf id

/-- All members exist. -/
def Revision.Whole (r : Revision) : Prop :=
  ∀ n ∈ r.nodes, ∀ inner ∈ n.body.members, ∃ n' ∈ r.nodes, n'.id = inner

namespace NormalGraph

/-! ## Taking nodes in -/

/-- A graph is the normal form of a revision in which no node is wrong. -/
structure Stands (g : NormalGraph) (r : Revision) : Prop where
  nodup : g.ids.Nodup
  declared : ∀ m ∈ g.nodes, ∃ n ∈ r.nodes, m.node = n.normal
  represented : ∀ n ∈ r.nodes, ∃ m ∈ g.nodes, m.node.Represents n
  labels : ∀ n ∈ r.nodes, ∀ l ∈ n.condition.labels, (Predicate.ofLabel? l).isSome
  edges : ∀ e, e ∈ g.edges ↔ e ∈ r.edges

theorem labels_of_nodeError? {position : Nat} {n : Node} (h : nodeError? position n = none) :
    ∀ l ∈ n.condition.labels, (Predicate.ofLabel? l).isSome := by
  intro l hl
  unfold nodeError? at h
  split at h
  · cases h
  · have hbad := List.find?_eq_none.1 (Option.map_eq_none_iff.1 h) l hl
    simpa [Option.isNone_iff_eq_none, Option.isSome_iff_ne_none] using hbad

/-- Behind nodes of other ids, a node keeps the ids apart. -/
theorem nodup_ids_concat {known : List NormalNode} (hknown : (known.map (·.node.id)).Nodup)
    {n : Node} (hfresh : ∀ m ∈ known, m.node.id ≠ n.id) (position : UInt32) :
    ((known ++ [NormalNode.mk n.normal position]).map (·.node.id)).Nodup := by
  rw [List.map_append, List.nodup_append]
  refine ⟨hknown, by simp, ?_⟩
  rintro a ha b hb rfl
  obtain ⟨m, hm, rfl⟩ := List.mem_map.1 ha
  simp only [List.map_cons, List.map_nil, List.mem_singleton] at hb
  exact hfresh m hm (hb.trans n.represents_normal.id)

/-- **How a node is taken in** without error: nothing is wrong with it, and it is the first one of
its id, or it says the same as one that is known. -/
theorem collect_cons_cases {n : Node} {position : Nat} {rest : List (Node × Nat)}
    {known : List NormalNode} (h : (collect ((n, position) :: rest) known).2 = []) :
    nodeError? position n = none ∧
    ((∀ m ∈ known, m.node.id ≠ n.id) ∧ collect ((n, position) :: rest) known =
        collect rest (known ++ [⟨n.normal, UInt32.ofNat position⟩]) ∨
      ∃ m ∈ known, m.node.same n.normal = true ∧
        collect ((n, position) :: rest) known = collect rest known) := by
  rw [collect] at h ⊢
  cases hbad : nodeError? position n with
  | some d =>
    rw [hbad] at h
    cases h
  | none =>
    rw [hbad] at h
    dsimp only at h ⊢
    refine ⟨rfl, ?_⟩
    cases hfind : known.find? (·.node.id == n.id) with
    | none => exact .inl ⟨fun m hm => by simpa using List.find?_eq_none.1 hfind m hm, rfl⟩
    | some m =>
      rw [hfind] at h
      dsimp only at h ⊢
      by_cases hsame : m.node.same n.normal = true
      · exact .inr ⟨m, List.mem_of_find?_eq_some hfind, hsame, if_pos hsame⟩
      · rw [if_neg hsame] at h
        cases h

/-- What is taken in: nodes that were known stay, new ones are declared, and every declared node
is represented. -/
theorem collect_spec (declared : List (Node × Nat)) (known : List NormalNode)
    (hknown : (known.map (·.node.id)).Nodup) (h : (collect declared known).2 = []) :
    ((collect declared known).1.map (·.node.id)).Nodup ∧
    (∀ m ∈ known, m ∈ (collect declared known).1) ∧
    (∀ m ∈ (collect declared known).1, m ∈ known ∨ ∃ p ∈ declared, m.node = p.1.normal) ∧
    ∀ p ∈ declared, (∃ m ∈ (collect declared known).1, m.node.Represents p.1) ∧
      ∀ l ∈ p.1.condition.labels, (Predicate.ofLabel? l).isSome := by
  induction declared generalizing known with
  | nil => exact ⟨hknown, fun _ hm => hm, fun _ hm => .inl hm, fun _ hp => absurd hp (by simp)⟩
  | cons first rest ih =>
    obtain ⟨n, position⟩ := first
    obtain ⟨hgood, hcases⟩ := collect_cons_cases h
    have hlabels := labels_of_nodeError? hgood
    rcases hcases with ⟨hfresh, htaken⟩ | ⟨first, hfirst, hsame, htaken⟩
    · rw [htaken] at h ⊢
      obtain ⟨hnodup, hkept, hfrom, hall⟩ := ih _ (nodup_ids_concat hknown hfresh _) h
      refine ⟨hnodup, fun m hm => hkept m (List.mem_append_left _ hm), fun m hm => ?_, ?_⟩
      · rcases hfrom m hm with hm | ⟨p, hp, hmp⟩
        · rcases List.mem_append.1 hm with hm | hm
          · exact .inl hm
          · rw [List.mem_singleton.1 hm]
            exact .inr ⟨_, List.mem_cons_self .., rfl⟩
        · exact .inr ⟨p, List.mem_cons_of_mem _ hp, hmp⟩
      · exact List.forall_mem_cons.2 ⟨⟨⟨_, hkept _ (List.mem_append_right _
          (List.mem_singleton.2 rfl)), n.represents_normal⟩, hlabels⟩, hall⟩
    · rw [htaken] at h ⊢
      obtain ⟨hnodup, hkept, hfrom, hall⟩ := ih _ hknown h
      refine ⟨hnodup, hkept, fun m hm => ?_, ?_⟩
      · exact (hfrom m hm).imp_right fun ⟨p, hp, hmp⟩ => ⟨p, List.mem_cons_of_mem _ hp, hmp⟩
      · exact List.forall_mem_cons.2 ⟨⟨⟨first, hkept first hfirst,
          Node.represents_of_same hsame⟩, hlabels⟩, hall⟩

/-- A revision that is taken in without errors is in normal form. -/
theorem stands_ofRevision {r : Revision} (h : (ofRevision r).2.failed = false) :
    (ofRevision r).1.Stands r := by
  have hnone : (collect r.nodes.zipIdx []).2 = [] := by
    simpa [ofRevision, Findings.failed, Findings.ofErrors] using h
  obtain ⟨hnodup, -, hfrom, hall⟩ := collect_spec _ _ (by simp) hnone
  have hmem : ∀ m, m ∈ (ofRevision r).1.nodes ↔ m ∈ (collect r.nodes.zipIdx []).1 := fun m =>
    List.mem_mergeSort
  have hzip : ∀ n ∈ r.nodes, ∃ i, (n, i) ∈ r.nodes.zipIdx := by
    intro n hn
    obtain ⟨i, hi, rfl⟩ := List.getElem_of_mem hn
    exact ⟨i, List.mk_mem_zipIdx_iff_getElem?.2 (by simp [hi])⟩
  refine ⟨?_, ?_, ?_, ?_, fun e => Edge.mem_sortedDistinct⟩
  · exact ((List.mergeSort_perm _ _).map _).nodup_iff.2 hnodup
  · intro m hm
    rcases hfrom m ((hmem m).1 hm) with hm | ⟨p, hp, hmp⟩
    · cases hm
    · exact ⟨p.1, List.fst_mem_of_mem_zipIdx hp, hmp⟩
  · intro n hn
    obtain ⟨i, hi⟩ := hzip n hn
    obtain ⟨⟨m, hm, hmn⟩, -⟩ := hall _ hi
    exact ⟨m, (hmem m).2 hm, hmn⟩
  · intro n hn
    obtain ⟨i, hi⟩ := hzip n hn
    exact (hall _ hi).2

/-- What is taken in has the place of the first declaration of its id. -/
theorem collect_orders (declared : List (Node × Nat)) (known : List NormalNode)
    (h : (collect declared known).2 = []) : ∀ m ∈ (collect declared known).1, m ∈ known ∨
      ∃ before n position after, declared = before ++ (n, position) :: after ∧
        m = ⟨n.normal, UInt32.ofNat position⟩ ∧ (∀ p ∈ before, p.1.id ≠ n.id) ∧
        ∀ m' ∈ known, m'.node.id ≠ n.id := by
  induction declared generalizing known with
  | nil => exact fun m hm => .inl hm
  | cons first rest ih =>
    obtain ⟨n, position⟩ := first
    intro m hm
    rcases (collect_cons_cases h).2 with ⟨hfresh, htaken⟩ | ⟨first, hfirst, hsame, htaken⟩
    · rw [htaken] at h hm
      rcases ih _ h m hm with hm | ⟨before, n', place, after, rfl, hm, hbefore, hknown⟩
      · refine (List.mem_append.1 hm).imp_right fun hm => ?_
        exact ⟨[], n, position, rest, rfl, List.mem_singleton.1 hm, by simp, hfresh⟩
      · refine .inr ⟨(n, position) :: before, n', place, after, rfl, hm, ?_,
          fun m' hm' => hknown m' (List.mem_append_left _ hm')⟩
        have hid := hknown _ (List.mem_append_right _ (List.mem_singleton.2 rfl))
        rw [n.represents_normal.id] at hid
        exact List.forall_mem_cons.2 ⟨hid, hbefore⟩
    · rw [htaken] at h hm
      refine (ih _ h m hm).imp_right fun ⟨before, n', place, after, hrest, hm, hbefore, hknown⟩ => ?_
      have hid := hknown first hfirst
      rw [(Node.represents_of_same hsame).id] at hid
      exact ⟨(n, position) :: before, n', place, after, by rw [hrest]; rfl, hm,
        List.forall_mem_cons.2 ⟨hid, hbefore⟩, hknown⟩

/-- The order of a node in normal form is where its id is declared first. -/
theorem order_ofRevision {r : Revision} (h : (ofRevision r).2.failed = false) :
    ∀ m ∈ (ofRevision r).1.nodes, m.order = UInt32.ofNat (r.place m.node.id) := by
  have hnone : (collect r.nodes.zipIdx []).2 = [] := by
    simpa [ofRevision, Findings.failed, Findings.ofErrors] using h
  intro m hm
  rcases collect_orders _ _ hnone m (List.mem_mergeSort.1 hm) with
    hm | ⟨before, n, position, after, hsplit, rfl, hbefore, -⟩
  · cases hm
  · have hnodes : r.nodes = before.map (·.1) ++ n :: after.map (·.1) := by
      rw [← List.zipIdx_map_fst 0 r.nodes, hsplit, List.map_append, List.map_cons]
    have hposition : position = before.length := by
      have hget : r.nodes.zipIdx[before.length]? = some (n, position) := by
        rw [hsplit]
        simp
      rw [List.getElem?_zipIdx, Option.map_eq_some_iff] at hget
      obtain ⟨_, -, hpair⟩ := hget
      have hplace := (Prod.mk.inj hpair).2
      omega
    dsimp only
    rw [n.represents_normal.id, Revision.place, hnodes, hposition, List.map_append,
      List.idxOf_append_of_notMem, List.map_cons, List.idxOf_cons_self, List.length_map,
      List.length_map, Nat.add_zero]
    simpa [eq_comm] using fun x i hx => hbefore (x, i) hx

/-! ## Looking nodes up -/

namespace Stands

variable {g : NormalGraph} {r : Revision}

/-- A node is found under its id. -/
theorem find?_eq (h : g.Stands r) {m : NormalNode} (hm : m ∈ g.nodes) :
    g.find? m.node.id = some m := by
  have hinj : ∀ l : List NormalNode, (l.map (·.node.id)).Nodup → m ∈ l →
      l.find? (·.node.id == m.node.id) = some m := by
    intro l
    induction l with
    | nil => exact fun _ hm => absurd hm (by simp)
    | cons x rest ih =>
      intro hnodup hm
      rw [List.map_cons, List.nodup_cons] at hnodup
      rcases List.mem_cons.1 hm with rfl | hm
      · simp
      · have hne : x.node.id ≠ m.node.id := fun heq =>
          hnodup.1 (heq ▸ List.mem_map_of_mem hm)
        rw [List.find?_cons, beq_eq_false_iff_ne.2 hne]
        exact ih hnodup.2 hm
  exact hinj g.nodes h.nodup hm

theorem has_iff (h : g.Stands r) {id : Bytes} : g.has id = true ↔ ∃ n ∈ r.nodes, n.id = id := by
  unfold has
  constructor
  · intro hs
    obtain ⟨m, hm⟩ := Option.isSome_iff_exists.1 hs
    obtain ⟨n, hn, hmn⟩ := h.declared m (List.mem_of_find?_eq_some hm)
    have hid : m.node.id = id := by simpa using List.find?_some hm
    exact ⟨n, hn, by rw [← hid, hmn, n.represents_normal.id]⟩
  · rintro ⟨n, hn, rfl⟩
    obtain ⟨m, hm, hmn⟩ := h.represented n hn
    rw [← hmn.id, h.find?_eq hm]
    rfl

theorem mem_ids_iff (h : g.Stands r) {id : Bytes} : id ∈ g.ids ↔ ∃ n ∈ r.nodes, n.id = id := by
  rw [← h.has_iff]
  unfold ids has find?
  rw [List.find?_isSome, List.mem_map]
  simp

/-- Two declared nodes of one id are represented by the same node. -/
theorem eq_of_represents (h : g.Stands r) {m m' : NormalNode} (hm : m ∈ g.nodes)
    (hm' : m' ∈ g.nodes) (hid : m.node.id = m'.node.id) : m = m' := by
  have hf := h.find?_eq hm
  rw [hid, h.find?_eq hm'] at hf
  exact (Option.some.inj hf).symm

/-- Nodes name the same members. -/
theorem lists_iff (h : g.Stands r) {outer inner : Bytes} :
    g.Lists outer inner ↔ r.Lists outer inner := by
  constructor
  · rintro ⟨m, hm, hin⟩
    obtain ⟨n, hn, hmn⟩ := h.declared m (List.mem_of_find?_eq_some hm)
    have hid : m.node.id = outer := by simpa using List.find?_some hm
    have hr := n.represents_normal
    rw [← hmn] at hr
    rw [hr.members] at hin
    exact ⟨n, hn, by rw [← hid, hr.id], mem_sortedDistinct.1 hin⟩
  · rintro ⟨n, hn, rfl, hin⟩
    obtain ⟨m, hm, hmn⟩ := h.represented n hn
    refine ⟨m, hmn.id ▸ h.find?_eq hm, ?_⟩
    rw [hmn.members]
    exact mem_sortedDistinct.2 hin

theorem lists_eq (h : g.Stands r) : g.Lists = r.Lists := by
  funext outer inner
  exact propext h.lists_iff

theorem mem_members_iff (h : g.Stands r) (hwhole : r.Whole) {outer inner : Bytes} :
    inner ∈ g.members outer ↔ r.Lists outer inner := by
  rw [← h.lists_iff, Lists]
  unfold members
  constructor
  · intro hin
    cases hf : g.find? outer with
    | none => rw [hf] at hin; cases hin
    | some m =>
      rw [hf] at hin
      exact ⟨m, rfl, (List.mem_filter.1 hin).1⟩
  · rintro ⟨m, hm, hin⟩
    obtain ⟨n, hn, -, hin'⟩ := h.lists_iff.1 ⟨m, hm, hin⟩
    rw [hm]
    exact List.mem_filter.2 ⟨hin, h.has_iff.2 (hwhole n hn inner hin')⟩

theorem isLeaf_iff (h : g.Stands r) {id : Bytes} : g.IsLeaf id ↔ r.IsLeaf id := by
  constructor
  · rintro ⟨m, hm, hleaf⟩
    obtain ⟨n, hn, hmn⟩ := h.declared m (List.mem_of_find?_eq_some hm)
    have hid : m.node.id = id := by simpa using List.find?_some hm
    have hr := n.represents_normal
    rw [← hmn] at hr
    exact ⟨n, hn, by rw [← hid, hr.id], by rw [← hr.isComposite, hleaf]⟩
  · rintro ⟨n, hn, rfl, hleaf⟩
    obtain ⟨m, hm, hmn⟩ := h.represented n hn
    exact ⟨m, hmn.id ▸ h.find?_eq hm, by rw [hmn.isComposite, hleaf]⟩

/-! ## Leaves -/

/-- Nodes stand for the same leaves. -/
theorem standsFor_iff (h : g.Stands r) {id leaf : Bytes} :
    g.StandsFor id leaf ↔ r.StandsFor id leaf := by
  unfold NormalGraph.StandsFor Revision.StandsFor Revision.Contains
  rw [h.isLeaf_iff, h.lists_eq, Relation.reflTransGen_iff_eq_or_transGen, eq_comm]

/-- The edges between leaves are what the declared edges join. -/
theorem mem_expandedEdges_iff (h : g.Stands r) (hacyclic : ∀ id, ¬TransGen r.Lists id id)
    {e : Edge} : e ∈ g.expandedEdges ↔ r.Joins e.kind e.source e.target := by
  rw [(areJoined_expandedEdges (h.lists_eq ▸ hacyclic)).mem_iff]
  unfold NormalGraph.Joins Revision.Joins
  simp only [h.edges, h.standsFor_iff]

end Stands

end NormalGraph
end DecisionEngine
