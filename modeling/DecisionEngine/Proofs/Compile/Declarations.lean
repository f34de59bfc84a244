import DecisionEngine.Proofs.Compile.Canonical
import DecisionEngine.Proofs.Sorting
/-!
# Revisions declared in another order

The normal form of a revision has its edges in order, each once, so it is the same for edges that
are declared in another order or several times.  Its nodes are in the order of their ids, and of
declarations that agree it does not matter which one is taken but for the signs of zeros; so what
the normal form is canonically does not depend on the order of the nodes.

* `Node.withoutNegativeZero_of_same` — nodes that agree differ in the signs of zeros at most.
* `Revision.Redeclares` — a revision declares the same nodes and edges in another order.
* `NormalGraph.canonical_of_redeclares` — both have the same normal form, canonically.
-/

namespace DecisionEngine

/-! ## Declarations that agree -/

theorem Value.withoutNegativeZero_of_same {v w : Value} (h : v.same w = true) :
    v.withoutNegativeZero = w.withoutNegativeZero := by
  have hplain : ∀ v : Value, v.withoutNegativeZero ≠ .real .negativeZero ∧
      v.withoutNegativeZero.same v = v.same v := fun v => by
    cases v with
    | real x =>
      by_cases hx : x = .negativeZero
      · subst hx
        decide
      · simp [withoutNegativeZero, Binary64.withoutNegativeZero, hx]
    | _ => simp [withoutNegativeZero]
  have hv := (hplain v).2.trans (same_trans h (same_symm h))
  have hw := (hplain w).2.trans (same_trans (same_symm h) h)
  exact Assembly.eq_of_same (hplain v).1 (hplain w).1
    (same_trans (same_trans hv h) (same_symm hw))

theorem Binary64.withoutNegativeZero_of_same {x y : Binary64} (h : x.same y = true) :
    x.withoutNegativeZero = y.withoutNegativeZero :=
  Value.real.inj (Value.withoutNegativeZero_of_same (v := .real x) (w := .real y) h)

theorem AttributeSet.withoutNegativeZero_of_same {a b : AttributeSet} (h : a.same b = true) :
    a.withoutNegativeZero = b.withoutNegativeZero := by
  refine eq_of_entries ?_
  rw [entries_withoutNegativeZero, entries_withoutNegativeZero, ← List.forall₂_eq_eq_eq,
    List.forall₂_map_left_iff, List.forall₂_map_right_iff]
  exact (same_iff.1 h).imp fun x y ⟨hname, hvalue⟩ =>
    Prod.ext hname (Value.withoutNegativeZero_of_same hvalue)

theorem NodeBody.withoutNegativeZero_of_same {a b : NodeBody} (h : a.same b = true) :
    a.withoutNegativeZero = b.withoutNegativeZero := by
  cases a <;> cases b <;> simp only [same, Outcome.same, Bool.and_eq_true, beq_iff_eq] at h
  case action.action c o c' o' =>
    obtain ⟨rfl, haction, hparams⟩ := h
    exact congrArg (action c) ((Outcome.mk.injEq ..).mpr
      ⟨haction, AttributeSet.withoutNegativeZero_of_same hparams⟩)
  all_goals exact congrArg withoutNegativeZero h

/-- Nodes that agree differ in the signs of zeros at most. -/
theorem Node.withoutNegativeZero_of_same {n m : Node} (h : n.same m = true) :
    n.withoutNegativeZero = m.withoutNegativeZero := by
  obtain ⟨hid, hlabel, hpriority, hweight, hbody⟩ := same_iff.1 h
  exact (Node.mk.injEq ..).mpr ⟨hid, hlabel, hpriority,
    Binary64.withoutNegativeZero_of_same hweight, NodeBody.withoutNegativeZero_of_same hbody⟩

/-! ## Normal forms -/

/-- A revision is another one with its nodes declared in another order, and its edges in another
order and with other repetitions. -/
structure Revision.Redeclares (r' r : Revision) : Prop where
  nodes : r'.nodes.Perm r.nodes
  edges : ∀ e, e ∈ r'.edges ↔ e ∈ r.edges
  rest : r' = { r with nodes := r'.nodes, edges := r'.edges }

theorem Revision.Redeclares.symm {r r' : Revision} (h : r'.Redeclares r) : r.Redeclares r' :=
  ⟨h.nodes.symm, fun e => (h.edges e).symm, by rw [h.rest]⟩

namespace NormalGraph

variable {r r' : Revision}

theorem ids_pairwise (r : Revision) :
    (ofRevision r).1.nodes.Pairwise fun a b => a.node.id ≤ b.node.id :=
  pairwise_mergeSort_on (fun m : NormalNode => m.node.id) _

/-- The ids of a normal form ascend. -/
theorem ids_ascending (hr : (ofRevision r).2.failed = false) :
    (ofRevision r).1.nodes.Pairwise fun a b => a.node.id < b.node.id := by
  have hne := List.pairwise_map.1 (stands_ofRevision hr).nodup
  exact ((ids_pairwise r).and hne).imp fun {a b} hab => Std.lt_of_le_of_ne hab.1 hab.2

theorem ofRevision_clear (h : (ofRevision r).2.failed = false) : (ofRevision r).2 = .clear :=
  congrArg Findings.ofErrors (Findings.failed_iff.1 h)

theorem ofRevision_failed_perm (h : r'.Redeclares r) (hr : (ofRevision r).2.failed = false) :
    (ofRevision r').2.failed = false := by
  rw [ofRevision_failed_iff] at *
  obtain ⟨hids, hlabels, hagree⟩ := hr
  refine ⟨fun n hn => hids n (h.nodes.mem_iff.1 hn), fun n hn => hlabels n (h.nodes.mem_iff.1 hn),
    h.nodes.symm.pairwise hagree fun hnm hid => Node.same_symm (hnm hid.symm)⟩

/-- All declarations of an id are the same, canonically. -/
theorem withoutNegativeZero_of_id (hr : (ofRevision r).2.failed = false) {n m : Node}
    (hn : n ∈ r.nodes) (hm : m ∈ r.nodes) (hid : n.id = m.id) :
    n.normal.withoutNegativeZero = m.normal.withoutNegativeZero := by
  have hagree := (ofRevision_failed_iff.1 hr).2.2.imp fun h hid =>
    Node.withoutNegativeZero_of_same (h hid)
  have : Std.Symm fun n m : Node => n.id = m.id →
      n.normal.withoutNegativeZero = m.normal.withoutNegativeZero :=
    ⟨fun _ _ h hid => (h hid.symm).symm⟩
  exact hagree.forall_of_forall (fun _ _ _ => rfl) hn hm hid

/-- The nodes of the one normal form are nodes of the other one, canonically. -/
theorem canonical_mem (h : r'.Redeclares r) (hr : (ofRevision r).2.failed = false)
    {m : NormalNode} (hm : m ∈ (ofRevision r).1.canonical.nodes) :
    m ∈ (ofRevision r').1.canonical.nodes := by
  have hg := stands_ofRevision hr
  have hg' := stands_ofRevision (ofRevision_failed_perm h hr)
  obtain ⟨x, hx, rfl⟩ := List.mem_map.1 hm
  obtain ⟨n, hn, hxn⟩ := hg.declared x hx
  obtain ⟨x', hx', hrepresents⟩ := hg'.represented n (h.nodes.mem_iff.2 hn)
  obtain ⟨n', hn', hxn'⟩ := hg'.declared x' hx'
  have hid : n.id = n'.id := by
    rw [← hrepresents.id, hxn', n'.represents_normal.id]
  refine List.mem_map.2 ⟨x', hx', (NormalNode.mk.injEq ..).mpr ⟨?_, rfl⟩⟩
  rw [hxn, hxn', withoutNegativeZero_of_id hr hn (h.nodes.mem_iff.1 hn') hid]

/-- What the normal form is canonically depends only on which nodes and edges are declared. -/
theorem canonical_of_redeclares (h : r'.Redeclares r) (hr : (ofRevision r).2.failed = false) :
    (ofRevision r').1.canonical = (ofRevision r).1.canonical := by
  have hr' := ofRevision_failed_perm h hr
  have hascending : ∀ {r : Revision}, (ofRevision r).2.failed = false →
      (ofRevision r).1.canonical.nodes.Pairwise fun a b => a.node.id < b.node.id := by
    intro r hr
    exact List.pairwise_map.2 (ids_ascending hr)
  have : Std.Irrefl fun a b : NormalNode => a.node.id < b.node.id := ⟨fun a => List.lt_irrefl _⟩
  have : Std.Antisymm fun a b : NormalNode => a.node.id < b.node.id :=
    ⟨fun a b hab hba => absurd (List.lt_trans hab hba) (List.lt_irrefl _)⟩
  refine (NormalGraph.mk.injEq ..).mpr ⟨?_, Edge.sortedDistinct_congr h.edges⟩
  exact (hascending hr').eq_of_mem_iff (hascending hr) fun m =>
    ⟨canonical_mem h.symm hr', canonical_mem h hr⟩

end NormalGraph
end DecisionEngine
