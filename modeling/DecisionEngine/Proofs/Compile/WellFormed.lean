import DecisionEngine.Proofs.Compile.NormalForm
/-!
# Well-formed revisions

What a revision has to be like for a plan to be made from it, said about the nodes, edges and
guardrails as they were authored, and about the leaves that pruning keeps.

* `Guardrail.WellFormed` — a guardrail can be enforced.
* `Revision.Precedes` — one leaf has to come before another one.
* `Revision.GroupPrecedes` — the same for whole exclusion groups.
* `Revision.Coherent` — a revision is in order by itself.
* `Revision.WellFormed` — a plan can be made from a revision.
* `Node.same_symm`, `Node.same_trans` — declarations that agree with a third one agree.
-/

namespace DecisionEngine

open Relation (TransGen)

/-! ## Guardrails -/

/-- A guardrail can be enforced: a veto says what it forbids, a cap has a parameter and a value, and
a mandate has an action, and only nodes that exist as its targets. -/
structure Guardrail.WellFormed (g : Guardrail) (r : Revision) : Prop where
  forbids : g.mode = .veto → g.violation ≠ []
  violation : g.violation ≠ [] → ∃ x, Expr.parse g.violation = .ok x
  cap : g.mode = .veto → g.fallback = .cap → g.capParam ≠ [] ∧ g.capValue ≠ .null
  action : g.mode = .mandateDefault → g.defaultOutcome.action ≠ []
  targets : g.mode = .mandateDefault → ∀ id ∈ g.appliesTo, ∃ n ∈ r.nodes, n.id = id

/-! ## Revisions -/

namespace Revision

/-- One leaf has to come before another one: it flows to it, neutralizes it or is required by
it. -/
def Precedes (r : Revision) (a b : Bytes) : Prop :=
  r.Joins .flowsTo a b ∨ r.Joins .neutralizes a b ∨ r.Joins .requires b a

/-- A rival of one kept leaf has to come before a rival of another one, and the two are in
different exclusion groups. -/
def GroupPrecedes (r : Revision) (o : CompilerOptions) (a b : Bytes) : Prop :=
  ¬r.Rivals o a b ∧ ∃ x y, r.Rivals o a x ∧ r.Rivals o b y ∧ r.Kept o x ∧ r.Kept o y ∧
    r.Precedes x y

/-- A kept leaf dominates another one of its exclusion group. -/
def Beats (r : Revision) (o : CompilerOptions) (a b : Bytes) : Prop :=
  a ≠ b ∧ r.Kept o a ∧ r.Kept o b ∧ r.Rivals o a b ∧ r.Joins .dominates a b

/-- The nodes, edges and guardrails of a revision are in order by themselves. -/
structure Coherent (r : Revision) : Prop where
  ids : ∀ n ∈ r.nodes, n.id ≠ []
  labels : ∀ n ∈ r.nodes, ∀ l ∈ n.condition.labels, Predicate.keyOf l ≠ []
  agreeing : r.nodes.Pairwise fun n m => n.id = m.id → n.normal.same m.normal = true
  ends : ∀ e ∈ r.edges, (∃ n ∈ r.nodes, n.id = e.source) ∧ ∃ n ∈ r.nodes, n.id = e.target
  members : r.Whole
  membership : ∀ id, ¬TransGen r.Lists id id
  ordering : ∀ id, ¬TransGen r.Precedes id id
  entry : ∃ n ∈ r.nodes, n.kind = .decision
  expressions : ∀ n ∈ r.nodes, n.condition.expression ≠ [] →
    ∃ x, Expr.parse n.condition.expression = .ok x ∧ x.refersToOutcome = false
  guardrailIds : ∀ g ∈ r.guardrails, g.id ≠ []
  guardrailsDistinct : (r.guardrails.map (·.id)).Nodup
  guardrails : ∀ g ∈ r.guardrails, g.WellFormed r

/-- A plan can be made from a revision: it is in order by itself, and what pruning keeps of it can
be put in order and arbitrated. -/
structure WellFormed (r : Revision) (o : CompilerOptions) : Prop extends Coherent r where
  apart : ∀ a b, r.Kept o a → r.Kept o b → r.Rivals o a b →
    ¬r.Joins .requires a b ∧ ¬r.Joins .flowsTo a b
  groups : ∀ id, ¬TransGen (r.GroupPrecedes o) id id
  dominance : ∀ id, ¬TransGen (r.Beats o) id id

theorem precedes_iff {r : Revision} {a b : Bytes} : r.Precedes a b ↔
    ∃ e : Edge, r.Joins e.kind e.source e.target ∧ e.ordering? = some (a, b) := by
  unfold Precedes
  constructor
  · rintro (hjoins | hjoins | hjoins)
    · exact ⟨⟨a, .flowsTo, b⟩, hjoins, rfl⟩
    · exact ⟨⟨a, .neutralizes, b⟩, hjoins, rfl⟩
    · exact ⟨⟨b, .requires, a⟩, hjoins, rfl⟩
  · rintro ⟨⟨s, kind, t⟩, hjoins, hab⟩
    cases kind <;> simp only [Edge.ordering?, Option.some.injEq, Prod.mk.injEq, reduceCtorEq] at hab
    · obtain ⟨rfl, rfl⟩ := hab
      exact .inr (.inr hjoins)
    · obtain ⟨rfl, rfl⟩ := hab
      exact .inl hjoins
    · obtain ⟨rfl, rfl⟩ := hab
      exact .inr (.inl hjoins)

end Revision

/-! ## Declarations that agree -/

theorem Binary64.same_symm {x y : Binary64} (h : x.same y = true) : y.same x = true := by
  simp only [same, Bool.and_eq_true, decide_eq_true_eq] at *
  exact ⟨⟨h.1.2, h.1.1⟩, h.2.symm⟩

theorem Binary64.same_trans {x y z : Binary64} (h : x.same y = true) (h' : y.same z = true) :
    x.same z = true := by
  simp only [same, Bool.and_eq_true, decide_eq_true_eq] at *
  exact ⟨⟨h.1.1, h'.1.2⟩, h.2.trans h'.2⟩

theorem Value.same_symm {v w : Value} (h : v.same w = true) : w.same v = true := by
  cases v <;> cases w <;> first
    | exact Binary64.same_symm h
    | simp_all [same]

theorem Value.same_trans {u v w : Value} (h : u.same v = true) (h' : v.same w = true) :
    u.same w = true := by
  cases u <;> cases v <;> try cases h
  all_goals cases w <;> try cases h'
  all_goals first
    | exact Binary64.same_trans h h'
    | simp_all [same]

theorem forall₂_trans {α : Type} {R : α → α → Prop} (hR : ∀ x y z, R x y → R y z → R x z)
    {xs ys zs : List α} (h : List.Forall₂ R xs ys) (h' : List.Forall₂ R ys zs) :
    List.Forall₂ R xs zs := by
  induction h generalizing zs with
  | nil => exact h'
  | cons hxy _ ih =>
    cases h' with
    | cons hyz hrest => exact .cons (hR _ _ _ hxy hyz) (ih hrest)

namespace AttributeSet

theorem forall₂_columns_iff {names names' : List Bytes} {values values' : List Value}
    (h : names.length = values.length) (h' : names'.length = values'.length) :
    List.Forall₂ (fun x y : Entry => x.1 = y.1 ∧ x.2.same y.2 = true) (names.zip values)
        (names'.zip values') ↔
      names = names' ∧ ((values.zip values').all fun p => p.1.same p.2) = true := by
  induction names generalizing names' values values' with
  | nil =>
    cases names' with
    | nil =>
      obtain rfl : values = [] := List.eq_nil_of_length_eq_zero h.symm
      simp
    | cons name' names' =>
      obtain ⟨value', values', rfl⟩ := List.exists_cons_of_length_eq_add_one h'.symm
      simp
  | cons name names ih =>
    obtain ⟨value, values, rfl⟩ := List.exists_cons_of_length_eq_add_one h.symm
    cases names' with
    | nil => simp
    | cons name' names' =>
      obtain ⟨value', values', rfl⟩ := List.exists_cons_of_length_eq_add_one h'.symm
      have hrest := ih (Nat.succ.inj h) (Nat.succ.inj h')
      simp only [List.zip_cons_cons, List.forall₂_cons, hrest, List.all_cons, Bool.and_eq_true,
        List.cons.injEq]
      tauto

/-- Sets are the same if they have the same names with values that are the same. -/
theorem same_iff {a b : AttributeSet} : a.same b = true ↔
    List.Forall₂ (fun x y => x.1 = y.1 ∧ x.2.same y.2 = true) a.entries b.entries := by
  unfold same entries
  rw [Bool.and_eq_true, beq_iff_eq, forall₂_columns_iff a.aligned b.aligned]

theorem same_symm {a b : AttributeSet} (h : a.same b = true) : b.same a = true := by
  rw [same_iff] at *
  exact h.flip.imp fun _ _ ⟨hname, hvalue⟩ => ⟨hname.symm, Value.same_symm hvalue⟩

theorem same_trans {a b c : AttributeSet} (h : a.same b = true) (h' : b.same c = true) :
    a.same c = true := by
  rw [same_iff] at *
  exact forall₂_trans (fun _ _ _ ⟨hname, hvalue⟩ ⟨hname', hvalue'⟩ =>
    ⟨hname.trans hname', Value.same_trans hvalue hvalue'⟩) h h'

end AttributeSet

namespace NodeBody

theorem same_symm {a b : NodeBody} (h : a.same b = true) : b.same a = true := by
  cases a <;> cases b <;> simp_all [same, Outcome.same, AttributeSet.same_symm]

theorem same_trans {a b c : NodeBody} (h : a.same b = true) (h' : b.same c = true) :
    a.same c = true := by
  cases a <;> cases b <;> cases c <;>
    simp only [same, Outcome.same, Bool.and_eq_true, beq_iff_eq, reduceCtorEq] at h h' ⊢
  case action.action.action =>
    exact ⟨h.1.trans h'.1, h.2.1.trans h'.2.1, AttributeSet.same_trans h.2.2 h'.2.2⟩
  all_goals exact h.trans h'

end NodeBody

namespace Node

theorem same_iff {n m : Node} : n.same m = true ↔ n.id = m.id ∧ n.label = m.label ∧
    n.priority = m.priority ∧ n.weight.same m.weight = true ∧ n.body.same m.body = true := by
  simp only [same, Bool.and_eq_true, beq_iff_eq, and_assoc]

theorem same_symm {n m : Node} (h : n.same m = true) : m.same n = true := by
  rw [same_iff] at *
  obtain ⟨hid, hlabel, hpriority, hweight, hbody⟩ := h
  exact ⟨hid.symm, hlabel.symm, hpriority.symm, Binary64.same_symm hweight,
    NodeBody.same_symm hbody⟩

theorem same_trans {n m k : Node} (h : n.same m = true) (h' : m.same k = true) :
    n.same k = true := by
  rw [same_iff] at *
  obtain ⟨hid, hlabel, hpriority, hweight, hbody⟩ := h
  obtain ⟨hid', hlabel', hpriority', hweight', hbody'⟩ := h'
  exact ⟨hid.trans hid', hlabel.trans hlabel', hpriority.trans hpriority',
    Binary64.same_trans hweight hweight', NodeBody.same_trans hbody hbody'⟩

end Node

end DecisionEngine
