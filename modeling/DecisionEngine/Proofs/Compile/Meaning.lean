import DecisionEngine.Compile.Compiler
import DecisionEngine.Proofs.Program.Meaning
import Mathlib.Logic.ExistsUnique
import Mathlib.Logic.Relation
/-!
# What a rule graph says

A revision says which rules fire, given what the rules that come before them did.  This file says
so about the nodes and edges as they were authored, without normal forms, flat graphs, units or
programs.

* `Revision.Contains`, `Revision.StandsFor` — composites and the leaves inside them.
* `Revision.Joins` — an edge between leaves; an end that is a composite stands for its leaves.
* `Revision.Kept` — the leaves that a plan is made of.
* `Revision.Rivals` — leaves of one exclusion group.
* `Revision.Eligible` — everything holds that a leaf asks for.
* `Revision.HonoredBy` — which leaves should fire.
-/

namespace DecisionEngine

open Relation (ReflTransGen TransGen EqvGen)

/-- A condition is met: all labels hold on the context, and the expression, if there is one, is
true. -/
structure Condition.Met (c : Condition) (e : Evidence) : Prop where
  labels : ∀ l ∈ c.labels, ∃ p, Predicate.ofLabel? l = some p ∧ p.holds e.context = true
  expression : c.expression ≠ [] →
    ∃ x, Expr.parse c.expression = .ok x ∧ x.value e = .ok (.bool true)

namespace Revision

/-! ## Composites -/

/-- A node names another one as a member. -/
def Lists (r : Revision) (outer inner : Bytes) : Prop :=
  ∃ n ∈ r.nodes, n.id = outer ∧ inner ∈ n.body.members

/-- A node has another one inside it, directly or through others. -/
def Contains (r : Revision) : Bytes → Bytes → Prop := TransGen r.Lists

/-- A node that is no composite. -/
def IsLeaf (r : Revision) (id : Bytes) : Prop := ∃ n ∈ r.nodes, n.id = id ∧ n.isComposite = false

/-- A node stands for a leaf: it is the leaf, or has the leaf inside it. -/
def StandsFor (r : Revision) (id leaf : Bytes) : Prop :=
  r.IsLeaf leaf ∧ (id = leaf ∨ r.Contains id leaf)

/-- An edge joins two leaves if its ends stand for them. -/
def Joins (r : Revision) (kind : EdgeKind) (source target : Bytes) : Prop :=
  ∃ e ∈ r.edges, e.kind = kind ∧ r.StandsFor e.source source ∧ r.StandsFor e.target target

/-! ## Rules -/

/-- The leaves that are left when those were dropped that nothing leads to, if asked for, and
those that can never fire. -/
def Kept (r : Revision) (o : CompilerOptions) (id : Bytes) : Prop :=
  id ∈ (FlatGraph.ofNormal (NormalGraph.ofRevision r).1 o.dropUnreachable).1.ids

/-- Kept leaves that exclude each other, directly or through others. -/
def Rivals (r : Revision) (o : CompilerOptions) : Bytes → Bytes → Prop :=
  EqvGen fun a b => r.Kept o a ∧ r.Kept o b ∧ r.Joins .excludes a b

/-- A leaf and everything around it have their conditions met. -/
def Enabled (r : Revision) (e : Evidence) (id : Bytes) : Prop :=
  ∀ n ∈ r.nodes, n.id = id ∨ r.Contains n.id id → n.condition.Met e

/-- Everything holds that a leaf asks for, given which leaves fire. -/
structure Eligible (r : Revision) (o : CompilerOptions) (e : Evidence) (fires : Bytes → Prop)
    (id : Bytes) : Prop where
  enabled : r.Enabled e id
  required : ∀ other, r.Joins .requires id other → fires other
  neutralized : ∀ other, r.Joins .neutralizes other id → ¬r.Rivals o id other → ¬fires other
  reached : (∃ other, r.Joins .flowsTo other id) →
    ∃ other, r.Kept o other ∧ r.Joins .flowsTo other id ∧ fires other

/-- The leaves that fire are those that should, given the evidence: a leaf without rivals fires
exactly if it is eligible; of rivals one fires if one is eligible, and only one; and what fires is
eligible and not dominated by an eligible rival. -/
structure HonoredBy (r : Revision) (o : CompilerOptions) (e : Evidence) (fires : Bytes → Prop) :
    Prop where
  kept : ∀ id, fires id → r.Kept o id
  alone : ∀ id, r.Kept o id → (∀ other, r.Rivals o id other → other = id) →
    (fires id ↔ r.Eligible o e fires id)
  one : ∀ id, r.Kept o id → (∃ other, r.Rivals o id other ∧ r.Eligible o e fires other) →
    ∃! other, r.Rivals o id other ∧ fires other
  eligible : ∀ id, fires id → r.Eligible o e fires id
  undominated : ∀ id, fires id → ∀ other, r.Rivals o id other → other ≠ id →
    r.Eligible o e fires other → ¬r.Joins .dominates other id

end Revision
end DecisionEngine
