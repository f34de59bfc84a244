import DecisionEngine.Compile.Expansion
import DecisionEngine.Proofs.Keyed
import DecisionEngine.Proofs.Names
import Mathlib
/-!
# What a composite stands for

A search for leaves goes down into members and remembers what it finds.  As long as what is
remembered is right, whatever it gives is right, and what is remembered stays right; so it does not
matter which searches came before.  Where no composite contains itself, the composites that a search
is inside of are different ones, so it does not go deeper than there are nodes, and ends.

* `LeafSearch.Gives`, `LeafSearch.Ends` — what is right of a search, and that it ends.
* `NormalGraph.StandsFor` — a node is a leaf, or has it inside it.
* `NormalGraph.gives_leavesOf`, `NormalGraph.ends_leavesOf` — a search gives the leaves of a node,
  and ends.
* `NormalGraph.expansion_exact` — leaves and the edges between them are exactly what nodes and edges
  stand for.
-/

namespace DecisionEngine

open Relation (ReflTransGen TransGen)

/-! ## Searches -/

namespace LeafSearch

variable {α β : Type} {Right : LeafMemo → Prop} {x : LeafSearch α} {f : α → LeafSearch β}
  {P : α → Prop} {Q : β → Prop} {R : α → β → Prop} {as : List α}

/-- If what is remembered is right, then whatever a search gives is as wanted, and what is
remembered after it is right. -/
def Gives (Right : LeafMemo → Prop) (x : LeafSearch α) (P : α → Prop) : Prop :=
  ∀ memo, Right memo → ∀ a memo', x memo = some (a, memo') → P a ∧ Right memo'

/-- A search ends, whatever is remembered. -/
def Ends (x : LeafSearch α) : Prop := ∀ memo, ∃ result, x memo = some result

theorem bind_apply (memo : LeafMemo) :
    (x >>= f) memo = (x memo).bind fun result => f result.1 result.2 := rfl

theorem Gives.pure {a : α} (h : P a) : Gives Right (Pure.pure a) P := by
  rintro memo hmemo _ _ ⟨⟩
  exact ⟨h, hmemo⟩

theorem Gives.bind (hx : Gives Right x P) (hf : ∀ a, P a → Gives Right (f a) Q) :
    Gives Right (x >>= f) Q := by
  intro memo hmemo b memo' h
  rw [bind_apply, Option.bind_eq_some_iff] at h
  obtain ⟨⟨a, between⟩, ha, hb⟩ := h
  obtain ⟨hP, hbetween⟩ := hx memo hmemo a between ha
  exact hf a hP between hbetween b memo' hb

theorem Gives.mapM (h : ∀ a ∈ as, Gives Right (f a) (R a)) :
    Gives Right (as.mapM f) (List.Forall₂ R as) := by
  induction as with
  | nil => exact .pure .nil
  | cons a as ih =>
    obtain ⟨ha, has⟩ := List.forall_mem_cons.1 h
    rw [List.mapM_cons]
    exact .bind ha fun b hb => .bind (ih has) fun bs hbs => .pure (.cons hb hbs)

theorem Ends.pure (a : α) : Ends (Pure.pure a : LeafSearch α) := fun memo => ⟨(a, memo), rfl⟩

theorem Ends.bind (hx : Ends x) (hf : ∀ a, Ends (f a)) : Ends (x >>= f) := by
  intro memo
  obtain ⟨⟨a, between⟩, ha⟩ := hx memo
  rw [bind_apply, ha]
  exact hf a between

theorem Ends.mapM (h : ∀ a ∈ as, Ends (f a)) : Ends (as.mapM f) := by
  induction as with
  | nil => exact .pure []
  | cons a as ih =>
    obtain ⟨ha, has⟩ := List.forall_mem_cons.1 h
    rw [List.mapM_cons]
    exact .bind ha fun b => .bind (ih has) fun bs => .pure (b :: bs)

theorem Ends.remember (id : Bytes) (leaves : List Bytes) : Ends (remember id leaves) :=
  fun _ => ⟨_, rfl⟩

/-- What a search gives depends on nothing but what is right, if that leaves no choice. -/
theorem Ends.gives (hends : Ends x) (hx : Gives Right x P) {memo : LeafMemo} (hmemo : Right memo) :
    ∃ a memo', x memo = some (a, memo') ∧ P a ∧ Right memo' := by
  obtain ⟨⟨a, memo'⟩, h⟩ := hends memo
  exact ⟨a, memo', h, hx memo hmemo a memo' h⟩

/-- What is found from nothing is as wanted, or is nothing. -/
theorem Gives.found {x : LeafSearch (List α)} {P : List α → Prop} (hx : Gives Right x P)
    (hstart : Right []) : P x.found ∨ x.found = [] := by
  unfold LeafSearch.found
  cases h : x [] with
  | none => exact .inr rfl
  | some result => exact .inl (hx [] hstart result.1 result.2 h).1

/-- What is found from nothing is what the search gives if it ends. -/
theorem Ends.found {x : LeafSearch (List α)} {P : List α → Prop} (hends : Ends x)
    (hx : Gives Right x P) (hstart : Right []) : P x.found := by
  obtain ⟨a, memo', h, hP, -⟩ := hends.gives hx hstart
  unfold LeafSearch.found
  rw [h]
  exact hP

end LeafSearch

open LeafSearch

/-! ## Lists of results -/

section Results

variable {α β : Type} {R : α → β → Prop} {as : List α} {results : List (List β)}

/-- What is in one of the results is related to one of the items that they are the results of. -/
theorem mem_flatten_of_forall₂ (h : List.Forall₂ (fun a bs => ∀ b, b ∈ bs ↔ R a b) as results)
    {b : β} : b ∈ results.flatten ↔ ∃ a ∈ as, R a b := by
  induction h with
  | nil => simp
  | cons hbs _ ih => simp [ih, hbs]

/-- The items whose results have something in them are those that it is related to. -/
theorem mem_filter_zip_of_forall₂ [BEq β] [LawfulBEq β]
    (h : List.Forall₂ (fun a bs => ∀ b, b ∈ bs ↔ R a b) as results) {a : α} {b : β} :
    a ∈ ((as.zip results).filter fun c => c.2.contains b).map (·.1) ↔ a ∈ as ∧ R a b := by
  induction h with
  | nil => simp
  | @cons first joined _ _ hbs _ ih =>
    have hfirst : joined.contains b = true ↔ R first b := List.contains_iff_mem.trans (hbs b)
    rw [List.zip_cons_cons, List.filter_cons, List.mem_cons, or_and_right, ← ih]
    by_cases hin : R first b
    · rw [if_pos (hfirst.2 hin), List.map_cons, List.mem_cons]
      exact or_congr_left (and_iff_left_of_imp fun heq => heq ▸ hin).symm
    · rw [if_neg (mt hfirst.1 hin)]
      exact (or_iff_right fun ha : a = first ∧ R a b => hin (ha.1 ▸ ha.2)).symm

end Results

/-- Only composites have members. -/
theorem Node.members_of_not_isComposite {n : Node} (h : n.isComposite = false) :
    n.body.members = [] := by
  unfold Node.isComposite Node.kind at h
  cases hb : n.body with
  | composite c ms => rw [hb] at h; cases h
  | _ => rfl

namespace NormalGraph

/-! ## Leaves -/

/-- A node names another id as a member. -/
def Lists (g : NormalGraph) (outer inner : Bytes) : Prop :=
  ∃ n, g.find? outer = some n ∧ inner ∈ n.node.body.members

/-- An id is that of a node that is no composite. -/
def IsLeaf (g : NormalGraph) (id : Bytes) : Prop :=
  ∃ n, g.find? id = some n ∧ n.node.isComposite = false

/-- A node stands for a leaf: it is the leaf, or has the leaf inside it. -/
def StandsFor (g : NormalGraph) (id leaf : Bytes) : Prop :=
  g.IsLeaf leaf ∧ ReflTransGen g.Lists id leaf

/-- A list holds the leaves of a node, in order, each once. -/
structure AreLeaves (g : NormalGraph) (id : Bytes) (leaves : List Bytes) : Prop where
  ascending : leaves.Pairwise (· < ·)
  mem_iff : ∀ leaf, leaf ∈ leaves ↔ g.StandsFor id leaf

/-- All leaves that are remembered are right. -/
def Exact (g : NormalGraph) (memo : LeafMemo) : Prop :=
  ∀ id leaves, Keyed.find? memo id = some leaves → g.AreLeaves id leaves

variable {g : NormalGraph} {id leaf : Bytes} {leaves : List Bytes} {n : NormalNode}

theorem exact_nil (g : NormalGraph) : g.Exact [] := fun _ _ h => nomatch h

theorem mem_ids_of_find? (h : g.find? id = some n) : id ∈ g.ids := by
  have hid : n.node.id = id := by simpa using List.find?_some h
  exact hid ▸ List.mem_map_of_mem (List.mem_of_find?_eq_some h)

theorem IsLeaf.mem_ids (h : g.IsLeaf id) : id ∈ g.ids :=
  h.elim fun _ hn => mem_ids_of_find? hn.1

/-- An id of no node stands for nothing. -/
theorem not_standsFor (h : g.find? id = none) : ¬g.StandsFor id leaf := by
  rintro ⟨⟨n, hn, -⟩, hinside⟩
  obtain rfl | ⟨_, ⟨m, hm, -⟩, -⟩ := hinside.cases_head
  · exact nomatch h.symm.trans hn
  · exact nomatch h.symm.trans hm

/-- A node stands for itself if it is no composite, and for what its members stand for. -/
theorem standsFor_iff (hn : g.find? id = some n) : g.StandsFor id leaf ↔
    n.node.isComposite = false ∧ leaf = id ∨
      ∃ inner ∈ n.node.body.members, g.StandsFor inner leaf := by
  constructor
  · rintro ⟨⟨m, hm, hleaf⟩, hinside⟩
    obtain rfl | ⟨inner, ⟨n', hn', hin⟩, hinside⟩ := hinside.cases_head
    · cases hn.symm.trans hm
      exact .inl ⟨hleaf, rfl⟩
    · cases hn.symm.trans hn'
      exact .inr ⟨inner, hin, ⟨m, hm, hleaf⟩, hinside⟩
  · rintro (⟨hleaf, rfl⟩ | ⟨inner, hin, hleaf, hinside⟩)
    · exact ⟨⟨n, hn, hleaf⟩, .refl⟩
    · exact ⟨hleaf, .head ⟨n, hn, hin⟩ hinside⟩

theorem AreLeaves.eq {leaves' : List Bytes} (h : g.AreLeaves id leaves)
    (h' : g.AreLeaves id leaves') : leaves = leaves' :=
  h.ascending.eq_of_mem_iff h'.ascending fun leaf => (h.mem_iff leaf).trans (h'.mem_iff leaf).symm

/-! ### The search -/

theorem gives_remember (h : g.AreLeaves id leaves) :
    Gives g.Exact (remember id leaves) (g.AreLeaves id) := by
  rintro memo hmemo _ _ ⟨⟩
  have hkept : g.Exact (Keyed.keep id leaves memo) := by
    intro other found hfound
    rw [Keyed.find?_keep] at hfound
    split at hfound
    case isTrue heq =>
      cases hold : Keyed.find? memo id with
      | none =>
        rw [hold] at hfound
        cases hfound
        exact heq ▸ h
      | some old =>
        rw [hold] at hfound
        cases hfound
        exact heq ▸ hmemo id old hold
    case isFalse => exact hmemo other found hfound
  refine ⟨?_, hkept⟩
  cases hfind : Keyed.find? (Keyed.keep id leaves memo) id with
  | none => exact h
  | some found => exact hkept id found hfind

theorem gives_gather {search : Bytes → LeafSearch (List Bytes)}
    (h : ∀ inner, Gives g.Exact (search inner) (g.AreLeaves inner)) (id : Bytes) :
    Gives g.Exact (g.gather search id) (g.AreLeaves id) := by
  unfold gather
  cases hn : g.find? id with
  | none => exact .pure ⟨.nil, fun leaf => by simp [not_standsFor hn]⟩
  | some n =>
    dsimp only
    by_cases hcomposite : n.node.isComposite = true
    · rw [if_pos hcomposite]
      refine .bind (.mapM fun inner _ => h inner) fun inner hinner => .pure ?_
      refine ⟨ascending_sortedDistinct _, fun leaf => ?_⟩
      rw [mem_sortedDistinct, mem_flatten_of_forall₂ (hinner.imp fun _ _ h => h.mem_iff),
        standsFor_iff hn]
      simp [hcomposite]
    · rw [if_neg hcomposite]
      rw [Bool.not_eq_true] at hcomposite
      refine .pure ⟨List.pairwise_singleton .., fun leaf => ?_⟩
      rw [standsFor_iff hn, Node.members_of_not_isComposite hcomposite]
      simp [hcomposite]

theorem leavesOf_succ (g : NormalGraph) (depth : Nat) (id : Bytes) (memo : LeafMemo) :
    g.leavesOf (depth + 1) id memo =
      match Keyed.find? memo id with
      | some leaves => some (leaves, memo)
      | none => (g.gather (g.leavesOf depth) id >>= remember id) memo := by
  rw [leavesOf, bind_apply]
  change (match Keyed.find? memo id with | some leaves => _ | none => _ : LeafSearch _) memo = _
  cases Keyed.find? memo id <;> rfl

/-- Whatever a search gives are the leaves of the node. -/
theorem gives_leavesOf (g : NormalGraph) (depth : Nat) (id : Bytes) :
    Gives g.Exact (g.leavesOf depth id) (g.AreLeaves id) := by
  induction depth generalizing id with
  | zero => exact fun _ _ _ _ h => nomatch h
  | succ depth ih =>
    intro memo hmemo leaves memo' h
    rw [leavesOf_succ] at h
    cases hknown : Keyed.find? memo id with
    | some known =>
      rw [hknown] at h
      cases h
      exact ⟨hmemo id leaves hknown, hmemo⟩
    | none =>
      rw [hknown] at h
      exact (gives_gather ih id).bind (fun _ => gives_remember) memo hmemo leaves memo' h

theorem ends_gather {search : Bytes → LeafSearch (List Bytes)}
    (h : ∀ inner, g.Lists id inner → Ends (search inner)) : Ends (g.gather search id) := by
  unfold gather
  cases hn : g.find? id with
  | none => exact .pure []
  | some n =>
    dsimp only
    split
    · exact .bind (.mapM fun inner hin => h inner ⟨n, hn, hin⟩) fun _ => .pure _
    · exact .pure [id]

/-- A search ends that may go deeper than there are nodes around which `path` does not list
already: the composites that it is inside of are all different. -/
theorem ends_leavesOf (hacyclic : ∀ id, ¬TransGen g.Lists id id) {path : List Bytes}
    (hpath : path.Nodup) (hinside : ∀ outer ∈ path, TransGen g.Lists outer id) {depth : Nat}
    (hdepth : g.nodes.length < depth + path.length) : Ends (g.leavesOf depth id) := by
  induction depth generalizing id path with
  | zero =>
    have hsub : path ⊆ g.ids := fun outer houter => by
      obtain ⟨_, ⟨n, hn, -⟩, -⟩ := TransGen.head'_iff.1 (hinside outer houter)
      exact mem_ids_of_find? hn
    have hle := (List.subperm_of_subset hpath hsub).length_le
    rw [ids, List.length_map] at hle
    omega
  | succ depth ih =>
    intro memo
    rw [leavesOf_succ]
    cases hknown : Keyed.find? memo id with
    | some known => exact ⟨_, rfl⟩
    | none =>
      refine Ends.bind (ends_gather fun inner hin => ?_) (Ends.remember id) memo
      have hnew : id ∉ path := fun hid => hacyclic id (hinside id hid)
      refine ih (List.nodup_cons.2 ⟨hnew, hpath⟩) ?_ (by simp; omega)
      exact List.forall_mem_cons.2 ⟨.single hin, fun outer houter => (hinside outer houter).tail hin⟩

/-- The searches of the expansion end where no composite contains itself. -/
theorem ends_leavesOf_depth (hacyclic : ∀ id, ¬TransGen g.Lists id id) (id : Bytes) :
    Ends (g.leavesOf g.depth id) :=
  ends_leavesOf hacyclic List.nodup_nil (by simp) (by simp [NormalGraph.depth])

/-! ## Edges -/

/-- An edge joins two leaves: an edge of the graph of its kind has ends that stand for them. -/
def Joins (g : NormalGraph) (e : Edge) : Prop :=
  ∃ d ∈ g.edges, d.kind = e.kind ∧ g.StandsFor d.source e.source ∧ g.StandsFor d.target e.target

/-- A list holds the edges that join leaves, in order, each once. -/
structure AreJoined (g : NormalGraph) (edges : List Edge) : Prop where
  ascending : edges.Pairwise fun a b => a.before b = true
  mem_iff : ∀ e, e ∈ edges ↔ g.Joins e

theorem AreJoined.eq {edges edges' : List Edge} (h : g.AreJoined edges) (h' : g.AreJoined edges') :
    edges = edges' :=
  Edge.strictOrder_before.eq_of_ascending h.ascending h'.ascending fun e =>
    (h.mem_iff e).trans (h'.mem_iff e).symm

theorem gives_expandEdge (g : NormalGraph) (d : Edge) :
    Gives g.Exact (g.expandEdge d) fun joined => ∀ e, e ∈ joined ↔
      d.kind = e.kind ∧ g.StandsFor d.source e.source ∧ g.StandsFor d.target e.target := by
  unfold expandEdge
  refine .bind (g.gives_leavesOf _ _) fun sources hsources => ?_
  refine .bind (g.gives_leavesOf _ _) fun targets htargets => .pure fun e => ?_
  simp only [List.mem_flatMap, List.mem_map, hsources.mem_iff, htargets.mem_iff]
  constructor
  · rintro ⟨s, hs, t, ht, rfl⟩
    exact ⟨rfl, hs, ht⟩
  · rintro ⟨hkind, hs, ht⟩
    exact ⟨e.source, hs, e.target, ht, by rw [hkind]⟩

/-- Whatever the expansion gives are the edges that join leaves. -/
theorem gives_expandEdges (g : NormalGraph) : Gives g.Exact g.expandEdges g.AreJoined := by
  unfold expandEdges
  refine .bind (.mapM fun d _ => g.gives_expandEdge d) fun expanded hexpanded => .pure ?_
  refine ⟨Edge.ascending_sortedDistinct _, fun e => ?_⟩
  rw [Edge.mem_sortedDistinct, mem_flatten_of_forall₂ hexpanded]
  rfl

theorem ends_expandEdges (hacyclic : ∀ id, ¬TransGen g.Lists id id) : Ends g.expandEdges := by
  have hends := ends_leavesOf_depth hacyclic
  exact .bind (.mapM fun d _ => .bind (hends _) fun _ => .bind (hends _) fun _ => .pure _)
    fun _ => .pure _

theorem areJoined_expandedEdges (hacyclic : ∀ id, ¬TransGen g.Lists id id) :
    g.AreJoined g.expandedEdges :=
  (ends_expandEdges hacyclic).found g.gives_expandEdges g.exact_nil

/-- Edges between leaves join leaves, whether or not the expansion ends. -/
theorem joins_of_mem_expandedEdges {e : Edge} (h : e ∈ g.expandedEdges) : g.Joins e := by
  obtain hjoined | hnone := g.gives_expandEdges.found g.exact_nil
  · exact (hjoined.mem_iff e).1 h
  · rw [expandedEdges, hnone] at h
    cases h

/-- An edge between leaves is listed once. -/
theorem nodup_expandedEdges (g : NormalGraph) : g.expandedEdges.Nodup := by
  obtain hjoined | hnone := g.gives_expandEdges.found g.exact_nil
  · refine List.Pairwise.imp (fun {a b} hab heq => ?_) hjoined.ascending
    rw [heq, Edge.strictOrder_before.irrefl] at hab
    cases hab
  · rw [expandedEdges, hnone]
    exact .nil

/-! ## Composites around leaves -/

theorem mem_composites_of_mem_scopes {n : Node} (h : n ∈ g.scopes leaf) : n ∈ g.composites := by
  obtain ⟨⟨_, _⟩, hc, rfl⟩ := List.mem_map.1 h
  exact (List.of_mem_zip (List.mem_filter.1 hc).1).1

/-- The composites around a leaf are those that stand for it. -/
theorem mem_scopes_iff (hacyclic : ∀ id, ¬TransGen g.Lists id id) {n : Node} :
    n ∈ g.scopes leaf ↔ n ∈ g.composites ∧ g.StandsFor n.id leaf := by
  have hleaves : List.Forall₂ g.AreLeaves (g.composites.map (·.id)) g.compositeLeaves :=
    Ends.found (.mapM fun id _ => ends_leavesOf_depth hacyclic id)
      (.mapM fun id _ => g.gives_leavesOf _ id) g.exact_nil
  rw [List.forall₂_map_left_iff] at hleaves
  exact mem_filter_zip_of_forall₂ (hleaves.imp fun _ _ h => h.mem_iff)

/-! ## Exactness -/

/-- **Composites are expanded exactly.**  In a graph in which no composite contains itself, a search
for the leaves of a node ends, whatever was searched for before, and always gives the same: the
nodes that are no composites and are reached from it through members, in order, each once.  Then
the edges between leaves are exactly those that edges of their kind join, in order, each once.
Members that do not exist add nothing. -/
theorem expansion_exact (g : NormalGraph) (hacyclic : ∀ id, ¬TransGen g.Lists id id) :
    g.Exact [] ∧
    (∀ id, ∃ leaves, g.AreLeaves id leaves ∧
      ∀ depth, g.nodes.length < depth → ∀ memo, g.Exact memo →
        ∃ memo', g.leavesOf depth id memo = some (leaves, memo') ∧ g.Exact memo') ∧
    g.AreJoined g.expandedEdges ∧
    ∀ memo, g.Exact memo →
      ∃ memo', g.expandEdges memo = some (g.expandedEdges, memo') ∧ g.Exact memo' := by
  refine ⟨g.exact_nil, fun id => ?_, areJoined_expandedEdges hacyclic, fun memo hmemo => ?_⟩
  · obtain ⟨leaves, -, -, hleaves, -⟩ :=
      (ends_leavesOf_depth hacyclic id).gives (g.gives_leavesOf _ id) g.exact_nil
    refine ⟨leaves, hleaves, fun depth hdepth memo hmemo => ?_⟩
    have hends : Ends (g.leavesOf depth id) :=
      ends_leavesOf hacyclic List.nodup_nil (by simp) (by simpa using hdepth)
    obtain ⟨found, memo', hfound, hleaves', hmemo'⟩ := hends.gives (g.gives_leavesOf _ id) hmemo
    exact ⟨memo', hleaves.eq hleaves' ▸ hfound, hmemo'⟩
  · obtain ⟨edges, memo', hedges, hjoined, hmemo'⟩ :=
      (ends_expandEdges hacyclic).gives g.gives_expandEdges hmemo
    exact ⟨memo', (areJoined_expandedEdges hacyclic).eq hjoined ▸ hedges, hmemo'⟩

/-- No composite contains itself where members have a lower rank. -/
theorem acyclic_of_rank (rank : Bytes → Nat)
    (h : ∀ n ∈ g.nodes, ∀ inner ∈ n.node.body.members, rank inner < rank n.node.id) (id : Bytes) :
    ¬TransGen g.Lists id id := by
  have hlower : ∀ outer inner, g.Lists outer inner → rank inner < rank outer := by
    rintro outer inner ⟨n, hn, hin⟩
    have hid : n.node.id = outer := by simpa using List.find?_some hn
    exact hid ▸ h n (List.mem_of_find?_eq_some hn) inner hin
  intro hcycle
  have hfalls : TransGen (· > ·) (rank id) (rank id) := TransGen.lift rank hlower id id hcycle
  rw [Relation.transGen_eq_self] at hfalls
  exact Nat.lt_irrefl _ hfalls

/-- Rewards, which are a gift and points, and everything, which is rewards, points once more, and
a member that does not exist. -/
def nestedSample : NormalGraph where
  nodes := [
    ⟨⟨utf8 "everything", [], 0, .zero,
      .composite ⟨[], []⟩ [utf8 "lost", utf8 "points", utf8 "rewards"]⟩, 0⟩,
    ⟨⟨utf8 "gift", [], 0, .zero, .action ⟨[], []⟩ ⟨utf8 "gift", .empty⟩⟩, 1⟩,
    ⟨⟨utf8 "note", [], 0, .zero, .evaluator ⟨[], []⟩⟩, 2⟩,
    ⟨⟨utf8 "points", [], 0, .zero, .action ⟨[], []⟩ ⟨utf8 "points", .empty⟩⟩, 3⟩,
    ⟨⟨utf8 "rewards", [], 0, .zero, .composite ⟨[], []⟩ [utf8 "gift", utf8 "points"]⟩, 4⟩]
  edges := [⟨utf8 "everything", .flowsTo, utf8 "note"⟩, ⟨utf8 "rewards", .flowsTo, utf8 "note"⟩]

/-- Everything has the leaves of the rewards, whether or not these were searched for before, and
the two edges join the same leaves. -/
theorem expansion_exact_nested : (∀ id, ¬TransGen nestedSample.Lists id id) ∧
    nestedSample.AreLeaves (utf8 "everything") [utf8 "gift", utf8 "points"] ∧
    (∃ memo memo', nestedSample.leavesOf nestedSample.depth (utf8 "rewards") [] =
        some ([utf8 "gift", utf8 "points"], memo) ∧
      nestedSample.leavesOf nestedSample.depth (utf8 "everything") memo =
        some ([utf8 "gift", utf8 "points"], memo')) ∧
    nestedSample.AreJoined
      [⟨utf8 "gift", .flowsTo, utf8 "note"⟩, ⟨utf8 "points", .flowsTo, utf8 "note"⟩] := by
  have hacyclic : ∀ id, ¬TransGen nestedSample.Lists id id :=
    acyclic_of_rank List.length (by decide)
  obtain ⟨hstart, hleaves, hjoined, -⟩ := expansion_exact nestedSample hacyclic
  have hdepth : nestedSample.nodes.length < nestedSample.depth := by decide
  obtain ⟨everything, heverything, hsearch⟩ := hleaves (utf8 "everything")
  obtain ⟨rewards, -, hsearch'⟩ := hleaves (utf8 "rewards")
  obtain ⟨memo, hrewards, hmemo⟩ := hsearch' _ hdepth [] hstart
  obtain ⟨memo', hafter, -⟩ := hsearch _ hdepth memo hmemo
  obtain ⟨_, hfirst, -⟩ := hsearch _ hdepth [] hstart
  have hfound : (nestedSample.leavesOf nestedSample.depth (utf8 "rewards") []).map (·.1) =
      some [utf8 "gift", utf8 "points"] := by cbv
  have hfound' : (nestedSample.leavesOf nestedSample.depth (utf8 "everything") []).map (·.1) =
      some [utf8 "gift", utf8 "points"] := by cbv
  have hedges : nestedSample.expandedEdges =
      [⟨utf8 "gift", .flowsTo, utf8 "note"⟩, ⟨utf8 "points", .flowsTo, utf8 "note"⟩] := by cbv
  rw [hrewards] at hfound
  rw [hfirst] at hfound'
  cases hfound
  cases hfound'
  exact ⟨hacyclic, heverything, ⟨memo, memo', hrewards, hafter⟩, hedges ▸ hjoined⟩

end NormalGraph
end DecisionEngine
