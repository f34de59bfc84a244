import DecisionEngine.Proofs.Compile.Replacement
import DecisionEngine.Proofs.Compile.Runs
/-!
# Graphs in which fewer leaves are kept

Where pruning can tell of more leaves that they are hopeless, it keeps fewer of them.  The leaves
that are dropped in one graph and kept in the other one are idle there: no rule that they ask for
fires, or they are never met.

* `FlatGraph.dropped_induction` — what holds of hopeless leaves, and passes on, holds of all that
  is dropped.
* `FlatGraph.Honest` — only eligible rules fire.
* `FlatGraph.Thins` — a graph is what is left of another one when idle leaves go.
* `FlatGraph.thins_without` — pruning thins a graph of which more can be told.
-/

namespace DecisionEngine

namespace FlatGraph

variable {g g' : FlatGraph} {dropUnreachable : Bool}

/-! ## What is dropped -/

/-- What is dropped at once: unreachable leaves, if asked for, and hopeless ones. -/
theorem has_droppedAtOnce_iff {unreached : List Bytes} {id : Bytes} :
    (g.droppedAtOnce unreached dropUnreachable).has id = true ↔
      (dropUnreachable = true ∧ id ∈ unreached) ∨
        ∃ n ∈ g.nodes, n.id = id ∧ n.hopeless?.isSome := by
  rw [droppedAtOnce_eq, Dropped.has_append_iff, ← Dropped.has_ofUnreached_iff,
    Dropped.has_ofHopeless_iff]
  constructor
  · rintro (h | ⟨n, hn, hid, hh⟩)
    · exact .inl h
    · exact .inr ⟨n, (List.mem_filter.1 hn).1, hid, hh⟩
  · rintro (h | ⟨n, hn, rfl, hh⟩)
    · exact .inl h
    · by_cases hold : (Dropped.ofUnreached unreached dropUnreachable).has n.id = true
      · exact .inl hold
      · exact .inr ⟨n, List.mem_filter.2 ⟨hn, by simpa using hold⟩, rfl, hh⟩

/-- What holds of everything that is dropped at once, and passes on to leaves that require such a
leaf and to those that only such leaves flow to, holds of everything that is dropped. -/
theorem dropped_induction {P : Bytes → Prop}
    (honce : ∀ id, (g.droppedAtOnce g.unreachable dropUnreachable).has id = true → P id)
    (hrequires : ∀ e ∈ g.edges, e.kind = .requires → P e.target → P e.source)
    (hflows : ∀ id ∈ g.ids, g.predecessors id ≠ [] → (∀ s ∈ g.predecessors id, P s) → P id) :
    ∀ id, (g.dropped dropUnreachable).has id = true → P id := by
  have hnew : ∀ (d : Dropped) id reason, (∀ i, d.has i = true → P i) → P id →
      ∀ i, Dropped.has (d ++ [(id, reason)]) i = true → P i := by
    intro d id reason hd hid i hi
    rw [Dropped.has_iff, List.map_append, List.mem_append] at hi
    rcases hi with hi | hi
    · exact hd i (Dropped.has_iff.2 hi)
    · rw [List.mem_singleton.1 hi]
      exact hid
  refine dropped_keeps (P := fun d => ∀ id, d.has id = true → P id)
    (fun d e he hd hkind _ htarget => ?_) (fun d id hid hd _ hsome hall => ?_) honce
  · exact hnew d _ _ hd (hrequires e he hkind (hd _ htarget))
  · exact hnew d id _ hd (hflows id hid hsome fun s hs => hd s (hall s hs))

/-- What is dropped at once stays dropped. -/
theorem prefix_dropped : g.droppedAtOnce g.unreachable dropUnreachable <+:
    g.dropped dropUnreachable := by
  refine dropped_keeps (P := (g.droppedAtOnce g.unreachable dropUnreachable <+: ·))
    (fun d e _ hd _ _ _ => ?_) (fun d id _ hd _ _ _ => ?_) List.prefix_rfl
  · exact hd.trans (List.prefix_append ..)
  · exact hd.trans (List.prefix_append ..)

theorem has_dropped_of_once {id : Bytes}
    (h : (g.droppedAtOnce g.unreachable dropUnreachable).has id = true) :
    (g.dropped dropUnreachable).has id = true := by
  rw [Dropped.has_iff] at h ⊢
  exact (prefix_dropped.map _).subset h

/-! ## Graphs of which more can be told -/

section

variable (hnodes : List.Forall₂ FlatNode.Dims g.nodes g'.nodes) (hedges : g.edges = g'.edges)

include hnodes

theorem ids_of_dims : g.ids = g'.ids := by
  unfold ids
  rw [← List.forall₂_eq_eq_eq, List.forall₂_map_left_iff, List.forall₂_map_right_iff]
  refine hnodes.imp fun n n' h => ?_
  cases h with
  | same => rfl
  | hopeless hid => exact hid

include hedges

theorem unreachable_of_dims : g.unreachable = g'.unreachable := by
  have hdecisions : (g.nodes.filter (·.kind == .decision)).map (·.id) =
      (g'.nodes.filter (·.kind == .decision)).map (·.id) := by
    rw [← List.forall₂_eq_eq_eq, List.forall₂_map_left_iff, List.forall₂_map_right_iff]
    have hsame : ∀ n n', FlatNode.Dims n n' → n.id = n'.id ∧ n.kind = n'.kind := fun n n' h => by
      cases h with
      | same => exact ⟨rfl, rfl⟩
      | hopeless hid hkind => exact ⟨hid, hkind⟩
    refine (List.rel_filter (fun n n' h => ?_) hnodes).imp fun n n' h => (hsame n n' h).1
    dsimp only
    rw [(hsame n n' h).2]
  unfold unreachable flow
  rw [hdecisions, ids_of_dims hnodes, hedges]

theorem once_of_dims {id : Bytes}
    (h : (g'.droppedAtOnce g'.unreachable dropUnreachable).has id = true) :
    (g.droppedAtOnce g.unreachable dropUnreachable).has id = true := by
  rw [has_droppedAtOnce_iff] at h ⊢
  rw [unreachable_of_dims hnodes hedges]
  refine h.imp_right ?_
  rintro ⟨n', hn', rfl, hh⟩
  obtain ⟨n, hn, hdims⟩ := forall₂_of_mem_left hnodes.flip hn'
  cases hdims with
  | same => exact ⟨n', hn, rfl, hh⟩
  | hopeless hid _ htold => exact ⟨n, hn, hid, htold⟩

/-- What is dropped of the one graph is dropped of the other one, of which more can be told. -/
theorem dropped_of_dims (hids : g.ids.Nodup) (hends : ∀ e ∈ g.edges, e.source ∈ g.ids) {id : Bytes}
    (h : (g'.dropped dropUnreachable).has id = true) :
    (g.dropped dropUnreachable).has id = true := by
  have hsettled := settled_dropped hids hends dropUnreachable
  refine dropped_induction (P := fun id => (g.dropped dropUnreachable).has id = true)
    (fun id h => has_dropped_of_once (once_of_dims hnodes hedges h)) (fun e he hkind htarget => ?_)
    (fun id hid hsome hall => ?_) id h
  · exact has_of_requires hsettled (hedges ▸ he) hkind htarget
  · have hsame : g.predecessors id = g'.predecessors id := by
      unfold predecessors
      rw [hedges]
    rw [← hsame] at hsome hall
    exact has_of_predecessors hsettled (ids_of_dims hnodes ▸ hid) hsome hall

end

/-! ## Thinner graphs -/

/-- Only eligible rules of a graph fire. -/
def Honest (k : FlatGraph) (e : Evidence) (fires : Bytes → Prop) : Prop :=
  ∀ id, fires id → ∃ n ∈ k.nodes, n.id = id ∧ k.Eligible e fires n

/-- A graph is what is left of another one when some leaves go that are idle: they are never
eligible where only eligible leaves fire.  What is left asks for nothing that goes, but for leaves
that may flow to it. -/
structure Thins (k k' : FlatGraph) : Prop where
  nodes : k.nodes = k'.nodes.filter fun n => k.ids.contains n.id
  edges : ∀ e, e ∈ k.edges ↔ e ∈ k'.edges ∧ e.source ∈ k.ids ∧ e.target ∈ k.ids
  requires : ∀ a b, ⟨a, .requires, b⟩ ∈ k'.edges → a ∈ k.ids → b ∈ k.ids
  flowsTo : ∀ a b, ⟨a, .flowsTo, b⟩ ∈ k'.edges → b ∈ k.ids → ∃ c, ⟨c, .flowsTo, b⟩ ∈ k.edges
  idle : ∀ e fires, k'.Honest e fires → ∀ n ∈ k'.nodes, n.id ∉ k.ids → ¬k'.Eligible e fires n

/-- Where nodes differ that are dropped only, the same ones are left. -/
theorem filter_of_dims (keeps : Bytes → Bool) {ns ns' : List FlatNode}
    (h : List.Forall₂ FlatNode.Dims ns ns')
    (hkeeps : ∀ n ∈ ns, n.hopeless?.isSome → keeps n.id = false) :
    (ns.filter fun n => keeps n.id) = ns'.filter fun n => keeps n.id := by
  induction h with
  | nil => rfl
  | cons hdims _ ih =>
    have hrest := ih fun n hn => hkeeps n (List.mem_cons_of_mem _ hn)
    cases hdims with
    | same => rw [List.filter_cons, List.filter_cons, hrest]
    | hopeless hid _ htold =>
      have hdrop := hkeeps _ (List.mem_cons_self ..) htold
      rw [List.filter_cons_of_neg (by simp [hdrop]),
        List.filter_cons_of_neg (by simp [← hid, hdrop]),
        hrest]

/-- Leaves that are dropped of the one graph are idle where they are kept: hopeless ones are never
met, and the others ask for such leaves. -/
theorem idle_of_dims (hnodes : List.Forall₂ FlatNode.Dims g.nodes g'.nodes)
    (hedges : g.edges = g'.edges) (hids : g.ids.Nodup)
    (hends : ∀ e ∈ g.edges, e.source ∈ g.ids ∧ e.target ∈ g.ids) {e : Evidence}
    {fires : Bytes → Prop} (hhonest : (g'.without (g'.dropped dropUnreachable)).Honest e fires)
    {id : Bytes} (h : (g.dropped dropUnreachable).has id = true) :
    ∀ n ∈ (g'.without (g'.dropped dropUnreachable)).nodes, n.id = id →
      ¬(g'.without (g'.dropped dropUnreachable)).Eligible e fires n := by
  let d' := g'.dropped dropUnreachable
  have hids' : g.ids = g'.ids := ids_of_dims hnodes
  have hsettled : (g'.pruneRound d').length = d'.length :=
    settled_dropped (hids' ▸ hids) (fun ed hed => hids' ▸ (hends ed (hedges ▸ hed)).1)
      dropUnreachable
  have hkept : ∀ n ∈ (g'.without d').nodes, n ∈ g'.nodes ∧ d'.has n.id = false := fun n hn => by
    simpa using List.mem_filter.1 hn
  have hedge : ∀ ed ∈ g.edges, ed.source ≠ ed.target → d'.has ed.source = false →
      d'.has ed.target = false → ed ∈ (g'.without d').edges := fun ed hed hne hs ht =>
    mem_edges_without.2 ⟨hedges ▸ hed, hne, mem_ids_without.2 ⟨hids' ▸ (hends ed hed).1, hs⟩,
      mem_ids_without.2 ⟨hids' ▸ (hends ed hed).2, ht⟩⟩
  have honce : ∀ {x : Bytes}, d'.has x = false →
      ¬(g'.droppedAtOnce g'.unreachable dropUnreachable).has x = true := fun hx hdrop => by
    rw [has_dropped_of_once hdrop] at hx
    cases hx
  refine dropped_induction (P := fun id => ∀ n ∈ (g'.without d').nodes, n.id = id →
    ¬(g'.without d').Eligible e fires n) (fun id hdrop n hn hid he => ?_) ?_ ?_ id h
  · obtain ⟨hng, hnd⟩ := hkept n hn
    rw [← hid] at hdrop
    rcases has_droppedAtOnce_iff.1 hdrop with ⟨hasked, hunreached⟩ | ⟨m, hm, hmn, htold⟩
    · rw [unreachable_of_dims hnodes hedges] at hunreached
      exact honce hnd (has_droppedAtOnce_iff.2 (.inl ⟨hasked, hunreached⟩))
    · obtain ⟨m', hm', hdims⟩ := forall₂_of_mem_left hnodes hm
      cases hdims with
      | same => exact honce hnd (has_droppedAtOnce_iff.2 (.inr ⟨m, hm', hmn, htold⟩))
      | hopeless hmm _ _ hunmet =>
        have hnodup : g'.ids.Nodup := hids' ▸ hids
        have hsame : m' = n := List.inj_on_of_nodup_map hnodup hm' hng (hmm.symm.trans hmn)
        exact hunmet e (hsame ▸ he.met)
  · rintro ⟨s, kind, t⟩ hed hkind hidle n hn rfl he
    obtain rfl : kind = .requires := hkind
    by_cases hloop : n.id = t
    · exact hidle n hn hloop he
    · have ht : d'.has t = false := kept_of_requires hsettled (hedges ▸ hed) (hkept n hn).2
      have hfires := he.required t (hedge _ hed hloop (hkept n hn).2 ht)
      obtain ⟨m, hm, hmt, hem⟩ := hhonest t hfires
      exact hidle m hm hmt hem
  · rintro id hid hsome hidle n hn rfl he
    have hsame : g.predecessors n.id = g'.predecessors n.id := by
      unfold predecessors
      rw [hedges]
    obtain ⟨c, hc, hcd⟩ :=
      exists_kept_predecessor hsettled (hids' ▸ hid) (hsame ▸ hsome) (hkept n hn).2
    rw [← hsame] at hc
    by_cases hloop : c = n.id
    · exact hidle c hc n hn hloop.symm he
    · obtain ⟨a, ha, hfires⟩ := he.reached
        ⟨c, hedge _ (mem_predecessors_iff.1 hc) hloop hcd (hkept n hn).2⟩
      obtain ⟨m, hm, hma, hem⟩ := hhonest a hfires
      refine hidle a (mem_predecessors_iff.2 ?_) m hm hma hem
      exact hedges ▸ (mem_edges_without.1 ha).1

/-- Pruning thins a graph of which more can be told. -/
theorem thins_without (hnodes : List.Forall₂ FlatNode.Dims g.nodes g'.nodes)
    (hedges : g.edges = g'.edges) (hids : g.ids.Nodup)
    (hends : ∀ e ∈ g.edges, e.source ∈ g.ids ∧ e.target ∈ g.ids)
    (hapart : ∀ e ∈ g.edges, e.ordering?.isSome → e.source ≠ e.target) :
    (g.without (g.dropped dropUnreachable)).Thins
      (g'.without (g'.dropped dropUnreachable)) := by
  let d := g.dropped dropUnreachable
  let d' := g'.dropped dropUnreachable
  have hsettled := settled_dropped hids (fun e he => (hends e he).1) dropUnreachable
  have hids' : g.ids = g'.ids := ids_of_dims hnodes
  have hdropped : ∀ id, d'.has id = true → d.has id = true := fun id h =>
    dropped_of_dims hnodes hedges hids (fun e he => (hends e he).1) h
  have hkept : ∀ id, d.has id = false → d'.has id = false := fun id h => by
    by_contra hnot
    rw [hdropped id (by simpa using hnot)] at h
    cases h
  have hmem : ∀ id, id ∈ (g.without d).ids ↔ id ∈ g.ids ∧ d.has id = false := fun id =>
    mem_ids_without
  have hedge : ∀ e ∈ (g'.without d').edges, e ∈ g.edges := fun e he =>
    hedges ▸ (mem_edges_without.1 he).1
  refine ⟨?_, fun e => ?_, fun a b hab ha => ?_, fun a b hab hb => ?_, fun e fires hhonest => ?_⟩
  · have hhopeless : ∀ n ∈ g.nodes, n.hopeless?.isSome → (!d.has n.id) = false := by
      intro n hn htold
      rw [has_dropped_of_once (has_droppedAtOnce_iff.2 (.inr ⟨n, hn, rfl, htold⟩))]
      rfl
    have hleft : (g.nodes.filter fun n => !d.has n.id) = g'.nodes.filter fun n => !d.has n.id :=
      filter_of_dims (fun id => !d.has id) hnodes hhopeless
    change (g.nodes.filter fun n => !d.has n.id) =
      (g'.nodes.filter fun n => !d'.has n.id).filter fun n => (g.without d).ids.contains n.id
    rw [hleft, List.filter_filter]
    refine List.filter_congr fun n hn => ?_
    have hid : n.id ∈ g.ids := hids' ▸ List.mem_map_of_mem hn
    rw [Bool.eq_iff_iff]
    simp only [Bool.not_eq_true', Bool.and_eq_true, List.contains_iff_mem, hmem, hid, true_and]
    exact ⟨fun h => ⟨h, hkept _ h⟩, fun h => h.1⟩
  · have hsub : ∀ id, id ∈ (g.without d).ids → id ∈ (g'.without d').ids := fun id h => by
      obtain ⟨hid, hnot⟩ := (hmem id).1 h
      exact mem_ids_without.2 ⟨hids' ▸ hid, hkept id hnot⟩
    change e ∈ (g.without d).edges ↔ e ∈ (g'.without d').edges ∧ _ ∧ _
    rw [mem_edges_without, mem_edges_without, hedges]
    constructor
    · rintro ⟨he, hne, hs, ht⟩
      exact ⟨⟨he, hne, hsub _ hs, hsub _ ht⟩, hs, ht⟩
    · rintro ⟨⟨he, hne, -, -⟩, hs, ht⟩
      exact ⟨he, hne, hs, ht⟩
  · have hab := hedge _ hab
    exact (hmem b).2 ⟨(hends _ hab).2, kept_of_requires hsettled hab ((hmem a).1 ha).2⟩
  · have hab := hedge _ hab
    obtain ⟨hbg, hbd⟩ := (hmem b).1 hb
    obtain ⟨c, hc, hcd⟩ := exists_kept_predecessor hsettled hbg
      (List.ne_nil_of_mem (mem_predecessors_iff.2 hab)) hbd
    have hcb := mem_predecessors_iff.1 hc
    exact ⟨c, mem_edges_without.2 ⟨hcb, hapart _ hcb rfl, (hmem c).2 ⟨(hends _ hcb).1, hcd⟩, hb⟩⟩
  · intro n hn hnot
    have hid : n.id ∈ g.ids := hids' ▸ List.mem_map_of_mem (List.mem_filter.1 hn).1
    refine idle_of_dims hnodes hedges hids hends hhonest ?_ n hn rfl
    by_contra hkeep
    exact hnot ((hmem n.id).2 ⟨hid, by simpa using hkeep⟩)

end FlatGraph
end DecisionEngine
