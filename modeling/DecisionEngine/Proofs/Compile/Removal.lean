import DecisionEngine.Proofs.Compile.Hopeless
import DecisionEngine.Proofs.Compile.Thinning
/-!
# Pruning removes the least closed set of leaves

What pruning has to remove can be said about the revision as it was authored, without rounds: leaves
that no decision leads to, if asked for, and leaves that cannot fire by what is written on them;
and with a leaf all that require it, and all that only removed leaves flow to.  The rounds end,
and what they remove is the least set of leaves that is closed in this way.

* `contradiction?_isSome_iff` — a contradiction is found exactly if two labels disagree.
* `FlatGraph.pruneRounds_add` — more rounds remove nothing more.
* `FlatGraph.mem_unreachable_iff` — the leaves that no decision leads to.
* `Revision.Unsatisfiable`, `Revision.Reachable` — what is said about a leaf and its surroundings.
* `Revision.PruningClosed` — the sets that pruning cannot stop short of.
* `Revision.removed_isLeast` — what is removed is the least such set, and what is kept is the rest.
-/

namespace DecisionEngine

open Relation (ReflTransGen TransGen)

/-! ## Contradictions -/

/-- What a label asks for is told by its predicate. -/
theorem asksFor_iff {label key text : Bytes} {p : Predicate}
    (hp : Predicate.ofLabel? label = some p) :
    AsksFor label key text ↔ p.key = key ∧ p.expected = some text := by
  unfold AsksFor
  simp [hp]

theorem not_asksFor_of_none {label key text : Bytes} (h : Predicate.ofLabel? label = none) :
    ¬AsksFor label key text := by
  unfold AsksFor
  simp [h]

/-- Where no contradiction is found, each attribute has one text that labels ask for, and that is
the known one if there is one. -/
theorem exists_table_of_contradiction? {known : List (Bytes × Bytes)} {labels : List Bytes}
    (h : contradiction? known labels = none) : ∃ table : Bytes → Option Bytes,
      (∀ key text, known.lookup key = some text → table key = some text) ∧
      ∀ label ∈ labels, ∀ key text, AsksFor label key text → table key = some text := by
  -- The induction is on the labels; what is known grows, and the table of the rest covers it.
  induction labels generalizing known with
  | nil => exact ⟨fun key => known.lookup key, fun _ _ h => h, by simp⟩
  | cons label rest ih =>
    rw [contradiction?] at h
    simp only [List.forall_mem_cons]
    split at h
    · rename_i p hp
      simp only [asksFor_iff hp]
      split at h
      · rename_i text htext
        simp only [htext, Option.some.injEq]
        split at h
        · rename_i first hfirst
          split at h
          · rename_i hsame
            obtain ⟨table, hknown, htable⟩ := ih h
            refine ⟨table, hknown, ?_, htable⟩
            rintro key _ ⟨rfl, rfl⟩
            exact hsame ▸ hknown _ _ hfirst
          · cases h
        · rename_i hfirst
          obtain ⟨table, hknown, htable⟩ := ih h
          refine ⟨table, fun key text' hlookup => hknown key text' ?_, ?_, htable⟩
          · have hne : key ≠ p.key := by
              rintro rfl
              rw [hfirst] at hlookup
              cases hlookup
            rwa [List.lookup_cons, beq_eq_false_iff_ne.2 hne]
          · rintro key _ ⟨rfl, rfl⟩
            exact hknown _ _ List.lookup_cons_self
      · rename_i hnone
        obtain ⟨table, hknown, htable⟩ := ih h
        exact ⟨table, hknown, fun key text hasks => (by simp [hnone] at hasks), htable⟩
    · rename_i hnone
      obtain ⟨table, hknown, htable⟩ := ih h
      exact ⟨table, hknown, fun key text hasks => absurd hasks (not_asksFor_of_none hnone), htable⟩

/-- A contradiction is found exactly if two labels ask for different texts of one attribute. -/
theorem contradiction?_isSome_iff {labels : List Bytes} :
    (contradiction? [] labels).isSome ↔ ∃ label ∈ labels, ∃ label' ∈ labels, ∃ key text text',
      AsksFor label key text ∧ AsksFor label' key text' ∧ text ≠ text' := by
  constructor
  · intro h
    obtain ⟨reason, hreason⟩ := Option.isSome_iff_exists.1 h
    obtain ⟨key, first, label, -, ⟨l, hl, hfirst⟩, other, hne, hlabel, hother⟩ :=
      contradiction?_spec (fun l hl => hl) (fun key text hlookup => by cases hlookup) hreason
    exact ⟨l, hl, label, hlabel, key, first, other, hfirst, hother, hne.symm⟩
  · rintro ⟨label, hlabel, label', hlabel', key, text, text', hasks, hasks', hne⟩
    by_contra hnone
    obtain ⟨table, -, htable⟩ := exists_table_of_contradiction? (by simpa using hnone)
    have htext := htable label hlabel key text hasks
    rw [htable label' hlabel' key text' hasks'] at htext
    exact hne (Option.some.inj htext).symm

/-! ## Rounds, reachability and counts -/

namespace FlatGraph

variable {g : FlatGraph} {d : Dropped}

/-- After a round that drops nothing, more rounds drop nothing. -/
theorem pruneRounds_add {rounds : Nat} (h : (g.pruneRound (g.pruneRounds rounds d)).length =
    (g.pruneRounds rounds d).length) (more : Nat) :
    g.pruneRounds (rounds + more) d = g.pruneRounds rounds d := by
  induction rounds generalizing d with
  | zero =>
    rw [Nat.zero_add]
    cases more with
    | zero => rfl
    | succ more => exact if_pos h
  | succ rounds ih =>
    rw [Nat.succ_add, pruneRounds, pruneRounds]
    rw [pruneRounds] at h
    by_cases hstop : (g.pruneRound d).length = d.length
    · rw [if_pos hstop, if_pos hstop]
    · rw [if_neg hstop] at h
      rw [if_neg hstop, if_neg hstop]
      exact ih h

/-- An edge of the graph over which decisions lead to other leaves. -/
theorem flow_step_iff {a b : Bytes} :
    g.flow.Step a b ↔ ⟨a, .flowsTo, b⟩ ∈ g.edges ∨ ⟨a, .requires, b⟩ ∈ g.edges := by
  unfold Digraph.Step flow
  simp only [List.mem_map, List.mem_filter, Bool.or_eq_true, beq_iff_eq]
  constructor
  · rintro ⟨⟨_, kind, _⟩, ⟨⟨he, rfl | rfl⟩, rfl⟩, rfl⟩
    · exact .inl he
    · exact .inr he
  · rintro (he | he)
    · exact ⟨_, ⟨⟨he, .inl rfl⟩, rfl⟩, rfl⟩
    · exact ⟨_, ⟨⟨he, .inr rfl⟩, rfl⟩, rfl⟩

/-- The leaves that no decision leads to. -/
theorem mem_unreachable_iff (hends : ∀ e ∈ g.edges, e.target ∈ g.ids) {id : Bytes} :
    id ∈ g.unreachable ↔ id ∈ g.ids ∧
      ¬∃ n ∈ g.nodes, n.kind = .decision ∧ ReflTransGen g.flow.Step n.id id := by
  have hclosed : g.flow.Closed := fun a b hab => (flow_step_iff.1 hab).elim (hends _) (hends _)
  unfold unreachable
  dsimp only
  rw [List.mem_filter, Bool.not_eq_true', Bool.eq_false_iff, ne_eq, List.contains_iff_mem,
    Digraph.mem_reach_iff hclosed]
  simp [and_assoc]

/-- The leaves of a graph, counted. -/
theorem ncard_of_ids (hids : g.ids.Nodup) {P : Bytes → Prop} (hmem : ∀ id, id ∈ g.ids ↔ P id) :
    {id | P id}.ncard = g.nodes.length := by
  have hset : {id | P id} = (g.ids.toFinset : Set Bytes) := by
    ext id
    simp [hmem]
  rw [hset, Set.ncard_coe_finset, List.toFinset_card_of_nodup hids]
  exact List.length_map _

end FlatGraph

/-! ## What is said about a leaf -/

namespace Revision

/-- A leaf that cannot fire by what is written on it: two labels ask for different texts of one
attribute, or an expression comes out as false without reading anything. -/
inductive Unsatisfiable (r : Revision) (id : Bytes) : Prop
  | clash {c c' : Condition} {label label' key text text' : Bytes} (on : r.Bears id c)
      (on' : r.Bears id c') (labels : label ∈ c.labels) (labels' : label' ∈ c'.labels)
      (asks : AsksFor label key text) (asks' : AsksFor label' key text') (apart : text ≠ text') :
      Unsatisfiable r id
  | alwaysFalse {c : Condition} (on : r.Bears id c) (folded : c.FoldsToFalse) : Unsatisfiable r id

/-- A leaf leads to those that it flows to and to those that it requires. -/
def LeadsTo (r : Revision) (a b : Bytes) : Prop := r.Joins .flowsTo a b ∨ r.Joins .requires a b

/-- A leaf that a decision leads to, directly or through others. -/
def Reachable (r : Revision) (id : Bytes) : Prop :=
  ∃ d ∈ r.nodes, d.kind = .decision ∧ ReflTransGen r.LeadsTo d.id id

/-- A set that pruning cannot stop short of: leaves that no decision leads to are in it, if they
are to be dropped, and so are those that cannot fire by what is written on them; and with a leaf
all that require it are, and all that only leaves of the set flow to. -/
structure PruningClosed (r : Revision) (o : CompilerOptions) (s : Set Bytes) : Prop where
  unreachable : o.dropUnreachable = true → ∀ id, r.IsLeaf id → ¬r.Reachable id → id ∈ s
  unsatisfiable : ∀ id, r.IsLeaf id → r.Unsatisfiable id → id ∈ s
  requires : ∀ a b, r.Joins .requires a b → b ∈ s → a ∈ s
  starved : ∀ id, (∃ a, r.Joins .flowsTo a id) → (∀ a, r.Joins .flowsTo a id → a ∈ s) → id ∈ s

end Revision

namespace NormalGraph

variable {g : NormalGraph} {r : Revision}

/-- A leaf is hopeless by itself exactly if it cannot fire by what is written on it. -/
theorem hopeless_flatNode_iff (hg : g.Stands r) (hacyclic : ∀ id, ¬TransGen r.Lists id id)
    {m : NormalNode} (hm : m ∈ g.nodes) (hleaf : m.node.isComposite = false) :
    (g.flatNode m).hopeless?.isSome ↔ r.Unsatisfiable m.node.id := by
  have hlabels := fun l : Bytes => mem_labels_flatNode_iff hg hacyclic hm hleaf (l := l)
  have hexpressions := fun x : SourcedExpr =>
    mem_expressions_flatNode_iff hg hacyclic hm hleaf (x := x)
  rw [FlatNode.hopeless?_isSome_iff, contradiction?_isSome_iff]
  constructor
  · rintro (⟨l, hl, l', hl', key, text, text', hasks, hasks', hne⟩ | ⟨x, hx, hfalse⟩)
    · obtain ⟨c, hc, hl⟩ := (hlabels l).1 hl
      obtain ⟨c', hc', hl'⟩ := (hlabels l').1 hl'
      exact .clash hc hc' hl hl' hasks hasks' hne
    · obtain ⟨c, hc, hx⟩ := (hexpressions x).1 hx
      exact .alwaysFalse hc ⟨x, hx, hfalse⟩
  · rintro (⟨hc, hc', hl, hl', hasks, hasks', hne⟩ | ⟨hc, x, hx, hfalse⟩)
    · exact .inl ⟨_, (hlabels _).2 ⟨_, hc, hl⟩, _, (hlabels _).2 ⟨_, hc', hl'⟩, _, _, _, hasks,
        hasks', hne⟩
    · exact .inr ⟨x, (hexpressions x).2 ⟨_, hc, hx⟩, hfalse⟩

/-- The leaves that are decisions are the decisions of the revision. -/
theorem exists_decision_flat_iff (hg : g.Stands r) {P : Bytes → Prop} :
    (∃ n ∈ g.flat.nodes, n.kind = .decision ∧ P n.id) ↔
      ∃ d ∈ r.nodes, d.kind = .decision ∧ P d.id := by
  constructor
  · rintro ⟨_, hn, hkind, hP⟩
    obtain ⟨m, hm, rfl⟩ := List.mem_map.1 hn
    obtain ⟨d, hd, hmd⟩ := hg.declared m (List.mem_filter.1 hm).1
    have hsame : m.node.Represents d := hmd ▸ d.represents_normal
    exact ⟨d, hd, hsame.kind.symm.trans hkind, hsame.id ▸ hP⟩
  · rintro ⟨d, hd, hkind, hP⟩
    obtain ⟨m, hm, hsame⟩ := hg.represented d hd
    have hleaf : m.node.isComposite = false := by
      rw [hsame.isComposite, Node.isComposite, hkind]
      rfl
    refine ⟨g.flatNode m, List.mem_map_of_mem (List.mem_filter.2 ⟨hm, by simpa using hleaf⟩),
      hsame.kind.trans hkind, ?_⟩
    exact (show (g.flatNode m).id = d.id from hsame.id) ▸ hP

end NormalGraph

/-! ## What is removed -/

namespace Revision

variable {r : Revision} {o : CompilerOptions} {id : Bytes}

/-- The leaves that no decision leads to, by edges as they were authored. -/
theorem Checked.mem_unreachable_iff (h : r.Checked) :
    id ∈ (NormalGraph.ofRevision r).1.flat.unreachable ↔ r.IsLeaf id ∧ ¬r.Reachable id := by
  have hall := h.portrays
  have hg := NormalGraph.stands_ofRevision h.normal
  have hstep : (NormalGraph.ofRevision r).1.flat.flow.Step = r.LeadsTo := by
    funext a b
    rw [FlatGraph.flow_step_iff, hall.edges, hall.edges]
    rfl
  rw [FlatGraph.mem_unreachable_iff fun e he => (hall.ends e he).2, hall.leaves, hstep,
    NormalGraph.exists_decision_flat_iff hg (P := fun d => ReflTransGen r.LeadsTo d id)]
  rfl

/-- What is dropped before the first round. -/
theorem Checked.has_droppedAtOnce_iff (h : r.Checked) :
    ((NormalGraph.ofRevision r).1.flat.droppedAtOnce
        (NormalGraph.ofRevision r).1.flat.unreachable o.dropUnreachable).has id = true ↔
      r.IsLeaf id ∧ (o.dropUnreachable = true ∧ ¬r.Reachable id ∨ r.Unsatisfiable id) := by
  have hg := NormalGraph.stands_ofRevision h.normal
  have hacyclic := (checked_iff.1 h).membership
  have hhopeless : (∃ n ∈ (NormalGraph.ofRevision r).1.flat.nodes, n.id = id ∧
      n.hopeless?.isSome) ↔ r.IsLeaf id ∧ r.Unsatisfiable id := by
    constructor
    · rintro ⟨n, hn, rfl, htold⟩
      obtain ⟨m, hm, rfl⟩ := List.mem_map.1 hn
      obtain ⟨hm, hleaf⟩ := List.mem_filter.1 hm
      exact ⟨(h.portrays.leaves _).1 (List.mem_map_of_mem hn),
        (NormalGraph.hopeless_flatNode_iff hg hacyclic hm (by simpa using hleaf)).1 htold⟩
    · rintro ⟨hid, hnever⟩
      obtain ⟨n, hn, rfl⟩ := List.mem_map.1 ((h.portrays.leaves id).2 hid)
      obtain ⟨m, hm, rfl⟩ := List.mem_map.1 hn
      obtain ⟨hm, hleaf⟩ := List.mem_filter.1 hm
      exact ⟨_, hn, rfl,
        (NormalGraph.hopeless_flatNode_iff hg hacyclic hm (by simpa using hleaf)).2 hnever⟩
  rw [FlatGraph.has_droppedAtOnce_iff, h.mem_unreachable_iff, hhopeless]
  tauto

/-- The last round drops nothing. -/
theorem Checked.settled (h : r.Checked) (o : CompilerOptions) :
    ((NormalGraph.ofRevision r).1.flat.pruneRound
        ((NormalGraph.ofRevision r).1.flat.dropped o.dropUnreachable)).length =
      ((NormalGraph.ofRevision r).1.flat.dropped o.dropUnreachable).length :=
  FlatGraph.settled_dropped h.portrays.nodup (fun e he => (h.portrays.ends e he).1) _

theorem Checked.mem_predecessors_iff (h : r.Checked) {a : Bytes} :
    a ∈ (NormalGraph.ofRevision r).1.flat.predecessors id ↔ r.Joins .flowsTo a id :=
  FlatGraph.mem_predecessors_iff.trans (h.portrays.edges _)

/-- What is removed is closed: the last round has left nothing to drop. -/
theorem Checked.pruningClosed_removed (h : r.Checked) (o : CompilerOptions) :
    r.PruningClosed o {id | r.Removed o id} := by
  have hall := h.portrays
  have hsettled := h.settled o
  have hremoved : ∀ {id}, r.IsLeaf id → (r.Removed o id ↔
      ((NormalGraph.ofRevision r).1.flat.dropped o.dropUnreachable).has id = true) :=
    fun hid => h.removed_iff hid
  have hleaves : ∀ {kind a b}, r.Joins kind a b → r.IsLeaf a ∧ r.IsLeaf b :=
    fun ⟨_, _, _, ha, hb⟩ => ⟨ha.1, hb.1⟩
  have honce : ∀ id, r.IsLeaf id →
      o.dropUnreachable = true ∧ ¬r.Reachable id ∨ r.Unsatisfiable id → r.Removed o id :=
    fun id hid hwhy => (hremoved hid).2
      (FlatGraph.has_dropped_of_once (h.has_droppedAtOnce_iff.2 ⟨hid, hwhy⟩))
  refine ⟨fun hasked id hid hnot => honce id hid (.inl ⟨hasked, hnot⟩),
    fun id hid hnever => honce id hid (.inr hnever), fun a b hab hb => ?_,
    fun id ⟨a, ha⟩ hflows => ?_⟩
  · have hdropped := (hremoved (hleaves hab).2).1 hb
    have hedge := (hall.edges ⟨a, .requires, b⟩).2 hab
    exact (hremoved (hleaves hab).1).2 (FlatGraph.has_of_requires hsettled hedge rfl hdropped)
  · have hid := (hleaves ha).2
    refine (hremoved hid).2 (FlatGraph.has_of_predecessors hsettled ((hall.leaves _).2 hid)
      (List.ne_nil_of_mem (h.mem_predecessors_iff.2 ha)) fun s hs => ?_)
    have hjoins := h.mem_predecessors_iff.1 hs
    exact (hremoved (hleaves hjoins).1).1 (hflows s hjoins)

/-- Nothing is removed that a closed set does without: every single drop stays inside the set. -/
theorem Checked.removed_subset (h : r.Checked) {s : Set Bytes} (hs : r.PruningClosed o s) :
    {id | r.Removed o id} ⊆ s := by
  have hall := h.portrays
  intro id hid
  refine FlatGraph.dropped_induction (P := (· ∈ s)) (fun id hid => ?_)
    (fun e he hkind htarget => ?_) (fun id _ hsome hsources => ?_) id ((h.removed_iff hid.1).1 hid)
  · obtain ⟨hleaf, ⟨hasked, hnot⟩ | hnever⟩ := h.has_droppedAtOnce_iff.1 hid
    · exact hs.unreachable hasked id hleaf hnot
    · exact hs.unsatisfiable id hleaf hnever
  · exact hs.requires e.source e.target (hkind ▸ (hall.edges e).1 he) htarget
  · obtain ⟨a, ha⟩ := List.exists_mem_of_ne_nil _ hsome
    exact hs.starved id ⟨a, h.mem_predecessors_iff.1 ha⟩ fun a ha =>
      hsources a (h.mem_predecessors_iff.2 ha)

/-! ## What is kept -/

theorem nodup_edges_keptGraph (r : Revision) (o : CompilerOptions) :
    (r.keptGraph o).edges.Nodup :=
  (NormalGraph.ofRevision r).1.nodup_expandedEdges.filter _

/-- The leaves of a checked revision, those that are removed among them, and those that are kept
are as many as is counted. -/
theorem Checked.counts (h : r.Checked) (o : CompilerOptions) :
    (FlatGraph.ofNormal (NormalGraph.ofRevision r).1 o.dropUnreachable).2.2 =
        {id | r.Removed o id}.ncard ∧
      (r.keptGraph o).nodes.length = {id | r.Kept o id}.ncard ∧
      {id | r.Removed o id}.ncard + {id | r.Kept o id}.ncard = {id | r.IsLeaf id}.ncard := by
  have hall := h.portrays
  have hleaves := FlatGraph.ncard_of_ids hall.nodup hall.leaves
  have hkept := FlatGraph.ncard_of_ids (h.depicts o).nodup (h.depicts o).kept
  have hfinite : {id | r.IsLeaf id}.Finite :=
    (List.finite_toSet (NormalGraph.ofRevision r).1.flat.ids).subset fun id hid =>
      (hall.leaves id).2 hid
  have hsub : {id | r.Kept o id} ⊆ {id | r.IsLeaf id} := fun id hid => h.isLeaf_of_kept hid
  have hsum := Set.ncard_sdiff_add_ncard_of_subset hsub hfinite
  change {id | r.Removed o id}.ncard + _ = _ at hsum
  refine ⟨?_, hkept.symm, hsum⟩
  change (NormalGraph.ofRevision r).1.flat.nodes.length - (r.keptGraph o).nodes.length = _
  omega

/-- **Pruning removes the least closed set of leaves.**  On a checked revision the rounds end: any
greater number of them drops the same.  What they remove is the least set that contains the leaves
that no decision leads to, if asked for, and those that cannot fire by what is written on them, and
with a leaf all that require it and all that only leaves of the set flow to.  The edges that are
left are those that the revision joins between two different kept leaves, each once, and the
removed leaves are counted, so that together with the kept ones they are all leaves. -/
theorem removed_isLeast (h : r.Checked) (o : CompilerOptions) :
    (∀ more, (NormalGraph.ofRevision r).1.flat.pruneRounds
        ((NormalGraph.ofRevision r).1.flat.nodes.length + 1 + more)
        ((NormalGraph.ofRevision r).1.flat.droppedAtOnce
          (NormalGraph.ofRevision r).1.flat.unreachable o.dropUnreachable) =
      (NormalGraph.ofRevision r).1.flat.dropped o.dropUnreachable) ∧
    IsLeast {s | r.PruningClosed o s} {id | r.Removed o id} ∧
    ((r.keptGraph o).edges.Nodup ∧ ∀ e, e ∈ (r.keptGraph o).edges ↔
      r.Joins e.kind e.source e.target ∧ e.source ≠ e.target ∧ r.Kept o e.source ∧
        r.Kept o e.target) ∧
    (FlatGraph.ofNormal (NormalGraph.ofRevision r).1 o.dropUnreachable).2.2 =
      {id | r.Removed o id}.ncard ∧
    (r.keptGraph o).nodes.length = {id | r.Kept o id}.ncard ∧
    {id | r.Removed o id}.ncard + {id | r.Kept o id}.ncard = {id | r.IsLeaf id}.ncard := by
  refine ⟨fun more => FlatGraph.pruneRounds_add (h.settled o) more,
    ⟨h.pruningClosed_removed o, fun s hs => h.removed_subset hs⟩,
    ⟨nodup_edges_keptGraph r o, fun e => ?_⟩, h.counts o⟩
  rw [(h.depicts o).edges]
  tauto

set_option maxRecDepth 100000 in
/-- Of the four leaves, the action that is never on goes, the one that requires it and the one
that only it leads to: one is left, and no edge. -/
theorem removed_isLeast_sample : hopelessAction.Checked ∧
    IsLeast {s | hopelessAction.PruningClosed .standard s}
      {utf8 "never", utf8 "extra", utf8 "late"} ∧
    (hopelessAction.keptGraph .standard).edges = [] ∧
    {id | hopelessAction.Removed .standard id}.ncard = 3 ∧
    {id | hopelessAction.Kept .standard id}.ncard = 1 ∧
    {id | hopelessAction.IsLeaf id}.ncard = 4 := by
  have haccepted : hopelessAction.accepted .standard = true := by cbv
  have hchecked := (accepted_iff.1 haccepted).checked
  obtain ⟨-, hleast, -, hremoved, hkept, hsum⟩ := removed_isLeast hchecked .standard
  have hgone : {id | hopelessAction.Removed .standard id} =
      {utf8 "never", utf8 "extra", utf8 "late"} := by
    have hdropped : ((NormalGraph.ofRevision hopelessAction).1.flat.dropped true).map (·.1) =
        [utf8 "never", utf8 "extra", utf8 "late"] := by cbv
    have hids : (NormalGraph.ofRevision hopelessAction).1.flat.ids =
        [utf8 "extra", utf8 "late", utf8 "never", utf8 "start"] := by cbv
    ext id
    simp only [Set.mem_ofPred_eq, Set.mem_insert_iff, Set.mem_singleton_iff]
    constructor
    · intro hid
      have hhas := (hchecked.removed_iff hid.1).1 hid
      rw [show CompilerOptions.standard.dropUnreachable = true from rfl, Dropped.has_iff,
        hdropped] at hhas
      simpa using hhas
    · intro hid
      have hleaf : hopelessAction.IsLeaf id := by
        rw [← hchecked.portrays.leaves, hids]
        rcases hid with rfl | rfl | rfl <;> simp
      rw [hchecked.removed_iff hleaf, show CompilerOptions.standard.dropUnreachable = true from rfl,
        Dropped.has_iff, hdropped]
      simpa using hid
  have hedges : (hopelessAction.keptGraph .standard).edges = [] := by cbv
  have hleft : (hopelessAction.keptGraph .standard).nodes.length = 1 := by cbv
  have hpruned : (FlatGraph.ofNormal (NormalGraph.ofRevision hopelessAction).1
      CompilerOptions.standard.dropUnreachable).2.2 = 3 := by cbv
  refine ⟨hchecked, hgone ▸ hleast, hedges, ?_, ?_, ?_⟩ <;> omega

end Revision
end DecisionEngine
