import DecisionEngine.Proofs.Compile.Kept
import DecisionEngine.Proofs.Expr.Literals
import DecisionEngine.Proofs.Program.Folding
import Mathlib
/-!
# Nothing that could fire is pruned as hopeless

Pruning gives a reason for every leaf that it takes to be hopeless, and each reason is a true one:
two labels ask for different texts of one attribute, an expression has the value false on all
evidence, a leaf that is required was dropped, or all that flows to the leaf was.  So as long as
nothing that was dropped fires, what is authored for such a leaf does not hold.

* `AsksFor`, `contradiction?_spec` — a contradiction names labels that cannot hold together.
* `FlatNode.not_met_of_hopeless?` — a leaf that is hopeless by itself is never met.
* `FlatGraph.Explained`, `FlatGraph.explained_dropped` — the reasons of all dropped leaves are true.
* `Revision.Satisfied` — everything holds that was authored for a leaf.
* `Revision.not_satisfied_of_pruned` — a leaf that is pruned as hopeless is not satisfied.
-/

namespace DecisionEngine

/-! ## Contradictions -/

/-- A label asks for a text of an attribute. -/
def AsksFor (label key text : Bytes) : Prop :=
  ∃ p, Predicate.ofLabel? label = some p ∧ p.key = key ∧ p.expected = some text

/-- A label that asks for a text holds only where the attribute has it. -/
theorem AsksFor.text_eq {label key text : Bytes} (h : AsksFor label key text) {p : Predicate}
    (hp : Predicate.ofLabel? label = some p) {a : AttributeSet} (hholds : p.holds a = true) :
    ∃ v, a.find? key = some v ∧ v.toText = text := by
  obtain ⟨q, hq, rfl, htext⟩ := h
  obtain rfl : q = p := Option.some.inj (hq.symm.trans hp)
  unfold Predicate.holds at hholds
  split at hholds
  · cases hholds
  · rename_i v hv
    rw [htext] at hholds
    dsimp only at hholds
    rw [Bool.and_eq_true, beq_iff_eq] at hholds
    exact ⟨v, hv, hholds.2⟩

/-- A contradiction names a label, and a text that another label asks for of the same attribute. -/
theorem contradiction?_spec {known : List (Bytes × Bytes)} {labels all : List Bytes}
    {reason : Hopeless} (hlabels : ∀ l ∈ labels, l ∈ all)
    (hknown : ∀ key text, known.lookup key = some text → ∃ l ∈ all, AsksFor l key text)
    (h : contradiction? known labels = some reason) :
    ∃ key first label, reason = .contradiction key first label ∧
      (∃ l ∈ all, AsksFor l key first) ∧
      ∃ other, other ≠ first ∧ label ∈ all ∧ AsksFor label key other := by
  -- The induction is on the labels: what is known of an attribute is what some label asks for.
  induction labels generalizing known with
  | nil => cases h
  | cons label rest ih =>
    have hlabel := hlabels label (List.mem_cons_self ..)
    have hrest : ∀ l ∈ rest, l ∈ all := fun l hl => hlabels l (List.mem_cons_of_mem _ hl)
    rw [contradiction?] at h
    split at h
    · rename_i p hp
      split at h
      · rename_i text htext
        have hasks : AsksFor label p.key text := ⟨p, hp, rfl, htext⟩
        split at h
        · rename_i first hfirst
          split at h
          · exact ih hrest hknown h
          · rename_i hne
            refine ⟨p.key, first, label, (Option.some.inj h).symm, hknown _ _ hfirst, text, ?_,
              hlabel, hasks⟩
            exact fun hsame => hne hsame.symm
        · refine ih hrest (fun key text' hlookup => ?_) h
          rw [List.lookup_cons] at hlookup
          split at hlookup
          · rename_i hkey
            rw [eq_of_beq hkey, ← Option.some.inj hlookup]
            exact ⟨label, hlabel, hasks⟩
          · exact hknown key text' hlookup
      · exact ih hrest hknown h
    · exact ih hrest hknown h

/-! ## Leaves that are hopeless by themselves -/

namespace FlatNode

variable {n : FlatNode}

theorem not_met_of_contradiction? {reason : Hopeless}
    (h : contradiction? [] n.labels = some reason) (e : Evidence) : ¬n.Met e := by
  intro hmet
  obtain ⟨key, first, label, -, ⟨l, hl, hfirst⟩, other, hne, hlabel, hother⟩ :=
    contradiction?_spec (fun l hl => hl) (fun key text hlookup => by cases hlookup) h
  obtain ⟨p, hp, hholds⟩ := hmet.labels l hl
  obtain ⟨q, hq, hholds'⟩ := hmet.labels label hlabel
  obtain ⟨v, hv, rfl⟩ := hfirst.text_eq hp hholds
  obtain ⟨w, hw, rfl⟩ := hother.text_eq hq hholds'
  rw [hv] at hw
  exact hne (congrArg Value.toText (Option.some.inj hw).symm)

/-- An expression of a leaf that is folded to a truth value has it on all evidence. -/
theorem value_of_constantResult? (hn : n.Usable) {x : SourcedExpr} (hx : x ∈ n.expressions)
    (hsize : x.tree.program.code.length < 2 ^ 32) {b : Bool} (h : x.constantResult? = some b)
    (e : Evidence) : x.tree.value e = .ok (.bool b) := by
  obtain ⟨source, hchecked⟩ := hn.expressions x hx
  have hplain := Expr.hasNegativeZero_of_parse (parse_of_checkedExpression hchecked)
  exact Expr.value_of_constantResult? (refersToOutcome_of_checked hchecked) hplain hsize h e

/-- A leaf that is hopeless by itself is never met. -/
theorem not_met_of_hopeless? (hn : n.Usable)
    (hsize : ∀ x ∈ n.expressions, x.tree.program.code.length < 2 ^ 32) {reason : Hopeless}
    (h : n.hopeless? = some reason) (e : Evidence) : ¬n.Met e := by
  unfold hopeless? at h
  split at h
  · rename_i found hfound
    exact not_met_of_contradiction? hfound e
  · obtain ⟨x, hx, -⟩ := Option.map_eq_some_iff.1 h
    have hmem := List.mem_of_find?_eq_some hx
    have hfolded : x.constantResult? = some false := by simpa using List.find?_some hx
    intro hmet
    have htrue := hmet.expressions x hmem
    rw [value_of_constantResult? hn hmem (hsize x hmem) hfolded e] at htrue
    cases htrue

end FlatNode

/-! ## Reasons -/

namespace FlatGraph

variable {g : FlatGraph} {d d' : Dropped} {id : Bytes}

/-- A reason for dropping a leaf is a true one, given what was dropped. -/
inductive Explained (g : FlatGraph) (d : Dropped) (id : Bytes) : Hopeless → Prop
  | alone {n : FlatNode} {reason : Hopeless} (node : n ∈ g.nodes) (same : n.id = id)
      (told : n.hopeless? = some reason) : Explained g d id reason
  | requires {other : Bytes} (edge : ⟨id, .requires, other⟩ ∈ g.edges)
      (dropped : d.has other = true) : Explained g d id (.requiresPruned other)
  | starved (flowed : g.predecessors id ≠ [])
      (dropped : ∀ s ∈ g.predecessors id, d.has s = true) : Explained g d id .flowPruned

/-- All reasons that are given are true ones. -/
def Accounted (g : FlatGraph) (d : Dropped) : Prop :=
  ∀ id reason, (id, some reason) ∈ d → g.Explained d id reason

/-- A reason stays true when more is dropped. -/
theorem Explained.mono {reason : Hopeless} (h : g.Explained d id reason) (hmore : d <+: d') :
    g.Explained d' id reason := by
  have hhas : ∀ other, d.has other = true → d'.has other = true := fun other hother =>
    Dropped.has_iff.2 ((hmore.map _).subset (Dropped.has_iff.1 hother))
  cases h with
  | alone node same told => exact .alone node same told
  | requires edge dropped => exact .requires edge (hhas _ dropped)
  | starved flowed dropped => exact .starved flowed fun s hs => hhas s (dropped s hs)

/-- A leaf may be dropped for a reason that is a true one. -/
theorem Accounted.append {reason : Hopeless} (hd : g.Accounted d)
    (h : g.Explained d id reason) : g.Accounted (d ++ [(id, some reason)]) := by
  intro id' reason' hmem
  refine Explained.mono ?_ (List.prefix_append d _)
  rcases List.mem_append.1 hmem with hmem | hmem
  · exact hd id' reason' hmem
  · obtain ⟨rfl, hreason⟩ := Prod.mk.inj (List.mem_singleton.1 hmem)
    exact Option.some.inj hreason ▸ h

theorem accounted_droppedAtOnce (g : FlatGraph) (unreached : List Bytes)
    (dropUnreachable : Bool) : g.Accounted (g.droppedAtOnce unreached dropUnreachable) := by
  intro id reason hmem
  unfold droppedAtOnce at hmem
  dsimp only at hmem
  rcases List.mem_append.1 hmem with hmem | hmem
  · -- A leaf that nothing leads to is dropped without a reason.
    split at hmem
    · obtain ⟨_, -, hpair⟩ := List.mem_map.1 hmem
      cases hpair
    · cases hmem
  · obtain ⟨n, hn, hpair⟩ := List.mem_filterMap.1 hmem
    obtain ⟨found, hfound, hpair⟩ := Option.map_eq_some_iff.1 hpair
    cases hpair
    exact .alone (List.mem_filter.1 hn).1 rfl hfound

/-- The reasons of all dropped leaves are true ones. -/
theorem explained_dropped (g : FlatGraph) (dropUnreachable : Bool) :
    g.Accounted (g.dropped dropUnreachable) := by
  refine dropped_keeps (fun d e he hd hkind _ htarget => ?_)
    (fun d id _ hd _ hsome hall => ?_) (g.accounted_droppedAtOnce _ _)
  · rcases e with ⟨source, kind, target⟩
    obtain rfl : kind = .requires := hkind
    exact hd.append (.requires he htarget)
  · exact hd.append (.starved hsome hall)

/-- A leaf that was dropped once has one reason. -/
theorem Proper.lookup_eq_some_iff (hd : g.Proper d) {reason : Option Hopeless} :
    d.lookup id = some reason ↔ (id, reason) ∈ d := by
  rw [List.lookup_eq_some_iff]
  constructor
  · rintro ⟨before, after, rfl, -⟩
    exact List.mem_append_right _ (List.mem_cons_self ..)
  · intro hmem
    obtain ⟨before, after, rfl⟩ := List.append_of_mem hmem
    refine ⟨before, after, rfl, fun p hp => ?_⟩
    have hnodup := hd.nodup
    rw [List.map_append, List.nodup_append] at hnodup
    rw [bne_iff_ne]
    exact fun hsame => hnodup.2.2 p.1 (List.mem_map_of_mem hp) id (by simp) hsame.symm

/-- A warning that a leaf can never fire is given exactly for what was dropped for a reason. -/
theorem Proper.mem_hopelessWarnings_iff (hd : g.Proper d) {w : Diagnostic} :
    w ∈ g.hopelessWarnings d ↔ ∃ id reason, (id, some reason) ∈ d ∧
      w = ⟨.unsatisfiableNode, utf8 "node " ++ Bytes.quoted id ++ utf8 " can never fire: " ++
        reason.text, [id], []⟩ := by
  unfold hopelessWarnings
  simp only [List.mem_filterMap, Option.map_eq_some_iff, Option.join_eq_some_iff,
    hd.lookup_eq_some_iff]
  constructor
  · rintro ⟨id, -, reason, hmem, rfl⟩
    exact ⟨id, reason, hmem, rfl⟩
  · rintro ⟨id, reason, hmem, rfl⟩
    exact ⟨id, hd.subset id (List.mem_map_of_mem hmem), reason, hmem, rfl⟩

end FlatGraph

/-! ## Revisions -/

namespace Revision

variable {r : Revision} {o : CompilerOptions}

/-- A leaf that pruning drops. -/
def Removed (r : Revision) (o : CompilerOptions) (id : Bytes) : Prop :=
  r.IsLeaf id ∧ ¬r.Kept o id

/-- A leaf that pruning drops as one that can never fire, for a reason. -/
def Pruned (r : Revision) (o : CompilerOptions) (id : Bytes) (reason : Hopeless) : Prop :=
  (id, some reason) ∈ (NormalGraph.ofRevision r).1.flat.dropped o.dropUnreachable

/-- Everything holds that was authored for a leaf, given which leaves fire: the conditions of the
leaf and of everything around it are met, all that it requires fires, and one of the leaves that
flow to it fires, if any do. -/
structure Satisfied (r : Revision) (e : Evidence) (fires : Bytes → Prop) (id : Bytes) :
    Prop where
  enabled : r.Enabled e id
  required : ∀ other, r.Joins .requires id other → fires other
  reached : (∃ other, r.Joins .flowsTo other id) → ∃ other, r.Joins .flowsTo other id ∧ fires other

/-- The instructions of every expression on a node have numbers of 32 bits. -/
structure Addressable (r : Revision) : Prop where
  code : ∀ n ∈ r.nodes, ∀ x ∈ n.condition.sourced?, x.tree.program.code.length < 2 ^ 32

instance (r : Revision) : Decidable r.Addressable :=
  decidable_of_iff (∀ n ∈ r.nodes,
      n.condition.sourced?.all fun x => decide (x.tree.program.code.length < 2 ^ 32)) <| by
    simp only [Option.all_eq_true, decide_eq_true_eq]
    exact ⟨fun h => ⟨h⟩, fun h => h.code⟩

theorem Pruned.explained {id : Bytes} {reason : Hopeless} (h : r.Pruned o id reason) :
    (NormalGraph.ofRevision r).1.flat.Explained
      ((NormalGraph.ofRevision r).1.flat.dropped o.dropUnreachable) id reason :=
  FlatGraph.explained_dropped _ o.dropUnreachable id reason h

/-- A leaf of a checked revision is removed exactly if it is dropped. -/
theorem Checked.removed_iff (h : r.Checked) {id : Bytes} (hid : r.IsLeaf id) :
    r.Removed o id ↔
      ((NormalGraph.ofRevision r).1.flat.dropped o.dropUnreachable).has id = true := by
  have hkept : r.Kept o id ↔ id ∈ (NormalGraph.ofRevision r).1.flat.ids ∧
      ((NormalGraph.ofRevision r).1.flat.dropped o.dropUnreachable).has id = false :=
    FlatGraph.mem_ids_without
  unfold Removed
  rw [hkept, h.portrays.leaves]
  simp [hid]

/-- The leaves that are reported as ones that can never fire are those that are pruned as such. -/
theorem Checked.mem_warnings_iff (h : r.Checked) {w : Diagnostic} :
    w ∈ (NormalGraph.ofRevision r).1.flat.hopelessWarnings
        ((NormalGraph.ofRevision r).1.flat.dropped o.dropUnreachable) ↔
      ∃ id reason, r.Pruned o id reason ∧
        w = ⟨.unsatisfiableNode, utf8 "node " ++ Bytes.quoted id ++ utf8 " can never fire: " ++
          reason.text, [id], []⟩ := by
  have hall := h.portrays
  have hproper := FlatGraph.proper_dropped hall.nodup (fun e he => (hall.ends e he).1)
    o.dropUnreachable
  exact hproper.mem_hopelessWarnings_iff

/-- **Nothing that could fire is pruned as hopeless.**  If pruning drops a leaf of a checked
revision as one that can never fire, for whichever reason, then not everything that was authored
for it holds, on any evidence and whatever fires, as long as no removed leaf does. -/
theorem not_satisfied_of_pruned (h : r.Checked) (hsize : r.Addressable) {id : Bytes}
    {reason : Hopeless} (hpruned : r.Pruned o id reason) (e : Evidence) {fires : Bytes → Prop}
    (hquiet : ∀ other, r.Removed o other → ¬fires other) : ¬r.Satisfied e fires id := by
  intro hsatisfied
  have hall := h.portrays
  cases hpruned.explained with
  | @alone n _ node same told =>
    have hshort : ∀ x ∈ n.expressions, x.tree.program.code.length < 2 ^ 32 := fun x hx => by
      obtain ⟨m, hm, hx⟩ := hall.authored n node x hx
      exact hsize.code m hm x hx
    refine FlatNode.not_met_of_hopeless? (hall.usable n node) hshort told e ?_
    exact (hall.met n node e).2 (same ▸ hsatisfied.enabled)
  | requires edge dropped =>
    have hleaf := (hall.leaves _).1 (hall.ends _ edge).2
    refine hquiet _ ((h.removed_iff hleaf).2 dropped) ?_
    exact hsatisfied.required _ ((hall.edges _).1 edge)
  | starved flowed dropped =>
    obtain ⟨s, hs⟩ := List.exists_mem_of_ne_nil _ flowed
    obtain ⟨other, hjoins, hfires⟩ := hsatisfied.reached
      ⟨s, (hall.edges _).1 (FlatGraph.mem_predecessors_iff.1 hs)⟩
    have hedge := (hall.edges ⟨other, .flowsTo, id⟩).2 hjoins
    have hleaf := (hall.leaves _).1 (hall.ends _ hedge).1
    refine hquiet other ((h.removed_iff hleaf).2 (dropped other ?_)) hfires
    exact FlatGraph.mem_predecessors_iff.2 hedge

/-- A decision that leads to an action that is never on, an action that requires that one, and
behind it an action that only it leads to. -/
def hopelessAction : Revision where
  graph := utf8 "offers"
  version := 1
  tenant := []
  decisionType := []
  catalog := .empty
  nodes := [⟨utf8 "start", [], 0, .zero, .decision ⟨[], []⟩⟩,
    ⟨utf8 "never", [], 0, .zero, .action ⟨[], utf8 "1 > 2"⟩ ⟨utf8 "never", .empty⟩⟩,
    ⟨utf8 "extra", [], 0, .zero, .action ⟨[], []⟩ ⟨utf8 "extra", .empty⟩⟩,
    ⟨utf8 "late", [], 0, .zero, .action ⟨[], []⟩ ⟨utf8 "late", .empty⟩⟩]
  edges := [⟨utf8 "start", .flowsTo, utf8 "never"⟩, ⟨utf8 "start", .flowsTo, utf8 "extra"⟩,
    ⟨utf8 "extra", .requires, utf8 "never"⟩, ⟨utf8 "never", .flowsTo, utf8 "late"⟩]
  policy := .highestPriority
  comparator := []
  guardrails := []

set_option maxRecDepth 100000 in
/-- All three actions are pruned, each for its own reason, where the decision fires. -/
theorem not_satisfied_of_pruned_sample : hopelessAction.Checked ∧ hopelessAction.Addressable ∧
    (∀ other, hopelessAction.Removed .standard other → ¬other = utf8 "start") ∧
    ∀ p ∈ [(utf8 "never", Hopeless.alwaysFalse (utf8 "1 > 2")),
        (utf8 "extra", .requiresPruned (utf8 "never")), (utf8 "late", .flowPruned)],
      hopelessAction.Pruned .standard p.1 p.2 ∧
        ¬hopelessAction.Satisfied ⟨.empty, .empty, .empty, []⟩ (· = utf8 "start") p.1 := by
  have haccepted : hopelessAction.accepted .standard = true := by cbv
  have hchecked := (accepted_iff.1 haccepted).checked
  have hsize : decide hopelessAction.Addressable = true := by cbv
  have hkept : decide (utf8 "start" ∈ (hopelessAction.keptGraph .standard).ids) = true := by cbv
  have hdropped : (NormalGraph.ofRevision hopelessAction).1.flat.dropped true =
      [(utf8 "never", some (.alwaysFalse (utf8 "1 > 2"))),
        (utf8 "extra", some (.requiresPruned (utf8 "never"))),
        (utf8 "late", some .flowPruned)] := by cbv
  have hsize := of_decide_eq_true hsize
  have hkept := of_decide_eq_true hkept
  have hquiet : ∀ other, hopelessAction.Removed .standard other → ¬other = utf8 "start" := by
    rintro other ⟨-, hgone⟩ rfl
    exact hgone hkept
  refine ⟨hchecked, hsize, hquiet, fun p hp => ?_⟩
  have hpruned : hopelessAction.Pruned .standard p.1 p.2 := by
    unfold Pruned
    rw [show CompilerOptions.standard.dropUnreachable = true from rfl, hdropped]
    simp only [List.mem_cons, List.not_mem_nil, or_false] at hp ⊢
    rcases hp with rfl | rfl | rfl <;> simp
  exact ⟨hpruned, not_satisfied_of_pruned hchecked hsize hpruned _ hquiet⟩

end Revision
end DecisionEngine
