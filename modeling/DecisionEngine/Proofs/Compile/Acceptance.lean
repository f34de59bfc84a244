import DecisionEngine.Proofs.Compile.Correctness
import DecisionEngine.Proofs.Compile.Scheduling
/-!
# Exactly well-formed revisions are accepted

A plan comes out of a compilation exactly if the revision is well-formed.  The stages look nodes up
by their ids, take labels and expressions apart that were checked before, and use what earlier
stages computed; whenever a stage is reached, everything it looks up is there.

* `FlatGraph.Ready` — what the later stages look up in a flat graph is there.
* `Revision.NeverStuck` — every look-up of every stage that is reached succeeds.
* `Revision.compile_total` — compilation gives a plan exactly for well-formed revisions.
-/

namespace DecisionEngine

/-! ## Look-ups -/

/-- What is looked up in a flat leaf is there: its labels are predicates, its expressions can be read
again and assembled behind any symbols, and it has an outcome exactly if it is an action. -/
structure FlatNode.Ready (n : FlatNode) : Prop where
  labels : ∀ l ∈ n.labels, (Predicate.ofLabel? l).isSome
  expressions : ∀ x ∈ n.expressions, Expr.parse x.source = .ok x.tree ∧ ∀ symbols,
    ∃ u s, Assembly.Emits (Assembly.emitExpression x.tree) (.start symbols false) u s
  outcome : n.outcome.isSome ↔ n.kind = .action

/-- What is looked up in a flat graph is there. -/
structure FlatGraph.Ready (g : FlatGraph) : Prop where
  nodes : ∀ n ∈ g.nodes, n.Ready
  ends : ∀ e ∈ g.edges, e.source ∈ g.ids ∧ e.target ∈ g.ids

/-- Every look-up of every stage that is reached succeeds. -/
structure Revision.NeverStuck (r : Revision) (o : CompilerOptions) : Prop where
  checking : ∀ e ∈ (NormalGraph.ofRevision r).1.expandedEdges,
    e.source ∈ (NormalGraph.ofRevision r).1.ids ∧ e.target ∈ (NormalGraph.ofRevision r).1.ids
  pruning : r.Checked → (NormalGraph.ofRevision r).1.flat.Ready
  arranging : r.Checked → (r.keptGraph o).Ready
  numbering : ∀ b, r.Passed o b → (∀ d ∈ r.contests o, d.members ≠ []) ∧
    ∀ id ∈ (r.keptGraph o).ids, id ∈ (r.context o).table
  guarding : ∀ b, r.Passed o b → ∀ d ∈ r.contests o, ∀ n ∈ d.members, ∀ symbols,
    ∃ s, Assembly.Emits ((r.context o).conjuncts n) (.start symbols false) () s
  enforcing : r.Checked → ∀ g ∈ r.guardrails, g.violation ≠ [] →
    ∃ x, Expr.parse g.violation = .ok x ∧ ∀ symbols,
      ∃ u s, Assembly.Emits (Assembly.emitExpression x) (.start symbols true) u s

/-- Exactly actions have outcomes. -/
theorem NodeBody.isSome_outcome?_iff {b : NodeBody} :
    b.outcome?.isSome ↔ b.kind = .action := by
  cases b <;> simp [outcome?, kind]

/-- An expression that may be used where it stands is assembled behind any symbols. -/
theorem Assembly.exists_emits_expression {outcome : Bool} {x : Expr}
    (h : outcome = true ∨ x.refersToOutcome = false) (symbols : SymbolTable) :
    ∃ u s, Emits (emitExpression x) (.start symbols outcome) u s := by
  obtain ⟨u, s, hs, -⟩ := accepts_emitExpression h (.start symbols outcome) rfl
  exact ⟨u, s, hs⟩

namespace NormalGraph

variable {g : NormalGraph}

/-- Edges between leaves have leaves as their ends. -/
theorem isLeaf_ends {e : Edge} (h : e ∈ g.expandedEdges) :
    g.IsLeaf e.source ∧ g.IsLeaf e.target := by
  obtain ⟨_, _, _, hsource, htarget⟩ := joins_of_mem_expandedEdges h
  exact ⟨hsource.1, htarget.1⟩

end NormalGraph

namespace FlatGraph

/-- Dropping leaves takes nothing away that is looked up afterwards. -/
theorem Ready.without {g : FlatGraph} (h : g.Ready) (d : Dropped) : (g.without d).Ready := by
  refine ⟨fun n hn => h.nodes n (List.mem_filter.1 hn).1, fun e he => ?_⟩
  obtain ⟨-, -, hends⟩ := mem_edges_without.1 he
  exact hends

end FlatGraph

namespace Revision

variable {r : Revision} {o : CompilerOptions}

theorem Checked.ready (h : r.Checked) : (NormalGraph.ofRevision r).1.flat.Ready := by
  have hall := h.portrays
  refine ⟨fun n hn => ?_, hall.ends⟩
  have husable := hall.usable n hn
  obtain ⟨m, -, rfl⟩ := List.mem_map.1 hn
  refine ⟨husable.labels, fun x hx => ?_, NodeBody.isSome_outcome?_iff⟩
  obtain ⟨c, -, hc⟩ := List.mem_filterMap.1 hx
  obtain ⟨-, hparse, hsource⟩ := mem_sourced?_iff.1 hc
  obtain ⟨source, hx⟩ := husable.expressions x hx
  exact ⟨hsource ▸ hparse,
    Assembly.exists_emits_expression (.inr (refersToOutcome_of_checked hx))⟩

/-- No stage gets stuck, whatever the revision is. -/
theorem neverStuck (r : Revision) (o : CompilerOptions) : r.NeverStuck o := by
  refine ⟨fun e he => ?_, fun h => h.ready, fun h => h.ready.without _, fun b h => ?_,
    fun b h d hd n hn symbols => ?_, fun h g hg hne => ?_⟩
  · obtain ⟨hsource, htarget⟩ := NormalGraph.isLeaf_ends he
    exact ⟨hsource.mem_ids, htarget.mem_ids⟩
  · refine ⟨h.arranges.nonempty, fun id hid => ?_⟩
    rw [table_context]
    exact (h.arranges.perm.map FlatNode.id).mem_iff.2 hid
  · rw [EmissionContext.conjuncts_eq]
    have husable := h.depicts.usable n (h.arranges.mem_nodes hd hn)
    exact Assembly.exists_emits (EmissionContext.acceptable_conjunctList husable) symbols
  · obtain ⟨x, hx⟩ := ((checked_iff.1 h).guardrails g hg).violation hne
    exact ⟨x, hx, Assembly.exists_emits_expression (.inl rfl)⟩

/-- **Exactly well-formed revisions are accepted.**  Unless warnings count as errors, compilation
gives a plan and no errors if the revision is well-formed, and errors and no plan if it is not; and
no stage looks up anything that is not there. -/
theorem compile_total (hstrict : o.warningsAsErrors = false) :
    r.NeverStuck o ∧
    (r.WellFormed o → (∃ b, (r.compile o).blueprint = some b) ∧ (r.compile o).errors = []) ∧
    (¬r.WellFormed o → (r.compile o).blueprint = none ∧ (r.compile o).errors ≠ []) := by
  refine ⟨r.neverStuck o, fun h => ?_, fun h => ?_⟩
  · obtain ⟨b, hb⟩ := exists_passed_iff.2 h
    obtain ⟨hblueprint, herrors⟩ := compile_passed hstrict hb
    exact ⟨⟨b, hblueprint⟩, herrors⟩
  · exact compile_stopped hstrict fun hpassed => h (exists_passed_iff.1 hpassed)

set_option maxRecDepth 100000 in
/-- A revision in which all is in order is accepted, and without its nodes it is not. -/
theorem compile_total_sample : CompilerOptions.standard.warningsAsErrors = false ∧
    (∃ b, (sample.compile .standard).blueprint = some b) ∧
    (sample.compile .standard).errors = [] ∧
    ({ sample with nodes := [] }.compile .standard).blueprint = none ∧
    ({ sample with nodes := [] }.compile .standard).errors ≠ [] := by
  have hcompiled := compile_of_accepted rfl (by cbv : sample.accepted .standard = true)
  obtain ⟨-, hgood, hbad⟩ := compile_total (r := sample) (o := .standard) rfl
  have hwell : sample.WellFormed .standard := by
    by_contra hnot
    rw [(hbad hnot).1] at hcompiled
    cases hcompiled
  have hill : ¬Revision.WellFormed { sample with nodes := [] } .standard := fun h => by
    obtain ⟨n, hn, -⟩ := h.entry
    exact absurd hn List.not_mem_nil
  obtain ⟨hplan, hclear⟩ := hgood hwell
  obtain ⟨-, -, hbad⟩ := compile_total (r := { sample with nodes := [] }) (o := .standard) rfl
  exact ⟨rfl, hplan, hclear, hbad hill⟩

end Revision
end DecisionEngine
