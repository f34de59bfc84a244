import DecisionEngine.Proofs.Compile.Reachability
import DecisionEngine.Proofs.Compile.WellFormed
import DecisionEngine.Proofs.Program.Acceptance
/-!
# What the checks of a rule graph find

Taking the nodes of a revision in finds no error exactly if each node is in order by itself and all
declarations of an id agree.  Each check of the graph in normal form then finds nothing exactly if
the revision has the property that the check is about.

* `NormalGraph.ofRevision_failed_iff` — nodes are taken in without errors.
* `NormalGraph.Stands.references_iff`, `NormalGraph.Stands.membershipCycles_iff` and the like —
  what each check is about.
* `Revision.checked_iff` — all checks together.
-/

namespace DecisionEngine

open Relation (TransGen)

/-! ## Findings -/

namespace Findings

theorem failed_also {a b : Findings} :
    (a.also b).failed = false ↔ a.failed = false ∧ b.failed = false := by
  simp [failed, also]

theorem failed_ofErrors {errors : List Diagnostic} :
    (ofErrors errors).failed = false ↔ errors = [] := by
  simp [failed, ofErrors]

theorem failed_iff {f : Findings} : f.failed = false ↔ f.errors = [] := by
  simp [failed]

end Findings

/-- A report on a list of offenders is empty if there are none. -/
theorem report_eq_nil_iff {α : Type} {offenders : List α} {d : Diagnostic} :
    (if offenders.isEmpty then [] else [d]) = [] ↔ offenders = [] := by
  cases offenders <;> simp

/-- A complaint is made only where it applies. -/
theorem complaint_eq_nil_iff {applies : Bool} {d : Diagnostic} :
    (if applies then [d] else []) = [] ↔ applies = false := by
  cases applies <;> simp

namespace NormalGraph

/-! ## Taking nodes in -/

theorem isSome_ofLabel?_iff {label : Bytes} :
    (Predicate.ofLabel? label).isSome ↔ Predicate.keyOf label ≠ [] := by
  unfold Predicate.ofLabel?
  by_cases h : Predicate.keyOf label = [] <;> simp [h]

/-- A node is in order by itself if it has an id and all its labels have keys. -/
theorem nodeError?_eq_none_iff {position : Nat} {n : Node} : nodeError? position n = none ↔
    n.id ≠ [] ∧ ∀ l ∈ n.condition.labels, Predicate.keyOf l ≠ [] := by
  unfold nodeError? firstBadLabel?
  by_cases hid : n.id = []
  · simp [hid]
  · rw [if_neg (by simpa using hid)]
    simp only [Option.map_eq_none_iff, List.find?_eq_none, Option.isNone_iff_eq_none,
      ← isSome_ofLabel?_iff, Option.isSome_iff_ne_none, ne_eq, hid, not_false_eq_true, true_and]

theorem find?_id_eq_some_iff {known : List NormalNode} {id : Bytes} {m : NormalNode}
    (hknown : (known.map (·.node.id)).Nodup) :
    known.find? (·.node.id == id) = some m ↔ m ∈ known ∧ m.node.id = id := by
  constructor
  · intro h
    exact ⟨List.mem_of_find?_eq_some h, by simpa using List.find?_some h⟩
  · rintro ⟨hm, rfl⟩
    obtain ⟨m', hm'⟩ : ∃ m', known.find? (·.node.id == m.node.id) = some m' := by
      rw [← Option.isSome_iff_exists, List.find?_isSome]
      exact ⟨m, hm, by simp⟩
    rw [hm']
    refine congrArg some (List.inj_on_of_nodup_map hknown (List.mem_of_find?_eq_some hm') hm ?_)
    simpa using List.find?_some hm'

/-- Nodes are taken in without errors exactly if each is in order by itself, agrees with the node
of its id that is known already, and agrees with all later declarations of its id. -/
theorem collect_errors_iff (declared : List (Node × Nat)) (known : List NormalNode)
    (hknown : (known.map (·.node.id)).Nodup) :
    (collect declared known).2 = [] ↔
      (∀ p ∈ declared, nodeError? p.2 p.1 = none) ∧
      (∀ p ∈ declared, ∀ m ∈ known, m.node.id = p.1.id → m.node.same p.1.normal = true) ∧
      declared.Pairwise fun p q => p.1.id = q.1.id → p.1.normal.same q.1.normal = true := by
  induction declared generalizing known with
  | nil => simp [collect]
  | cons first rest ih =>
    obtain ⟨n, position⟩ := first
    rw [collect]
    cases hbad : nodeError? position n with
    | some d =>
      refine ⟨fun h => absurd h (List.cons_ne_nil _ _), fun h => ?_⟩
      have hgood := h.1 (n, position) (List.mem_cons_self ..)
      rw [hbad] at hgood
      cases hgood
    | none =>
      dsimp only
      have hid := n.represents_normal.id
      cases hfind : known.find? (·.node.id == n.id) with
      | none =>
        have hfresh : ∀ m ∈ known, m.node.id ≠ n.id := fun m hm => by
          simpa using List.find?_eq_none.1 hfind m hm
        dsimp only
        rw [ih _ (nodup_ids_concat hknown hfresh _), List.pairwise_cons]
        simp only [List.mem_append, List.mem_cons, List.not_mem_nil, or_false, forall_eq_or_imp]
        constructor
        · rintro ⟨hgood, hagree, hpairs⟩
          refine ⟨⟨hbad, hgood⟩, ⟨fun m hm hm' => absurd hm' (hfresh m hm), fun p hp m hm => ?_⟩,
            fun p hp hpid => ?_, hpairs⟩
          · exact hagree p hp m (.inl hm)
          · exact hagree p hp _ (.inr rfl) (hid.trans hpid)
        · rintro ⟨⟨-, hgood⟩, ⟨-, hagree⟩, hfirst, hpairs⟩
          refine ⟨hgood, ?_, hpairs⟩
          rintro p hp m (hm | rfl) hmid
          · exact hagree p hp m hm hmid
          · exact hfirst p hp (hid.symm.trans hmid)
      | some known₀ =>
        obtain ⟨hmem, hknownId⟩ := (find?_id_eq_some_iff hknown).1 hfind
        have hunique : ∀ m ∈ known, m.node.id = n.id → m = known₀ := fun m hm hm' =>
          Option.some.inj (((find?_id_eq_some_iff hknown).2 ⟨hm, hm'⟩).symm.trans hfind)
        dsimp only
        by_cases hsame : known₀.node.same n.normal = true
        · rw [if_pos hsame, ih _ hknown, List.pairwise_cons]
          simp only [List.mem_cons, forall_eq_or_imp]
          constructor
          · rintro ⟨hgood, hagree, hpairs⟩
            refine ⟨⟨hbad, hgood⟩, ⟨fun m hm hm' => hunique m hm hm' ▸ hsame, hagree⟩,
              fun p hp hpid => ?_, hpairs⟩
            exact Node.same_trans (Node.same_symm hsame)
              (hagree p hp known₀ hmem (hknownId.trans hpid))
          · rintro ⟨⟨-, hgood⟩, ⟨-, hagree⟩, -, hpairs⟩
            exact ⟨hgood, hagree, hpairs⟩
        · rw [if_neg hsame]
          refine ⟨fun h => absurd h (List.cons_ne_nil _ _), fun h => ?_⟩
          exact absurd (h.2.1 _ (List.mem_cons_self ..) known₀ hmem hknownId) hsame

/-- A revision is brought into normal form without errors exactly if its nodes have ids and proper
labels, and all declarations of an id agree. -/
theorem ofRevision_failed_iff {r : Revision} : (ofRevision r).2.failed = false ↔
    (∀ n ∈ r.nodes, n.id ≠ []) ∧
    (∀ n ∈ r.nodes, ∀ l ∈ n.condition.labels, Predicate.keyOf l ≠ []) ∧
    r.nodes.Pairwise fun n m => n.id = m.id → n.normal.same m.normal = true := by
  have herrors : (ofRevision r).2.failed = false ↔ (collect r.nodes.zipIdx []).2 = [] :=
    Findings.failed_ofErrors
  have hnodes : (∀ p ∈ r.nodes.zipIdx, nodeError? p.2 p.1 = none) ↔
      ∀ n ∈ r.nodes, n.id ≠ [] ∧ ∀ l ∈ n.condition.labels, Predicate.keyOf l ≠ [] := by
    simp only [nodeError?_eq_none_iff]
    exact ⟨fun h n hn => by
        obtain ⟨i, hi, rfl⟩ := List.getElem_of_mem hn
        exact h (r.nodes[i], i) (List.mk_mem_zipIdx_iff_getElem?.2 (by simp [hi])),
      fun h p hp => h p.1 (List.fst_mem_of_mem_zipIdx hp)⟩
  have hpairs : (r.nodes.zipIdx.Pairwise fun p q => p.1.id = q.1.id →
      p.1.normal.same q.1.normal = true) ↔
      r.nodes.Pairwise fun n m => n.id = m.id → n.normal.same m.normal = true := by
    rw [← List.pairwise_map (f := Prod.fst) (R := fun n m : Node => n.id = m.id →
      n.normal.same m.normal = true), List.zipIdx_map_fst]
  rw [herrors, collect_errors_iff _ _ (by simp), hnodes, hpairs, forall₂_and, and_assoc]
  simp

/-! ## References and cycles -/

theorem danglingEdges_eq_nil_iff {g : NormalGraph} :
    g.danglingEdges = [] ↔ ∀ e ∈ g.edges, g.has e.source = true ∧ g.has e.target = true := by
  unfold danglingEdges
  rw [report_eq_nil_iff, List.filter_eq_nil_iff]
  simp [missingEnds, List.filter_eq_nil_iff]

theorem danglingMembers_eq_nil_iff {g : NormalGraph} {n : Node} :
    g.danglingMembers n = [] ↔ ∀ id ∈ n.body.members, g.has id = true := by
  unfold danglingMembers
  rw [report_eq_nil_iff, List.filter_eq_nil_iff]
  simp

namespace Stands

variable {g : NormalGraph} {r : Revision}

/-- References are good exactly if all ends of edges and all members exist. -/
theorem references_iff (h : g.Stands r) : g.references.errors = [] ↔
    (∀ e ∈ r.edges, (∃ n ∈ r.nodes, n.id = e.source) ∧ ∃ n ∈ r.nodes, n.id = e.target) ∧
      r.Whole := by
  unfold references
  rw [List.append_eq_nil_iff, danglingEdges_eq_nil_iff, List.flatMap_eq_nil_iff]
  simp only [danglingMembers_eq_nil_iff, h.has_iff, h.edges]
  refine and_congr_right fun _ => ⟨fun hall n hn inner hin => ?_, fun hwhole m hm id hid => ?_⟩
  · obtain ⟨m, hm, hmn⟩ := h.represented n hn
    exact hall m hm inner (by rw [hmn.members]; exact mem_sortedDistinct.2 hin)
  · obtain ⟨n, hn, hmn⟩ := h.declared m hm
    rw [hmn, n.represents_normal.members] at hid
    exact hwhole n hn id (mem_sortedDistinct.1 hid)

/-- No cycle of members is found exactly if no composite contains itself. -/
theorem membershipCycles_iff (h : g.Stands r) (hwhole : r.Whole) :
    g.membershipCycles = [] ↔ ∀ id, ¬TransGen r.Lists id id := by
  unfold membershipCycles
  rw [List.map_eq_nil_iff]
  refine Digraph.cycles_eq_nil_iff_acyclic (fun _ _ => h.mem_members_iff hwhole) ?_
  rintro _ inner ⟨n, hn, rfl, hin⟩
  exact ⟨h.mem_ids_iff.2 ⟨n, hn, rfl⟩, h.mem_ids_iff.2 (hwhole n hn inner hin)⟩

/-- No cycle of dependencies is found exactly if no leaf has to come before itself. -/
theorem orderingCycles_iff (h : g.Stands r) (hacyclic : ∀ id, ¬TransGen r.Lists id id) :
    g.orderingCycles = [] ↔ ∀ id, ¬TransGen r.Precedes id id := by
  unfold orderingCycles
  dsimp only
  rw [List.map_eq_nil_iff]
  refine Digraph.cycles_eq_nil_iff_acyclic (fun a b => ?_) fun a b hab => ?_
  · rw [Revision.precedes_iff]
    unfold Digraph.Step precedence
    simp only [List.mem_map, List.mem_filter, List.mem_filterMap, beq_iff_eq,
      h.mem_expandedEdges_iff hacyclic]
    constructor
    · rintro ⟨p, ⟨⟨e, he, hp⟩, rfl⟩, rfl⟩
      exact ⟨e, he, hp⟩
    · rintro ⟨e, he, hp⟩
      exact ⟨(a, b), ⟨⟨e, he, hp⟩, rfl⟩, rfl⟩
  · have hleaf : ∀ {kind x y}, r.Joins kind x y → x ∈ g.ids ∧ y ∈ g.ids := by
      rintro kind x y ⟨-, -, -, ⟨⟨n, hn, hx, -⟩, -⟩, ⟨⟨m, hm, hy, -⟩, -⟩⟩
      exact ⟨h.mem_ids_iff.2 ⟨n, hn, hx⟩, h.mem_ids_iff.2 ⟨m, hm, hy⟩⟩
    rcases hab with hjoins | hjoins | hjoins
    · exact hleaf hjoins
    · exact hleaf hjoins
    · exact (hleaf hjoins).symm

/-! ## Nodes -/

theorem missingEntry_iff (h : g.Stands r) :
    g.missingEntry = [] ↔ ∃ n ∈ r.nodes, n.kind = .decision := by
  have hany : (g.nodes.any fun m => m.node.kind == .decision) = true ↔
      ∃ n ∈ r.nodes, n.kind = .decision := by
    simp only [List.any_eq_true, beq_iff_eq]
    constructor
    · rintro ⟨m, hm, hkind⟩
      obtain ⟨n, hn, hmn⟩ := h.declared m hm
      exact ⟨n, hn, by rw [← n.represents_normal.kind, ← hmn, hkind]⟩
    · rintro ⟨n, hn, hkind⟩
      obtain ⟨m, hm, hmn⟩ := h.represented n hn
      exact ⟨m, hm, hmn.kind.trans hkind⟩
  unfold missingEntry
  by_cases hentry : (g.nodes.any fun m => m.node.kind == .decision) = true
  · rw [if_pos hentry]
    exact ⟨fun _ => hany.1 hentry, fun _ => rfl⟩
  · rw [if_neg hentry]
    exact ⟨fun h => (nomatch h), fun h => absurd (hany.2 h) hentry⟩

/-- No bad expression is found exactly if all expressions can be read and refer to no outcome. -/
theorem badExpressions_iff (h : g.Stands r) : g.badExpressions = [] ↔
    ∀ n ∈ r.nodes, n.condition.expression ≠ [] →
      ∃ x, Expr.parse n.condition.expression = .ok x ∧ x.refersToOutcome = false := by
  have hchecked : g.badExpressions = [] ↔ ∀ m ∈ g.nodes, m.node.condition.expression ≠ [] →
      ∃ x, checkedExpression false m.node.condition.expression = .ok x := by
    unfold badExpressions
    rw [List.flatMap_eq_nil_iff]
    refine forall₂_congr fun m _ => ?_
    dsimp only
    by_cases hempty : m.node.condition.expression = []
    · simp [hempty]
    · rw [if_neg (by simpa using hempty)]
      cases checkedExpression false m.node.condition.expression with
      | ok x => exact ⟨fun _ _ => ⟨x, rfl⟩, fun _ => rfl⟩
      | error e =>
        refine ⟨fun h => (nomatch h), fun h => ?_⟩
        obtain ⟨x, hx⟩ := h hempty
        cases hx
  simp only [hchecked, checkedExpression_eq_ok_iff, Bool.false_eq_true, false_or]
  constructor
  · intro hall n hn
    obtain ⟨m, hm, hmn⟩ := h.represented n hn
    have hsame : m.node.condition.expression = n.condition.expression := by
      rw [hmn.condition]
      rfl
    exact hsame ▸ hall m hm
  · intro hall m hm
    obtain ⟨n, hn, hmn⟩ := h.declared m hm
    have hsame : m.node.condition.expression = n.condition.expression := by
      rw [hmn, n.represents_normal.condition]
      rfl
    exact hsame ▸ hall n hn

/-! ## Guardrails -/

/-- Nothing is wrong with a guardrail exactly if it can be enforced. -/
theorem guardrailErrors_iff (h : g.Stands r) {rail : Guardrail} :
    g.guardrailErrors rail = [] ↔ rail.WellFormed r := by
  have hviolation : (∃ x, Expr.parse rail.violation = .ok x) ↔
      ∃ x, checkedExpression true rail.violation = .ok x := by
    simp [checkedExpression_eq_ok_iff]
  have hwell : rail.WellFormed r ↔
      (((rail.mode = .veto → rail.violation ≠ []) ∧
        (rail.violation ≠ [] → ∃ x, Expr.parse rail.violation = .ok x)) ∧
        (rail.mode = .veto → rail.fallback = .cap → rail.capParam ≠ [] ∧ rail.capValue ≠ .null)) ∧
        (rail.mode = .mandateDefault → rail.defaultOutcome.action ≠ [] ∧
          ∀ id ∈ rail.appliesTo, ∃ n ∈ r.nodes, n.id = id) :=
    ⟨fun ⟨hforbids, hread, hcap, haction, htargets⟩ =>
      ⟨⟨⟨hforbids, hread⟩, hcap⟩, fun hm => ⟨haction hm, htargets hm⟩⟩,
      fun ⟨⟨⟨hforbids, hread⟩, hcap⟩, hm⟩ =>
      ⟨hforbids, hread, hcap, fun hmode => (hm hmode).1, fun hmode => (hm hmode).2⟩⟩
  have hnull : rail.capValue.isNull = false ↔ rail.capValue ≠ .null := by
    cases rail.capValue <;> simp [Value.isNull]
  rw [hwell, hviolation]
  unfold guardrailErrors
  rw [List.append_eq_nil_iff, List.append_eq_nil_iff, List.append_eq_nil_iff]
  refine and_congr (and_congr (and_congr (complaint_eq_nil_iff.trans ?_) ?_)
    (complaint_eq_nil_iff.trans ?_)) ?_
  · simp
  · by_cases hempty : rail.violation = []
    · simp [hempty]
    · rw [if_neg (by simpa using hempty)]
      cases checkedExpression true rail.violation with
      | ok x => exact ⟨fun _ _ => ⟨x, rfl⟩, fun _ => rfl⟩
      | error e =>
        refine ⟨fun h => (nomatch h), fun h => ?_⟩
        obtain ⟨x, hx⟩ := h hempty
        cases hx
  · simp only [Bool.and_eq_false_iff, Bool.or_eq_false_iff, hnull, beq_eq_false_iff_ne,
      List.isEmpty_eq_false_iff]
    by_cases hmode : rail.mode = .veto <;> by_cases hfallback : rail.fallback = .cap <;>
      simp [hmode, hfallback]
  · by_cases hmode : rail.mode = .mandateDefault
    · rw [if_pos (by simpa using hmode)]
      dsimp only
      rw [List.append_eq_nil_iff, complaint_eq_nil_iff, report_eq_nil_iff, List.filter_eq_nil_iff]
      simp [hmode, h.has_iff]
    · rw [if_neg (by simpa using hmode)]
      exact ⟨fun _ hm => absurd hm hmode, fun _ => rfl⟩

/-- Nothing is wrong with guardrails exactly if their ids are distinct and new, and each can be
enforced. -/
theorem badGuardrails_iff (h : g.Stands r) {seen : List Bytes} {rails : List Guardrail} :
    g.badGuardrails seen rails = [] ↔ (∀ rail ∈ rails, rail.id ≠ []) ∧
      (rails.map (·.id)).Nodup ∧ (∀ rail ∈ rails, rail.id ∉ seen) ∧
      ∀ rail ∈ rails, rail.WellFormed r := by
  induction rails generalizing seen with
  | nil => simp [badGuardrails]
  | cons rail rails ih =>
    rw [badGuardrails]
    by_cases hid : rail.id = []
    · simp [hid]
    · rw [if_neg (by simpa using hid)]
      by_cases hseen : rail.id ∈ seen
      · simp [hseen]
      · rw [if_neg (by simpa using hseen), List.append_eq_nil_iff, h.guardrailErrors_iff, ih]
        simp only [List.mem_cons, forall_eq_or_imp, List.map_cons, List.nodup_cons, List.mem_map,
          not_or, forall_and]
        constructor
        · rintro ⟨hwell, hids, hnodup, ⟨hne, hold⟩, hall⟩
          refine ⟨⟨hid, hids⟩, ⟨?_, hnodup⟩, ⟨hseen, hold⟩, hwell, hall⟩
          rintro ⟨other, hother, hsame⟩
          exact hne other hother hsame
        · rintro ⟨⟨-, hids⟩, ⟨hfresh, hnodup⟩, ⟨-, hold⟩, hwell, hall⟩
          exact ⟨hwell, hids, hnodup, ⟨fun other hother hsame => hfresh ⟨other, hother, hsame⟩,
            hold⟩, hall⟩

end Stands

/-! ## All checks -/

/-- The checks of a graph find no error exactly if each single one finds none. -/
theorem lint_failed_iff {g : NormalGraph} {rails : List Guardrail} :
    (g.lint rails).failed = false ↔ g.references.errors = [] ∧ g.membershipCycles = [] ∧
      g.orderingCycles = [] ∧ g.missingEntry = [] ∧ g.badExpressions = [] ∧
      g.badGuardrails [] rails = [] := by
  have hfirst : (g.references.also (.ofErrors g.membershipCycles)).failed = false ↔
      g.references.errors = [] ∧ g.membershipCycles = [] := by
    rw [Findings.failed_also, Findings.failed_iff, Findings.failed_ofErrors]
  unfold lint
  dsimp only
  rw [Findings.failed_also, Findings.failed_also, Findings.failed_ofErrors, List.append_eq_nil_iff,
    List.append_eq_nil_iff, hfirst]
  by_cases hgood : g.references.errors = [] ∧ g.membershipCycles = []
  · rw [if_neg (by simp [hfirst.2 hgood]), Findings.failed_iff]
    simp only [hgood, true_and, and_assoc]
  · exact ⟨fun h => absurd h.1.1 hgood, fun h => absurd ⟨h.1, h.2.1⟩ hgood⟩

end NormalGraph

namespace Revision

/-- Bringing a revision into normal form and checking it finds no error. -/
structure Checked (r : Revision) : Prop where
  normal : (NormalGraph.ofRevision r).2.failed = false
  lint : ((NormalGraph.ofRevision r).1.lint r.guardrails).failed = false

/-- Taking a revision in and checking it finds no error exactly if it is coherent. -/
theorem checked_iff {r : Revision} : r.Checked ↔ r.Coherent := by
  constructor
  · rintro ⟨hnormal, hlint⟩
    have hg := NormalGraph.stands_ofRevision hnormal
    obtain ⟨hids, hlabels, hagreeing⟩ := NormalGraph.ofRevision_failed_iff.1 hnormal
    obtain ⟨hreferences, hmembership, hordering, hentry, hexpressions, hguardrails⟩ :=
      NormalGraph.lint_failed_iff.1 hlint
    obtain ⟨hends, hwhole⟩ := hg.references_iff.1 hreferences
    obtain ⟨hguardrailIds, hdistinct, -, hwell⟩ := hg.badGuardrails_iff.1 hguardrails
    have hacyclic := (hg.membershipCycles_iff hwhole).1 hmembership
    exact ⟨hids, hlabels, hagreeing, hends, hwhole, hacyclic,
      (hg.orderingCycles_iff hacyclic).1 hordering, hg.missingEntry_iff.1 hentry,
      hg.badExpressions_iff.1 hexpressions, hguardrailIds, hdistinct, hwell⟩
  · intro h
    have hnormal := NormalGraph.ofRevision_failed_iff.2 ⟨h.ids, h.labels, h.agreeing⟩
    have hg := NormalGraph.stands_ofRevision hnormal
    refine ⟨hnormal, NormalGraph.lint_failed_iff.2 ⟨?_, ?_, ?_, ?_, ?_, ?_⟩⟩
    · exact hg.references_iff.2 ⟨h.ends, h.members⟩
    · exact (hg.membershipCycles_iff h.members).2 h.membership
    · exact (hg.orderingCycles_iff h.membership).2 h.ordering
    · exact hg.missingEntry_iff.2 h.entry
    · exact hg.badExpressions_iff.2 h.expressions
    · refine hg.badGuardrails_iff.2 ⟨h.guardrailIds, h.guardrailsDistinct, ?_, h.guardrails⟩
      exact fun _ _ => List.not_mem_nil

end Revision
end DecisionEngine
