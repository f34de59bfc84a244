import DecisionEngine.Proofs.Compile.Declarations
/-!
# Plans of revisions declared in another order

The order of edges never shows in a plan, nor how often they are declared.  The order of nodes
shows only inside exclusion groups, whose candidates come in the order of declaration; without
exclusions every step is a single rule, written without its place, and the bytes of the plan are
those of the canonical form.

* `Revision.emit_canonical` — plans of single rules have the bytes of the canonical form.
* `Revision.Redeclares.ordered_eq`, `Revision.Redeclares.contests_eq` and the like — what a stage
  makes of other declarations.
* `Revision.compile_edges` — edges in another order are compiled in the same way.
* `Revision.compile_canonical` — the plan does not depend on the order of declarations.
-/

namespace DecisionEngine

/-! ## Bytes of emitted steps -/

namespace Emission

theorem map_mapM {α β γ : Type} (g : β → γ) (f : α → Emission β) (xs : List α) :
    List.map g <$> xs.mapM f = xs.mapM fun x => g <$> f x := by
  induction xs with
  | nil => rfl
  | cons x xs ih =>
    simp only [List.mapM_cons, map_bind, map_pure, List.map_cons, ← ih, bind_map_left]

end Emission

namespace EmissionContext

variable (c : EmissionContext) (policy : SelectionPolicy) (comparator : Bytes)

theorem guard_canonical (n : FlatNode) : c.guard n.canonical = c.guard n := rfl

/-- A contest of one rule is written alike in canonical form. -/
theorem written_canonical {d : Contest} (h : ∃ n, d.members = [n]) :
    List.map Wire.step <$> c.steps policy comparator d.canonical =
      List.map Wire.step <$> c.steps policy comparator d := by
  obtain ⟨members, dominates⟩ := d
  obtain ⟨n, rfl⟩ := h
  have houtcome : n.canonical.outcome = n.outcome.map Outcome.withoutNegativeZero := rfl
  have hid : n.canonical.id = n.id := rfl
  simp only [steps, Contest.canonical, List.map_cons, List.map_nil, guard_canonical, houtcome, hid]
  cases n.outcome with
  | none => rfl
  | some o => simp [Wire.step, Wire.outcome_withoutNegativeZero]

/-- Contests of one rule are written alike in canonical form, one after another. -/
theorem written_mapM_canonical {cs : List Contest} (h : ∀ d ∈ cs, ∃ n, d.members = [n]) :
    List.map (List.map Wire.step) <$>
        (cs.map Contest.canonical).mapM (c.steps policy comparator) =
      List.map (List.map Wire.step) <$> cs.mapM (c.steps policy comparator) := by
  rw [Emission.map_mapM, Emission.map_mapM, List.mapM_map]
  induction cs with
  | nil => rfl
  | cons d cs ih =>
    rw [List.mapM_cons, List.mapM_cons, Function.comp_apply,
      c.written_canonical policy comparator (h d (List.mem_cons_self ..)),
      ih fun d' hd' => h d' (List.mem_cons_of_mem _ hd')]

theorem uncatalogued_canonical (rules : List FlatNode) :
    uncatalogued c (rules.map FlatNode.canonical) = uncatalogued c rules := by
  unfold uncatalogued
  rw [List.flatMap_map]
  refine List.map_congr_left fun l _ => ?_
  rw [List.filter_map, List.map_map]
  rfl

end EmissionContext

namespace Revision

variable {r : Revision} {o : CompilerOptions} {b : Blueprint} {cs : List Contest}

theorem members_canonical (cs : List Contest) : (cs.map Contest.canonical).flatMap (·.members) =
    (cs.flatMap (·.members)).map FlatNode.canonical := by
  rw [List.flatMap_map, List.map_flatMap]
  rfl

theorem emissionContext_canonical (r : Revision) (maxBits : Nat) (k : FlatGraph)
    (cs : List Contest) : r.emissionContext maxBits k.canonical (cs.map Contest.canonical) =
      r.emissionContext maxBits k cs := by
  unfold emissionContext
  rw [members_canonical, List.map_map]
  rfl

/-- A plan of single rules has the same bytes and the same id in canonical form, and the same is
found. -/
theorem emit_canonical (r : Revision) (k : FlatGraph) (maxBits : Nat)
    (h : ∀ d ∈ cs, ∃ n, d.members = [n]) :
    (r.emit maxBits k.canonical (cs.map Contest.canonical)).1.encoded =
        (r.emit maxBits k cs).1.encoded ∧
      (r.emit maxBits k.canonical (cs.map Contest.canonical)).1.id = (r.emit maxBits k cs).1.id ∧
      (r.emit maxBits k.canonical (cs.map Contest.canonical)).2 = (r.emit maxBits k cs).2 := by
  have hcontext := r.emissionContext_canonical maxBits k cs
  obtain ⟨hwritten, hsymbols⟩ := Prod.mk.inj (congrFun ((r.emissionContext maxBits k
    cs).written_mapM_canonical r.policy r.comparator h) .empty)
  have hsteps : (r.emittedSteps maxBits k.canonical (cs.map Contest.canonical)).1.flatten.map
      Wire.step = (r.emittedSteps maxBits k cs).1.flatten.map Wire.step := by
    unfold emittedSteps
    rw [hcontext, List.map_flatten, List.map_flatten]
    exact congrArg List.flatten hwritten
  have hrails : r.emittedRails maxBits k.canonical (cs.map Contest.canonical) =
      r.emittedRails maxBits k cs := by
    unfold emittedRails emittedSteps
    rw [hcontext]
    exact congrArg _ hsymbols
  have hencode : (r.emit maxBits k.canonical (cs.map Contest.canonical)).1.encode =
      (r.emit maxBits k cs).1.encode := by
    rw [emit_eq, emit_eq]
    unfold emitted
    rw [hrails, members_canonical, List.map_map]
    unfold Blueprint.encode Blueprint.sealed
    dsimp only
    rw [Wire.list_congr hsteps]
    rfl
  refine ⟨hencode, ?_, ?_⟩
  · exact congrArg (fun bytes => (⟨r.graph, r.version, Fnv.hash bytes⟩ : BlueprintId)) hencode
  · change Findings.ofWarnings (uncatalogued (r.emissionContext _ _ _) _) = _
    rw [hcontext, members_canonical, EmissionContext.uncatalogued_canonical]
    rfl

/-! ## Plans without exclusions -/

/-- No two leaves exclude each other. -/
def Unrivaled (r : Revision) : Prop := ∀ a c, r.Joins .excludes a c → a = c

/-- Without exclusions, each unit has a single rule. -/
theorem Checked.single_units (h : r.Checked) (hfree : r.Unrivaled)
    (hordered : (r.keptGraph o).ordered.2.failed = false) :
    ∀ u ∈ (r.keptGraph o).ordered.1, ∃ n, u.members = [n] := by
  have hk := h.depicts o
  have hexcludes : ∀ a c, ¬(r.keptGraph o).Excludes a c := by
    rintro _ _ ⟨⟨a, _, c⟩, he, rfl, rfl, rfl⟩
    obtain ⟨hne, -, -, hjoins⟩ := (hk.edges _).1 he
    exact hne (hfree a c hjoins)
  exact fun u hu => hk.tidy.single_of_no_excludes hexcludes
    ((FlatGraph.ordered_spec hordered).1.mem_iff.1 hu)

/-- Without exclusions, each contest has a single rule. -/
theorem Checked.single_contests (h : r.Checked) (hfree : r.Unrivaled)
    (hordered : (r.keptGraph o).ordered.2.failed = false) :
    ∀ d ∈ r.contests o, ∃ n, d.members = [n] := by
  unfold contests
  intro d hd
  rw [FlatGraph.contests_eq] at hd
  obtain ⟨u, hu, rfl⟩ := List.mem_map.1 hd
  obtain ⟨n, hn⟩ := h.single_units hfree hordered u hu
  exact ⟨n, List.perm_singleton.1 (hn ▸ FlatGraph.declared_perm u)⟩

/-! ## Other declarations, stage by stage -/

namespace Redeclares

variable {r' : Revision} (h : r'.Redeclares r)
include h

theorem joins_iff {kind : EdgeKind} {a c : Bytes} : r'.Joins kind a c ↔ r.Joins kind a c := by
  have hlists : r'.Lists = r.Lists := by
    funext outer inner
    simp only [Lists, h.nodes.mem_iff]
  have hstands : r'.StandsFor = r.StandsFor := by
    funext id leaf
    simp only [StandsFor, IsLeaf, Contains, hlists, h.nodes.mem_iff]
  simp only [Joins, hstands, h.edges]

theorem lint_eq (hr : (NormalGraph.ofRevision r).2.failed = false) (rails : List Guardrail) :
    (NormalGraph.ofRevision r').1.lint rails = (NormalGraph.ofRevision r).1.lint rails := by
  rw [← NormalGraph.lint_canonical, NormalGraph.canonical_of_redeclares h hr,
    NormalGraph.lint_canonical]

theorem checked (hr : r.Checked) : r'.Checked := by
  refine ⟨NormalGraph.ofRevision_failed_perm h hr.normal, ?_⟩
  have hrails : r'.guardrails = r.guardrails := by rw [h.rest]
  rw [h.lint_eq hr.normal, hrails]
  exact hr.lint

/-- Pruning keeps the same leaves, and finds the same. -/
theorem keptGraph_eq (hr : r.Checked) (o : CompilerOptions) :
    (r'.keptGraph o).canonical = (r.keptGraph o).canonical ∧
      (FlatGraph.ofNormal (NormalGraph.ofRevision r').1 o.dropUnreachable).2 =
        (FlatGraph.ofNormal (NormalGraph.ofRevision r).1 o.dropUnreachable).2 := by
  have hpruned := congrArg (FlatGraph.ofNormal · o.dropUnreachable)
    (NormalGraph.canonical_of_redeclares h hr.normal)
  rw [FlatGraph.ofNormal_canonical, FlatGraph.ofNormal_canonical] at hpruned
  exact Prod.mk.inj hpruned

/-- Units are put in the same order, and the same is found. -/
theorem ordered_eq (hr : r.Checked) (o : CompilerOptions) :
    (r'.keptGraph o).ordered.1.map PlanUnit.canonical =
        (r.keptGraph o).ordered.1.map PlanUnit.canonical ∧
      (r'.keptGraph o).ordered.2 = (r.keptGraph o).ordered.2 := by
  have hordered := congrArg FlatGraph.ordered (h.keptGraph_eq hr o).1
  rw [((h.checked hr).depicts o).tidy.ordered_canonical, (hr.depicts o).tidy.ordered_canonical]
    at hordered
  exact Prod.mk.inj hordered

theorem unrivaled (hfree : r.Unrivaled) : r'.Unrivaled := fun a c hac =>
  hfree a c (h.joins_iff.1 hac)

variable (hfree : r.Unrivaled) (hr : r.Checked)
variable (hordered : (r.keptGraph o).ordered.2.failed = false)
include hfree hr hordered

/-- Without exclusions, units become the same contests, and the same is found. -/
theorem contests_eq : (r'.contests o).map Contest.canonical =
      (r.contests o).map Contest.canonical ∧
    ((r'.keptGraph o).contests (r'.keptGraph o).ordered.1).2 =
      ((r.keptGraph o).contests (r.keptGraph o).ordered.1).2 := by
  have hordered' := (congrArg Findings.failed (h.ordered_eq hr o).2).trans hordered
  have hcontests := congrArg₂ FlatGraph.contests (h.keptGraph_eq hr o).1 (h.ordered_eq hr o).1
  rw [FlatGraph.contests_canonical _ ((h.checked hr).single_units (h.unrivaled hfree) hordered'),
    FlatGraph.contests_canonical _ (hr.single_units hfree hordered)] at hcontests
  exact Prod.mk.inj hcontests

/-- Without exclusions, the same bytes come out with the same id, and the same is found. -/
theorem emit_eq (maxBits : Nat) :
    (r'.emit maxBits (r'.keptGraph o) (r'.contests o)).1.encoded =
        (r.emit maxBits (r.keptGraph o) (r.contests o)).1.encoded ∧
      (r'.emit maxBits (r'.keptGraph o) (r'.contests o)).1.id =
        (r.emit maxBits (r.keptGraph o) (r.contests o)).1.id ∧
      (r'.emit maxBits (r'.keptGraph o) (r'.contests o)).2 =
        (r.emit maxBits (r.keptGraph o) (r.contests o)).2 := by
  -- Emission does not read the nodes and edges as they were declared.
  have hemit : r'.emit = r.emit := by
    rw [h.rest]
    rfl
  have hordered' := (congrArg Findings.failed (h.ordered_eq hr o).2).trans hordered
  obtain ⟨hencoded', hid', hfound'⟩ := r.emit_canonical (r'.keptGraph o) maxBits
    ((h.checked hr).single_contests (h.unrivaled hfree) hordered')
  obtain ⟨hencoded, hid, hfound⟩ := r.emit_canonical (r.keptGraph o) maxBits
    (hr.single_contests hfree hordered)
  rw [(h.keptGraph_eq hr o).1, (h.contests_eq hfree hr hordered).1] at hencoded' hid' hfound'
  rw [hemit]
  exact ⟨hencoded'.symm.trans hencoded, hid'.symm.trans hid, hfound'.symm.trans hfound⟩

omit hr hordered

/-- Without exclusions, a revision passes all stages if it is declared in another order, and its
plan has the same bytes and the same id. -/
theorem passed (hb : r.Passed o b) : ∃ b', r'.Passed o b' ∧ r'.findings o = r.findings o ∧
    b'.encoded = b.encoded ∧ b'.id = b.id := by
  have hr := hb.checked
  have hlint := h.lint_eq hb.normal r.guardrails
  have hordering := (h.ordered_eq hr o).2
  have hsettling := (h.contests_eq hfree hr hb.ordered).2
  obtain ⟨hencoded, hid, hemission⟩ := h.emit_eq hfree hr hb.ordered o.maxAttributeBits
  have hrails : r'.guardrails = r.guardrails := by rw [h.rest]
  refine ⟨_, ⟨(h.checked hr).normal, (h.checked hr).lint,
    (congrArg Findings.failed hordering).trans hb.ordered,
    (congrArg Findings.failed hsettling).trans hb.settled, rfl⟩, ?_, ?_⟩
  · unfold findings
    dsimp only
    rw [hrails, hlint, (h.keptGraph_eq hr o).2, hordering, hsettling, hemission,
      NormalGraph.ofRevision_clear hb.normal, NormalGraph.ofRevision_clear (h.checked hr).normal]
  · rw [hb.emitted]
    exact ⟨hencoded, hid⟩

end Redeclares

/-! ## Edges in another order -/

/-- With its edges in another order and with other repetitions, a revision is compiled in the same
way; only the number of edges that is reported differs. -/
theorem compile_edges {edges : List Edge} (h : ∀ e, e ∈ edges ↔ e ∈ r.edges)
    (o : CompilerOptions) : ({ r with edges := edges } : Revision).compile o =
      { r.compile o with
        figures := { (r.compile o).figures with inputEdges := edges.length } } := by
  have hnormal : NormalGraph.ofRevision { r with edges := edges } = NormalGraph.ofRevision r := by
    unfold NormalGraph.ofRevision
    dsimp only
    rw [Edge.sortedDistinct_congr h]
  unfold compile
  rw [hnormal]
  -- What comes of the first stages is the same, so it need not be looked into.
  generalize NormalGraph.ofRevision r = taken
  dsimp only
  generalize FlatGraph.ofNormal taken.1 o.dropUnreachable = pruned
  split
  · rfl
  · split
    · rfl
    · split
      · rfl
      · split
        · rfl
        · rfl

/-! ## Canonicity -/

/-- Whether a blueprint is withheld depends on what was found only. -/
theorem blueprint_finish_congr {figures figures' : CompileFigures} {found : Findings}
    (h : (Compilation.finish o figures found (some b)).blueprint = some b) (b' : Blueprint) :
    (Compilation.finish o figures' found (some b')).blueprint = some b' := by
  unfold Compilation.finish at *
  dsimp only at *
  generalize (if o.warningsAsErrors then found.strict else found).failed = failed at *
  cases failed with
  | false => rfl
  | true => cases h

/-- **Compilation is canonical.**  For edges in another order and with other repetitions, the same
blueprint comes out, with the same errors and warnings.  If a revision is compiled and no two of its
leaves exclude each other, then for nodes in another order as well a blueprint comes out, which has
the same bytes and the same hash of its content. -/
theorem compile_canonical (r : Revision) (o : CompilerOptions) :
    (∀ edges, (∀ e, e ∈ edges ↔ e ∈ r.edges) →
      let c := ({ r with edges := edges } : Revision).compile o
      c.blueprint = (r.compile o).blueprint ∧ c.errors = (r.compile o).errors ∧
        c.warnings = (r.compile o).warnings) ∧
    ∀ nodes edges b, nodes.Perm r.nodes → (∀ e, e ∈ edges ↔ e ∈ r.edges) →
      (r.compile o).blueprint = some b → r.Unrivaled →
      ∃ b', (({ r with nodes := nodes, edges := edges } : Revision).compile o).blueprint = some b' ∧
        b'.encoded = b.encoded ∧ b'.id.contentHash = b.id.contentHash := by
  refine ⟨fun edges hedges => ?_, fun nodes edges b hnodes hedges hb hfree => ?_⟩
  · dsimp only
    rw [compile_edges hedges o]
    exact ⟨rfl, rfl, rfl⟩
  · have hpassed := passed_of_compile hb
    have h : ({ r with nodes := nodes, edges := edges } : Revision).Redeclares r :=
      ⟨hnodes, hedges, rfl⟩
    obtain ⟨b', hpassed', hfound, hencoded, hid⟩ := h.passed hfree hpassed
    obtain ⟨-, figures, hcompile⟩ := compile_eq hpassed
    obtain ⟨-, figures', hcompile'⟩ := compile_eq hpassed'
    rw [hcompile] at hb
    rw [hcompile', hfound]
    exact ⟨b', blueprint_finish_congr hb b', hencoded, congrArg BlueprintId.contentHash hid⟩

/-- A gift, and a letter that it neutralizes.  The gift is said to exclude itself, which means
nothing. -/
def giftsSample : Revision where
  graph := utf8 "gifts"
  version := 1
  tenant := []
  decisionType := []
  catalog := .empty
  nodes := [⟨utf8 "start", [], 0, .zero, .decision ⟨[], []⟩⟩,
    ⟨utf8 "gift", [], 0, .zero, .action ⟨[utf8 "loyal"], []⟩ ⟨utf8 "gift", .empty⟩⟩,
    ⟨utf8 "letter", [], 0, .zero, .evaluator ⟨[], []⟩⟩]
  edges := [⟨utf8 "start", .flowsTo, utf8 "gift"⟩, ⟨utf8 "start", .flowsTo, utf8 "letter"⟩,
    ⟨utf8 "gift", .neutralizes, utf8 "letter"⟩, ⟨utf8 "gift", .excludes, utf8 "gift"⟩]
  policy := .highestPriority
  comparator := []
  guardrails := []

set_option maxRecDepth 100000 in
theorem compile_canonical_gifts : ∃ b b',
    (giftsSample.compile .standard).blueprint = some b ∧
    (({ giftsSample with edges := giftsSample.edges ++ giftsSample.edges.reverse } :
      Revision).compile .standard).blueprint = some b ∧
    (({ giftsSample with
        nodes := giftsSample.nodes.reverse
        edges := giftsSample.edges.reverse } : Revision).compile .standard).blueprint = some b' ∧
    b'.encoded = b.encoded ∧ b'.id.contentHash = b.id.contentHash := by
  have hb : (giftsSample.compile .standard).blueprint = some (giftsSample.planned .standard) :=
    compile_of_accepted rfl (by cbv)
  obtain ⟨hedges, hnodes⟩ := compile_canonical giftsSample .standard
  have hmembers : ∀ n ∈ giftsSample.nodes, n.body.members = [] := by decide
  have hstands : ∀ {id leaf}, giftsSample.StandsFor id leaf → id = leaf := by
    rintro id leaf ⟨-, hid | hinside⟩
    · exact hid
    · obtain ⟨_, ⟨n, hn, -, hinner⟩, -⟩ := Relation.TransGen.head'_iff.1 hinside
      rw [hmembers n hn] at hinner
      cases hinner
  have hloops : ∀ e ∈ giftsSample.edges, e.kind = .excludes → e.source = e.target := by decide
  have hfree : giftsSample.Unrivaled := by
    rintro x y ⟨e, he, hkind, hx, hy⟩
    rw [← hstands hx, ← hstands hy, hloops e he hkind]
  obtain ⟨b', hb', hsame⟩ := hnodes giftsSample.nodes.reverse giftsSample.edges.reverse _
    (List.reverse_perm _) (fun e => List.mem_reverse) hb hfree
  refine ⟨_, b', hb, ?_, hb', hsame⟩
  rw [(hedges (giftsSample.edges ++ giftsSample.edges.reverse) fun e => by
    rw [List.mem_append, List.mem_reverse, or_self]).1]
  exact hb

end Revision
end DecisionEngine
