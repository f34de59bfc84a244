import DecisionEngine.Proofs.Compile.Unobserved
import DecisionEngine.Proofs.Names
/-!
# When pruning does not show

An expression that folding recognises to be always false has its node dropped before exclusion
groups are formed; an expression that is never true, and cannot be told to be so, stays in the plan.
The two plans decide the same where dropping the node splits no exclusion group, and leaves enough
of the groups that mandates are about.  Elsewhere the difference shows.

* `Revision.Seamless` — what pruning has to leave.
* `Revision.Checked.thins_keptGraph` — the one graph of kept leaves is what is left of the other.
* `Revision.perm_decisions_withExpression` — the two plans come to the same decisions.
* `Revision.pruning_shows` — three plans where they do not.
-/

namespace DecisionEngine

open Relation (EqvGen)

/-! ## Mandates -/

/-- A guardrail is about a group of rules: it names one of them, or none at all. -/
def Guardrail.IsAbout (rail : Guardrail) (group : Bytes → Prop) : Prop :=
  rail.appliesTo = [] ∨ ∃ id ∈ rail.appliesTo, group id

/-- A guardrail of a plan is about the rules that the one of the revision is about. -/
theorem Guardrail.EnforcedBy.names_iff {rail : Guardrail} {g : PlanGuardrail}
    {symbols : SymbolTable} (h : rail.EnforcedBy g symbols) {ids : List Bytes} :
    g.names ids = true ↔ rail.IsAbout (· ∈ ids) := by
  have hempty : sortedDistinct rail.appliesTo = [] ↔ rail.appliesTo = [] := by
    simp only [List.eq_nil_iff_forall_not_mem, mem_sortedDistinct]
  unfold PlanGuardrail.names Guardrail.IsAbout
  simp only [h.appliesTo, Bool.or_eq_true, List.isEmpty_iff, hempty, List.any_eq_true,
    sortedContains_sortedDistinct]
  exact or_congr_right ⟨fun ⟨id, hid, hnamed⟩ => ⟨id, hnamed, hid⟩,
    fun ⟨id, hnamed, hid⟩ => ⟨id, hid, hnamed⟩⟩

namespace Revision

variable {r r' : Revision} {o : CompilerOptions} {b b' : Blueprint} {x source : Bytes}

/-- Rivals that are not the same are kept. -/
theorem kept_of_rivals_ne {a c : Bytes} (h : r.Rivals o a c) (hne : a ≠ c) :
    r.Kept o a ∧ r.Kept o c := by
  have hboth : a = c ∨ r.Kept o a ∧ r.Kept o c := by
    clear hne
    induction h with
    | rel a c hjoins => exact .inr ⟨hjoins.1, hjoins.2.1⟩
    | refl a => exact .inl rfl
    | symm a c _ ih => exact ih.imp Eq.symm And.symm
    | trans a c d _ _ ihac ihcd =>
      rcases ihac with rfl | hac
      · exact ihcd
      · rcases ihcd with rfl | hcd
        · exact .inr hac
        · exact .inr ⟨hac.1, hcd.2⟩
  exact hboth.resolve_left hne

/-- What pruning has to leave of the exclusion groups of another revision: it splits none of them,
and what is left of a group that a mandate is about holds several rules that it is about. -/
structure Seamless (r r' : Revision) (o : CompilerOptions) : Prop where
  groups : ∀ a c, r.Kept o a → r.Kept o c → r'.Rivals o a c → r.Rivals o a c
  mandates : ∀ rail ∈ r.guardrails, rail.mode = .mandateDefault → ∀ a c, r'.Rivals o a c → a ≠ c →
    rail.IsAbout (r'.Rivals o a) →
      ∃ d f, r'.Rivals o a d ∧ r.Rivals o d f ∧ d ≠ f ∧ rail.IsAbout (r.Rivals o d)

/-! ## Kept leaves -/

/-- The exclusions between kept leaves. -/
def exclusions (r : Revision) (o : CompilerOptions) : List (Bytes × Bytes) :=
  ((r.keptGraph o).edges.filter (·.kind == .excludes)).map fun e => (e.source, e.target)

/-- Rivals are what the exclusions between kept leaves connect. -/
theorem Passed.rivals_eq (h : r.Passed o b) :
    r.Rivals o = EqvGen fun a c => (a, c) ∈ r.exclusions o := by
  have hexcludes : (r.keptGraph o).Excludes = fun a c => (a, c) ∈ r.exclusions o := by
    funext a c
    unfold exclusions FlatGraph.Excludes
    simp only [List.mem_map, List.mem_filter, beq_iff_eq, Prod.mk.injEq, and_assoc]
  funext a c
  rw [← hexcludes]
  exact propext h.rivals_iff

/-- The kept leaves of a revision in which an expression is recognised to be always false are what
is left where another one is in its place that is never true. -/
theorem Checked.thins_keptGraph (h : r.Checked) (o : CompilerOptions)
    (hfolds : ∃ n ∈ r.nodes, n.id = x ∧ n.condition.FoldsToFalse) (hnever : NeverTrue source) :
    (r.keptGraph o).Thins ((r.withExpression x source).keptGraph o) := by
  have hg := NormalGraph.stands_ofRevision h.normal
  have hall := h.portrays
  obtain ⟨n, hn, rfl, hfolds⟩ := hfolds
  have hdims := NormalGraph.forall₂_dims (hg.foldsToFalse hn hfolds) hnever
  have hedges := NormalGraph.withExpression_expandedEdges n.id source (NormalGraph.ofRevision r).1
  unfold keptGraph
  rw [NormalGraph.ofRevision_withExpression]
  exact FlatGraph.thins_without hdims hedges.symm hall.nodup hall.ends fun e he hsome =>
    (h.depicts o).apart e.kind _ _ hsome ((hall.edges e).1 he)

namespace Seamless

theorem joint (h : r.Seamless r' o) (hb : r.Passed o b) (hb' : r'.Passed o b') :
    (r.keptGraph o).Joint (r'.keptGraph o) := fun a ha c hc hrivals =>
  hb.rivals_iff.1 (h.groups a c ((hb.depicts.kept a).1 ha) ((hb.depicts.kept c).1 hc)
    (hb'.rivals_iff.2 hrivals))

/-- A mandate that is about a contest is about enough that is left of it. -/
theorem mandates_left (h : r.Seamless r' o) (hb : r.Passed o b) (hb' : r'.Passed o b')
    (hthins : (r.keptGraph o).Thins (r'.keptGraph o)) {g : PlanGuardrail} (hg : g ∈ b.guardrails)
    (hmode : g.mode = .mandateDefault) {c : Contest} (hc : c ∈ r'.contests o)
    (hseveral : 1 < c.members.length) (hnames : g.names (c.members.map (·.id)) = true) :
    1 < ((r.keptGraph o).left c).length ∧
      g.names (((r.keptGraph o).left c).map (·.id)) = true := by
  obtain ⟨rail, hrail, henforced⟩ := forall₂_of_mem_left hb.plans.2.flip hg
  obtain ⟨n, m, hn, hm, hne⟩ : ∃ n m, n ∈ c.members ∧ m ∈ c.members ∧ n.id ≠ m.id := by
    have hnodup := hb'.arranges.nodup_rules hb'.tidy hc
    match hmembers : c.members with
    | [] => simp [hmembers] at hseveral
    | [_] => simp [hmembers] at hseveral
    | n :: m :: _ =>
      rw [hmembers, List.map_cons, List.map_cons, List.nodup_cons] at hnodup
      exact ⟨n, m, by simp, by simp, fun hsame => hnodup.1 (hsame ▸ List.mem_cons_self ..)⟩
  have hrival : ∀ {y}, y ∈ c.members → r'.Rivals o n.id y.id := fun hy =>
    hb'.rivals_iff.2 ((hb'.arranges.rivals c hc n hn _).1 hy).2
  have hkept' : r'.Kept o n.id := (kept_of_rivals_ne (hrival hm) hne).1
  have hleft : ∀ {id}, r'.Rivals o n.id id → r.Kept o id →
      id ∈ ((r.keptGraph o).left c).map (·.id) := by
    intro id hid hkept
    have hmem := (hb'.depicts.kept id).2 ((kept_of_rivals hid).1 hkept')
    obtain ⟨y, hy, rfl⟩ := (hb'.arranges.has_iff hc hn hmem).2 (hb'.rivals_iff.1 hid)
    exact List.mem_map_of_mem (FlatGraph.mem_left.2 ⟨hy, (hb.depicts.kept _).2 hkept⟩)
  have habout : rail.IsAbout (r'.Rivals o n.id) := by
    refine (henforced.names_iff.1 hnames).imp_right fun ⟨id, hid, hmem⟩ => ⟨id, hid, ?_⟩
    obtain ⟨y, hy, rfl⟩ := List.mem_map.1 hmem
    exact hrival hy
  obtain ⟨d, f, hd, hdf, hdistinct, habout⟩ := h.mandates rail hrail
    (henforced.mode.symm.trans hmode) n.id m.id (hrival hm) hne habout
  have hkept := kept_of_rivals_ne hdf hdistinct
  have hgroup : ∀ {id}, r.Rivals o d id → id ∈ ((r.keptGraph o).left c).map (·.id) := fun hid =>
    hleft (.trans _ _ _ hd (hb'.rivals_iff.2 (hthins.excludes (hb.rivals_iff.1 hid))))
      ((kept_of_rivals hid).1 hkept.1)
  refine ⟨?_, henforced.names_iff.2 (habout.imp_right fun ⟨id, hid, hmem⟩ =>
    ⟨id, hid, hgroup hmem⟩)⟩
  have hpair : [d, f].Subperm (((r.keptGraph o).left c).map (·.id)) := by
    refine List.subperm_of_subset (by simpa using hdistinct) fun id hid => ?_
    rcases List.mem_pair.1 hid with rfl | rfl
    · exact hgroup (.refl _)
    · exact hgroup hdf
  exact hpair.length_le.trans_eq (List.length_map _)

end Seamless

/-! ## Runs -/

/-- What a plan is run on depends on its catalog only. -/
theorem Passed.situation_eq (h : r.Passed o b) (attributes inputs : AttributeSet) (verbose : Bool)
    (comparators : Comparators) :
    Situation.ofAttributes b (b.catalog.maskOf attributes) attributes inputs verbose comparators
      false = (r.context o).situation b attributes inputs verbose comparators := by
  have hcatalog : b.catalog = (r.context o).catalog := by
    rw [h.emitted]
    rfl
  rw [hcatalog]

/-- **Pruning does not show.**  Let an expression of a revision be recognised to be always false,
and let another one be in its place that is never true.  If both revisions are compiled, and pruning
is seamless, then the two plans can be run on all attributes and inputs, each with the mask by its
own catalog, and come to the same decisions up to their order and their steps. -/
theorem perm_decisions_withExpression (h : (r.compile o).blueprint = some b)
    (h' : ((r.withExpression x source).compile o).blueprint = some b')
    (hfolds : ∃ n ∈ r.nodes, n.id = x ∧ n.condition.FoldsToFalse) (hnever : NeverTrue source)
    (hseamless : r.Seamless (r.withExpression x source) o) (hsize : b.FullyAddressable)
    (hsize' : b'.FullyAddressable) (attributes inputs : AttributeSet) (verbose : Bool)
    {comparators : Comparators} (himpartial : comparators.Impartial) :
    ∃ y y', (Situation.ofAttributes b (b.catalog.maskOf attributes) attributes inputs verbose
        comparators false).run = .ok y ∧
      (Situation.ofAttributes b' (b'.catalog.maskOf attributes) attributes inputs verbose
        comparators false).run = .ok y' ∧
      (y.decisions.map Decision.unplaced).Perm (y'.decisions.map Decision.unplaced) := by
  have hpassed := passed_of_compile h
  have hpassed' := passed_of_compile h'
  have hplan := hpassed.carriesOut hsize.toAddressable
  have hplan' := hpassed'.carriesOut hsize'.toAddressable
  have hthins := hpassed.checked.thins_keptGraph o hfolds hnever
  obtain ⟨p, y, hstage, hrun, hdecisions⟩ :=
    hplan.exists_run_unplaced attributes inputs verbose comparators
  obtain ⟨p', y', hstage', hrun', hdecisions'⟩ :=
    hplan'.exists_run_unplaced attributes inputs verbose comparators
  rw [← hpassed.situation_eq] at hrun
  rw [← hpassed'.situation_eq] at hrun'
  refine ⟨y, y', hrun, hrun', hdecisions.trans (.trans ?_ hdecisions'.symm)⟩
  have hsettled : ∀ c ∈ r.contests o, c.Settled (r.keptGraph o) ⟨attributes, inputs, .empty, []⟩
      (r.beats comparators) ((r.context o).Fired p.fired) := fun c hc => by
    obtain ⟨beats, hbeats, hsettled⟩ := hstage.settled c hc
    exact hbeats himpartial ▸ hsettled
  have hsettled' : ∀ c ∈ (r.withExpression x source).contests o,
      c.Settled ((r.withExpression x source).keptGraph o) ⟨attributes, inputs, .empty, []⟩
        (r.beats comparators) (((r.withExpression x source).context o).Fired p'.fired) :=
    fun c hc => by
      obtain ⟨beats, hbeats, hsettled⟩ := hstage'.settled c hc
      exact hbeats himpartial ▸ hsettled
  have hrails := forall₂_join hpassed.plans.2 hpassed'.plans.2
    fun rail _ g hg g' hg' hrail hrail' => hrail.matches hrail' hsize.symbols hsize'.symbols
      (hsize.violations g hg) (hsize'.violations g' hg') attributes inputs p.fired p'.fired
  exact hthins.perm_comesTo hpassed.tidy hpassed'.tidy (hseamless.joint hpassed hpassed')
    hpassed.arranges hpassed'.arranges (FlatGraph.declares_contests hpassed.ordered)
    (FlatGraph.declares_contests hpassed'.ordered) (hplan'.honest hstage') hsettled
    hsettled' hrails rfl fun c hc hseveral g hg hmode hnames =>
      hseamless.mandates_left hpassed hpassed' hthins hg hmode hc hseveral hnames

/-! ## Offers with a card -/

/-- An expression that is true in no context, which folding cannot tell. -/
def impossible : Bytes := utf8 "has(k) && !has(k)"

theorem neverTrue_impossible : NeverTrue impossible := by
  refine ⟨.binary 7 .and (.present 0 ⟨4, .context, utf8 "k"⟩)
    (.unary 10 .not (.present 11 ⟨15, .context, utf8 "k"⟩)), by cbv, fun e hvalue => ?_⟩
  have hlookup : e.lookup ⟨15, .context, utf8 "k"⟩ = e.lookup ⟨4, .context, utf8 "k"⟩ := rfl
  simp only [Expr.value, BinaryOp.decidedBy?, hlookup] at hvalue
  cases hnull : (e.lookup ⟨4, .context, utf8 "k"⟩).isNull <;> rw [hnull] at hvalue <;>
    simp [UnaryOp.apply, Operation.toBool, bind, Except.bind, pure, Except.pure] at hvalue

/-- An action of a rule graph. -/
def offer (id : Bytes) (labels : List Bytes) (expression : Bytes) : Node :=
  ⟨id, [], 0, .zero, .action ⟨labels, expression⟩ ⟨id, .empty⟩⟩

/-- Offers to customers: a card that is never given, and others.  Some of them exclude each
other. -/
def offers (others : List Node) (excluded : List (Bytes × Bytes)) (rails : List Guardrail) :
    Revision where
  graph := utf8 "offers"
  version := 1
  tenant := []
  decisionType := []
  catalog := .empty
  nodes := ⟨utf8 "in", [], 0, .zero, .decision ⟨[], []⟩⟩ :: offer (utf8 "card") [] (utf8 "1 > 2") ::
    others
  edges := ⟨utf8 "in", .flowsTo, utf8 "card"⟩ ::
    (others.map fun n => ⟨utf8 "in", .flowsTo, n.id⟩) ++
    excluded.map fun p => ⟨p.1, .excludes, p.2⟩
  policy := .highestPriority
  comparator := []
  guardrails := rails

/-- The offers with an impossible expression at the card. -/
abbrev hidden (r : Revision) : Revision := r.withExpression (utf8 "card") impossible

theorem foldsToFalse_card (h : offer (utf8 "card") [] (utf8 "1 > 2") ∈ r.nodes) :
    ∃ n ∈ r.nodes, n.id = utf8 "card" ∧ n.condition.FoldsToFalse := by
  refine ⟨_, h, rfl, ⟨utf8 "1 > 2", .binary 2 .gt (.literal 0 (.int 1)) (.literal 4 (.int 2))⟩,
    ?_, ?_⟩ <;> cbv

/-- A customer for whom a choice comes to nothing is called. -/
def care : Guardrail :=
  ⟨utf8 "care", [], .mandateDefault, [], [], .deny, [], .null, ⟨utf8 "call", .empty⟩⟩

/-- The actions that a revision decides, if it is accepted and its plan runs to its end. -/
def actions? (r : Revision) (attributes : AttributeSet) (comparators : Comparators) :
    Option (List Bytes) :=
  if r.accepted .standard then
    (Situation.ofAttributes (r.planned .standard) (r.catalog.maskOf attributes) attributes .empty
      false comparators false).run.toOption.map fun y => y.decisions.map (·.action)
  else none

/-- The card excludes the gift, and the gift excludes giving nothing. -/
def row : Revision :=
  { offers [offer (utf8 "gift") [] [], offer (utf8 "none") [] []]
      [(utf8 "card", utf8 "gift"), (utf8 "gift", utf8 "none")] [care] with
    policy := .custom
    comparator := utf8 "even" }

/-- A comparator that looks at the numbers of nodes: even ones win. -/
def even : Comparators := ⟨[(utf8 "even", fun a b => decide (a.node % 2 < b.node % 2))]⟩

/-- What a revision decides can be told from its draft. -/
theorem actions?_of_draft {attributes : AttributeSet} {comparators : Comparators} (size : Bool)
    {actions : List Bytes}
    (h : ∀ bytes hash, (r.accepted .standard,
      decide ((r.draft .standard).resealed bytes hash).FullyAddressable,
      (Situation.ofAttributes ((r.draft .standard).resealed bytes hash)
        (r.catalog.maskOf attributes) attributes .empty false comparators
        false).run.toOption.map fun y => y.decisions.map (·.action)) = (true, size, some actions)) :
    (decide (r.planned .standard).FullyAddressable, r.actions? attributes comparators) =
      (size, some actions) := by
  have hplanned := planned_of_draft (P := fun b => (r.accepted .standard,
    decide b.FullyAddressable, (Situation.ofAttributes b (r.catalog.maskOf attributes) attributes
      .empty false comparators false).run.toOption.map fun y => y.decisions.map (·.action)) =
        (true, size, some actions)) h
  obtain ⟨haccepted, hdecided⟩ := Prod.mk.inj hplanned
  obtain ⟨hsize, hactions⟩ := Prod.mk.inj hdecided
  unfold actions?
  rw [if_pos haccepted, hsize, hactions]

set_option maxRecDepth 100000 in
theorem actions?_row : (decide (row.planned .standard).FullyAddressable,
    row.actions? .empty even) = (true, some [utf8 "none"]) :=
  actions?_of_draft _ fun _ _ => by cbv

set_option maxRecDepth 100000 in
theorem actions?_hidden_row : (decide (row.hidden.planned .standard).FullyAddressable,
    row.hidden.actions? .empty even) = (true, some [utf8 "gift"]) :=
  actions?_of_draft _ fun _ _ => by cbv

theorem exists_run_of_actions? {attributes : AttributeSet} {comparators : Comparators}
    {actions : List Bytes} (h : r.actions? attributes comparators = some actions) :
    (r.compile .standard).blueprint = some (r.planned .standard) ∧
    ∃ y, (Situation.ofAttributes (r.planned .standard)
        ((r.planned .standard).catalog.maskOf attributes) attributes .empty false comparators
        false).run = .ok y ∧ (y.decisions.map Decision.unplaced).map (·.action) = actions := by
  have hcatalog : (r.planned .standard).catalog = r.catalog := rfl
  unfold actions? at h
  split at h
  · rename_i haccepted
    obtain ⟨y, hy, rfl⟩ := Option.map_eq_some_iff.1 h
    refine ⟨compile_of_accepted rfl haccepted, y, ?_, by rw [List.map_map]; rfl⟩
    rw [hcatalog]
    generalize (Situation.ofAttributes _ _ _ _ _ _ _).run = run at hy ⊢
    cases run with
    | error e => cases hy
    | ok x => exact congrArg Except.ok (Option.some.inj hy)
  · cases h

set_option maxRecDepth 100000 in
/-- Without the card there is still a choice between the gift and nothing. -/
theorem seamless_row (h : row.Passed .standard b) (h' : row.hidden.Passed .standard b') :
    row.Seamless row.hidden .standard := by
  have hkept : ((row.keptGraph .standard).ids, row.exclusions .standard) =
      ([utf8 "gift", utf8 "in", utf8 "none"], [(utf8 "gift", utf8 "none")]) := by cbv
  have hkept' : ((row.hidden.keptGraph .standard).ids, row.hidden.exclusions .standard) =
      ([utf8 "card", utf8 "gift", utf8 "in", utf8 "none"],
        [(utf8 "card", utf8 "gift"), (utf8 "gift", utf8 "none")]) := by cbv
  obtain ⟨hids, hexclusions⟩ := Prod.mk.inj hkept
  obtain ⟨hids', hexclusions'⟩ := Prod.mk.inj hkept'
  have hrivals : row.Rivals .standard (utf8 "gift") (utf8 "none") := by
    rw [h.rivals_eq, hexclusions]
    exact .rel _ _ (by simp)
  have hgroup : ∀ a, row.Kept .standard a →
      a = utf8 "in" ∨ row.Rivals .standard (utf8 "gift") a := by
    intro a ha
    change a ∈ (row.keptGraph .standard).ids at ha
    simp only [hids, List.mem_cons, List.not_mem_nil, or_false] at ha
    rcases ha with rfl | rfl | rfl
    · exact .inr (.refl _)
    · exact .inl rfl
    · exact .inr hrivals
  have hgroup' : ∀ a, row.hidden.Kept .standard a →
      a = utf8 "in" ∨ row.hidden.Rivals .standard (utf8 "gift") a := by
    intro a ha
    change a ∈ (row.hidden.keptGraph .standard).ids at ha
    simp only [hids', List.mem_cons, List.not_mem_nil, or_false] at ha
    rw [h'.rivals_eq, hexclusions']
    rcases ha with rfl | rfl | rfl | rfl
    · exact .inr (.symm _ _ (.rel _ _ (by simp)))
    · exact .inr (.refl _)
    · exact .inl rfl
    · exact .inr (.rel _ _ (by simp))
  -- The entry excludes nothing, so it is the only rival of itself.
  have hentry : ∀ {a c}, row.hidden.Rivals .standard a c → (a = utf8 "in" ↔ c = utf8 "in") := by
    intro a c hac
    rw [h'.rivals_eq, hexclusions'] at hac
    refine (Equivalence.eqvGen_iff ⟨Iff.refl, Iff.symm, Iff.trans⟩).1
      (eqvGen_map (f := fun id => id = utf8 "in") (fun a c hac => ?_) hac)
    simp only [List.mem_cons, Prod.mk.injEq, List.not_mem_nil, or_false] at hac
    rcases hac with ⟨rfl, rfl⟩ | ⟨rfl, rfl⟩ <;> decide
  refine ⟨fun a c ha hc hac => ?_, fun rail hrail _ a c hac hne _ => ?_⟩
  · rcases hgroup a ha with rfl | ha
    · rw [(hentry hac).1 rfl]
      exact .refl _
    · rcases hgroup c hc with rfl | hc
      · rw [(hentry hac).2 rfl]
        exact .refl _
      · exact .trans _ _ _ (.symm _ _ ha) hc
  · rcases hgroup' a (kept_of_rivals_ne hac hne).1 with rfl | ha
    · exact absurd ((hentry hac).1 rfl).symm hne
    · refine ⟨utf8 "gift", utf8 "none", .symm _ _ ha, hrivals, by decide, .inl ?_⟩
      rw [List.mem_singleton.1 hrail]
      rfl

set_option maxRecDepth 100000 in
theorem perm_decisions_withExpression_row : ∃ b b',
    (row.compile .standard).blueprint = some b ∧
    (row.hidden.compile .standard).blueprint = some b' ∧
    (∃ n ∈ row.nodes, n.id = utf8 "card" ∧ n.condition.FoldsToFalse) ∧ NeverTrue impossible ∧
    row.Seamless row.hidden .standard ∧ b.FullyAddressable ∧ b'.FullyAddressable ∧
    Comparators.empty.Impartial ∧
    ∃ y y', (Situation.ofAttributes b (b.catalog.maskOf .empty) .empty .empty false .empty
        false).run = .ok y ∧
      (Situation.ofAttributes b' (b'.catalog.maskOf .empty) .empty .empty false .empty
        false).run = .ok y' ∧
      (y.decisions.map Decision.unplaced).Perm (y'.decisions.map Decision.unplaced) := by
  obtain ⟨hsize, hactions⟩ := Prod.mk.inj actions?_row
  obtain ⟨hsize', hactions'⟩ := Prod.mk.inj actions?_hidden_row
  have hb := (exists_run_of_actions? hactions).1
  have hb' := (exists_run_of_actions? hactions').1
  have hsize := of_decide_eq_true hsize
  have hsize' := of_decide_eq_true hsize'
  have hfolds : ∃ n ∈ row.nodes, n.id = utf8 "card" ∧ n.condition.FoldsToFalse :=
    foldsToFalse_card (.tail _ (.head _))
  have hseamless := seamless_row (passed_of_compile hb) (passed_of_compile hb')
  exact ⟨_, _, hb, hb', hfolds, neverTrue_impossible, hseamless, hsize, hsize',
    Comparators.impartial_empty, perm_decisions_withExpression hb hb' hfolds neverTrue_impossible
      hseamless hsize hsize' .empty .empty false Comparators.impartial_empty⟩

/-! ## Where pruning shows -/

/-- Pruning shows: the expression of the card is recognised to be always false, and where an
impossible one is in its place, the plan decides something else. -/
def Shows (r : Revision) (attributes : AttributeSet) (comparators : Comparators) : Prop :=
  (∃ n ∈ r.nodes, n.id = utf8 "card" ∧ n.condition.FoldsToFalse) ∧ NeverTrue impossible ∧
  ∃ b b' y y', (r.compile .standard).blueprint = some b ∧
    (r.hidden.compile .standard).blueprint = some b' ∧
    (Situation.ofAttributes b (b.catalog.maskOf attributes) attributes .empty false comparators
      false).run = .ok y ∧
    (Situation.ofAttributes b' (b'.catalog.maskOf attributes) attributes .empty false comparators
      false).run = .ok y' ∧
    ¬(y.decisions.map Decision.unplaced).Perm (y'.decisions.map Decision.unplaced)

theorem shows_of_actions {attributes : AttributeSet} {comparators : Comparators}
    {actions actions' : List Bytes} (hcard : offer (utf8 "card") [] (utf8 "1 > 2") ∈ r.nodes)
    (h : r.actions? attributes comparators = some actions)
    (h' : r.hidden.actions? attributes comparators = some actions')
    (hne : ¬actions.Perm actions') : r.Shows attributes comparators := by
  obtain ⟨hb, y, hy, rfl⟩ := exists_run_of_actions? h
  obtain ⟨hb', y', hy', rfl⟩ := exists_run_of_actions? h'
  exact ⟨foldsToFalse_card hcard, neverTrue_impossible, _, _, y, y', hb, hb', hy, hy',
    fun hperm => hne (hperm.map _)⟩

/-- The gift and giving nothing exclude each other only by way of the card. -/
def bridge : Revision := offers [offer (utf8 "gift") [] [], offer (utf8 "none") [] []]
  [(utf8 "gift", utf8 "card"), (utf8 "card", utf8 "none")] []

/-- Loyal customers have a choice between the card and a gift. -/
def pair : Revision := offers [offer (utf8 "gift") [utf8 "loyal"] []]
  [(utf8 "card", utf8 "gift")] [care]

set_option maxRecDepth 100000 in
theorem actions?_bridge : bridge.actions? .empty .empty = some [utf8 "gift", utf8 "none"] :=
  (Prod.mk.inj (actions?_of_draft true fun _ _ => by cbv)).2

set_option maxRecDepth 100000 in
theorem actions?_hidden_bridge : bridge.hidden.actions? .empty .empty = some [utf8 "gift"] :=
  (Prod.mk.inj (actions?_of_draft true fun _ _ => by cbv)).2

set_option maxRecDepth 100000 in
theorem actions?_pair : pair.actions? .empty .empty = some [] :=
  (Prod.mk.inj (actions?_of_draft true fun _ _ => by cbv)).2

set_option maxRecDepth 100000 in
theorem actions?_hidden_pair : pair.hidden.actions? .empty .empty = some [utf8 "call"] :=
  (Prod.mk.inj (actions?_of_draft true fun _ _ => by cbv)).2

/-- **Pruning may show.**  Without the card both the gift and nothing are given where those exclude
each other by way of the card; nobody is called where there is nothing to choose from; and other
offers are given where a comparator looks at the numbers of nodes. -/
theorem pruning_shows : bridge.Shows .empty .empty ∧ pair.Shows .empty .empty ∧
    row.Shows .empty even := by
  refine ⟨?_, ?_, ?_⟩
  · exact shows_of_actions (.tail _ (.head _)) actions?_bridge actions?_hidden_bridge (by decide)
  · exact shows_of_actions (.tail _ (.head _)) actions?_pair actions?_hidden_pair (by decide)
  · exact shows_of_actions (.tail _ (.head _)) (Prod.mk.inj actions?_row).2
      (Prod.mk.inj actions?_hidden_row).2 (by decide)

end Revision
end DecisionEngine
