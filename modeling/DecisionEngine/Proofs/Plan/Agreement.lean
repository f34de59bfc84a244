import DecisionEngine.Proofs.Plan.Guardrails
import DecisionEngine.Proofs.Plan.Ranking
import DecisionEngine.Proofs.Plan.Steps
/-!
# Plans whose guards agree

What a run comes to depends on its guards only through whether they pass and whether they fault.
Two plans with the same steps, whose guards and guardrails agree in that, come to the same decisions
and alternatives, and the same guards fault; it does not matter what is tested by masks and what by
programs.

* `Situation.SameVerdict` — guards that agree.
* `Situation.Matches` — situations that agree but for their guards.
* `Progress.Alike` — how far two runs have come, as far as decisions can tell.
* `Situation.agree_run` — runs of plans that agree, agree.
-/

namespace DecisionEngine

/-! ## Guards -/

/-- The steps and nodes of the guards that faulted. -/
def Trail.guardFaults (t : Trail) : List (Option Nat × Bytes) :=
  (t.filter (·.kind == .guardFault)).map fun e => (e.step, e.node)

@[simp] theorem Trail.guardFaults_nil : Trail.guardFaults [] = [] := rfl

@[simp] theorem Trail.guardFaults_append (t u : Trail) :
    Trail.guardFaults (t ++ u) = t.guardFaults ++ u.guardFaults := by
  unfold guardFaults
  rw [List.filter_append, List.map_append]

namespace Situation

variable {s s' : Situation}

/-- A guard faults: its mask is covered, and its program faults. -/
def Faults (s : Situation) (fired : List Bool) (g : Guard) : Prop :=
  s.mask.covers g.mask = true ∧ ∃ fault, g.program.run (s.env fired) = .error fault

theorem result_testGuard_faulted (fired : List Bool) (step : Nat) (node : Bytes) (g : Guard) :
    (s.testGuard fired step node g).result = .faulted ↔ s.Faults fired g := by
  unfold testGuard Faults
  dsimp only
  by_cases hcovers : s.mask.covers g.mask = true
  · rw [if_pos hcovers]
    cases hrun : g.program.run (s.env fired) with
    | error fault => simp [hcovers]
    | ok b => cases b <;> simp
  · rw [if_neg hcovers]
    simp [hcovers]

/-- A test leaves a fault in the trail exactly if the guard faults. -/
theorem guardFaults_testGuard (fired : List Bool) (step : Nat) (node : Bytes) (g : Guard) :
    (s.testGuard fired step node g).trail.guardFaults =
      if (s.testGuard fired step node g).result = .faulted then [(some step, node)] else [] := by
  have hquiet : ∀ e : TrailEntry, e.kind ≠ .guardFault →
      Trail.guardFaults (s.verbosely e) = [] := by
    intro e he
    unfold verbosely
    split
    · simp [Trail.guardFaults, he]
    · rfl
  unfold testGuard
  dsimp only
  split
  · split
    · exact hquiet _ (by simp)
    · exact hquiet _ (by simp)
    · rfl
  · exact hquiet _ (by simp)

/-- Two guards pass and fault on the same occasions. -/
structure SameVerdict (s s' : Situation) (g g' : Guard) : Prop where
  passes : ∀ fired, fired.length = s.blueprint.nodes.length →
    (s.Passes fired g ↔ s'.Passes fired g')
  faults : ∀ fired, fired.length = s.blueprint.nodes.length →
    (s.Faults fired g ↔ s'.Faults fired g')

/-- Two situations have the same nodes, and comparators that look at nothing but what rules say. -/
structure Matches (s s' : Situation) : Prop where
  nodes : s.blueprint.nodes = s'.blueprint.nodes
  comparators : s.comparators = s'.comparators
  impartial : s.comparators.Impartial
  expired : s.expired = s'.expired

end Situation

/-! ## Progress -/

/-- Two runs have come equally far, as far as decisions can tell. -/
structure Progress.Alike (size : Nat) (p p' : Progress) : Prop where
  size : p.fired.length = size
  fired : p.fired = p'.fired
  decisions : p.decisions = p'.decisions
  alternatives : p.alternatives = p'.alternatives
  unresolved : p.unresolved = p'.unresolved
  faults : p.trail.guardFaults = p'.trail.guardFaults

namespace Progress.Alike

variable {size : Nat} {p p' : Progress}

theorem fire (h : Progress.Alike size p p') (node : Nat) :
    Progress.Alike size (p.fire node) (p'.fire node) :=
  ⟨List.length_set.trans h.size, congrArg (·.set node true) h.fired, h.decisions, h.alternatives,
    h.unresolved, h.faults⟩

theorem decided (h : Progress.Alike size p p') (d : Decision) :
    Progress.Alike size (p.decided d) (p'.decided d) :=
  ⟨h.size, h.fired, congrArg (· ++ [d]) h.decisions, h.alternatives, h.unresolved, h.faults⟩

theorem noted (h : Progress.Alike size p p') (t t' : Trail)
    (ht : t.guardFaults = t'.guardFaults) :
    Progress.Alike size (p.noted t) (p'.noted t') := by
  refine ⟨h.size, h.fired, h.decisions, h.alternatives, h.unresolved, ?_⟩
  rw [Progress.noted, Progress.noted, Trail.guardFaults_append, Trail.guardFaults_append, h.faults,
    ht]

theorem passedOver (h : Progress.Alike size p p') (more : List Alternative) :
    Progress.Alike size { p with alternatives := p.alternatives ++ more }
      { p' with alternatives := p'.alternatives ++ more } :=
  ⟨h.size, h.fired, h.decisions, congrArg (· ++ more) h.alternatives, h.unresolved, h.faults⟩

end Progress.Alike

namespace Situation

variable {s s' : Situation} {p p' : Progress}

/-- Guards with the same verdict are tested alike. -/
theorem agree_testGuard (hp : Progress.Alike s.blueprint.nodes.length p p') {g g' : Guard}
    (hg : s.SameVerdict s' g g') (step : Nat) (node : Bytes) :
    ((s.testGuard p.fired step node g).result = .passed ↔
      (s'.testGuard p'.fired step node g').result = .passed) ∧
    Progress.Alike s.blueprint.nodes.length (afterTest p (s.testGuard p.fired step node g))
      (afterTest p' (s'.testGuard p'.fired step node g')) := by
  rw [← hp.fired]
  refine ⟨?_, hp.size, hp.fired, hp.decisions, hp.alternatives, hp.unresolved, ?_⟩
  · rw [result_testGuard, result_testGuard, hg.passes p.fired hp.size]
  · have hfaulted : (s.testGuard p.fired step node g).result = .faulted ↔
        (s'.testGuard p.fired step node g').result = .faulted := by
      rw [result_testGuard_faulted, result_testGuard_faulted, hg.faults p.fired hp.size]
    simp only [afterTest, Trail.guardFaults_append, hp.faults, guardFaults_testGuard, hfaulted]

theorem Matches.planNode (h : s.Matches s') (node : Nat) : s.planNode node = s'.planNode node := by
  unfold Situation.planNode
  rw [h.nodes]

/-! ## Steps -/

theorem agree_runSequential (h : s.Matches s')
    (hp : Progress.Alike s.blueprint.nodes.length p p') {g g' : Guard}
    (hg : s.SameVerdict s' g g') (index node : Nat) :
    Agree (Progress.Alike s.blueprint.nodes.length) (s.runSequential index node g p)
      (s'.runSequential index node g' p') := by
  unfold runSequential
  rw [h.planNode]
  refine (Agree.refl (s'.planNode node)).bind ?_
  rintro n _ rfl
  obtain ⟨hresult, hafter⟩ := agree_testGuard hp hg index n.id
  exact .ite hresult (.ok ((hafter.fire node).noted _ _ rfl)) (.ok hafter)

theorem agree_runTask (h : s.Matches s')
    (hp : Progress.Alike s.blueprint.nodes.length p p') {g g' : Guard}
    (hg : s.SameVerdict s' g g') (index node : Nat) (o : Outcome) :
    Agree (Progress.Alike s.blueprint.nodes.length) (s.runTask index node g o p)
      (s'.runTask index node g' o p') := by
  unfold runTask
  rw [h.planNode]
  refine (Agree.refl (s'.planNode node)).bind ?_
  rintro n _ rfl
  obtain ⟨hresult, hafter⟩ := agree_testGuard hp hg index n.id
  exact .ite hresult (.ok (((hafter.fire node).decided _).noted _ _ rfl)) (.ok hafter)

/-- Two branches are of the same node and rank alike, and their guards agree. -/
structure BranchesMatch (s s' : Situation) (b b' : Branch) : Prop where
  node : b.node = b'.node
  alike : b.Alike b'
  counted : b.Counted ∧ b'.Counted
  verdict : s.SameVerdict s' b.guard b'.guard

/-- Testing branches that match gives the same candidates. -/
theorem agree_testBranches (h : s.Matches s') (index : Nat) {bs bs' : List (Branch × Nat)}
    (hbs : List.Forall₂ (fun b b' => s.BranchesMatch s' b.1 b'.1 ∧ b.2 = b'.2) bs bs')
    (hp : Progress.Alike s.blueprint.nodes.length p p') :
    Agree (fun x x' => x.1 = x'.1 ∧ Progress.Alike s.blueprint.nodes.length x.2 x'.2)
      (s.testBranches index bs p) (s'.testBranches index bs' p') := by
  induction hbs generalizing p p' with
  | nil => exact .ok ⟨rfl, hp⟩
  | @cons x x' bs bs' hx _ ih =>
    obtain ⟨b, place⟩ := x
    obtain ⟨b', place'⟩ := x'
    obtain ⟨hb, rfl⟩ := hx
    rw [testBranches, testBranches, h.planNode, hb.node]
    refine (Agree.refl (s'.planNode b'.node)).bind ?_
    rintro n _ rfl
    obtain ⟨hresult, hafter⟩ := agree_testGuard hp hb.verdict index n.id
    have hnoted := hafter.noted (s.verbosely ⟨.candidate, some index, n.id, b.guard.mask,
        utf8 "priority " ++ Bytes.signedDecimal b.priority.toInt⟩)
      (s'.verbosely ⟨.candidate, some index, n.id, b'.guard.mask,
        utf8 "priority " ++ Bytes.signedDecimal b'.priority.toInt⟩) (by
          unfold verbosely
          split <;> split <;> rfl)
    exact .ite hresult ((ih hnoted).bind fun x x' hx => .ok ⟨by rw [hx.1], hx.2⟩) (ih hafter)

/-- Two selectors select alike: they differ in the guards of their branches only. -/
structure SelectorsMatch (s s' : Situation) (sel sel' : Selector) : Prop where
  group : sel.group = sel'.group
  policy : sel.policy = sel'.policy
  comparator : sel.comparator = sel'.comparator
  dominates : sel.dominates = sel'.dominates
  branches : List.Forall₂ (s.BranchesMatch s') sel.branches sel'.branches

/-- Candidates at the same places are alike. -/
theorem SelectorsMatch.candidates {sel sel' : Selector} (h : s.SelectorsMatch s' sel sel')
    (nodes : List PlanNode) (places : List Nat) :
    Option.Rel (List.Forall₂ Candidate.Alike) (places.mapM (sel.candidate? nodes))
      (places.mapM (sel'.candidate? nodes)) := by
  induction places with
  | nil => exact .some .nil
  | cons i places ih =>
    have hcandidate : Option.Rel Candidate.Alike (sel.candidate? nodes i)
        (sel'.candidate? nodes i) := by
      have hbranch := getElem?_rel h.branches i
      unfold Selector.candidate?
      generalize sel.branches[i]? = b at hbranch
      generalize sel'.branches[i]? = b' at hbranch
      cases hbranch with
      | none => exact .none
      | @some b b' hb =>
        simp only [Option.bind_eq_bind, Option.bind_some, hb.node]
        cases nodes[b'.node]? with
        | none => exact .none
        | some n => exact .some ⟨rfl, rfl, hb.node, hb.alike, hb.counted⟩
    rw [List.mapM_cons, List.mapM_cons]
    generalize sel.candidate? nodes i = c at hcandidate
    generalize sel'.candidate? nodes i = c' at hcandidate
    generalize places.mapM (sel.candidate? nodes) = cs at ih
    generalize places.mapM (sel'.candidate? nodes) = cs' at ih
    cases hcandidate with
    | none => exact .none
    | some hc =>
      cases ih with
      | none => exact .none
      | some hcs => exact .some (.cons hc hcs)

theorem SelectorsMatch.arbitrate {sel sel' : Selector} (h : s.SelectorsMatch s' sel sel')
    {comparators : Comparators} (himpartial : comparators.Impartial) (nodes : List PlanNode)
    (places : List Nat) :
    sel.arbitrate comparators nodes places = sel'.arbitrate comparators nodes places := by
  have hcandidates := h.candidates nodes places
  unfold Selector.arbitrate
  generalize places.mapM (sel.candidate? nodes) = among at hcandidates
  generalize places.mapM (sel'.candidate? nodes) = among' at hcandidates
  cases hcandidates with
  | none => rfl
  | some hamong =>
    simp only [Selector.settle_congr h.group h.policy h.comparator h.dominates himpartial hamong]

theorem agree_selected (h : s.Matches s') {sel sel' : Selector}
    (hsel : s.SelectorsMatch s' sel sel') (index winner : Nat) (v : Selection)
    (hp : Progress.Alike s.blueprint.nodes.length p p') :
    Agree (Progress.Alike s.blueprint.nodes.length) (s.selected index sel winner v p)
      (s'.selected index sel' winner v p') := by
  have halternative : s.alternativeOf index sel = s'.alternativeOf index sel' := by
    funext l
    have hbranch := getElem?_rel hsel.branches l.branch
    unfold alternativeOf
    generalize sel.branches[l.branch]? = b at hbranch
    generalize sel'.branches[l.branch]? = b' at hbranch
    cases hbranch with
    | none => rfl
    | some hb => simp only [h.planNode, hb.node, actionOf, hb.alike.outcome]
  have hbranch := getElem?_rel hsel.branches winner
  unfold selected
  rw [halternative]
  generalize sel.branches[winner]? = b at hbranch
  generalize sel'.branches[winner]? = b' at hbranch
  cases hbranch with
  | none => exact .error _
  | @some b b' hb =>
    dsimp only
    rw [h.planNode, hb.node, hb.alike.outcome]
    refine (Agree.refl (s'.planNode b'.node)).bind ?_
    rintro n _ rfl
    have hfired := (hp.fire b'.node).noted
      [⟨.arbitration, some index, n.id, b.guard.mask, v.rationale⟩]
      [⟨.arbitration, some index, n.id, b'.guard.mask, v.rationale⟩] rfl
    have halternatives := Agree.refl (v.losers.mapM (s'.alternativeOf index sel'))
    cases b'.outcome with
    | none =>
      refine halternatives.bind ?_
      rintro alternatives _ rfl
      exact .ok (hfired.passedOver alternatives)
    | some o =>
      refine halternatives.bind ?_
      rintro alternatives _ rfl
      exact .ok ((hfired.decided _).passedOver alternatives)

theorem agree_runSelector (h : s.Matches s') {sel sel' : Selector}
    (hsel : s.SelectorsMatch s' sel sel') (index : Nat)
    (hp : Progress.Alike s.blueprint.nodes.length p p') :
    Agree (Progress.Alike s.blueprint.nodes.length) (s.runSelector index sel p)
      (s'.runSelector index sel' p') := by
  have hzip : List.Forall₂ (fun b b' => s.BranchesMatch s' b.1 b'.1 ∧ b.2 = b'.2)
      sel.branches.zipIdx sel'.branches.zipIdx := by
    obtain ⟨hlength, hget⟩ := List.forall₂_iff_get.1 hsel.branches
    refine List.forall₂_iff_get.2 ⟨by simpa using hlength, fun i hi hi' => ?_⟩
    simpa using hget i (by simpa using hi) (by simpa using hi')
  unfold runSelector
  refine (agree_testBranches h index hzip hp).bind ?_
  rintro ⟨places, q⟩ ⟨_, q'⟩ ⟨rfl, hq⟩
  have harbitrate : sel.arbitrate s.comparators s.blueprint.nodes places =
      sel'.arbitrate s'.comparators s'.blueprint.nodes places := by
    rw [h.nodes, ← h.comparators]
    exact hsel.arbitrate h.impartial ..
  dsimp only
  rw [harbitrate]
  refine ((Agree.refl (sel'.arbitrate s'.comparators s'.blueprint.nodes places)).mapError
    RunError.arbitration).bind ?_
  rintro v _ rfl
  cases v.winner with
  | none =>
    refine .ok ⟨hq.size, hq.fired, hq.decisions, hq.alternatives,
      congrArg (· ++ [index]) hq.unresolved, ?_⟩
    simp only [unselected, Progress.noted, Trail.guardFaults_append, hq.faults]
    rfl
  | some winner => exact agree_selected h hsel index winner v hq

/-- Two steps do the same: they differ in their guards only. -/
inductive StepsMatch (s s' : Situation) : Step → Step → Prop
  | sequential {node : Nat} {g g' : Guard} (verdict : s.SameVerdict s' g g') :
      StepsMatch s s' (.sequential node g) (.sequential node g')
  | task {node : Nat} {g g' : Guard} {o : Outcome} (verdict : s.SameVerdict s' g g') :
      StepsMatch s s' (.task node g o) (.task node g' o)
  | selector {sel sel' : Selector} (selectors : s.SelectorsMatch s' sel sel') :
      StepsMatch s s' (.selector sel) (.selector sel')

theorem agree_runStep (h : s.Matches s') {step step' : Step} (hstep : s.StepsMatch s' step step')
    (index : Nat) (hp : Progress.Alike s.blueprint.nodes.length p p') :
    Agree (Progress.Alike s.blueprint.nodes.length) (s.runStep index step p)
      (s'.runStep index step' p') := by
  cases hstep with
  | sequential verdict => exact agree_runSequential h hp verdict ..
  | task verdict => exact agree_runTask h hp verdict ..
  | selector selectors => exact agree_runSelector h selectors index hp

/-- Runs over steps that match agree. -/
theorem agree_runSteps (h : s.Matches s') {steps steps' : List Step}
    (hsteps : List.Forall₂ (s.StepsMatch s') steps steps') (start : Nat)
    (hp : Progress.Alike s.blueprint.nodes.length p p') :
    Agree (Progress.Alike s.blueprint.nodes.length) (s.runSteps (steps.zipIdx start) p)
      (s'.runSteps (steps'.zipIdx start) p') := by
  induction hsteps generalizing start p p' with
  | nil => exact .ok hp
  | cons hstep _ ih =>
    rw [List.zipIdx_cons, List.zipIdx_cons, runSteps, runSteps]
    have htime : s.checkTime .ruleEvaluation = s'.checkTime .ruleEvaluation := by
      unfold checkTime
      rw [h.expired]
    rw [htime]
    refine (Agree.refl (s'.checkTime .ruleEvaluation)).bind fun _ _ _ => ?_
    exact (agree_runStep h hstep start hp).bind fun q q' hq => ih (start + 1) hq

end Situation

/-! ## Guardrails -/

namespace PlanGuardrail

variable {g g' : PlanGuardrail} {env env' : Program.Env}

/-- Two guardrails say the same, and their programs come to the same on every outcome. -/
structure Matches (env env' : Program.Env) (g g' : PlanGuardrail) : Prop where
  id : g.id = g'.id
  mode : g.mode = g'.mode
  appliesTo : g.appliesTo = g'.appliesTo
  fallback : g.fallback = g'.fallback
  capParam : g.capParam = g'.capParam
  capValue : g.capValue = g'.capValue
  defaultOutcome : g.defaultOutcome = g'.defaultOutcome
  answer : ∀ params, (g.violation.run { env with outcome := params }).mapError (·.cause) =
    (g'.violation.run { env' with outcome := params }).mapError (·.cause)

theorem guardFaults_applyFallback (g : PlanGuardrail) (d : Decision) (cause : Bytes) :
    Trail.guardFaults (g.applyFallback d cause).trail = [] := by
  unfold applyFallback
  cases g.fallback <;> rfl

/-- Vetoes leave no faults of guards in the trail. -/
theorem guardFaults_review (g : PlanGuardrail) (env : Program.Env) (d : Decision) :
    Trail.guardFaults (g.review env d).trail = [] := by
  unfold review
  split
  · rfl
  · split
    · rfl
    · exact guardFaults_applyFallback ..
    · rename_i fault _
      have hfallback := g.guardFaults_applyFallback d (utf8 "faulted: " ++ fault.message)
      rw [← hfallback]
      rfl

theorem Matches.applyFallback (h : Matches env env' g g') (d : Decision) (cause cause' : Bytes) :
    (g.applyFallback d cause).decision = (g'.applyFallback d cause').decision := by
  unfold PlanGuardrail.applyFallback
  rw [h.fallback]
  cases g'.fallback with
  | cap => simp only [capped, h.capParam, h.capValue, h.id]
  | deny => simp only [replaced, h.id]
  | noAction => simp only [replaced, h.id]

/-- Vetoes that match make the same of a decision. -/
theorem Matches.review (h : Matches env env' g g') (d : Decision) :
    (g.review env d).decision = (g'.review env' d).decision := by
  have hanswer := h.answer d.params
  have happlies : g.appliesToAction d.action = g'.appliesToAction d.action := by
    unfold appliesToAction
    rw [h.appliesTo]
  unfold PlanGuardrail.review
  rw [happlies]
  split
  · rfl
  · cases hrun : g.violation.run { env with outcome := d.params } with
    | error fault =>
      rw [hrun] at hanswer
      obtain ⟨fault', hrun', -⟩ := mapError_eq_error.1 hanswer.symm
      rw [hrun']
      exact h.applyFallback ..
    | ok answer =>
      rw [hrun] at hanswer
      rw [mapError_eq_ok.1 hanswer.symm]
      cases answer with
      | true => exact h.applyFallback ..
      | false => rfl

theorem Matches.grants (h : Matches env env' g g') (houtcome : env.outcome = env'.outcome) :
    g.grants env = g'.grants env' := by
  have hanswer := h.answer env.outcome
  have henv : { env' with outcome := env.outcome } = env' := by rw [houtcome]
  rw [henv] at hanswer
  have hno : g.violation.run env = .ok false ↔ g'.violation.run env' = .ok false := by
    rw [← mapError_eq_ok, hanswer, mapError_eq_ok]
  unfold PlanGuardrail.grants
  rw [decide_eq_decide]
  exact not_congr hno

theorem guardFaults_supply (g : PlanGuardrail) (s : Selector) (step : Nat) (r : Review)
    (answer : MandateAnswer) :
    Trail.guardFaults (g.supply s step r answer).trail = Trail.guardFaults r.trail := by
  cases answer with
  | refused => rfl
  | granted cause => exact (Trail.guardFaults_append ..).trans (List.append_nil _)
  | faulted fault => exact (Trail.guardFaults_append ..).trans (List.append_nil _)

end PlanGuardrail

/-- Two reviews have come to the same decisions, and no guard has faulted in them. -/
structure Review.Alike (r r' : Review) : Prop where
  decisions : r.decisions = r'.decisions
  defaulted : r.defaulted = r'.defaulted
  quiet : Trail.guardFaults r.trail = [] ∧ Trail.guardFaults r'.trail = []

namespace PlanGuardrail

variable {g g' : PlanGuardrail} {env env' : Program.Env} {r r' : Review}

theorem guardFaults_runVeto (g : PlanGuardrail) (env : Program.Env) (r : Review) :
    Trail.guardFaults (g.runVeto env r).trail = Trail.guardFaults r.trail := by
  have hquiet : ∀ ds : List Decision,
      Trail.guardFaults ((ds.map (g.review env)).flatMap (·.trail)) = [] := by
    intro ds
    induction ds with
    | nil => rfl
    | cons d ds ih =>
      rw [List.map_cons, List.flatMap_cons, Trail.guardFaults_append, ih, guardFaults_review]
      rfl
  exact (Trail.guardFaults_append ..).trans (by rw [hquiet, List.append_nil])

theorem Matches.runVeto (h : Matches env env' g g') (hr : r.Alike r') :
    (g.runVeto env r).Alike (g'.runVeto env' r') := by
  refine ⟨?_, hr.defaulted, ?_⟩
  · change (r.decisions.map (g.review env)).map (·.decision) =
      (r'.decisions.map (g'.review env')).map (·.decision)
    rw [List.map_map, List.map_map, hr.decisions]
    exact List.map_congr_left fun d _ => h.review d
  · rw [guardFaults_runVeto, guardFaults_runVeto]
    exact hr.quiet

variable {s s' : Situation}

theorem Matches.targets (h : Matches env env' g g') (hs : s.Matches s') {sel sel' : Selector}
    (hsel : s.SelectorsMatch s' sel sel') :
    g.targets s.blueprint sel = g'.targets s'.blueprint sel' := by
  have hnames : ∀ {bs bs' : List Branch}, List.Forall₂ (s.BranchesMatch s') bs bs' →
      g.namesNodeOf s.blueprint bs = g'.namesNodeOf s'.blueprint bs' := by
    intro bs bs' hbs
    induction hbs with
    | nil => rfl
    | cons hb _ ih =>
      rw [namesNodeOf, namesNodeOf, ih, hb.node, Blueprint.nodeId?, Blueprint.nodeId?, hs.nodes,
        h.appliesTo]
  unfold PlanGuardrail.targets
  rw [h.appliesTo, hnames hsel.branches]

/-- Mandates that match supply the same defaults. -/
theorem Matches.supply (h : Matches env env' g g') (houtcome : env.outcome = env'.outcome)
    (hr : r.Alike r') (sel sel' : Selector) (step : Nat) :
    (g.supply sel step r (g.mandateAnswer env)).Alike
      (g'.supply sel' step r' (g'.mandateAnswer env')) := by
  obtain ⟨hdecisions, hdefaulted⟩ := g.supply_mandateAnswer env sel step r
  obtain ⟨hdecisions', hdefaulted'⟩ := g'.supply_mandateAnswer env' sel' step r'
  refine ⟨?_, ?_, ?_⟩
  · rw [hdecisions, hdecisions', h.grants houtcome, hr.decisions, defaultFor, defaultFor,
      h.defaultOutcome, h.id]
  · rw [hdefaulted, hdefaulted', h.grants houtcome, hr.defaulted]
  · rw [guardFaults_supply, guardFaults_supply]
    exact hr.quiet

theorem Matches.agree_mandateStep (h : Matches env env' g g')
    (houtcome : env.outcome = env'.outcome) (hs : s.Matches s')
    (hsteps : List.Forall₂ (s.StepsMatch s') s.blueprint.steps s'.blueprint.steps)
    (hr : r.Alike r') (step : Nat) :
    Agree Review.Alike (g.mandateStep s.blueprint env r step)
      (g'.mandateStep s'.blueprint env' r' step) := by
  unfold mandateStep
  rw [hr.defaulted]
  split
  · exact .ok hr
  · have hstep := getElem?_rel hsteps step
    generalize s.blueprint.steps[step]? = x at hstep
    generalize s'.blueprint.steps[step]? = x' at hstep
    cases hstep with
    | none => exact .error _
    | some hx =>
      cases hx with
      | sequential => exact .ok hr
      | task => exact .ok hr
      | @selector sel sel' hsel =>
        dsimp only
        rw [h.targets hs hsel]
        refine (Agree.refl (g'.targets s'.blueprint sel')).bind ?_
        rintro targeted _ rfl
        cases targeted with
        | true => exact .ok (h.supply houtcome hr sel sel' step)
        | false => exact .ok hr

theorem Matches.agree_apply (h : Matches env env' g g') (houtcome : env.outcome = env'.outcome)
    (hs : s.Matches s')
    (hsteps : List.Forall₂ (s.StepsMatch s') s.blueprint.steps s'.blueprint.steps)
    (unresolved : List Nat) (hr : r.Alike r') :
    Agree Review.Alike (g.apply s.blueprint env unresolved r)
      (g'.apply s'.blueprint env' unresolved r') := by
  unfold PlanGuardrail.apply
  rw [h.mode]
  cases g'.mode with
  | veto => exact .ok (h.runVeto hr)
  | mandateDefault =>
    refine agree_foldlM (S := fun i j => i = j) (fun q q' i j hq hij => ?_) ?_ hr
    · rw [hij]
      exact h.agree_mandateStep houtcome hs hsteps hq j
    · exact List.forall₂_refl unresolved

end PlanGuardrail

/-! ## Plans -/

/-- Two results have the same decisions and alternatives, and the same guards faulted. -/
structure Situation.RunResult.Alike (x x' : RunResult) : Prop where
  decisions : x.decisions = x'.decisions
  alternatives : x.alternatives = x'.alternatives
  faults : Trail.guardFaults x.trail = Trail.guardFaults x'.trail

/-- Runs of plans that agree, agree. -/
theorem Situation.agree_run {s s' : Situation} (h : s.Matches s')
    (hsteps : List.Forall₂ (s.StepsMatch s') s.blueprint.steps s'.blueprint.steps)
    (hrails : ∀ fired, fired.length = s.blueprint.nodes.length →
      List.Forall₂ (PlanGuardrail.Matches (s.env fired) (s'.env fired)) s.blueprint.guardrails
        s'.blueprint.guardrails) :
    Agree RunResult.Alike s.run s'.run := by
  have htime : ∀ stage, s.checkTime stage = s'.checkTime stage := fun stage => by
    unfold checkTime
    rw [h.expired]
  have hstart : Progress.Alike s.blueprint.nodes.length (.start s.blueprint)
      (.start s'.blueprint) := by
    unfold Progress.start
    rw [h.nodes]
    exact ⟨List.length_map _, rfl, rfl, rfl, rfl, rfl⟩
  unfold run
  refine (agree_runSteps h hsteps 0 hstart).bind fun p p' hp => ?_
  rw [htime]
  refine (Agree.refl (s'.checkTime .guardrails)).bind fun _ _ _ => ?_
  rw [← hp.fired, ← hp.unresolved, ← hp.decisions]
  have hreview : Agree Review.Alike
      (s.blueprint.applyGuardrails (s.env p.fired) p.unresolved p.decisions)
      (s'.blueprint.applyGuardrails (s'.env p.fired) p.unresolved p.decisions) :=
    agree_foldlM (fun r r' g g' hr hg => hg.agree_apply rfl h hsteps p.unresolved hr)
      (hrails p.fired hp.size) ⟨rfl, rfl, rfl, rfl⟩
  refine (hreview.mapError fun _ => RunError.outOfRange).bind fun r r' hr => ?_
  refine (Agree.refl (s'.checkTime .guardrails)).bind fun _ _ _ => .ok ⟨hr.decisions,
    hp.alternatives, ?_⟩
  rw [Trail.guardFaults_append, Trail.guardFaults_append, hp.faults, hr.quiet.1, hr.quiet.2]

end DecisionEngine
