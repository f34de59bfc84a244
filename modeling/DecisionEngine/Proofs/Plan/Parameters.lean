import DecisionEngine.Proofs.Plan.Guardrails
import DecisionEngine.Proofs.Plan.Steps
/-!
# Where parameters come from

A plan makes its decisions with parameters of its own: those of the outcomes of its steps and of
its guardrails, with capped ones set to their caps.  Attributes and inputs say what is decided, but
they never get into the parameters.

* `Blueprint.Supplies` — a property of everything that a plan gives as parameters.
* `Situation.run_params` — such a property holds of the parameters of all decisions.
-/

namespace DecisionEngine

variable {P : AttributeSet → Prop}

/-- The outcomes that a step can decide. -/
def Step.outcomes : Step → List Outcome
  | .sequential _ _ => []
  | .task _ _ o => [o]
  | .selector s => s.branches.filterMap (·.outcome)

/-- All parameters that a plan gives have a property, and its caps keep it. -/
structure Blueprint.Supplies (b : Blueprint) (P : AttributeSet → Prop) : Prop where
  outcomes : ∀ step ∈ b.steps, ∀ o ∈ step.outcomes, P o.params
  defaults : ∀ g ∈ b.guardrails, P g.defaultOutcome.params
  caps : ∀ g ∈ b.guardrails, ∀ a, P a → P (a.set g.capParam g.capValue)
  empty : P .empty

/-- The parameters of all decisions have a property. -/
def AllParams (P : AttributeSet → Prop) (ds : List Decision) : Prop := ∀ d ∈ ds, P d.params

theorem AllParams.append {ds : List Decision} {d : Decision} (h : AllParams P ds)
    (hd : P d.params) : AllParams P (ds ++ [d]) := by
  intro d' hd'
  rcases List.mem_append.1 hd' with hd' | hd'
  · exact h d' hd'
  · rw [List.mem_singleton.1 hd']
    exact hd

/-! ## Steps -/

namespace Situation

variable {s : Situation} {index : Nat} {p p' : Progress}

theorem runSequential_decisions {node : Nat} {g : Guard}
    (h : s.runSequential index node g p = .ok p') : p'.decisions = p.decisions := by
  obtain ⟨n, q, -, rfl, rfl⟩ := runSequential_eq_ok h
  split <;> rfl

theorem runTask_decisions {node : Nat} {g : Guard} {o : Outcome}
    (h : s.runTask index node g o p = .ok p') :
    p'.decisions = p.decisions ∨
      ∃ d : Decision, d.params = o.params ∧ p'.decisions = p.decisions ++ [d] := by
  obtain ⟨n, q, -, rfl, rfl⟩ := runTask_eq_ok h
  split
  · exact .inr ⟨.chosenBy n.id o.action o.params index, rfl, rfl⟩
  · exact .inl rfl

theorem testBranches_decisions {bs : List (Branch × Nat)} {places : List Nat}
    (h : s.testBranches index bs p = .ok (places, p')) : p'.decisions = p.decisions := by
  induction bs generalizing p places with
  | nil =>
    cases h
    rfl
  | cons head bs ih =>
    obtain ⟨n, q, others, -, rfl, hothers, -⟩ := testBranches_cons_eq_ok h
    have hsame := ih hothers
    exact hsame

theorem selected_decisions {sel : Selector} {winner : Nat} {v : Selection}
    (h : s.selected index sel winner v p = .ok p') :
    p'.decisions = p.decisions ∨
      ∃ o ∈ (Step.selector sel).outcomes, ∃ d : Decision, d.params = o.params ∧
        p'.decisions = p.decisions ++ [d] := by
  obtain ⟨br, n, as, q, hbr, -, -, rfl, rfl⟩ := selected_eq_ok h
  cases ho : br.outcome with
  | none => exact .inl (List.append_nil _)
  | some o =>
    have hmem : o ∈ (Step.selector sel).outcomes :=
      List.mem_filterMap.2 ⟨br, List.mem_of_getElem? hbr, ho⟩
    exact .inr ⟨o, hmem, .chosenBy n.id o.action o.params index, rfl, rfl⟩

theorem runSelector_decisions {sel : Selector} (h : s.runSelector index sel p = .ok p') :
    p'.decisions = p.decisions ∨
      ∃ o ∈ (Step.selector sel).outcomes, ∃ d : Decision, d.params = o.params ∧
        p'.decisions = p.decisions ++ [d] := by
  obtain ⟨places, q, v, htests, -, hend⟩ := runSelector_eq_ok h
  have hq := testBranches_decisions htests
  rcases hend with ⟨-, rfl⟩ | ⟨w, -, hselected⟩
  · exact .inl hq
  · rw [← hq]
    exact selected_decisions hselected

/-- A step decides nothing, or adds a decision with the parameters of one of its outcomes. -/
theorem runStep_decisions {step : Step} (h : s.runStep index step p = .ok p') :
    p'.decisions = p.decisions ∨
      ∃ o ∈ step.outcomes, ∃ d : Decision, d.params = o.params ∧
        p'.decisions = p.decisions ++ [d] := by
  cases step with
  | sequential node g => exact .inl (runSequential_decisions h)
  | task node g o =>
    exact (runTask_decisions h).imp id fun hd => ⟨o, List.mem_singleton.2 rfl, hd⟩
  | selector sel => exact runSelector_decisions h

theorem runSteps_params {steps : List (Step × Nat)}
    (hsteps : ∀ step ∈ steps, ∀ o ∈ step.1.outcomes, P o.params)
    (h : s.runSteps steps p = .ok p') (hp : AllParams P p.decisions) :
    AllParams P p'.decisions := by
  induction steps generalizing p with
  | nil =>
    cases h
    exact hp
  | cons head rest ih =>
    obtain ⟨q, hq, h⟩ := runSteps_cons_eq_ok h
    refine ih (fun step hstep => hsteps step (List.mem_cons_of_mem _ hstep)) h ?_
    rcases runStep_decisions hq with hsame | ⟨o, ho, d, hd, hmore⟩
    · rw [hsame]
      exact hp
    · rw [hmore]
      refine hp.append ?_
      rw [hd]
      exact hsteps head (List.mem_cons_self ..) o ho

end Situation

/-! ## Guardrails -/

namespace PlanGuardrail

variable {g : PlanGuardrail}

theorem params_applyFallback {d : Decision} {cause : Bytes} (hempty : P .empty)
    (hcap : ∀ a, P a → P (a.set g.capParam g.capValue)) (hd : P d.params) :
    P (g.applyFallback d cause).decision.params := by
  unfold applyFallback
  cases g.fallback with
  | cap => exact hcap _ hd
  | deny => exact hempty
  | noAction => exact hempty

/-- A veto leaves the parameters of a decision, takes them away or caps one of them. -/
theorem params_review {env : Program.Env} {d : Decision} (hempty : P .empty)
    (hcap : ∀ a, P a → P (a.set g.capParam g.capValue)) (hd : P d.params) :
    P (g.review env d).decision.params := by
  unfold review
  split
  · exact hd
  · split
    · exact hd
    · exact params_applyFallback hempty hcap hd
    · exact params_applyFallback hempty hcap hd

theorem params_supply {sel : Selector} {step : Nat} {r : Review} {answer : MandateAnswer}
    (hdefault : P g.defaultOutcome.params) (hr : AllParams P r.decisions) :
    AllParams P (g.supply sel step r answer).decisions := by
  cases answer with
  | refused => exact hr
  | granted cause => exact hr.append hdefault
  | faulted fault => exact hr.append hdefault

theorem params_apply {b : Blueprint} {env : Program.Env} {unresolved : List Nat} {r r' : Review}
    (hg : g ∈ b.guardrails) (hb : b.Supplies P) (hr : AllParams P r.decisions)
    (h : g.apply b env unresolved r = .ok r') : AllParams P r'.decisions := by
  refine apply_invariant (P := fun r : Review => AllParams P r.decisions) (fun _ r hr => ?_)
    (fun _ _ _ _ _ hr => params_supply (hb.defaults g hg) hr) hr h
  intro d hd
  obtain ⟨reviewed, hreviewed, rfl⟩ := List.mem_map.1 hd
  obtain ⟨before, hbefore, rfl⟩ := List.mem_map.1 hreviewed
  exact params_review hb.empty (hb.caps g hg) (hr before hbefore)

end PlanGuardrail

theorem Blueprint.params_applyGuardrails {b : Blueprint} {env : Program.Env}
    {unresolved : List Nat} {ds : List Decision} {r : Review} (hb : b.Supplies P)
    (hds : AllParams P ds) (h : b.applyGuardrails env unresolved ds = .ok r) :
    AllParams P r.decisions :=
  foldlM_invariant (P := fun r : Review => AllParams P r.decisions)
    (fun _ hg _ _ => PlanGuardrail.params_apply hg hb) hds h

/-- A property of everything that a plan gives as parameters holds of the parameters of all
decisions of its runs. -/
theorem Situation.run_params {s : Situation} {r : RunResult} (hb : s.blueprint.Supplies P)
    (h : s.run = .ok r) : AllParams P r.decisions := by
  obtain ⟨p, review, hsteps, hreview, rfl⟩ := run_eq_ok h
  have hdecided : AllParams P p.decisions :=
    runSteps_params (fun step hstep => hb.outcomes _ (List.fst_mem_of_mem_zipIdx hstep)) hsteps
      fun _ hd => absurd hd List.not_mem_nil
  exact Blueprint.params_applyGuardrails hb hdecided hreview

end DecisionEngine
