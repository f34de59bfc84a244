import DecisionEngine.Proofs.Plan.Guardrails
import DecisionEngine.Proofs.Plan.Steps
/-!
# Faults of programs are in the trail

Guards that are tested, vetoes that look at a decision and conditions of mandates run programs that
may fault.  A fault ends nothing: what ran the program goes on and says so in the trail, and no
entry is ever taken out again.

* `GuardFault`, `VetoFault`, `ConditionFault` — a program is run and faults; the entry about it.
* `Situation.runStep_trail`, `PlanGuardrail.apply_trail` — a step and a guardrail tell what faulted.
* `Situation.Incident` — all faults of a run.
* `Situation.run_trail` — the trail of the result has them.
-/

namespace DecisionEngine

/-! ## Guards -/

/-- A guard of one of several nodes is tested in a step and faults; the entry is about that. -/
inductive GuardFault (s : Situation) (fired : List Bool) (index : Nat)
    (choices : List (Nat × Guard)) : TrailEntry → Prop
  | mk {node : Nat} {g : Guard} {fault : Program.Fault} : (node, g) ∈ choices →
    s.mask.covers g.mask = true → g.program.run (s.env fired) = .error fault →
    GuardFault s fired index choices ⟨.guardFault, some index, s.idOf node, g.mask,
      fault.message ++ utf8 "; treated as failed"⟩

namespace Situation

variable {s : Situation} {index : Nat} {p p' : Progress}

/-- The test of a guard tells that it faults. -/
theorem testGuard_trail {node : Nat} {g : Guard} {n : PlanNode} (hn : s.planNode node = .ok n)
    {e : TrailEntry} (h : GuardFault s p.fired index [(node, g)] e) :
    e ∈ (s.testGuard p.fired index n.id g).trail := by
  obtain ⟨hmem, hcovers, hrun⟩ := h
  cases List.mem_singleton.1 hmem
  unfold testGuard
  rw [if_pos hcovers, hrun, idOf_of_planNode hn]
  exact List.mem_singleton.2 rfl

/-- A run has in its trail what it had before, and what is to be told. -/
structure Tells (p p' : Progress) (told : TrailEntry → Prop) : Prop where
  kept : p.trail ⊆ p'.trail
  new : ∀ e, told e → e ∈ p'.trail

/-- After a test it is told whether the guard faults, and whatever comes later leaves that. -/
theorem tells_of_test {node : Nat} {g : Guard} {n : PlanNode} (hn : s.planNode node = .ok n)
    (hlater : (afterTest p (s.testGuard p.fired index n.id g)).trail ⊆ p'.trail) :
    Tells p p' (GuardFault s p.fired index [(node, g)]) where
  kept := List.Subset.trans (List.subset_append_left ..) hlater
  new _ he := hlater (List.mem_append_right _ (testGuard_trail hn he))

theorem runSequential_trail {node : Nat} {g : Guard}
    (h : s.runSequential index node g p = .ok p') :
    Tells p p' (GuardFault s p.fired index [(node, g)]) := by
  obtain ⟨n, q, hn, rfl, rfl⟩ := runSequential_eq_ok h
  refine tells_of_test hn ?_
  split
  · exact List.subset_append_left ..
  · exact List.Subset.refl _

theorem runTask_trail {node : Nat} {g : Guard} {o : Outcome}
    (h : s.runTask index node g o p = .ok p') :
    Tells p p' (GuardFault s p.fired index [(node, g)]) := by
  obtain ⟨n, q, hn, rfl, rfl⟩ := runTask_eq_ok h
  refine tells_of_test hn ?_
  split
  · exact List.subset_append_left ..
  · exact List.Subset.refl _

theorem testBranches_trail {bs : List (Branch × Nat)} {places : List Nat}
    (h : s.testBranches index bs p = .ok (places, p')) :
    Tells p p' (GuardFault s p.fired index (bs.map fun b => (b.1.node, b.1.guard))) := by
  induction bs generalizing p places with
  | nil =>
    cases h
    refine ⟨List.Subset.refl _, ?_⟩
    rintro _ ⟨hmem, -, -⟩
    cases hmem
  | cons head bs ih =>
    obtain ⟨n, q, others, hn, rfl, hothers, -⟩ := testBranches_cons_eq_ok h
    have hothers := ih hothers
    have hfirst := tells_of_test hn
      (List.Subset.trans (List.subset_append_left ..) hothers.kept)
    refine ⟨hfirst.kept, fun e he => ?_⟩
    obtain ⟨hmem, hcovers, hrun⟩ := he
    rcases List.mem_cons.1 hmem with hmem | hmem
    · exact hfirst.new _ ⟨List.mem_singleton.2 hmem, hcovers, hrun⟩
    · exact hothers.new _ ⟨hmem, hcovers, hrun⟩

theorem selected_trail {sel : Selector} {winner : Nat} {v : Selection}
    (h : s.selected index sel winner v p = .ok p') : p.trail ⊆ p'.trail := by
  obtain ⟨br, n, as, q, -, -, -, rfl, rfl⟩ := selected_eq_ok h
  exact List.subset_append_left ..

theorem runSelector_trail {sel : Selector} (h : s.runSelector index sel p = .ok p') :
    Tells p p' (GuardFault s p.fired index (Step.selector sel).choices) := by
  obtain ⟨places, q, v, htests, -, hend⟩ := runSelector_eq_ok h
  have htests := testBranches_trail htests
  have hlater : q.trail ⊆ p'.trail := by
    rcases hend with ⟨-, rfl⟩ | ⟨w, -, hselected⟩
    · exact List.subset_append_left ..
    · exact selected_trail hselected
  have hchoices : sel.branches.zipIdx.map (fun b => (b.1.node, b.1.guard)) =
      (Step.selector sel).choices := by
    show sel.branches.zipIdx.map ((fun b : Branch => (b.node, b.guard)) ∘ Prod.fst) = _
    rw [← List.map_map, List.zipIdx_map_fst]
    rfl
  rw [hchoices] at htests
  exact ⟨List.Subset.trans htests.kept hlater, fun e he => hlater (htests.new e he)⟩

/-- A step tells which of its guards fault. -/
theorem runStep_trail {step : Step} (h : s.runStep index step p = .ok p') :
    Tells p p' (GuardFault s p.fired index step.choices) := by
  cases step with
  | sequential node g => exact runSequential_trail h
  | task node g o => exact runTask_trail h
  | selector sel => exact runSelector_trail h

/-! ## Steps, one after another -/

theorem runSteps_append (s : Situation) (steps more : List (Step × Nat)) (p : Progress) :
    s.runSteps (steps ++ more) p = s.runSteps steps p >>= s.runSteps more := by
  induction steps generalizing p with
  | nil => rfl
  | cons head steps ih =>
    rw [List.cons_append, runSteps, runSteps]
    cases s.checkTime .ruleEvaluation with
    | error e => rfl
    | ok _ =>
      simp only [bind, Except.bind]
      cases s.runStep head.2 head.1 p with
      | error e => rfl
      | ok q => exact ih q

theorem runSteps_trail {steps : List (Step × Nat)} (h : s.runSteps steps p = .ok p') :
    p.trail ⊆ p'.trail := by
  induction steps generalizing p with
  | nil =>
    cases h
    exact List.Subset.refl _
  | cons head steps ih =>
    obtain ⟨q, hq, h⟩ := runSteps_cons_eq_ok h
    exact List.Subset.trans (runStep_trail hq).kept (ih h)

/-- What a step tells is in the trail at the end of all steps. -/
theorem runSteps_tells {steps before after : List (Step × Nat)} {step : Step} {q : Progress}
    (hsplit : steps = before ++ (step, index) :: after) (hbefore : s.runSteps before p = .ok q)
    (h : s.runSteps steps p = .ok p') {e : TrailEntry}
    (he : GuardFault s q.fired index step.choices e) : e ∈ p'.trail := by
  rw [hsplit, runSteps_append, hbefore] at h
  obtain ⟨q', hq', h⟩ := runSteps_cons_eq_ok (p := q) h
  exact runSteps_trail h ((runStep_trail hq').new e he)

end Situation

/-! ## Vetoes and mandates -/

/-- A veto looks at one of some decisions and its violation faults; the entry is about that. -/
inductive VetoFault (g : PlanGuardrail) (env : Program.Env) (decisions : List Decision) :
    TrailEntry → Prop
  | mk {d : Decision} {fault : Program.Fault} : d ∈ decisions → d.status.isSettled = false →
    g.appliesToAction d.action = true →
    g.violation.run { env with outcome := d.params } = .error fault →
    VetoFault g env decisions (PlanGuardrail.entryFor .guardrailFault d
      (g.title ++ utf8 " " ++ (utf8 "faulted: " ++ fault.message) ++ utf8 "; applying fallback"))

/-- The condition of a mandate about a step that has no default yet faults; the entry is about
that. -/
inductive ConditionFault (g : PlanGuardrail) (b : Blueprint) (env : Program.Env) (r : Review)
    (step : Nat) : TrailEntry → Prop
  | mk {sel : Selector} {fault : Program.Fault} : step ∉ r.defaulted →
    b.steps[step]? = some (.selector sel) → g.targets b sel = .ok true →
    g.violation.run env = .error fault →
    ConditionFault g b env r step (g.conditionFaultEntry step fault)

namespace PlanGuardrail

variable {g : PlanGuardrail} {b : Blueprint} {env : Program.Env} {r r' : Review}

theorem runVeto_trail {e : TrailEntry} (h : VetoFault g env r.decisions e) :
    e ∈ (g.runVeto env r).trail := by
  obtain ⟨hd, hunsettled, happlies, hrun⟩ := h
  refine List.mem_append_right _ (List.mem_flatMap.2 ⟨_, List.mem_map_of_mem hd, ?_⟩)
  unfold review
  rw [hunsettled, happlies, if_neg (by decide), hrun]
  exact List.mem_cons_self ..

theorem supply_trail (g : PlanGuardrail) (sel : Selector) (step : Nat) (r : Review)
    (answer : MandateAnswer) : r.trail ⊆ (g.supply sel step r answer).trail := by
  cases answer with
  | refused => exact List.Subset.refl _
  | granted cause => exact List.subset_append_left ..
  | faulted fault => exact List.subset_append_left ..

theorem mandateStep_kept {step : Nat} (h : g.mandateStep b env r step = .ok r') :
    r.trail ⊆ r'.trail := by
  rcases mandateStep_cases h with rfl | ⟨sel, -, -, -, rfl⟩
  · exact List.Subset.refl _
  · exact supply_trail ..

theorem mandateStep_trail {step : Nat} (h : g.mandateStep b env r step = .ok r') {e : TrailEntry}
    (he : ConditionFault g b env r step e) : e ∈ r'.trail := by
  obtain ⟨hnew, hsel, htargets, hrun⟩ := he
  have hsome : g.violation.isEmpty = false := by
    by_contra hempty
    rw [Program.run, if_pos (by simpa using hempty)] at hrun
    cases hrun
  unfold mandateStep at h
  rw [if_neg (by simpa using hnew), hsel] at h
  simp only [htargets, bind, Except.bind, if_true] at h
  cases h
  unfold mandateAnswer
  rw [hsome, if_neg Bool.false_ne_true, hrun]
  exact List.mem_append_right _ (List.mem_cons_self ..)

/-- A guardrail leaves what is in the trail. -/
theorem apply_kept {unresolved : List Nat} (h : g.apply b env unresolved r = .ok r') :
    r.trail ⊆ r'.trail :=
  apply_invariant (P := fun q : Review => r.trail ⊆ q.trail)
    (fun _ _ hq => List.Subset.trans hq (List.subset_append_left ..))
    (fun _ _ _ _ _ hq => List.Subset.trans hq (supply_trail ..)) (List.Subset.refl _) h

end PlanGuardrail

/-! ## All faults of a run -/

namespace Situation

variable {s : Situation}

/-- What some guardrails make of a review behind all steps. -/
def reviewed (s : Situation) (p : Progress) (rails : List PlanGuardrail) :
    Except GuardrailError Review :=
  rails.foldlM (fun r g => g.apply s.blueprint (s.env p.fired) p.unresolved r)
    (Review.start p.decisions)

/-- A program is run in the run of a plan and faults; the entry is about that. -/
inductive Incident (s : Situation) : TrailEntry → Prop
  | guard {before after : List (Step × Nat)} {step : Step} {index : Nat} {p : Progress}
    {e : TrailEntry} : s.blueprint.steps.zipIdx = before ++ (step, index) :: after →
    s.runSteps before (.start s.blueprint) = .ok p →
    GuardFault s p.fired index step.choices e → Incident s e
  | veto {before after : List PlanGuardrail} {g : PlanGuardrail} {p : Progress} {r : Review}
    {e : TrailEntry} : s.runSteps s.blueprint.steps.zipIdx (.start s.blueprint) = .ok p →
    s.blueprint.guardrails = before ++ g :: after → s.reviewed p before = .ok r →
    g.mode = .veto → VetoFault g (s.env p.fired) r.decisions e → Incident s e
  | condition {before after : List PlanGuardrail} {g : PlanGuardrail} {p : Progress}
    {r r' : Review} {earlier later : List Nat} {step : Nat} {e : TrailEntry} :
    s.runSteps s.blueprint.steps.zipIdx (.start s.blueprint) = .ok p →
    s.blueprint.guardrails = before ++ g :: after → s.reviewed p before = .ok r →
    g.mode = .mandateDefault → p.unresolved = earlier ++ step :: later →
    earlier.foldlM (g.mandateStep s.blueprint (s.env p.fired)) r = .ok r' →
    ConditionFault g s.blueprint (s.env p.fired) r' step e → Incident s e

/-- Where guardrails come to an end, they have come through every one of them. -/
theorem reviewed_split {p : Progress} {before after : List PlanGuardrail} {g : PlanGuardrail}
    {r review : Review} (hrails : s.blueprint.guardrails = before ++ g :: after)
    (hbefore : s.reviewed p before = .ok r)
    (h : s.blueprint.applyGuardrails (s.env p.fired) p.unresolved p.decisions = .ok review) :
    ∃ q, g.apply s.blueprint (s.env p.fired) p.unresolved r = .ok q ∧ q.trail ⊆ review.trail := by
  unfold Blueprint.applyGuardrails at h
  rw [hrails] at h
  obtain ⟨q, hq, hafter⟩ := foldlM_split hbefore h
  exact ⟨q, hq, foldlM_invariant (P := fun q' => q.trail ⊆ q'.trail)
    (fun _ _ _ _ hkept hstep => List.Subset.trans hkept (PlanGuardrail.apply_kept hstep))
    (List.Subset.refl _) hafter⟩

/-- The trail of a result tells of every program that faulted. -/
theorem run_trail {result : RunResult} (h : s.run = .ok result) {e : TrailEntry}
    (he : s.Incident e) : e ∈ result.trail := by
  obtain ⟨p, review, hp, hreview, rfl⟩ := run_eq_ok h
  cases he with
  | guard hsplit hbefore hfault =>
    exact List.mem_append_left _ (runSteps_tells hsplit hbefore hp hfault)
  | veto hsteps hrails hbefore hmode hfault =>
    obtain rfl := Except.ok.inj (hp.symm.trans hsteps)
    obtain ⟨q, hq, hkept⟩ := reviewed_split hrails hbefore hreview
    unfold PlanGuardrail.apply at hq
    rw [hmode] at hq
    cases hq
    exact List.mem_append_right _ (hkept (PlanGuardrail.runVeto_trail hfault))
  | condition hsteps hrails hbefore hmode hunresolved hearlier hfault =>
    obtain rfl := Except.ok.inj (hp.symm.trans hsteps)
    obtain ⟨q, hq, hkept⟩ := reviewed_split hrails hbefore hreview
    unfold PlanGuardrail.apply at hq
    rw [hmode, hunresolved] at hq
    obtain ⟨q', hq', hlater⟩ := foldlM_split hearlier hq
    have hlast : q'.trail ⊆ q.trail := foldlM_invariant (P := fun x => q'.trail ⊆ x.trail)
      (fun _ _ _ _ hx hstep => List.Subset.trans hx (PlanGuardrail.mandateStep_kept hstep))
      (List.Subset.refl _) hlater
    exact List.mem_append_right _ (hkept (hlast (PlanGuardrail.mandateStep_trail hq' hfault)))

end Situation
end DecisionEngine
