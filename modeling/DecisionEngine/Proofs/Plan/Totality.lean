import DecisionEngine.Proofs.Plan.Vetoes
/-!
# Plans that run to their end

A plan of which all steps can be run comes to a result, whatever it is run on: programs that fault,
masks of another catalog and comparators of any kind do not stop it.  Only the time limit does.

* `Step.Runnable.selects` — a selection that can be run has rules to select between.
* `Situation.exists_runSteps` — steps that can be run are run, and only selections stay unresolved.
* `Situation.exists_run` — so is the whole plan.
-/

namespace DecisionEngine

/-- The rules that a step selects between; none if it is no selection. -/
def Blueprint.rulesAt (b : Blueprint) (step : Nat) : List Bytes :=
  match b.steps[step]? with
  | some (.selector sel) => sel.branches.map fun br => (b.nodeId? br.node).getD []
  | _ => []

/-- A selection whose branches have nodes has rules to select between. -/
theorem Blueprint.selects_of_nodes {b : Blueprint} {step : Nat} {sel : Selector}
    (hstep : b.steps[step]? = some (.selector sel))
    (hnodes : ∀ br ∈ sel.branches, br.node < b.nodes.length) :
    b.Selects step (b.rulesAt step) := by
  refine ⟨sel, hstep, ?_⟩
  unfold Blueprint.rulesAt
  rw [hstep]
  dsimp only
  rw [List.forall₂_map_right_iff, List.forall₂_same]
  intro br hbr
  unfold Blueprint.nodeId?
  rw [List.getElem?_eq_getElem (hnodes br hbr)]
  rfl

/-- A selection that can be run has rules to select between. -/
theorem Step.Runnable.selects {b : Blueprint} {step : Nat} {sel : Selector}
    (hstep : b.steps[step]? = some (.selector sel)) (h : (Step.selector sel).Runnable b) :
    b.Selects step (b.rulesAt step) :=
  Blueprint.selects_of_nodes hstep fun br hbr =>
    h.nodes (br.node, br.guard) (List.mem_map.2 ⟨br, hbr, rfl⟩)

namespace Situation

variable {s : Situation}

/-- What a step leaves unresolved is itself, and only if it is a selection. -/
theorem unresolved_of_takes {p p' : Progress} {index : Nat} {step : Step} {w : Option Winner}
    (h : p.Takes p' index step w) {i : Nat} (hi : i ∈ p'.unresolved) :
    i ∈ p.unresolved ∨ (i = index ∧ ∃ sel, step = .selector sel) := by
  cases h with
  | won w hgains =>
    rw [hgains.unresolved, List.append_nil] at hi
    exact .inl hi
  | idle hgains =>
    rw [hgains.unresolved] at hi
    rcases List.mem_append.1 hi with hi | hi
    · exact .inl hi
    · cases step with
      | sequential node g => exact absurd hi List.not_mem_nil
      | task node g o => exact absurd hi List.not_mem_nil
      | selector sel => exact .inr ⟨List.mem_singleton.1 hi, sel, rfl⟩

/-- What is unresolved after a first step and others behind it was so before, or is a selection
among them. -/
theorem unresolved_cons {p q p' : Progress} {index : Nat} {step : Step} {w : Option Winner}
    {rest : List (Step × Nat)} (hfirst : p.Takes q index step w)
    (hrest : ∀ i ∈ p'.unresolved, i ∈ q.unresolved ∨ ∃ sel, (Step.selector sel, i) ∈ rest) :
    ∀ i ∈ p'.unresolved,
      i ∈ p.unresolved ∨ ∃ sel, (Step.selector sel, i) ∈ (step, index) :: rest := by
  intro i hi
  rcases hrest i hi with hold | ⟨sel, hsel⟩
  · rcases unresolved_of_takes hfirst hold with hold | ⟨rfl, sel, rfl⟩
    · exact .inl hold
    · exact .inr ⟨sel, List.mem_cons_self ..⟩
  · exact .inr ⟨sel, List.mem_cons_of_mem _ hsel⟩

theorem checkTime_of_unexpired (h : s.expired = false) (stage : Stage) :
    s.checkTime stage = .ok () := by
  unfold checkTime
  rw [h]
  rfl

/-- Steps that can be run are run, one after another, and only selections stay unresolved. -/
theorem exists_runSteps (hexpired : s.expired = false) {steps : List (Step × Nat)}
    (hsteps : ∀ x ∈ steps, x.1.Runnable s.blueprint) (p : Progress) :
    ∃ p', s.runSteps steps p = .ok p' ∧
      ∀ i ∈ p'.unresolved, i ∈ p.unresolved ∨ ∃ sel, (Step.selector sel, i) ∈ steps := by
  induction steps generalizing p with
  | nil => exact ⟨p, rfl, fun i hi => .inl hi⟩
  | cons head rest ih =>
    obtain ⟨step, index⟩ := head
    have hstep : step.Runnable s.blueprint := hsteps (step, index) (List.mem_cons_self ..)
    obtain ⟨q, hq, htakes⟩ := exists_runStep index hstep p
    obtain ⟨p', hrun, hunresolved⟩ := ih (fun x hx => hsteps x (List.mem_cons_of_mem _ hx)) q
    refine ⟨p', ?_, unresolved_cons htakes hunresolved⟩
    rw [runSteps, checkTime_of_unexpired hexpired, hq]
    exact hrun

/-- A plan of which all steps were run comes to a result, as selections alone stay unresolved and
have rules to select between. -/
theorem exists_run_of_runSteps (hexpired : s.expired = false) {p : Progress}
    (hrun : s.runSteps s.blueprint.steps.zipIdx (.start s.blueprint) = .ok p)
    (hunresolved : ∀ i ∈ p.unresolved, i ∈ (Progress.start s.blueprint).unresolved ∨
      ∃ sel, (Step.selector sel, i) ∈ s.blueprint.steps.zipIdx)
    (hnodes : ∀ step ∈ s.blueprint.steps, ∀ ch ∈ step.choices,
      ch.1 < s.blueprint.nodes.length) :
    ∃ result, s.run = .ok result := by
  have hselects : ∀ i ∈ p.unresolved, s.blueprint.Selects i (s.blueprint.rulesAt i) := by
    intro i hi
    rcases hunresolved i hi with hstart | ⟨sel, hsel⟩
    · exact absurd hstart List.not_mem_nil
    · have hstep := List.mem_zipIdx_iff_getElem?.1 hsel
      exact Blueprint.selects_of_nodes hstep fun br hbr =>
        hnodes _ (List.mem_of_getElem? hstep) (br.node, br.guard) (List.mem_map.2 ⟨br, hbr, rfl⟩)
  obtain ⟨review, hreview, -⟩ :=
    s.blueprint.exists_review (s.env p.fired) hselects p.decisions
  unfold run
  rw [hrun]
  simp only [bind, Except.bind, checkTime_of_unexpired hexpired, hreview]
  exact ⟨_, rfl⟩

/-- **Plans run to their end.**  A plan of which all steps can be run comes to a result within the
time limit. -/
theorem exists_run (hexpired : s.expired = false)
    (hsteps : ∀ step ∈ s.blueprint.steps, step.Runnable s.blueprint) :
    ∃ result, s.run = .ok result := by
  have hindexed : ∀ x ∈ s.blueprint.steps.zipIdx, x.1.Runnable s.blueprint := fun x hx =>
    hsteps x.1 (List.fst_mem_of_mem_zipIdx hx)
  obtain ⟨p, hrun, hunresolved⟩ := exists_runSteps hexpired hindexed (.start s.blueprint)
  exact exists_run_of_runSteps hexpired hrun hunresolved fun step hstep => (hsteps step hstep).nodes

end Situation
end DecisionEngine
