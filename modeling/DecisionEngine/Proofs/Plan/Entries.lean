import DecisionEngine.Proofs.Plan.Guardrails
import DecisionEngine.Proofs.Plan.Steps
/-!
# What a run writes into the trail

Steps write about guards, rules that fire and selections, guardrails about what they did, and
neither about anything else.  How the context was resolved, what became of an override token and
that there is no context at all are written around a run, never inside it.

* `TrailKind.isOfStep`, `TrailKind.isOfGuardrail`, `TrailKind.isOfRun` — what an entry is about.
* `Trail.Only` — all entries of a trail are of some kinds.
* `Situation.only_runStep`, `Situation.only_runSteps` — steps write about steps only.
* `Blueprint.only_applyGuardrails` — guardrails write about guardrails only.
* `Situation.only_run` — what a whole run writes.
-/

namespace DecisionEngine

/-! ## Kinds of entries -/

namespace TrailKind

/-- The kinds of entries that steps make. -/
def isOfStep : TrailKind → Bool
  | maskSkip | guardPassed | guardFailed | guardFault | fired | candidate | arbitration => true
  | _ => false

/-- The kinds of entries that guardrails make. -/
def isOfGuardrail : TrailKind → Bool
  | guardrailVeto | guardrailCap | guardrailDefault | guardrailFault => true
  | _ => false

/-- The kinds of entries that a run makes. -/
def isOfRun (k : TrailKind) : Bool := k.isOfStep || k.isOfGuardrail

end TrailKind

namespace Trail

/-- All entries are of some kinds. -/
def Only (P : TrailKind → Bool) (t : Trail) : Prop := ∀ e ∈ t, P e.kind = true

variable {P Q : TrailKind → Bool} {t u : Trail}

theorem only_nil : Only P [] := fun _ he => nomatch he

theorem only_singleton {e : TrailEntry} (h : P e.kind = true) : Only P [e] := by
  intro e' he'
  rw [List.mem_singleton.1 he']
  exact h

theorem Only.append (ht : t.Only P) (hu : u.Only P) : Only P (t ++ u) := by
  intro e he
  rcases List.mem_append.1 he with he | he
  · exact ht e he
  · exact hu e he

theorem only_ite {c : Prop} [Decidable c] (ht : t.Only P) (hu : u.Only P) :
    Only P (if c then t else u) := by
  split
  · exact ht
  · exact hu

theorem Only.mono (h : t.Only P) (hPQ : ∀ k, P k = true → Q k = true) : t.Only Q :=
  fun e he => hPQ _ (h e he)

theorem ofKind_append (kind : TrailKind) (t u : Trail) :
    ofKind kind (t ++ u) = t.ofKind kind ++ u.ofKind kind :=
  List.filter_append ..

/-- There are no entries of other kinds. -/
theorem Only.ofKind_eq_nil (h : t.Only P) {k : TrailKind} (hk : P k = false) :
    t.ofKind k = [] := by
  refine List.filter_eq_nil_iff.2 fun e he hkind => ?_
  have hP := h e he
  rw [eq_of_beq hkind, hk] at hP
  cases hP

end Trail

/-! ## Steps -/

namespace Situation

variable {s : Situation} {index : Nat} {p p' : Progress}

theorem only_verbosely {P : TrailKind → Bool} {e : TrailEntry} (h : P e.kind = true) :
    Trail.Only P (s.verbosely e) := by
  unfold verbosely
  split
  · exact Trail.only_singleton h
  · exact Trail.only_nil

theorem only_testGuard (fired : List Bool) (step : Nat) (node : Bytes) (g : Guard) :
    (s.testGuard fired step node g).trail.Only TrailKind.isOfStep := by
  unfold testGuard
  dsimp only
  split
  · split
    · exact only_verbosely rfl
    · exact only_verbosely rfl
    · exact Trail.only_singleton rfl
  · exact only_verbosely rfl

theorem only_afterTest (h : p.trail.Only TrailKind.isOfStep) (step : Nat) (node : Bytes)
    (g : Guard) :
    (afterTest p (s.testGuard p.fired step node g)).trail.Only TrailKind.isOfStep :=
  h.append (only_testGuard p.fired step node g)

theorem only_runSequential {node : Nat} {g : Guard} (h : p.trail.Only TrailKind.isOfStep)
    (hrun : s.runSequential index node g p = .ok p') : p'.trail.Only TrailKind.isOfStep := by
  obtain ⟨n, _, -, rfl, rfl⟩ := runSequential_eq_ok hrun
  have htest := only_afterTest (s := s) h index n.id g
  split
  · exact htest.append (Trail.only_singleton rfl)
  · exact htest

theorem only_runTask {node : Nat} {g : Guard} {o : Outcome} (h : p.trail.Only TrailKind.isOfStep)
    (hrun : s.runTask index node g o p = .ok p') : p'.trail.Only TrailKind.isOfStep := by
  obtain ⟨n, _, -, rfl, rfl⟩ := runTask_eq_ok hrun
  have htest := only_afterTest (s := s) h index n.id g
  split
  · exact htest.append (Trail.only_singleton rfl)
  · exact htest

theorem only_testBranches {bs : List (Branch × Nat)} {places : List Nat}
    (h : p.trail.Only TrailKind.isOfStep) (hrun : s.testBranches index bs p = .ok (places, p')) :
    p'.trail.Only TrailKind.isOfStep := by
  induction bs generalizing p places with
  | nil =>
    cases hrun
    exact h
  | cons head bs ih =>
    obtain ⟨n, _, others, -, rfl, hothers, -⟩ := testBranches_cons_eq_ok hrun
    have htest := only_afterTest (s := s) h index n.id head.1.guard
    exact ih (htest.append (Trail.only_ite (only_verbosely rfl) Trail.only_nil)) hothers

theorem only_selected {sel : Selector} {winner : Nat} {v : Selection}
    (h : p.trail.Only TrailKind.isOfStep) (hrun : s.selected index sel winner v p = .ok p') :
    p'.trail.Only TrailKind.isOfStep := by
  obtain ⟨br, n, as, _, -, -, -, rfl, rfl⟩ := selected_eq_ok hrun
  exact h.append (Trail.only_singleton rfl)

theorem only_runSelector {sel : Selector} (h : p.trail.Only TrailKind.isOfStep)
    (hrun : s.runSelector index sel p = .ok p') : p'.trail.Only TrailKind.isOfStep := by
  obtain ⟨places, q, v, htests, -, ⟨-, rfl⟩ | ⟨w, -, hselected⟩⟩ := runSelector_eq_ok hrun
  · exact (only_testBranches h htests).append (Trail.only_singleton rfl)
  · exact only_selected (only_testBranches h htests) hselected

/-- A step writes about steps only. -/
theorem only_runStep {step : Step} (h : p.trail.Only TrailKind.isOfStep)
    (hrun : s.runStep index step p = .ok p') : p'.trail.Only TrailKind.isOfStep := by
  cases step with
  | sequential node g => exact only_runSequential h hrun
  | task node g o => exact only_runTask h hrun
  | selector sel => exact only_runSelector h hrun

/-- So do all steps. -/
theorem only_runSteps {steps : List (Step × Nat)} (h : p.trail.Only TrailKind.isOfStep)
    (hrun : s.runSteps steps p = .ok p') : p'.trail.Only TrailKind.isOfStep := by
  induction steps generalizing p with
  | nil =>
    cases hrun
    exact h
  | cons head rest ih =>
    obtain ⟨q, hq, hrun⟩ := runSteps_cons_eq_ok hrun
    exact ih (only_runStep h hq) hrun

end Situation

/-! ## Guardrails -/

namespace PlanGuardrail

variable {g : PlanGuardrail} {b : Blueprint} {env : Program.Env} {r r' : Review}

theorem only_review (g : PlanGuardrail) (env : Program.Env) (d : Decision) :
    (g.review env d).trail.Only TrailKind.isOfGuardrail := by
  have hfallback : ∀ cause, (g.applyFallback d cause).trail.Only TrailKind.isOfGuardrail := by
    intro cause
    unfold applyFallback
    cases g.fallback <;> exact Trail.only_singleton rfl
  unfold review
  split
  · exact Trail.only_nil
  · cases g.violation.run { env with outcome := d.params } with
    | ok answer =>
      cases answer with
      | true => exact hfallback _
      | false => exact Trail.only_nil
    | error fault => exact (Trail.only_singleton rfl).append (hfallback _)

theorem only_runVeto (h : r.trail.Only TrailKind.isOfGuardrail) :
    (g.runVeto env r).trail.Only TrailKind.isOfGuardrail := by
  refine h.append fun e he => ?_
  obtain ⟨x, hx, hex⟩ := List.mem_flatMap.1 he
  obtain ⟨d, -, rfl⟩ := List.mem_map.1 hx
  exact g.only_review env d e hex

theorem only_supply (h : r.trail.Only TrailKind.isOfGuardrail) (sel : Selector) (step : Nat)
    (answer : MandateAnswer) : (g.supply sel step r answer).trail.Only TrailKind.isOfGuardrail := by
  cases answer with
  | refused => exact h
  | granted cause => exact h.append (Trail.only_singleton rfl)
  | faulted fault =>
    exact h.append ((Trail.only_singleton (e := g.conditionFaultEntry step fault) rfl).append
      (Trail.only_singleton rfl))

theorem only_apply {unresolved : List Nat} (h : r.trail.Only TrailKind.isOfGuardrail)
    (happly : g.apply b env unresolved r = .ok r') : r'.trail.Only TrailKind.isOfGuardrail :=
  apply_invariant (P := fun r : Review => r.trail.Only TrailKind.isOfGuardrail)
    (fun _ _ hr => only_runVeto hr) (fun _ _ _ _ _ hr => only_supply hr _ _ _) h happly

end PlanGuardrail

/-- Guardrails write about guardrails only. -/
theorem Blueprint.only_applyGuardrails {b : Blueprint} {env : Program.Env}
    {unresolved : List Nat} {decisions : List Decision} {r : Review}
    (h : b.applyGuardrails env unresolved decisions = .ok r) :
    r.trail.Only TrailKind.isOfGuardrail :=
  foldlM_invariant (P := fun r : Review => r.trail.Only TrailKind.isOfGuardrail)
    (fun _ _ _ _ hq happly => PlanGuardrail.only_apply hq happly) Trail.only_nil h

/-! ## Plans -/

/-- **A run writes about steps and guardrails only.** -/
theorem Situation.only_run {s : Situation} {result : RunResult} (h : s.run = .ok result) :
    result.trail.Only TrailKind.isOfRun := by
  obtain ⟨p, review, hp, hreview, rfl⟩ := run_eq_ok h
  have hsteps := only_runSteps (p := .start s.blueprint) Trail.only_nil hp
  have hrails := Blueprint.only_applyGuardrails hreview
  refine (hsteps.mono fun k hk => ?_).append (hrails.mono fun k hk => ?_)
  · exact Bool.or_eq_true_iff.2 (.inl hk)
  · exact Bool.or_eq_true_iff.2 (.inr hk)

end DecisionEngine
