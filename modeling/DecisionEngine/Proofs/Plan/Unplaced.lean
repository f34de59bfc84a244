import DecisionEngine.Proofs.Plan.Agreement
/-!
# Decisions apart from their steps

Guardrails look at what decisions say, and not at the steps that they come from.

* `Decision.unplaced` — a decision apart from its step.
* `settledBy_unplaced`, `suppliedBy_unplaced` — vetoes and mandates do not look at steps.
* `settledBy_congr`, `suppliedBy_congr` — guardrails that match do the same.
-/

namespace DecisionEngine

/-- A decision apart from its step. -/
def Decision.unplaced (d : Decision) : Decision := { d with step := 0 }

namespace PlanGuardrail

theorem unplaced_applyFallback (g : PlanGuardrail) (d : Decision) (cause cause' : Bytes) :
    (g.applyFallback d cause).decision.unplaced = (g.applyFallback d.unplaced cause').decision := by
  unfold applyFallback
  cases g.fallback <;> rfl

theorem unplaced_review (g : PlanGuardrail) (env : Program.Env) (d : Decision) :
    (g.review env d).decision.unplaced = (g.review env d.unplaced).decision := by
  have hparams : d.unplaced.params = d.params := rfl
  have hskip : (d.unplaced.status.isSettled || !g.appliesToAction d.unplaced.action) =
      (d.status.isSettled || !g.appliesToAction d.action) := rfl
  unfold review
  rw [hskip, hparams]
  split
  · rfl
  · cases g.violation.run { env with outcome := d.params } with
    | error fault => exact g.unplaced_applyFallback ..
    | ok answer =>
      cases answer with
      | true => exact g.unplaced_applyFallback ..
      | false => rfl

end PlanGuardrail

section

variable {env env' : Program.Env} {rails rails' : List PlanGuardrail}

/-- Vetoes do not look at the step of a decision. -/
theorem settledBy_unplaced (env : Program.Env) (rails : List PlanGuardrail) (d : Decision) :
    (settledBy env rails d).unplaced = settledBy env rails d.unplaced := by
  induction rails generalizing d with
  | nil => rfl
  | cons g rest ih =>
    unfold settledBy at ih ⊢
    rw [List.foldl_cons, List.foldl_cons]
    split
    · rw [ih, g.unplaced_review]
    · exact ih d

/-- Mandates look at the rules of a step only. -/
theorem suppliedBy_unplaced (env : Program.Env) (ids : Nat → List Bytes)
    (rails : List PlanGuardrail) (step : Nat) :
    (suppliedBy env ids rails step).map Decision.unplaced =
      suppliedBy env (fun _ => ids step) rails 0 := by
  induction rails with
  | nil => rfl
  | cons g rest ih =>
    rw [suppliedBy, suppliedBy]
    split
    · rw [Option.map_some, settledBy_unplaced]
      rfl
    · exact ih

/-- No mandate that is about no rules supplies a default. -/
theorem suppliedBy_of_unnamed {ids : Nat → List Bytes} {step : Nat}
    (h : ∀ g ∈ rails, g.mode = .mandateDefault → g.names (ids step) = false) :
    suppliedBy env ids rails step = none := by
  induction rails with
  | nil => rfl
  | cons g rest ih =>
    rw [suppliedBy, if_neg, ih fun g' hg' => h g' (List.mem_cons_of_mem _ hg')]
    rintro ⟨hmode, hnames, -⟩
    rw [h g (List.mem_cons_self ..) hmode] at hnames
    cases hnames

/-- Vetoes that match make the same of decisions. -/
theorem settledBy_congr (h : List.Forall₂ (PlanGuardrail.Matches env env') rails rails') :
    settledBy env rails = settledBy env' rails' := by
  funext d
  induction h generalizing d with
  | nil => rfl
  | cons hg _ ih =>
    unfold settledBy at ih ⊢
    rw [List.foldl_cons, List.foldl_cons, hg.mode, hg.review]
    exact ih _

/-- Mandates that match, and are about the same rules, supply the same defaults. -/
theorem suppliedBy_congr (h : List.Forall₂ (PlanGuardrail.Matches env env') rails rails')
    (houtcome : env.outcome = env'.outcome) {ids ids' : Nat → List Bytes} {step : Nat}
    (hnames : ∀ g ∈ rails, g.mode = .mandateDefault →
      g.names (ids step) = g.names (ids' step)) :
    suppliedBy env ids rails step = suppliedBy env' ids' rails' step := by
  induction h with
  | nil => rfl
  | @cons g g' rest rest' hg hrest ih =>
    rw [suppliedBy, suppliedBy, ih fun g hg => hnames g (List.mem_cons_of_mem _ hg),
      settledBy_congr hrest, hg.grants houtcome]
    have hdefault : g.defaultFor step = g'.defaultFor step := by
      unfold PlanGuardrail.defaultFor
      rw [hg.defaultOutcome, hg.id]
    have hmatch : g.names (ids' step) = g'.names (ids' step) := by
      unfold PlanGuardrail.names
      rw [hg.appliesTo]
    rw [hdefault, ← hmatch, ← hg.mode]
    by_cases hmode : g.mode = .mandateDefault
    · rw [hnames g (List.mem_cons_self ..) hmode]
    · rw [if_neg fun hall => hmode hall.1, if_neg fun hall => hmode hall.1]

end
end DecisionEngine
