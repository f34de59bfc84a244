import DecisionEngine.Proofs.Compile.Correctness
import DecisionEngine.Proofs.Plan.Totality
/-!
# Guardrails of compiled plans fail closed

Whatever the guardrails of a compiled plan are handed, they come to an end, and what they leave as
it was has been looked at by every veto that is about it.  Later guardrails see what earlier ones
have made of a decision, and a fault counts against it.

* `Revision.Passed.ordered_appliesTo` — vetoes look actions up in lists that are in order.
* `Vetted` — what a list of guardrails may make of a decision.
* `Revision.guardrails_fail_closed` — what comes out of the guardrails of a compiled plan.
-/

namespace DecisionEngine

/-- A decision that went through the vetoes of a list of guardrails: only those changed it of which
the violation was true or faulted, and if it is still chosen, or still a default, then it is as it
was, and every veto about its action found its violation false, without a fault. -/
structure Vetted (env : Program.Env) (rails : List PlanGuardrail) (d d' : Decision) : Prop where
  amended : Amended env rails d d'
  cleared : d'.status = .chosen ∨ d'.status = .mandated →
    d'.action = d.action ∧ d'.params = d.params ∧ d'.status = d.status ∧
      ∀ g ∈ rails, g.Clears env d'

theorem vetted_settledBy (env : Program.Env) {rails : List PlanGuardrail}
    (hordered : ∀ g ∈ rails, Ordered g.appliesTo) (d : Decision) :
    Vetted env rails d (settledBy env rails d) := by
  have hamended := amended_settledBy env hordered d
  refine ⟨hamended, fun hstatus => ?_⟩
  obtain ⟨hsame, hclear⟩ := hamended.untouched hstatus
  rw [hsame] at hclear ⊢
  exact ⟨rfl, rfl, rfl, hclear⟩

namespace Revision

variable {r : Revision} {o : CompilerOptions} {b : Blueprint}

/-- The guardrails of a plan look actions up in lists that are in order. -/
theorem Passed.ordered_appliesTo (h : r.Passed o b) : ∀ g ∈ b.guardrails, Ordered g.appliesTo := by
  intro g hg
  obtain ⟨rail, -, hrail⟩ := forall₂_of_mem_left h.plans.2.flip hg
  rw [hrail.appliesTo]
  exact ordered_sortedDistinct rail.appliesTo

/-- The selections of a plan have rules to select between. -/
theorem Passed.selects (h : r.Passed o b) {unresolved : List Nat}
    (hunresolved : ∀ i ∈ unresolved, ∃ sel, b.steps[i]? = some (.selector sel)) :
    ∀ i ∈ unresolved, b.Selects i (b.rulesAt i) := by
  intro i hi
  obtain ⟨sel, hsel⟩ := hunresolved i hi
  exact Step.Runnable.selects hsel (h.runnable _ (List.mem_of_getElem? hsel))

/-- **Guardrails fail closed.**  In every environment, the guardrails of a compiled plan come to an
end on all chosen decisions and all lists of selections.  Each decision is vetted by all guardrails
and does not turn into a default; and each of the others that come out is vetted by the guardrails
behind the mandate that supplied it, and is not chosen. -/
theorem guardrails_fail_closed (h : (r.compile o).blueprint = some b) (env : Program.Env)
    {unresolved : List Nat}
    (hunresolved : ∀ i ∈ unresolved, ∃ sel, b.steps[i]? = some (.selector sel))
    {decisions : List Decision} (hchosen : ∀ d ∈ decisions, d.status = .chosen) :
    ∃ review kept defaults, b.applyGuardrails env unresolved decisions = .ok review ∧
      review.decisions = kept ++ defaults ∧
      List.Forall₂ (fun d d' => Vetted env b.guardrails d d' ∧ d'.status ≠ .mandated)
        decisions kept ∧
      ∀ d' ∈ defaults, d'.status ≠ .chosen ∧
        ∃ before g after step, b.guardrails = before ++ g :: after ∧ g.mode = .mandateDefault ∧
          step ∈ unresolved ∧ Vetted env after (g.defaultFor step) d' := by
  have hpassed := passed_of_compile h
  have hordered := hpassed.ordered_appliesTo
  obtain ⟨review, hreview, defaults, hdecisions, hdefaults⟩ :=
    b.exists_review env (hpassed.selects hunresolved) decisions
  refine ⟨review, _, defaults, hreview, hdecisions, ?_, fun d' hd' => ?_⟩
  · rw [List.forall₂_map_right_iff, List.forall₂_same]
    intro d hd
    have hvetted := vetted_settledBy env hordered d
    refine ⟨hvetted, fun hmandated => ?_⟩
    have hstatus := (hvetted.cleared (.inr hmandated)).2.2.1
    rw [hmandated, hchosen d hd] at hstatus
    exact DecisionStatus.noConfusion hstatus
  · obtain ⟨before, g, after, step, hsplit, hmode, hstep, rfl⟩ := hdefaults d' hd'
    have hafter : ∀ g' ∈ after, Ordered g'.appliesTo := fun g' hg' =>
      hordered g' (by simp [hsplit, hg'])
    have hvetted := vetted_settledBy env hafter (g.defaultFor step)
    refine ⟨fun hstill => ?_, before, g, after, step, hsplit, hmode, hstep, hvetted⟩
    have hstatus := (hvetted.cleared (.inl hstill)).2.2.1
    rw [hstill] at hstatus
    exact DecisionStatus.noConfusion hstatus

/-- The offers of `Revision.sample` under guardrails: gifts above a size are refused, and who gets
nothing gets a letter. -/
def guardedSample : Revision :=
  { sample with
    guardrails := [
      ⟨utf8 "small", [], .veto, [utf8 "gift"], utf8 "outcome.n > 3", .deny, [], .null, .none⟩,
      ⟨utf8 "reply", [], .mandateDefault, [], [], .deny, [], .null, ⟨utf8 "letter", .empty⟩⟩] }

/-- The decision of a gift of some size, as a step would make it. -/
def sampleGift (size : Int64) : Decision :=
  .chosenBy (utf8 "gift") (utf8 "gift") (.ofList [(utf8 "n", .int size)]) 1

/-- Whether a step is a selection. -/
def isSelection : Step → Bool
  | .selector _ => true
  | _ => false

set_option maxRecDepth 100000 in
/-- The offers under guardrails are compiled to a plan of which the step with number one is a
selection. -/
theorem guardedSample_selects :
    (guardedSample.compile .standard).blueprint = some (guardedSample.planned .standard) ∧
      ∃ sel, (guardedSample.planned .standard).steps[1]? = some (.selector sel) := by
  have haccepted : guardedSample.accepted .standard = true := by cbv
  have hselection : (guardedSample.planned .standard).steps[1]?.any isSelection = true :=
    planned_of_draft (P := fun b => b.steps[1]?.any isSelection = true) fun _ _ => by cbv
  refine ⟨compile_of_accepted rfl haccepted, ?_⟩
  generalize (guardedSample.planned .standard).steps[1]? = step at hselection
  cases step with
  | none => cases hselection
  | some step =>
    cases step with
    | selector sel => exact ⟨sel, rfl⟩
    | sequential node g => cases hselection
    | task node g o => cases hselection

theorem guardrails_fail_closed_sample : ∃ b, (guardedSample.compile .standard).blueprint = some b ∧
    (∃ sel, b.steps[1]? = some (.selector sel)) ∧
    ∃ review kept defaults, b.applyGuardrails .blank [1] [sampleGift 2, sampleGift 4] = .ok review ∧
      review.decisions = kept ++ defaults ∧
      List.Forall₂ (fun d d' => Vetted .blank b.guardrails d d' ∧ d'.status ≠ .mandated)
        [sampleGift 2, sampleGift 4] kept := by
  obtain ⟨hb, hselector⟩ := guardedSample_selects
  generalize guardedSample.planned .standard = b at hb hselector
  have hunresolved : ∀ i ∈ [1], ∃ sel, b.steps[i]? = some (.selector sel) := by
    intro i hi
    rwa [List.mem_singleton.1 hi]
  have hchosen : ∀ d ∈ [sampleGift 2, sampleGift 4], d.status = .chosen := by decide +kernel
  obtain ⟨review, kept, defaults, hreview, hsplit, hkept, -⟩ :=
    guardrails_fail_closed hb .blank hunresolved hchosen
  exact ⟨b, hb, hselector, review, kept, defaults, hreview, hsplit, hkept⟩

end Revision
end DecisionEngine
