import DecisionEngine.Proofs.Names
import DecisionEngine.Proofs.Plan.Guardrails
import DecisionEngine.Proofs.Plan.Steps
/-!
# What vetoes leave

A decision that comes out of the guardrails as it went in has passed every veto about its action,
with the parameters that it still has.  A veto that fires leaves its mark: no status that it gives
is ever taken back, and a fault counts as a violation.

* `PlanGuardrail.Fires`, `PlanGuardrail.Clears` — when a veto changes a decision, and when it has
  nothing against it.
* `Amended` — what vetoes make of a decision, one after another.
* `Amended.untouched` — a decision that is still chosen or still a default is cleared by all.
* `Blueprint.exists_review` — guardrails go through every decision, and supply defaults that go
  through the guardrails behind their own.
-/

namespace DecisionEngine

/-! ## One veto -/

namespace PlanGuardrail

variable {g : PlanGuardrail} {env : Program.Env} {d : Decision}

/-- What the violation of a guardrail answers about a decision: it reads the parameters of the
decision as the outcome. -/
def verdict (g : PlanGuardrail) (env : Program.Env) (d : Decision) : Except Program.Fault Bool :=
  g.violation.run { env with outcome := d.params }

/-- A guardrail is about an action: it names it, or it names none. -/
def Covers (g : PlanGuardrail) (action : Bytes) : Prop := g.appliesTo = [] ∨ action ∈ g.appliesTo

/-- A veto fires on a decision: it is about the action, which has not been taken away yet, and its
violation is true or faults. -/
structure Fires (g : PlanGuardrail) (env : Program.Env) (d : Decision) : Prop where
  veto : g.mode = .veto
  unsettled : d.status.isSettled = false
  covers : g.Covers d.action
  violated : g.verdict env d ≠ .ok false

/-- A guardrail has nothing against a decision: if it is a veto about the action, its violation is
false, without a fault. -/
def Clears (g : PlanGuardrail) (env : Program.Env) (d : Decision) : Prop :=
  g.mode = .veto → g.Covers d.action → g.verdict env d = .ok false

/-- What a veto makes of a decision on which it fires. -/
def fallenBack (g : PlanGuardrail) (d : Decision) : Decision :=
  match g.fallback with
  | .cap => g.capped d
  | .deny => g.replaced d denyAction .denied
  | .noAction => g.replaced d noAction .noAction

theorem decision_applyFallback (g : PlanGuardrail) (d : Decision) (cause : Bytes) :
    (g.applyFallback d cause).decision = g.fallenBack d := by
  unfold applyFallback fallenBack
  cases g.fallback <;> rfl

/-- A veto that has fired is seen in the status. -/
theorem status_fallenBack (g : PlanGuardrail) (d : Decision) :
    (g.fallenBack d).status ≠ .chosen ∧ (g.fallenBack d).status ≠ .mandated := by
  unfold fallenBack
  cases g.fallback <;> exact ⟨DecisionStatus.noConfusion, DecisionStatus.noConfusion⟩

theorem appliesToAction_iff (hordered : Ordered g.appliesTo) (action : Bytes) :
    g.appliesToAction action = true ↔ g.Covers action := by
  unfold appliesToAction Covers
  rw [Bool.or_eq_true, List.isEmpty_iff, sortedContains_iff hordered]

theorem review_of_fires (hordered : Ordered g.appliesTo) (h : g.Fires env d) :
    (g.review env d).decision = g.fallenBack d := by
  have hcovers := (appliesToAction_iff hordered d.action).2 h.covers
  have hviolated := h.violated
  unfold verdict at hviolated
  unfold review
  simp only [h.unsettled, hcovers, Bool.not_true, Bool.or_false, Bool.false_eq_true, if_false]
  cases hrun : g.violation.run { env with outcome := d.params } with
  | error fault => exact g.decision_applyFallback d _
  | ok answer =>
    cases answer with
    | true => exact g.decision_applyFallback d _
    | false => exact absurd hrun hviolated

theorem review_of_not_fires (hordered : Ordered g.appliesTo) (hveto : g.mode = .veto)
    (h : ¬g.Fires env d) : (g.review env d).decision = d := by
  unfold review
  split
  · rfl
  · rename_i hreviewed
    simp only [Bool.or_eq_true, not_or, Bool.not_eq_true, Bool.not_eq_false'] at hreviewed
    have hfalse : g.verdict env d = .ok false := by
      by_contra hviolated
      exact h ⟨hveto, hreviewed.1, (appliesToAction_iff hordered _).1 hreviewed.2, hviolated⟩
    unfold verdict at hfalse
    rw [hfalse]
    rfl

end PlanGuardrail

/-! ## All vetoes -/

/-- What the vetoes among a list of guardrails make of a decision, one after another: those that
fire change it, the others leave it. -/
inductive Amended (env : Program.Env) : List PlanGuardrail → Decision → Decision → Prop
  | done (d : Decision) : Amended env [] d d
  | left {g : PlanGuardrail} {rest : List PlanGuardrail} {d d' : Decision} :
    ¬g.Fires env d → Amended env rest d d' → Amended env (g :: rest) d d'
  | changed {g : PlanGuardrail} {rest : List PlanGuardrail} {d d' : Decision} :
    g.Fires env d → Amended env rest (g.fallenBack d) d' → Amended env (g :: rest) d d'

variable {b : Blueprint} {env : Program.Env} {rails : List PlanGuardrail} {d d' : Decision}

theorem amended_settledBy (env : Program.Env) (hordered : ∀ g ∈ rails, Ordered g.appliesTo)
    (d : Decision) : Amended env rails d (settledBy env rails d) := by
  induction rails generalizing d with
  | nil => exact .done d
  | cons g rest ih =>
    have hg := hordered g (List.mem_cons_self ..)
    have ih := ih fun g' hg' => hordered g' (List.mem_cons_of_mem _ hg')
    unfold settledBy
    rw [List.foldl_cons]
    by_cases hfires : g.Fires env d
    · rw [if_pos hfires.veto, PlanGuardrail.review_of_fires hg hfires]
      exact .changed hfires (ih _)
    · have hsame : (if g.mode = .veto then (g.review env d).decision else d) = d := by
        split
        · rename_i hveto
          exact PlanGuardrail.review_of_not_fires hg hveto hfires
        · rfl
      rw [hsame]
      exact .left hfires (ih d)

/-- A decision that is still chosen, or still a default, went through all vetoes as it is: none of
them has anything against it. -/
theorem Amended.untouched (h : Amended env rails d d')
    (hstatus : d'.status = .chosen ∨ d'.status = .mandated) :
    d' = d ∧ ∀ g ∈ rails, g.Clears env d' := by
  induction h with
  | done d => exact ⟨rfl, fun g hg => absurd hg List.not_mem_nil⟩
  | @left g rest d d' hquiet _ ih =>
    obtain ⟨rfl, hclear⟩ := ih hstatus
    refine ⟨rfl, fun g' hg' => ?_⟩
    rcases List.mem_cons.1 hg' with rfl | hg'
    · intro hveto hcovers
      have hunsettled : d'.status.isSettled = false := by
        rcases hstatus with hs | hs <;> rw [hs] <;> rfl
      by_contra hviolated
      exact hquiet ⟨hveto, hunsettled, hcovers, hviolated⟩
    · exact hclear g' hg'
  | @changed g rest d d' _ _ ih =>
    obtain ⟨rfl, -⟩ := ih hstatus
    obtain ⟨hchosen, hmandated⟩ := g.status_fallenBack d
    exact (hstatus.elim hchosen hmandated).elim

/-! ## Defaults -/

/-- A default that a mandate supplied for an unresolved step, as the guardrails behind the mandate
have left it. -/
def Defaulted (env : Program.Env) (unresolved : List Nat) (rails : List PlanGuardrail)
    (d : Decision) : Prop :=
  ∃ before g after step, rails = before ++ g :: after ∧ g.mode = .mandateDefault ∧
    step ∈ unresolved ∧ d = settledBy env after (g.defaultFor step)

theorem settledBy_append (env : Program.Env) (rails more : List PlanGuardrail) (d : Decision) :
    settledBy env (rails ++ more) d = settledBy env more (settledBy env rails d) :=
  List.foldl_append ..

/-- How far guardrails have come: the decisions have gone through those that are done, and the
defaults are behind them. -/
def Review.Through (r : Review) (env : Program.Env) (unresolved : List Nat)
    (decisions : List Decision) (done : List PlanGuardrail) : Prop :=
  ∃ defaults, r.decisions = decisions.map (settledBy env done) ++ defaults ∧
    ∀ d ∈ defaults, Defaulted env unresolved done d

section

variable {ids : Nat → List Bytes} {unresolved : List Nat} {decisions : List Decision}
variable {done : List PlanGuardrail} {r r' : Review}

/-- Supplying a step adds the default for it, or nothing, and counts that. -/
theorem PlanGuardrail.supply_adds (g : PlanGuardrail) (sel : Selector) (step : Nat) (r : Review)
    (answer : MandateAnswer) :
    ∃ new, (g.supply sel step r answer).decisions = r.decisions ++ new ∧
      (g.supply sel step r answer).figures.defaults = r.figures.defaults + new.length ∧
      ∀ d ∈ new, d = g.defaultFor step := by
  cases answer with
  | refused => exact ⟨[], (List.append_nil _).symm, rfl, by simp⟩
  | granted cause => exact ⟨[g.defaultFor step], rfl, rfl, by simp⟩
  | faulted fault => exact ⟨[g.defaultFor step], rfl, rfl, by simp⟩

/-- A mandate only adds defaults of its own, each of which it counts, be there steps that come twice
or not. -/
theorem PlanGuardrail.apply_adds {g : PlanGuardrail} (hmode : g.mode = .mandateDefault)
    (h : g.apply b env unresolved r = .ok r') :
    ∃ new, r'.decisions = r.decisions ++ new ∧
      r'.figures.defaults = r.figures.defaults + new.length ∧
      ∀ d ∈ new, ∃ step ∈ unresolved, d = g.defaultFor step := by
  refine apply_invariant (P := fun r' => ∃ new, r'.decisions = r.decisions ++ new ∧
      r'.figures.defaults = r.figures.defaults + new.length ∧
      ∀ d ∈ new, ∃ step ∈ unresolved, d = g.defaultFor step)
    (fun hveto => absurd (hmode.symm.trans hveto) GuardrailMode.noConfusion) ?_
    ⟨[], (List.append_nil _).symm, rfl, by simp⟩ h
  rintro - step hstep sel q ⟨old, hold, hcount, hdefaults⟩
  obtain ⟨new, hnew, hone, hdefault⟩ := g.supply_adds sel step q (g.mandateAnswer env)
  refine ⟨old ++ new, ?_, ?_, fun d hd => ?_⟩
  · rw [hnew, hold, List.append_assoc]
  · rw [hone, hcount, List.length_append, Nat.add_assoc]
  · rcases List.mem_append.1 hd with hd | hd
    · exact hdefaults d hd
    · exact ⟨step, hstep, hdefault d hd⟩

/-- One more guardrail. -/
theorem Review.Through.apply (h : r.Through env unresolved decisions done) {g : PlanGuardrail}
    (happly : g.apply b env unresolved r = .ok r') :
    r'.Through env unresolved decisions (done ++ [g]) := by
  obtain ⟨defaults, hdecisions, hdefaults⟩ := h
  cases hmode : g.mode with
  | veto =>
    unfold PlanGuardrail.apply at happly
    rw [hmode] at happly
    cases happly
    have hone : ∀ d, settledBy env [g] d = (g.review env d).decision := fun d => by
      simp [settledBy, hmode]
    refine ⟨defaults.map (settledBy env [g]), ?_, fun d hd => ?_⟩
    · have hreviewed : (g.runVeto env r).decisions = r.decisions.map (settledBy env [g]) := by
        show (r.decisions.map (g.review env)).map (·.decision) = _
        rw [List.map_map]
        exact List.map_congr_left fun d _ => (hone d).symm
      rw [hreviewed, hdecisions, List.map_append, List.map_map]
      exact congrArg (· ++ _) (List.map_congr_left fun d _ => (settledBy_append ..).symm)
    · obtain ⟨e, he, rfl⟩ := List.mem_map.1 hd
      obtain ⟨before, m, after, step, rfl, hm, hstep, rfl⟩ := hdefaults e he
      exact ⟨before, m, after ++ [g], step, by simp, hm, hstep, (settledBy_append ..).symm⟩
  | mandateDefault =>
    have hone : ∀ d, settledBy env [g] d = d := fun d => by simp [settledBy, hmode]
    obtain ⟨new, hnew, -, hsupplied⟩ := PlanGuardrail.apply_adds hmode happly
    refine ⟨defaults ++ new, ?_, fun d hd => ?_⟩
    · rw [hnew, hdecisions, List.append_assoc]
      refine congrArg (· ++ _) (List.map_congr_left fun d _ => ?_)
      rw [settledBy_append, hone]
    · rcases List.mem_append.1 hd with hd | hd
      · obtain ⟨before, m, after, step, rfl, hm, hstep, rfl⟩ := hdefaults d hd
        refine ⟨before, m, after ++ [g], step, by simp, hm, hstep, ?_⟩
        rw [settledBy_append, hone]
      · obtain ⟨step, hstep, rfl⟩ := hsupplied d hd
        exact ⟨done, g, [], step, rfl, hmode, hstep, rfl⟩

/-- More guardrails, one after another. -/
theorem Review.Through.foldlM (h : r.Through env unresolved decisions done)
    {rest : List PlanGuardrail}
    (hrun : rest.foldlM (fun r g => g.apply b env unresolved r) r = .ok r') :
    r'.Through env unresolved decisions (done ++ rest) := by
  induction rest generalizing done r with
  | nil =>
    cases hrun
    rwa [List.append_nil]
  | cons g rest ih =>
    obtain ⟨q, hq, hrun⟩ := bind_eq_ok.1 hrun
    have hthrough := ih (h.apply hq) hrun
    rwa [List.append_assoc] at hthrough

/-- Where guardrails come to an end, every decision and every default has gone through them. -/
theorem Review.through_of_foldlM {rails : List PlanGuardrail}
    (hrun : rails.foldlM (fun r g => g.apply b env unresolved r) r = .ok r') :
    r'.Through env unresolved r.decisions rails := by
  have hstart : r.Through env unresolved r.decisions [] := by
    refine ⟨[], ?_, by simp⟩
    rw [List.append_nil]
    exact (List.map_id _).symm
  exact hstart.foldlM hrun

/-- Guardrails come to an end if all unresolved steps can be mandated. -/
theorem Blueprint.exists_review_of_steps (env : Program.Env)
    (hsteps : ∀ step ∈ unresolved, ∀ (g : PlanGuardrail) (r : Review),
      ∃ r', g.mandateStep b env r step = .ok r') (decisions : List Decision) :
    ∃ r, b.applyGuardrails env unresolved decisions = .ok r := by
  refine exists_foldlM_eq_ok (fun g _ r => ?_) _
  unfold PlanGuardrail.apply
  cases g.mode with
  | veto => exact ⟨_, rfl⟩
  | mandateDefault => exact exists_foldlM_eq_ok (fun step hstep r => hsteps step hstep g r) r

/-- Guardrails come to an end, and every decision and every default has gone through them. -/
theorem Blueprint.exists_review (env : Program.Env)
    (hselects : ∀ step ∈ unresolved, b.Selects step (ids step)) (decisions : List Decision) :
    ∃ r, b.applyGuardrails env unresolved decisions = .ok r ∧
      r.Through env unresolved decisions b.guardrails := by
  obtain ⟨r, hr⟩ := b.exists_review_of_steps env (fun step hstep g r => by
    obtain ⟨r', hr', -⟩ := g.exists_mandateStep env (hselects step hstep) r
    exact ⟨r', hr'⟩) decisions
  exact ⟨r, hr, Review.through_of_foldlM (r := Review.start decisions) hr⟩

end
end DecisionEngine
