import DecisionEngine.Proofs.Attributes.Entries
import DecisionEngine.Proofs.Plan.Totality
import Mathlib
/-!
# What guardrails leave alone

Guardrails keep every decision at its place.  They change its action, its parameters and the marks
of what they did, and nothing else of it; a cap sets a single parameter; and a decision whose action
has been taken away is not touched again.  New decisions come in only as defaults, behind the
others.  The figures that guardrails report are counted in the trail that they write.

* `PlanGuardrail.Alters` — what a guardrail may make of a decision.
* `PlanGuardrail.Reworks`, `PlanGuardrail.reworks_of_apply` — what it does to a review.
* `Trail.figures`, `Blueprint.figures_applyGuardrails` — the figures are those of the trail.
* `settledBy_of_isSettled` — nothing brings a decision back.
* `Blueprint.guardrails_keep_frame` — all guardrails of a plan.
-/

namespace DecisionEngine

/-! ## Figures -/

namespace GuardrailFigures

theorem zero_plus (f : GuardrailFigures) : zero.plus f = f := by
  simp [plus, zero]

theorem plus_assoc (f g h : GuardrailFigures) : (f.plus g).plus h = f.plus (g.plus h) := by
  simp [plus, Nat.add_assoc]

end GuardrailFigures

/-- How often guardrails did what, as a trail tells it. -/
def Trail.figures (t : Trail) : GuardrailFigures :=
  ⟨(t.ofKind .guardrailVeto).length, (t.ofKind .guardrailCap).length,
    (t.ofKind .guardrailDefault).length, (t.ofKind .guardrailFault).length⟩

theorem Trail.figures_append (t u : Trail) :
    Trail.figures (t ++ u) = t.figures.plus u.figures := by
  simp [figures, ofKind, GuardrailFigures.plus]

/-- The figures of several trails add up. -/
theorem Trail.sum_figures {α : Type} (trail : α → Trail) (xs : List α) :
    GuardrailFigures.sum (xs.map fun x => (trail x).figures) =
      Trail.figures (xs.flatMap trail) := by
  have hfrom : ∀ f, (xs.map fun x => (trail x).figures).foldl GuardrailFigures.plus f =
      f.plus (Trail.figures (xs.flatMap trail)) := by
    induction xs with
    | nil => exact fun f => rfl
    | cons x xs ih =>
      intro f
      rw [List.map_cons, List.foldl_cons, ih, List.flatMap_cons, Trail.figures_append,
        GuardrailFigures.plus_assoc]
  exact (hfrom .zero).trans (GuardrailFigures.zero_plus _)

namespace PlanGuardrail

variable {g : PlanGuardrail} {b : Blueprint} {env : Program.Env} {r r' : Review}

theorem figures_applyFallback (g : PlanGuardrail) (d : Decision) (cause : Bytes) :
    (g.applyFallback d cause).figures = (g.applyFallback d cause).trail.figures := by
  unfold applyFallback
  cases g.fallback <;> rfl

theorem figures_review (g : PlanGuardrail) (env : Program.Env) (d : Decision) :
    (g.review env d).figures = (g.review env d).trail.figures := by
  unfold review
  split
  · rfl
  · cases g.violation.run { env with outcome := d.params } with
    | error fault =>
      dsimp only
      rw [figures_applyFallback]
      exact (Trail.figures_append [entryFor .guardrailFault d _] _).symm
    | ok violated =>
      cases violated with
      | false => rfl
      | true => exact g.figures_applyFallback d _

theorem figures_runVeto (h : r.figures = r.trail.figures) :
    (g.runVeto env r).figures = (g.runVeto env r).trail.figures := by
  have hreviewed := Trail.sum_figures (fun d => (g.review env d).trail) r.decisions
  simp only [← figures_review] at hreviewed
  unfold runVeto
  dsimp only
  rw [Trail.figures_append, ← h, List.map_map, List.flatMap_map]
  exact congrArg r.figures.plus hreviewed

theorem figures_supply (h : r.figures = r.trail.figures) (sel : Selector) (step : Nat)
    (answer : MandateAnswer) :
    (g.supply sel step r answer).figures = (g.supply sel step r answer).trail.figures := by
  cases answer with
  | refused => exact h
  | granted cause =>
    dsimp only [supply]
    rw [Trail.figures_append, h]
    rfl
  | faulted fault =>
    dsimp only [supply]
    rw [Trail.figures_append, h]
    rfl

end PlanGuardrail

/-- **Guardrails report what they have written.** -/
theorem Blueprint.figures_applyGuardrails {b : Blueprint} {env : Program.Env}
    {unresolved : List Nat} {decisions : List Decision} {r : Review}
    (h : b.applyGuardrails env unresolved decisions = .ok r) : r.figures = r.trail.figures :=
  foldlM_invariant (P := fun r : Review => r.figures = r.trail.figures)
    (fun _ _ _ _ hq happly => PlanGuardrail.apply_invariant
      (P := fun r : Review => r.figures = r.trail.figures)
      (fun _ _ => PlanGuardrail.figures_runVeto)
      (fun _ _ _ _ _ hr => PlanGuardrail.figures_supply hr _ _ _) hq happly) rfl h

/-! ## Decisions -/

/-- What a guardrail may make of a decision.  It may leave it; and a veto may change one whose
action has not been taken away: it sets the parameter that it caps, or puts another action with no
parameters in the place of its own.  The node and the step are those of before. -/
inductive PlanGuardrail.Alters (g : PlanGuardrail) (d : Decision) : Decision → Prop
  | left : g.Alters d d
  | capped {params : AttributeSet} : g.mode = .veto → d.status.isSettled = false →
    (∀ name, name ≠ g.capParam → params.find? name = d.params.find? name) →
    g.Alters d { d with params := params, status := .capped, guardrail := g.id }
  | taken {action : Bytes} {status : DecisionStatus} : g.mode = .veto →
    d.status.isSettled = false → status.isSettled = true →
    g.Alters d { d with action := action, params := .empty, status := status, guardrail := g.id }

namespace PlanGuardrail

variable {g : PlanGuardrail} {b : Blueprint} {env : Program.Env} {d : Decision}
variable {unresolved : List Nat} {r r' : Review}

theorem alters_applyFallback (hmode : g.mode = .veto) (hunsettled : d.status.isSettled = false)
    (cause : Bytes) : g.Alters d (g.applyFallback d cause).decision := by
  unfold applyFallback
  cases g.fallback with
  | cap =>
    refine .capped hmode hunsettled fun name hname => ?_
    rw [AttributeSet.find?_set, if_neg hname]
  | deny => exact .taken hmode hunsettled rfl
  | noAction => exact .taken hmode hunsettled rfl

theorem alters_review (hmode : g.mode = .veto) (d : Decision) :
    g.Alters d (g.review env d).decision := by
  unfold review
  split
  · exact .left
  · rename_i hreviewed
    simp only [Bool.or_eq_true, not_or, Bool.not_eq_true] at hreviewed
    split
    · exact .left
    · exact alters_applyFallback hmode hreviewed.1 _
    · exact alters_applyFallback hmode hreviewed.1 _

/-- What a guardrail may make of a review: every decision stays at its place and is altered as it
may be, and the new ones behind them are defaults of the guardrail, each of which it counts. -/
structure Reworks (g : PlanGuardrail) (unresolved : List Nat) (r r' : Review) : Prop where
  decisions : ∃ kept created, r'.decisions = kept ++ created ∧
    List.Forall₂ g.Alters r.decisions kept ∧
    r'.figures.defaults = r.figures.defaults + created.length ∧
    ∀ d ∈ created, d.status = .mandated ∧ d.guardrail = g.id ∧ d.step ∈ unresolved

theorem defaults_review (g : PlanGuardrail) (env : Program.Env) (d : Decision) :
    (g.review env d).figures.defaults = 0 := by
  have hfallback : ∀ cause, (g.applyFallback d cause).figures.defaults = 0 := fun cause => by
    unfold applyFallback
    cases g.fallback <;> rfl
  unfold review
  split
  · rfl
  · split
    · rfl
    · exact hfallback _
    · exact (Nat.zero_add _).trans (hfallback _)

theorem defaults_runVeto (g : PlanGuardrail) (env : Program.Env) (r : Review) :
    (g.runVeto env r).figures.defaults = r.figures.defaults := by
  have hsum : (GuardrailFigures.sum (r.decisions.map fun d => (g.review env d).figures)).defaults =
      0 := by
    refine List.foldlRecOn _ _ (motive := fun f : GuardrailFigures => f.defaults = 0) rfl
      fun f hf reviewed hreviewed => ?_
    obtain ⟨d, -, rfl⟩ := List.mem_map.1 hreviewed
    exact congrArg₂ (· + ·) hf (g.defaults_review env d)
  dsimp only [runVeto]
  rw [List.map_map]
  exact congrArg (r.figures.defaults + ·) hsum

/-- One guardrail on a review. -/
theorem reworks_of_apply (h : g.apply b env unresolved r = .ok r') :
    g.Reworks unresolved r r' := by
  cases hmode : g.mode with
  | veto =>
    unfold apply at h
    rw [hmode] at h
    cases h
    refine ⟨_, [], (List.append_nil _).symm, ?_, g.defaults_runVeto env r, by simp⟩
    rw [runVeto, List.map_map, List.forall₂_map_right_iff, List.forall₂_same]
    exact fun d _ => alters_review hmode d
  | mandateDefault =>
    obtain ⟨new, hnew, hcount, hdefaults⟩ := apply_adds hmode h
    refine ⟨r.decisions, new, hnew, List.forall₂_same.2 fun _ _ => .left, hcount, fun d hd => ?_⟩
    obtain ⟨step, hstep, rfl⟩ := hdefaults d hd
    exact ⟨rfl, rfl, hstep⟩

end PlanGuardrail

/-! ## All guardrails -/

variable {b : Blueprint} {env : Program.Env} {unresolved : List Nat}

/-- No veto changes a decision whose action has been taken away. -/
theorem settledBy_of_isSettled (env : Program.Env) (rails : List PlanGuardrail) {d : Decision}
    (h : d.status.isSettled = true) : settledBy env rails d = d := by
  refine List.foldlRecOn _ _ (motive := fun e : Decision => e = d) rfl fun e he g _ => ?_
  subst he
  split
  · unfold PlanGuardrail.review
    rw [if_pos (by rw [h, Bool.true_or])]
    rfl
  · rfl

/-- Vetoes keep the node and the step of a decision. -/
theorem place_settledBy (env : Program.Env) (rails : List PlanGuardrail) (d : Decision) :
    (settledBy env rails d).node = d.node ∧ (settledBy env rails d).step = d.step := by
  refine List.foldlRecOn _ _ (motive := fun e : Decision => e.node = d.node ∧ e.step = d.step)
    ⟨rfl, rfl⟩ fun e he g _ => ?_
  split
  · rename_i hmode
    have haltered : g.Alters e (g.review env e).decision := PlanGuardrail.alters_review hmode e
    generalize (g.review env e).decision = e' at haltered
    cases haltered <;> exact he
  · exact he

/-- A mandate does not fail at a step of which the plan has all nodes. -/
theorem PlanGuardrail.exists_mandateStep_of_nodes (g : PlanGuardrail) {step : Nat} {st : Step}
    (hst : b.steps[step]? = some st) (hnodes : ∀ ch ∈ st.choices, ch.1 < b.nodes.length)
    (r : Review) : ∃ r', g.mandateStep b env r step = .ok r' := by
  cases st with
  | sequential node guard =>
    unfold mandateStep
    rw [hst]
    exact ⟨r, ite_self _⟩
  | task node guard o =>
    unfold mandateStep
    rw [hst]
    exact ⟨r, ite_self _⟩
  | selector sel =>
    obtain ⟨r', hr', -⟩ := g.exists_mandateStep env (Blueprint.selects_of_nodes hst fun br hbr =>
      hnodes (br.node, br.guard) (List.mem_map.2 ⟨br, hbr, rfl⟩)) r
    exact ⟨r', hr'⟩

/-- **Guardrails keep their frame.**  Guardrails come to an end where the plan has the unresolved
steps and their nodes.  Where they do, whatever else the plan and the environment are, the decisions
are where they were, with their nodes and steps, and behind them are the defaults that are counted,
as the vetoes behind their mandates have left them; the figures are those of the trail; every single
guardrail has altered decisions and added defaults as it may; and a decision whose action was taken
away before a guardrail has come out as it was then. -/
theorem Blueprint.guardrails_keep_frame (b : Blueprint) (env : Program.Env) (unresolved : List Nat)
    (decisions : List Decision) :
    ((∀ step ∈ unresolved, ∃ st, b.steps[step]? = some st ∧
        ∀ ch ∈ st.choices, ch.1 < b.nodes.length) →
      ∃ r, b.applyGuardrails env unresolved decisions = .ok r) ∧
    ∀ r, b.applyGuardrails env unresolved decisions = .ok r →
      (∃ kept defaults, r.decisions = kept ++ defaults ∧
        List.Forall₂ (fun d d' => d'.node = d.node ∧ d'.step = d.step) decisions kept ∧
        defaults.length = r.figures.defaults ∧
        ∀ d ∈ defaults, Defaulted env unresolved b.guardrails d) ∧
      r.figures = r.trail.figures ∧
      ∀ before g after q, b.guardrails = before ++ g :: after →
        before.foldlM (fun r g => g.apply b env unresolved r) (.start decisions) = .ok q →
        (∃ q', g.apply b env unresolved q = .ok q' ∧ g.Reworks unresolved q q') ∧
        ∀ (i : Nat) (d : Decision), q.decisions[i]? = some d → d.status.isSettled = true →
          r.decisions[i]? = some d := by
  refine ⟨fun hsteps => b.exists_review_of_steps env (fun step hstep g r => ?_) decisions,
    fun r h => ⟨?_, b.figures_applyGuardrails h, fun before g after q hrails hbefore => ?_⟩⟩
  · obtain ⟨st, hst, hnodes⟩ := hsteps step hstep
    exact g.exists_mandateStep_of_nodes hst hnodes r
  · obtain ⟨defaults, hdecisions, hdefaults⟩ :=
      Review.through_of_foldlM (r := Review.start decisions) h
    have hcount : r.decisions.length = decisions.length + r.figures.defaults := by
      refine foldlM_invariant (P := fun r : Review =>
        r.decisions.length = decisions.length + r.figures.defaults) (fun g _ p q hp hq => ?_) rfl h
      obtain ⟨kept, created, hsplit, haltered, hdefaults, -⟩ :=
        (PlanGuardrail.reworks_of_apply hq).decisions
      rw [hsplit, List.length_append, ← haltered.length_eq, hp, hdefaults, Nat.add_assoc]
    refine ⟨_, defaults, hdecisions, ?_, ?_, hdefaults⟩
    · rw [List.forall₂_map_right_iff]
      exact List.forall₂_same.2 fun d _ => place_settledBy env b.guardrails d
    · rw [hdecisions, List.length_append, List.length_map] at hcount
      exact Nat.add_left_cancel hcount
  · unfold applyGuardrails at h
    rw [hrails] at h
    obtain ⟨q', hq', -⟩ := foldlM_split hbefore h
    refine ⟨⟨q', hq', PlanGuardrail.reworks_of_apply hq'⟩, fun i d hd hsettled => ?_⟩
    rw [List.foldlM_append, hbefore] at h
    obtain ⟨more, hmore, -⟩ := Review.through_of_foldlM (r := q) h
    have hlt : i < q.decisions.length := (List.getElem?_eq_some_iff.1 hd).1
    rw [hmore, List.getElem?_append_left (by rwa [List.length_map]), List.getElem?_map, hd,
      Option.map_some, settledBy_of_isSettled env _ hsettled]

/-- A plan with a selection between gifts.  Its guardrails cap gifts, refuse refunds, and send a
letter where nothing was selected. -/
def Blueprint.generous : Blueprint where
  id := .blank
  tenant := []
  decisionType := []
  catalog := .empty
  symbols := .empty
  nodes := [⟨utf8 "gift", .action, []⟩]
  steps := [.selector ⟨utf8 "gifts", .firstSatisfied, [],
    [⟨0, ⟨0, .empty, [], []⟩, 0, .zero, none, 0⟩], []⟩]
  guardrails := [
    ⟨utf8 "small", [], .veto, [utf8 "gift"], .empty, [], .cap, utf8 "n", .int 3, .none⟩,
    ⟨utf8 "stop", [], .veto, [utf8 "refund"], .empty, [], .deny, [], .null, .none⟩,
    ⟨utf8 "reply", [], .mandateDefault, [], .empty, [], .deny, [], .null,
      ⟨utf8 "letter", .empty⟩⟩]
  encoded := []

/-- A gift is capped and a refund refused, the open selection gets its letter, and all three are in
the trail. -/
theorem Blueprint.guardrails_keep_frame_generous :
    ∃ r kept defaults, generous.applyGuardrails .blank [0]
        [.chosenBy (utf8 "a") (utf8 "gift") .empty 1,
          .chosenBy (utf8 "b") (utf8 "refund") .empty 2] = .ok r ∧
      r.decisions = kept ++ defaults ∧ kept.map (·.node) = [utf8 "a", utf8 "b"] ∧
      defaults.length = 1 ∧ r.trail.figures = ⟨1, 1, 1, 0⟩ := by
  obtain ⟨hruns, hframe⟩ := generous.guardrails_keep_frame .blank [0]
    [.chosenBy (utf8 "a") (utf8 "gift") .empty 1, .chosenBy (utf8 "b") (utf8 "refund") .empty 2]
  obtain ⟨r, hr⟩ := hruns fun step hstep => by
    obtain rfl := List.mem_singleton.1 hstep
    exact ⟨_, rfl, by decide⟩
  obtain ⟨⟨kept, defaults, hsplit, hkept, hcount, -⟩, hfigures, -⟩ := hframe r hr
  have hcounted : (generous.applyGuardrails .blank [0] [.chosenBy (utf8 "a") (utf8 "gift") .empty 1,
      .chosenBy (utf8 "b") (utf8 "refund") .empty 2]).map (·.figures) = .ok ⟨1, 1, 1, 0⟩ := by cbv
  rw [hr] at hcounted
  have hcounted : r.figures = ⟨1, 1, 1, 0⟩ := Except.ok.inj hcounted
  refine ⟨r, kept, defaults, hr, hsplit, ?_, ?_, ?_⟩
  · rcases hkept with _ | ⟨⟨hfirst, -⟩, _ | ⟨⟨hsecond, -⟩, _ | _⟩⟩
    rw [List.map_cons, List.map_cons, hfirst, hsecond]
    rfl
  · rw [hcount, hcounted]
  · rw [← hfigures, hcounted]

end DecisionEngine
