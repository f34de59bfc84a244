import DecisionEngine.Proofs.Compile.Vetted
import DecisionEngine.Proofs.Plan.Frame
/-!
# Compiled plans mandate defaults exactly once

A selection that stays unresolved gets its default from the first mandate that is about it and whose
condition does not say no, and from no other one.  Defaults come in the order of the guardrails, and
those of one guardrail in the order in which the selections are listed.

* `PlanGuardrail.Due` — a mandate is due for a step.
* `mem_mandates_iff`, `pairwise_mandates` — which defaults are supplied, and in what order.
* `Blueprint.DefaultOf` — a default, by the guardrail that has supplied it.
* `Revision.mandates_exactly_once` — the defaults of a compiled plan.
-/

namespace DecisionEngine

/-! ## Mandates that are due -/

/-- A mandate is due for a step: it names no rules, or one that the step selects between, and it has
no condition, or one that is true or faults. -/
structure PlanGuardrail.Due (g : PlanGuardrail) (b : Blueprint) (env : Program.Env) (step : Nat) :
    Prop where
  mandate : g.mode = .mandateDefault
  about : g.appliesTo = [] ∨ ∃ id ∈ b.rulesAt step, id ∈ g.appliesTo
  granted : g.violation.isEmpty = true ∨ g.violation.run env = .ok true ∨
    ∃ fault, g.violation.run env = .error fault

namespace PlanGuardrail

variable {g : PlanGuardrail} {b : Blueprint} {env : Program.Env} {step : Nat}

theorem names_iff (hordered : Ordered g.appliesTo) (ids : List Bytes) :
    g.names ids = true ↔ g.appliesTo = [] ∨ ∃ id ∈ ids, id ∈ g.appliesTo := by
  simp only [names, Bool.or_eq_true, List.isEmpty_iff, List.any_eq_true,
    sortedContains_iff hordered]

/-- A condition that does not say no is empty, true or faulting. -/
theorem grants_iff : g.grants env = true ↔ g.violation.isEmpty = true ∨
    g.violation.run env = .ok true ∨ ∃ fault, g.violation.run env = .error fault := by
  have hempty : g.violation.isEmpty = true → g.violation.run env = .ok true := fun h => if_pos h
  unfold grants
  rw [decide_eq_true_iff]
  constructor
  · intro h
    cases hrun : g.violation.run env with
    | error fault => exact .inr (.inr ⟨fault, rfl⟩)
    | ok answer =>
      cases answer with
      | true => exact .inr (.inl rfl)
      | false => exact absurd hrun h
  · rintro (h | h | ⟨fault, h⟩) hfalse
    · cases (hempty h).symm.trans hfalse
    · cases h.symm.trans hfalse
    · cases h.symm.trans hfalse

theorem serves_iff (hordered : Ordered g.appliesTo) :
    g.serves env (b.rulesAt step) = true ↔ g.Due b env step := by
  rw [serves, Bool.and_eq_true, Bool.and_eq_true, beq_iff_eq, names_iff hordered, grants_iff]
  exact ⟨fun h => ⟨h.1, h.2.1, h.2.2⟩, fun h => ⟨h.mandate, h.about, h.granted⟩⟩

end PlanGuardrail

/-! ## The order of defaults -/

section

variable {env : Program.Env} {ids : Nat → List Bytes} {rails : List PlanGuardrail}
variable {steps : List Nat}

/-- A mandate supplies a default for a listed step if it serves it and none in front of it does. -/
theorem mem_mandates_iff {k i : Nat} : (k, i) ∈ mandates env ids rails steps ↔
    i ∈ steps ∧ ∃ before g after, rails = before ++ g :: after ∧ before.length = k ∧
      g.serves env (ids i) = true ∧ ∀ g' ∈ before, g'.serves env (ids i) = false := by
  induction rails generalizing k steps with
  | nil => simp [mandates]
  | cons g rest ih =>
    rw [mandates, List.mem_append, List.mem_map, List.mem_map]
    constructor
    · rintro (⟨i', hi, hplace⟩ | ⟨⟨k', i'⟩, hplace, heq⟩)
      · cases hplace
        obtain ⟨hi, hserves⟩ := List.mem_filter.1 hi
        exact ⟨hi, [], g, rest, rfl, rfl, hserves, fun _ h => absurd h List.not_mem_nil⟩
      · cases heq
        obtain ⟨hi, before, g', after, rfl, rfl, hserves, hnone⟩ := ih.1 hplace
        obtain ⟨hi, hfirst⟩ := List.mem_filter.1 hi
        refine ⟨hi, g :: before, g', after, rfl, rfl, hserves, ?_⟩
        rw [List.forall_mem_cons]
        exact ⟨by simpa using hfirst, hnone⟩
    · rintro ⟨hi, before, g', after, hsplit, rfl, hserves, hnone⟩
      cases before with
      | nil =>
        cases hsplit
        exact .inl ⟨i, List.mem_filter.2 ⟨hi, hserves⟩, rfl⟩
      | cons first before =>
        cases hsplit
        obtain ⟨hfirst, hnone⟩ := List.forall_mem_cons.1 hnone
        refine .inr ⟨(before.length, i), ih.2 ⟨List.mem_filter.2 ⟨hi, by rw [hfirst]; rfl⟩, before,
          g', after, rfl, rfl, hserves, hnone⟩, rfl⟩

/-- Defaults come in the order of the guardrails, and those of one guardrail in the order of the
steps. -/
theorem pairwise_mandates {R : Nat → Nat → Prop} (h : steps.Pairwise R) :
    (mandates env ids rails steps).Pairwise fun x y => x.1 < y.1 ∨ (x.1 = y.1 ∧ R x.2 y.2) := by
  induction rails generalizing steps with
  | nil => exact .nil
  | cons g rest ih =>
    rw [mandates, List.pairwise_append, List.pairwise_map, List.pairwise_map]
    refine ⟨(h.filter _).imp fun hR => .inr ⟨rfl, hR⟩, (ih (h.filter _)).imp fun hlt => ?_, ?_⟩
    · exact hlt.imp Nat.succ_lt_succ (And.imp_left (congrArg Nat.succ))
    · intro x hx y hy
      obtain ⟨i, -, rfl⟩ := List.mem_map.1 hx
      obtain ⟨place, -, rfl⟩ := List.mem_map.1 hy
      exact .inl (Nat.succ_pos _)

/-- No step gets two defaults. -/
theorem nodup_mandates (h : steps.Nodup) : ((mandates env ids rails steps).map (·.2)).Nodup := by
  induction rails generalizing steps with
  | nil => exact .nil
  | cons g rest ih =>
    rw [mandates, List.map_append, List.map_map, List.map_map]
    have hserved : (steps.filter fun i => g.serves env (ids i)).map
        ((·.2) ∘ fun i => ((0 : Nat), i)) = steps.filter fun i => g.serves env (ids i) :=
      List.map_id _
    rw [hserved, List.nodup_append]
    refine ⟨h.filter _, ih (h.filter _), fun i hi j hj hij => ?_⟩
    obtain ⟨⟨k, i'⟩, hplace, hj⟩ := List.mem_map.1 hj
    obtain rfl : i' = i := hj.trans hij.symm
    have hopen := (List.mem_filter.1 (mem_mandates_iff.1 hplace).1).2
    rw [(List.mem_filter.1 hi).2] at hopen
    cases hopen

/-- Of steps that are listed once, the one that is listed earlier has the smaller index. -/
theorem pairwise_idxOf {l : List Nat} (h : l.Nodup) :
    l.Pairwise fun i j => l.idxOf i < l.idxOf j := by
  rw [List.pairwise_iff_getElem]
  intro i j hi hj hij
  rwa [h.idxOf_getElem i hi, h.idxOf_getElem j hj]

end

/-! ## Defaults with their guardrails -/

/-- The defaults that are supplied, each with the number of the guardrail that has supplied it. -/
def numberedDefaults (env : Program.Env) (ids : Nat → List Bytes) (rails : List PlanGuardrail)
    (steps : List Nat) : List (Nat × Decision) :=
  (mandates env ids rails steps).filterMap fun place =>
    (defaultAt env rails place).map fun d => (place.1, d)

section

variable {env : Program.Env} {ids : Nat → List Bytes} {rails : List PlanGuardrail}
variable {steps : List Nat}

theorem defaultAt_length_append (env : Program.Env) (before : List PlanGuardrail)
    (g : PlanGuardrail) (after : List PlanGuardrail) (step : Nat) :
    defaultAt env (before ++ g :: after) (before.length, step) =
      some (settledBy env after (g.defaultFor step)) := by
  unfold defaultAt
  rw [List.getElem?_append_right (Nat.le_refl _), Nat.sub_self, List.drop_length_add_append]
  rfl

/-- Where a mandate supplies a default, it is a default for the step. -/
theorem map_place_numberedDefaults :
    (numberedDefaults env ids rails steps).map (fun x => (x.1, x.2.step)) =
      mandates env ids rails steps := by
  unfold numberedDefaults
  rw [List.map_filterMap]
  conv_rhs => rw [← List.filterMap_some (l := mandates env ids rails steps)]
  refine List.filterMap_congr fun place hplace => ?_
  obtain ⟨-, before, g, after, rfl, hlength, -⟩ := mem_mandates_iff.1 hplace
  obtain ⟨k, step⟩ := place
  subst hlength
  rw [defaultAt_length_append, Option.map_some, Option.map_some, (place_settledBy env after _).2]
  rfl

theorem map_snd_numberedDefaults : (numberedDefaults env ids rails steps).map (·.2) =
    (mandates env ids rails steps).filterMap (defaultAt env rails) := by
  unfold numberedDefaults
  rw [List.map_filterMap]
  refine List.filterMap_congr fun place _ => ?_
  rw [Option.map_map]
  exact Option.map_id'

theorem map_step_numberedDefaults : (numberedDefaults env ids rails steps).map (·.2.step) =
    (mandates env ids rails steps).map (·.2) := by
  rw [← map_place_numberedDefaults, List.map_map]
  rfl

end

/-! ## The defaults of a compiled plan -/

/-- A decision is the default for its step that the guardrail of a number has supplied: that
guardrail is due for the step, none in front of it is, and those behind it have amended the
default. -/
def Blueprint.DefaultOf (b : Blueprint) (env : Program.Env) (k : Nat) (d : Decision) : Prop :=
  ∃ before g after, b.guardrails = before ++ g :: after ∧ before.length = k ∧
    g.Due b env d.step ∧ (∀ g' ∈ before, ¬g'.Due b env d.step) ∧
    Amended env after (g.defaultFor d.step) d

variable {b : Blueprint} {env : Program.Env} {unresolved : List Nat}

/-- A default that is supplied is that of the first guardrail that is due. -/
theorem Blueprint.defaultOf_of_mem (hordered : ∀ g ∈ b.guardrails, Ordered g.appliesTo)
    {x : Nat × Decision} (hx : x ∈ numberedDefaults env b.rulesAt b.guardrails unresolved) :
    x.2.step ∈ unresolved ∧ b.DefaultOf env x.1 x.2 := by
  obtain ⟨⟨k, step⟩, hplace, hx⟩ := List.mem_filterMap.1 hx
  obtain ⟨hstep, before, g, after, hrails, rfl, hserves, hnone⟩ := mem_mandates_iff.1 hplace
  rw [hrails, defaultAt_length_append] at hx
  cases hx
  have hsame := (place_settledBy env after (g.defaultFor step)).2
  rw [hrails] at hordered
  have hbefore : ∀ g' ∈ before, ¬g'.Due b env step := fun g' hg' hdue => by
    have hserves' := (PlanGuardrail.serves_iff (hordered g' (by simp [hg']))).2 hdue
    rw [hnone g' hg'] at hserves'
    cases hserves'
  refine ⟨hsame ▸ hstep, before, g, after, hrails, rfl, ?_, ?_, ?_⟩
  · exact hsame ▸ (PlanGuardrail.serves_iff (hordered g (by simp))).1 hserves
  · exact hsame ▸ hbefore
  · rw [hsame]
    exact amended_settledBy env (fun g' hg' => hordered g' (by simp [hg'])) _

/-- A listed step that gets no default is one that no guardrail is due for. -/
theorem Blueprint.not_due_of_not_mem (hordered : ∀ g ∈ b.guardrails, Ordered g.appliesTo)
    {step : Nat} (hstep : step ∈ unresolved)
    (h : step ∉ (numberedDefaults env b.rulesAt b.guardrails unresolved).map (·.2.step)) :
    ∀ g ∈ b.guardrails, ¬g.Due b env step := by
  intro g hg hdue
  have hsome : (b.guardrails.find? fun g => g.serves env (b.rulesAt step)).isSome := by
    rw [List.find?_isSome]
    exact ⟨g, hg, (PlanGuardrail.serves_iff (hordered g hg)).2 hdue⟩
  obtain ⟨first, hfirst⟩ := Option.isSome_iff_exists.1 hsome
  obtain ⟨hserves, before, after, hrails, hnone⟩ := List.find?_eq_some_iff_append.1 hfirst
  rw [map_step_numberedDefaults] at h
  refine h (List.mem_map.2 ⟨(before.length, step), mem_mandates_iff.2 ⟨hstep, before, first, after,
    hrails, rfl, hserves, fun g' hg' => ?_⟩, rfl⟩)
  simpa using hnone g' hg'

/-- **Defaults are mandated exactly once.**  In every environment, the guardrails of a compiled plan
come to an end on all decisions and all lists of selections in which none comes twice.  Behind the
decisions come defaults for some of these selections, not more than one for each: the default of
the first guardrail that is due for it, as those behind that one have amended it.  Only selections
that no guardrail is due for go without.  Defaults are in the order of their guardrails, and those
of one guardrail in the order of the list. -/
theorem Revision.mandates_exactly_once {r : Revision} {o : CompilerOptions}
    (h : (r.compile o).blueprint = some b) (env : Program.Env) (hnodup : unresolved.Nodup)
    (hunresolved : ∀ i ∈ unresolved, ∃ sel, b.steps[i]? = some (.selector sel))
    (decisions : List Decision) :
    ∃ review kept, ∃ defaults : List (Nat × Decision),
      b.applyGuardrails env unresolved decisions = .ok review ∧
      review.decisions = kept ++ defaults.map (·.2) ∧ kept.length = decisions.length ∧
      (∀ x ∈ defaults, x.2.step ∈ unresolved ∧ b.DefaultOf env x.1 x.2) ∧
      (defaults.map (·.2.step)).Nodup ∧
      (∀ step ∈ unresolved, step ∉ defaults.map (·.2.step) →
        ∀ g ∈ b.guardrails, ¬g.Due b env step) ∧
      defaults.Pairwise fun x y => x.1 < y.1 ∨
        (x.1 = y.1 ∧ unresolved.idxOf x.2.step < unresolved.idxOf y.2.step) := by
  have hpassed := passed_of_compile h
  have hordered := hpassed.ordered_appliesTo
  obtain ⟨review, hreview, hdecisions⟩ :=
    b.exists_applyGuardrails_eq env hnodup (hpassed.selects hunresolved) decisions
  rw [← map_snd_numberedDefaults] at hdecisions
  refine ⟨review, _, _, hreview, hdecisions, List.length_map _,
    fun x hx => Blueprint.defaultOf_of_mem hordered hx, ?_,
    fun step hstep hmissing => Blueprint.not_due_of_not_mem hordered hstep hmissing, ?_⟩
  · rw [map_step_numberedDefaults]
    exact nodup_mandates hnodup
  · have hpairwise : (mandates env b.rulesAt b.guardrails unresolved).Pairwise _ :=
      pairwise_mandates (pairwise_idxOf hnodup)
    rw [← map_place_numberedDefaults, List.pairwise_map] at hpairwise
    exact hpairwise

set_option maxRecDepth 100000 in
/-- The selection that is open gets its letter, behind the two gifts. -/
theorem Revision.mandates_exactly_once_sample :
    ∃ b, (guardedSample.compile .standard).blueprint = some b ∧
      (∃ sel, b.steps[1]? = some (.selector sel)) ∧
      ∃ review kept, ∃ defaults : List (Nat × Decision),
        b.applyGuardrails .blank [1] [sampleGift 2, sampleGift 4] = .ok review ∧
        review.decisions = kept ++ defaults.map (·.2) ∧ kept.length = 2 ∧
        1 ∈ defaults.map (·.2.step) := by
  have hreplies : (guardedSample.planned .standard).guardrails.any (fun g =>
      g.mode == .mandateDefault && g.appliesTo.isEmpty && g.violation.isEmpty) = true :=
    Revision.planned_of_draft (P := fun b => b.guardrails.any _ = true) fun _ _ => by cbv
  obtain ⟨hb, hselector⟩ := guardedSample_selects
  generalize guardedSample.planned .standard = b at hb hselector hreplies
  have hunresolved : ∀ i ∈ [1], ∃ sel, b.steps[i]? = some (.selector sel) := by
    intro i hi
    rwa [List.mem_singleton.1 hi]
  obtain ⟨review, kept, defaults, hreview, hsplit, hkept, -, -, hmissing, -⟩ :=
    mandates_exactly_once hb .blank (List.nodup_singleton 1) hunresolved
      [sampleGift 2, sampleGift 4]
  refine ⟨b, hb, hselector, review, kept, defaults, hreview, hsplit, hkept, ?_⟩
  by_contra hnone
  obtain ⟨g, hg, hdue⟩ := List.any_eq_true.1 hreplies
  simp only [Bool.and_eq_true, beq_iff_eq, List.isEmpty_iff] at hdue
  obtain ⟨⟨hmode, habout⟩, hempty⟩ := hdue
  exact hmissing 1 (List.mem_singleton_self 1) hnone g hg ⟨hmode, .inl habout, .inl hempty⟩

end DecisionEngine
