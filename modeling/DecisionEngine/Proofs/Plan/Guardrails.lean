import DecisionEngine.Plan.Guardrails
import DecisionEngine.Proofs.Failure
import DecisionEngine.Proofs.Plan.Arbitration
import Mathlib.Data.List.Nodup
/-!
# What guardrails make of decisions

Every decision goes through the vetoes by itself, and every unresolved selection gets at most one
default: from the first mandate that is about it and whose condition does not say no.  The default
goes through the vetoes behind that mandate.

* `PlanGuardrail.grants`, `PlanGuardrail.names` — when a mandate supplies a default.
* `PlanGuardrail.apply_invariant` — what vetoes and defaults keep, guardrails keep.
* `settledBy` — what vetoes make of a decision.
* `suppliedBy` — the default that a selection gets; `mandates` — those of all selections.
* `Blueprint.exists_applyGuardrails_eq` — guardrails give just these decisions, in this order.
* `Blueprint.exists_applyGuardrails` — up to their order, each selection has its own.
-/

namespace DecisionEngine

namespace PlanGuardrail

variable {g : PlanGuardrail} {b : Blueprint} {env : Program.Env}

/-- The condition of a mandate does not say no. -/
def grants (g : PlanGuardrail) (env : Program.Env) : Bool := decide (g.violation.run env ≠ .ok false)

/-- A mandate is about a selection of some rules: it names one of them, or none at all. -/
def names (g : PlanGuardrail) (ids : List Bytes) : Bool :=
  g.appliesTo.isEmpty || ids.any (sortedContains g.appliesTo)

/-- A default is supplied exactly if it is granted. -/
theorem supply_mandateAnswer (g : PlanGuardrail) (env : Program.Env) (s : Selector) (step : Nat)
    (r : Review) :
    (g.supply s step r (g.mandateAnswer env)).decisions =
      r.decisions ++ (if g.grants env then [g.defaultFor step] else []) ∧
    (g.supply s step r (g.mandateAnswer env)).defaulted =
      (if g.grants env then [step] else []) ++ r.defaulted := by
  unfold mandateAnswer grants
  by_cases hempty : g.violation.isEmpty = true
  · have hrun : g.violation.run env = .ok true := if_pos hempty
    rw [if_pos hempty, hrun]
    exact ⟨rfl, rfl⟩
  · rw [if_neg hempty]
    cases hrun : g.violation.run env with
    | error fault => exact ⟨rfl, rfl⟩
    | ok answer =>
      cases answer with
      | true => exact ⟨rfl, rfl⟩
      | false => exact ⟨(List.append_nil _).symm, rfl⟩

theorem namesNodeOf_eq {branches : List Branch} {ids : List Bytes}
    (h : List.Forall₂ (fun br id => b.nodeId? br.node = some id) branches ids) :
    g.namesNodeOf b branches = .ok (ids.any (sortedContains g.appliesTo)) := by
  induction h with
  | nil => rfl
  | @cons br id _ _ hid _ ih =>
    rw [namesNodeOf, hid, List.any_cons, ih]
    dsimp only
    split
    · rename_i hnames
      rw [hnames, Bool.true_or]
    · rename_i hnames
      rw [Bool.not_eq_true] at hnames
      rw [hnames, Bool.false_or]

theorem targets_eq {s : Selector} {ids : List Bytes}
    (h : List.Forall₂ (fun br id => b.nodeId? br.node = some id) s.branches ids) :
    g.targets b s = .ok (g.names ids) := by
  unfold targets names
  by_cases hempty : g.appliesTo.isEmpty = true
  · rw [if_pos hempty, hempty, Bool.true_or]
  · rw [if_neg hempty, namesNodeOf_eq h]
    rw [Bool.not_eq_true] at hempty
    rw [hempty, Bool.false_or]

end PlanGuardrail

/-! ## Decisions -/

/-- What the vetoes of a list of guardrails make of a decision, one after another. -/
def settledBy (env : Program.Env) (rails : List PlanGuardrail) (d : Decision) : Decision :=
  rails.foldl (fun d g => if g.mode = .veto then (g.review env d).decision else d) d

/-- The default that a list of guardrails supplies for a step that selects between some rules. -/
def suppliedBy (env : Program.Env) (ids : Nat → List Bytes) :
    List PlanGuardrail → Nat → Option Decision
  | [], _ => none
  | g :: rest, step =>
    if g.mode = .mandateDefault ∧ g.names (ids step) = true ∧ g.grants env = true then
      some (settledBy env rest (g.defaultFor step))
    else suppliedBy env ids rest step

/-- A mandate serves a selection between some rules: it is about it, and its condition does not say
no. -/
def PlanGuardrail.serves (g : PlanGuardrail) (env : Program.Env) (ids : List Bytes) : Bool :=
  g.mode == .mandateDefault && (g.names ids && g.grants env)

/-- Where defaults come from and what they are for: the places of mandates and the steps that they
serve, in order.  A step that a mandate serves is not open to the guardrails behind it. -/
def mandates (env : Program.Env) (ids : Nat → List Bytes) :
    List PlanGuardrail → List Nat → List (Nat × Nat)
  | [], _ => []
  | g :: rest, steps =>
    ((steps.filter fun i => g.serves env (ids i)).map fun i => (0, i)) ++
      (mandates env ids rest (steps.filter fun i => !g.serves env (ids i))).map
        fun place => (place.1 + 1, place.2)

/-- The default of a mandate for a step, as the guardrails behind the mandate leave it. -/
def defaultAt (env : Program.Env) (rails : List PlanGuardrail) (place : Nat × Nat) :
    Option Decision :=
  rails[place.1]?.map fun g => settledBy env (rails.drop (place.1 + 1)) (g.defaultFor place.2)

theorem filterMap_split_perm {α β : Type} (p : α → Bool) (f : α → β) (h : α → Option β)
    (l : List α) : (l.filterMap fun x => if p x = true then some (f x) else h x).Perm
      ((l.filter p).map f ++ (l.filter fun x => !p x).filterMap h) := by
  induction l with
  | nil => exact .nil
  | cons x l ih =>
    by_cases hp : p x = true
    · rw [List.filterMap_cons, if_pos hp, List.filter_cons_of_pos hp,
        List.filter_cons_of_neg (by simp [hp])]
      exact ih.cons (f x)
    · rw [List.filterMap_cons, if_neg hp, List.filter_cons_of_neg hp,
        List.filter_cons_of_pos (by simpa using hp), List.filterMap_cons]
      cases h x with
      | none => exact ih
      | some y => exact (ih.cons y).trans List.perm_middle.symm

/-- The steps of a plan that may be unresolved are selections, with the rules that they select
between. -/
def Blueprint.Selects (b : Blueprint) (step : Nat) (ids : List Bytes) : Prop :=
  ∃ s, b.steps[step]? = some (.selector s) ∧
    List.Forall₂ (fun br id => b.nodeId? br.node = some id) s.branches ids

/-! ## Mandates -/

namespace PlanGuardrail

variable {g : PlanGuardrail} {b : Blueprint} {env : Program.Env} {ids : Nat → List Bytes}

/-- A mandate supplies a default for a step: the step has none yet, the mandate is about it, and its
condition does not say no. -/
def supplies (g : PlanGuardrail) (env : Program.Env) (ids : Nat → List Bytes)
    (defaulted : List Nat) (step : Nat) : Bool :=
  !defaulted.contains step && (g.names (ids step) && g.grants env)

/-- A mandate leaves a review as it is, or it supplies its default for a selection that has none yet
and that it is about. -/
theorem mandateStep_cases {r r' : Review} {step : Nat} (h : g.mandateStep b env r step = .ok r') :
    r' = r ∨ ∃ sel, step ∉ r.defaulted ∧ b.steps[step]? = some (.selector sel) ∧
      g.targets b sel = .ok true ∧ r' = g.supply sel step r (g.mandateAnswer env) := by
  unfold mandateStep at h
  split at h
  · cases h
    exact .inl rfl
  · rename_i hnew
    split at h
    · cases h
    · rename_i sel hsel
      obtain ⟨targeted, htargets, h⟩ := bind_eq_ok.1 h
      split at h
      · rename_i htargeted
        cases h
        exact .inr ⟨sel, by simpa using hnew, hsel, htargeted ▸ htargets, rfl⟩
      · cases h
        exact .inl rfl
    · cases h
      exact .inl rfl

/-- What a veto keeps that goes through all decisions, or a mandate that supplies a default for an
unresolved step, is kept by the guardrail. -/
theorem apply_invariant {P : Review → Prop} {unresolved : List Nat} {r r' : Review}
    (hveto : g.mode = .veto → ∀ r, P r → P (g.runVeto env r))
    (hsupply : g.mode = .mandateDefault → ∀ step ∈ unresolved, ∀ sel r, P r →
      P (g.supply sel step r (g.mandateAnswer env)))
    (hr : P r) (h : g.apply b env unresolved r = .ok r') : P r' := by
  unfold apply at h
  cases hmode : g.mode with
  | veto =>
    rw [hmode] at h
    cases h
    exact hveto hmode r hr
  | mandateDefault =>
    rw [hmode] at h
    refine foldlM_invariant (P := P) (fun step hstep p q hp hq => ?_) hr h
    rcases mandateStep_cases hq with rfl | ⟨sel, -, -, -, rfl⟩
    · exact hp
    · exact hsupply hmode step hstep sel p hp

theorem exists_mandateStep (g : PlanGuardrail) (env : Program.Env) {step : Nat}
    (h : b.Selects step (ids step)) (r : Review) :
    ∃ r', g.mandateStep b env r step = .ok r' ∧
      r'.decisions = r.decisions ++
        (if g.supplies env ids r.defaulted step then [g.defaultFor step] else []) ∧
      r'.defaulted =
        (if g.supplies env ids r.defaulted step then [step] else []) ++ r.defaulted := by
  obtain ⟨s, hs, hids⟩ := h
  obtain ⟨hdecisions, hdefaulted⟩ := g.supply_mandateAnswer env s step r
  unfold mandateStep supplies
  cases r.defaulted.contains step with
  | true => exact ⟨r, rfl, (List.append_nil _).symm, rfl⟩
  | false =>
    rw [hs]
    simp only [Bool.false_eq_true, if_false, targets_eq hids, bind, Except.bind]
    cases g.names (ids step) with
    | true => exact ⟨_, rfl, hdecisions, hdefaulted⟩
    | false => exact ⟨r, rfl, (List.append_nil _).symm, rfl⟩

/-- A mandate goes through the unresolved steps one by one; what it supplies for one does not matter
to the others. -/
theorem exists_mandateSteps (g : PlanGuardrail) (env : Program.Env) {unresolved : List Nat}
    (hnodup : unresolved.Nodup)
    (hselects : ∀ step ∈ unresolved, b.Selects step (ids step)) (r : Review) :
    ∃ r', unresolved.foldlM (g.mandateStep b env) r = .ok r' ∧
      r'.decisions = r.decisions ++
        (unresolved.filter (g.supplies env ids r.defaulted)).map g.defaultFor ∧
      ∀ step, step ∈ r'.defaulted ↔ step ∈ r.defaulted ∨
        (step ∈ unresolved ∧ g.supplies env ids r.defaulted step = true) := by
  induction unresolved generalizing r with
  | nil => exact ⟨r, rfl, (List.append_nil _).symm, by simp⟩
  | cons step rest ih =>
    obtain ⟨hnew, hnodup⟩ := List.nodup_cons.1 hnodup
    obtain ⟨q, hq, hdecisions, hdefaulted⟩ :=
      g.exists_mandateStep env (hselects step (List.mem_cons_self ..)) r
    obtain ⟨r', hrun, hdecisions', hmem⟩ :=
      ih hnodup (fun i hi => hselects i (List.mem_cons_of_mem _ hi)) q
    have hsame : ∀ i, i ≠ step →
        g.supplies env ids q.defaulted i = g.supplies env ids r.defaulted i := by
      intro i hi
      unfold supplies
      rw [hdefaulted]
      split <;> simp [hi]
    have hrest : rest.filter (g.supplies env ids q.defaulted) =
        rest.filter (g.supplies env ids r.defaulted) :=
      List.filter_congr fun i hi => hsame i fun heq => hnew (heq ▸ hi)
    refine ⟨r', ?_, ?_, fun i => ?_⟩
    · rw [List.foldlM_cons, hq]
      exact hrun
    · rw [hdecisions', hdecisions, hrest, List.filter_cons]
      split <;> simp
    · rw [hmem]
      by_cases hi : i = step
      · subst hi
        rw [hdefaulted]
        cases g.supplies env ids r.defaulted i <;> simp [hnew]
      · rw [hsame i hi, hdefaulted, List.mem_append, List.mem_cons]
        split <;> simp [hi]

end PlanGuardrail

/-! ## All guardrails -/

section

variable {b : Blueprint} {env : Program.Env} {ids : Nat → List Bytes} {unresolved : List Nat}

theorem filterMap_defaultAt_first (env : Program.Env) (g : PlanGuardrail)
    (rest : List PlanGuardrail) (steps : List Nat) :
    (steps.map fun i => (0, i)).filterMap (defaultAt env (g :: rest)) =
      steps.map fun i => settledBy env rest (g.defaultFor i) := by
  rw [List.filterMap_map, ← List.filterMap_eq_map]
  rfl

theorem filterMap_defaultAt_behind (env : Program.Env) (g : PlanGuardrail)
    (rest : List PlanGuardrail) (places : List (Nat × Nat)) :
    (places.map fun place => (place.1 + 1, place.2)).filterMap (defaultAt env (g :: rest)) =
      places.filterMap (defaultAt env rest) := by
  rw [List.filterMap_map]
  rfl

theorem mandates_cons_of_veto {g : PlanGuardrail} (hmode : g.mode = .veto)
    (rest : List PlanGuardrail) (steps : List Nat) :
    mandates env ids (g :: rest) steps =
      (mandates env ids rest steps).map fun place => (place.1 + 1, place.2) := by
  have hserves : ∀ i, g.serves env (ids i) = false := fun i => by simp [PlanGuardrail.serves, hmode]
  simp [mandates, hserves]

/-- A veto is run on every decision that is there, and opens or closes no selection. -/
theorem exists_apply_of_veto {g : PlanGuardrail} (hmode : g.mode = .veto) (r : Review) :
    ∃ q, g.apply b env unresolved r = .ok q ∧ q.defaulted = r.defaulted ∧
      ∀ rest, q.decisions.map (settledBy env rest) =
        r.decisions.map (settledBy env (g :: rest)) := by
  refine ⟨g.runVeto env r, ?_, rfl, fun rest => ?_⟩
  · unfold PlanGuardrail.apply
    rw [hmode]
  · unfold PlanGuardrail.runVeto
    rw [List.map_map, List.map_map]
    refine List.map_congr_left fun d _ => ?_
    rw [settledBy, List.foldl_cons, if_pos hmode]
    rfl

/-- A mandate gives its default for the steps that it serves of those that have none yet, and these
are not open any more. -/
theorem exists_apply_of_mandate {g : PlanGuardrail} (hmode : g.mode = .mandateDefault)
    (hnodup : unresolved.Nodup) (hselects : ∀ step ∈ unresolved, b.Selects step (ids step))
    (r : Review) {opens : List Nat}
    (hopens : opens = unresolved.filter fun step => !r.defaulted.contains step) :
    ∃ q, g.apply b env unresolved r = .ok q ∧
      q.decisions = r.decisions ++
        (opens.filter fun i => g.serves env (ids i)).map g.defaultFor ∧
      (unresolved.filter fun step => !q.defaulted.contains step) =
        opens.filter fun i => !g.serves env (ids i) := by
  subst hopens
  obtain ⟨q, hq, hdecisions, hmem⟩ := g.exists_mandateSteps env hnodup hselects r
  have hserves : ∀ i, g.serves env (ids i) = (g.names (ids i) && g.grants env) := fun i => by
    simp [PlanGuardrail.serves, hmode]
  refine ⟨q, ?_, ?_, ?_⟩
  · unfold PlanGuardrail.apply
    rw [hmode]
    exact hq
  · rw [hdecisions, List.filter_filter]
    refine congrArg (fun steps => r.decisions ++ List.map g.defaultFor steps) ?_
    exact List.filter_congr fun i _ => by rw [hserves, Bool.and_comm]; rfl
  · rw [List.filter_filter]
    refine List.filter_congr fun step hstep => ?_
    rw [Bool.eq_iff_iff]
    simp only [Bool.not_eq_true', ← Bool.not_eq_true, List.contains_iff_mem, hmem, hstep,
      true_and, PlanGuardrail.supplies, Bool.and_eq_true, hserves]
    tauto

/-- From any point on, guardrails give what vetoes make of the decisions that are there and, behind
them and in order, the defaults for the steps that have none yet. -/
theorem exists_foldlM_apply (env : Program.Env) (hnodup : unresolved.Nodup)
    (hselects : ∀ step ∈ unresolved, b.Selects step (ids step)) (rails : List PlanGuardrail)
    (r : Review) :
    ∃ r', rails.foldlM (fun r g => g.apply b env unresolved r) r = .ok r' ∧
      r'.decisions = r.decisions.map (settledBy env rails) ++
        (mandates env ids rails (unresolved.filter fun step => !r.defaulted.contains step)).filterMap
          (defaultAt env rails) := by
  induction rails generalizing r with
  | nil =>
    have hsettled : r.decisions.map (settledBy env []) = r.decisions := List.map_id _
    exact ⟨r, rfl, by rw [hsettled, mandates, List.filterMap_nil, List.append_nil]⟩
  | cons g rest ih =>
    rw [List.foldlM_cons]
    cases hmode : g.mode with
    | veto =>
      obtain ⟨q, hq, hdefaulted, hsettled⟩ := exists_apply_of_veto (b := b) hmode r
      obtain ⟨r', hrun, hdecisions⟩ := ih q
      refine ⟨r', by rw [hq]; exact hrun, hdecisions.trans ?_⟩
      rw [hsettled, hdefaulted, mandates_cons_of_veto hmode, filterMap_defaultAt_behind]
    | mandateDefault =>
      obtain ⟨q, hq, hgiven, hopen⟩ := exists_apply_of_mandate hmode hnodup hselects r rfl
      obtain ⟨r', hrun, hdecisions⟩ := ih q
      refine ⟨r', by rw [hq]; exact hrun, hdecisions.trans ?_⟩
      have hsettled : settledBy env (g :: rest) = settledBy env rest := by
        funext d
        rw [settledBy, List.foldl_cons, if_neg (by simp [hmode])]
        rfl
      rw [hgiven, hopen, hsettled, mandates, List.map_append, List.map_map, List.filterMap_append,
        filterMap_defaultAt_first, filterMap_defaultAt_behind, List.append_assoc]
      rfl

/-- The defaults are those that the open steps get, one by one. -/
theorem perm_mandates (env : Program.Env) (ids : Nat → List Bytes) (rails : List PlanGuardrail)
    (steps : List Nat) :
    ((mandates env ids rails steps).filterMap (defaultAt env rails)).Perm
      (steps.filterMap (suppliedBy env ids rails)) := by
  induction rails generalizing steps with
  | nil =>
    have hnone : steps.filterMap (suppliedBy env ids []) = [] :=
      List.filterMap_eq_nil_iff.2 fun _ _ => rfl
    rw [hnone]
    exact .nil
  | cons g rest ih =>
    have hsupplied : suppliedBy env ids (g :: rest) = fun step =>
        if g.serves env (ids step) = true then some (settledBy env rest (g.defaultFor step))
        else suppliedBy env ids rest step := by
      funext step
      simp only [suppliedBy, PlanGuardrail.serves, Bool.and_eq_true, beq_iff_eq]
    rw [hsupplied, mandates, List.filterMap_append, filterMap_defaultAt_first,
      filterMap_defaultAt_behind]
    exact ((ih _).append_left _).trans (filterMap_split_perm _ _ _ _).symm

/-- Guardrails give what vetoes make of the decisions and, behind them, the defaults that mandates
supply for the unresolved steps. -/
theorem Blueprint.exists_applyGuardrails_eq (env : Program.Env) (hnodup : unresolved.Nodup)
    (hselects : ∀ step ∈ unresolved, b.Selects step (ids step)) (decisions : List Decision) :
    ∃ r, b.applyGuardrails env unresolved decisions = .ok r ∧
      r.decisions = decisions.map (settledBy env b.guardrails) ++
        (mandates env ids b.guardrails unresolved).filterMap (defaultAt env b.guardrails) := by
  have hopen : (unresolved.filter fun step => !(Review.start decisions).defaulted.contains step) =
      unresolved := List.filter_eq_self.2 fun _ _ => rfl
  obtain ⟨r, hr, hdecisions⟩ := exists_foldlM_apply env hnodup hselects b.guardrails
    (Review.start decisions)
  rw [hopen] at hdecisions
  exact ⟨r, hr, hdecisions⟩

/-- Up to their order, guardrails give what vetoes make of the decisions, and one default for each
unresolved step that a mandate supplies one for. -/
theorem Blueprint.exists_applyGuardrails (env : Program.Env) (hnodup : unresolved.Nodup)
    (hselects : ∀ step ∈ unresolved, b.Selects step (ids step)) (decisions : List Decision) :
    ∃ r, b.applyGuardrails env unresolved decisions = .ok r ∧
      r.decisions.Perm (decisions.map (settledBy env b.guardrails) ++
        unresolved.filterMap (suppliedBy env ids b.guardrails)) := by
  obtain ⟨r, hr, hdecisions⟩ := b.exists_applyGuardrails_eq env hnodup hselects decisions
  exact ⟨r, hr, hdecisions ▸ (perm_mandates env ids b.guardrails unresolved).append_left _⟩

end
end DecisionEngine
