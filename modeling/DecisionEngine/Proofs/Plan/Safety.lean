import DecisionEngine.Proofs.Blueprint.Indices
import DecisionEngine.Proofs.Plan.Incidents
import DecisionEngine.Proofs.Plan.Selection
import DecisionEngine.Proofs.Plan.Totality
import DecisionEngine.Proofs.Program.Accesses
/-!
# Blueprints that were read are safe to run

Reading a blueprint looks at the numbers of its nodes and at nothing else: programs jump and look up
what they like, and dominance may run in circles.  Still a run of whatever was read only touches
what is there.  It comes to a result that tells of every program that faulted, unless a selection
gets stuck because its candidates all dominate each other.

* `Situation.Stalls` — a run gets to a selection that is stuck.
* `Situation.runSelector_or` — a selection is run, or it is stuck.
* `Situation.runSteps_or` — so are steps one after another, and the whole plan.
* `Blueprint.safe_of_decode` — what was read is safe to run.
-/

namespace DecisionEngine

/-- The programs of a blueprint: those of its guards and of its guardrails. -/
def Blueprint.programs (b : Blueprint) : List Program :=
  (b.steps.flatMap fun step => step.guards.map (·.program)) ++ b.guardrails.map (·.violation)

/-! ## Selections -/

/-- Candidates of which each is dominated cannot be arbitrated. -/
theorem Selector.arbitrate_of_undominated {s : Selector} (comparators : Comparators)
    {nodes : List PlanNode} {places : List Nat} {among : List Candidate}
    (hplaces : List.Forall₂ (fun i c => s.candidate? nodes i = some c ∧ c.index = i) places among)
    (hsome : among ≠ []) (hnone : s.undominated among = []) :
    s.arbitrate comparators nodes places = .error (.dominanceCycle s.group) := by
  have hne : places ≠ [] := by
    rintro rfl
    cases hplaces
    exact hsome rfl
  unfold arbitrate
  rw [if_neg (by simpa using hne), mapM_eq_some_of_forall₂ (hplaces.imp fun _ _ h => h.1)]
  dsimp only [settle]
  rw [hnone]

namespace Situation

variable {s : Situation}

/-- A selection is stuck: dominance runs in a circle among its candidates, and each of them is
dominated. -/
def Stuck (s : Situation) (fired : List Bool) (sel : Selector) : Prop :=
  sel.Deadlocked ((s.candidates fired sel).map (·.index))

/-- A run gets to a selection that is stuck. -/
def Stalls (s : Situation) (sel : Selector) : Prop :=
  ∃ before index after p, s.blueprint.steps.zipIdx = before ++ (.selector sel, index) :: after ∧
    s.runSteps before (.start s.blueprint) = .ok p ∧ s.Stuck p.fired sel

/-- Where none of the candidates is picked the selection is stuck, and ends the run. -/
theorem runSelector_of_unpicked (index : Nat) {sel : Selector} (p : Progress)
    (hnodes : ∀ b ∈ sel.branches, b.node < s.blueprint.nodes.length)
    (hsome : s.candidates p.fired sel ≠ [])
    (hnone : pick sel.dominatesIn (sel.beats s.comparators) (s.candidates p.fired sel) = none) :
    s.Stuck p.fired sel ∧
      s.runSelector index sel p = .error (.arbitration (.dominanceCycle sel.group)) := by
  rw [Selector.pick_eq_none_iff] at hnone
  constructor
  · by_contra hfree
    exact Selector.undominated_ne_nil (fun c hc => branch_of_mem_candidates hc) hsome hfree hnone
  · obtain ⟨q, htests, -⟩ := exists_testBranches index sel.branches.zipIdx p
      fun b hb => hnodes b.1 (List.fst_mem_of_mem_zipIdx hb)
    have harbitrate := Selector.arbitrate_of_undominated s.comparators
      (s.forall₂_candidates p.fired hnodes) hsome hnone
    unfold runSelector
    rw [htests]
    simp only [bind, Except.bind, harbitrate]
    rfl

/-- A selection whose branches have nodes is run, or it is stuck. -/
theorem runSelector_or (index : Nat) {sel : Selector} (p : Progress)
    (hnodes : ∀ b ∈ sel.branches, b.node < s.blueprint.nodes.length) :
    (∃ p', s.runSelector index sel p = .ok p' ∧
      p.Takes p' index (.selector sel) (s.winner? p.fired (.selector sel))) ∨
    (s.Stuck p.fired sel ∧
      s.runSelector index sel p = .error (.arbitration (.dominanceCycle sel.group))) := by
  by_cases hpick : s.candidates p.fired sel ≠ [] →
      ∃ w, pick sel.dominatesIn (sel.beats s.comparators) (s.candidates p.fired sel) = some w
  · exact .inl (exists_runSelector_of_pick index p hnodes hpick)
  · push Not at hpick
    exact .inr (runSelector_of_unpicked index p hnodes hpick.1
      (Option.eq_none_iff_forall_ne_some.2 hpick.2))

/-! ## Steps -/

theorem length_fired_of_takes {p p' : Progress} {index : Nat} {step : Step} {w : Option Winner}
    (h : p.Takes p' index step w) : p'.fired.length = p.fired.length := by
  cases h with
  | won w hgains => rw [hgains.fired, List.length_set]
  | idle hgains => rw [hgains.fired]

/-- A step whose nodes the plan has is run, or it is a selection that is stuck. -/
theorem runStep_or (index : Nat) {step : Step} (p : Progress)
    (hnodes : ∀ ch ∈ step.choices, ch.1 < s.blueprint.nodes.length) :
    (∃ p', s.runStep index step p = .ok p' ∧ p.Takes p' index step (s.winner? p.fired step)) ∨
    ∃ sel, step = .selector sel ∧ s.Stuck p.fired sel ∧
      s.runStep index step p = .error (.arbitration (.dominanceCycle sel.group)) := by
  have hacyclic : ∀ n : Nat, ¬Relation.TransGen (fun x y => (x, y) ∈ ([] : List (Nat × Nat))) n n :=
    fun n hcycle => by
      obtain ⟨_, h, -⟩ := Relation.TransGen.head'_iff.1 hcycle
      exact absurd h List.not_mem_nil
  cases step with
  | sequential node g => exact .inl (exists_runSequential ⟨hnodes, hacyclic⟩ p)
  | task node g o => exact .inl (exists_runTask ⟨hnodes, hacyclic⟩ p)
  | selector sel =>
    refine (runSelector_or index p fun b hb => ?_).imp id fun h => ⟨sel, rfl, h⟩
    exact hnodes (b.node, b.guard) (List.mem_map.2 ⟨b, hb, rfl⟩)

/-- Steps whose nodes the plan has are run, one after another, or one of them is a selection that is
stuck; only selections stay unresolved, and there is a flag for every node all along. -/
theorem runSteps_or (hexpired : s.expired = false) {steps : List (Step × Nat)}
    (hnodes : ∀ x ∈ steps, ∀ ch ∈ x.1.choices, ch.1 < s.blueprint.nodes.length) (p : Progress) :
    (∃ p', s.runSteps steps p = .ok p' ∧ p'.fired.length = p.fired.length ∧
      ∀ i ∈ p'.unresolved, i ∈ p.unresolved ∨ ∃ sel, (Step.selector sel, i) ∈ steps) ∨
    ∃ before sel index after q, steps = before ++ (.selector sel, index) :: after ∧
      s.runSteps before p = .ok q ∧ s.Stuck q.fired sel ∧
      s.runSteps steps p = .error (.arbitration (.dominanceCycle sel.group)) := by
  induction steps generalizing p with
  | nil => exact .inl ⟨p, rfl, rfl, fun i hi => .inl hi⟩
  | cons head rest ih =>
    obtain ⟨step, index⟩ := head
    have hstep := hnodes (step, index) (List.mem_cons_self ..)
    have htime := checkTime_of_unexpired hexpired .ruleEvaluation
    have hruns : ∀ {q : Progress} {others : List (Step × Nat)}, s.runStep index step p = .ok q →
        s.runSteps ((step, index) :: others) p = s.runSteps others q := fun hq => by
      rw [runSteps, htime, hq]
      rfl
    rcases runStep_or index p hstep with ⟨q, hq, htakes⟩ | ⟨sel, rfl, hstuck, herror⟩
    · rcases ih (fun x hx => hnodes x (List.mem_cons_of_mem _ hx)) q with
        ⟨p', hrun, hfired, hunresolved⟩ | ⟨before, sel, i, after, q', rfl, hbefore, hstuck, hrun⟩
      · refine .inl ⟨p', (hruns hq).trans hrun, ?_, unresolved_cons htakes hunresolved⟩
        rw [hfired, length_fired_of_takes htakes]
      · exact .inr ⟨(step, index) :: before, sel, i, after, q', rfl, (hruns hq).trans hbefore,
          hstuck, (hruns hq).trans hrun⟩
    · refine .inr ⟨[], sel, index, rest, p, rfl, rfl, hstuck, ?_⟩
      rw [runSteps, htime]
      simp only [bind, Except.bind, herror]

/-! ## Plans -/

/-- Whatever steps of a plan have been run, there is a flag for every node, and no other one. -/
theorem length_fired (hexpired : s.expired = false) (hclosed : s.blueprint.Closed)
    {before after : List (Step × Nat)} {p : Progress}
    (hsplit : s.blueprint.steps.zipIdx = before ++ after)
    (h : s.runSteps before (.start s.blueprint) = .ok p) :
    p.fired.length = s.blueprint.nodes.length := by
  have hnodes : ∀ x ∈ before, ∀ ch ∈ x.1.choices, ch.1 < s.blueprint.nodes.length := fun x hx =>
    hclosed.choices x.1 (List.fst_mem_of_mem_zipIdx (hsplit ▸ List.mem_append_left _ hx))
  rcases runSteps_or hexpired hnodes (.start s.blueprint) with
    ⟨p', hp', hfired, -⟩ | ⟨_, _, _, _, _, _, _, _, herror⟩
  · obtain rfl := Except.ok.inj (h.symm.trans hp')
    rw [hfired]
    exact List.length_map _
  · rw [h] at herror
    cases herror

/-- A plan whose nodes are there comes to a result, or to a selection that is stuck. -/
theorem run_or (hexpired : s.expired = false) (hclosed : s.blueprint.Closed) :
    (∃ result, s.run = .ok result) ∨
    ∃ sel, s.Stalls sel ∧ s.run = .error (.arbitration (.dominanceCycle sel.group)) := by
  have hnodes : ∀ x ∈ s.blueprint.steps.zipIdx, ∀ ch ∈ x.1.choices,
      ch.1 < s.blueprint.nodes.length := fun x hx =>
    hclosed.choices x.1 (List.fst_mem_of_mem_zipIdx hx)
  rcases runSteps_or hexpired hnodes (.start s.blueprint) with
    ⟨p, hrun, -, hunresolved⟩ | ⟨before, sel, index, after, q, hsplit, hbefore, hstuck, hrun⟩
  · exact .inl (exists_run_of_runSteps hexpired hrun hunresolved hclosed.choices)
  · refine .inr ⟨sel, ⟨before, index, after, q, hsplit, hbefore, hstuck⟩, ?_⟩
    unfold run
    rw [hrun]
    rfl

end Situation

/-- **Whatever was read is safe to run.**  The numbers of nodes in a blueprint that was read, from
any bytes, are numbers of its nodes.  Its programs, whatever they are and on whatever environment,
only touch what is there.  Within the time limit, a run on any mask, attributes, inputs and
comparators, verbose or not, has a flag for every node all along, and comes to a result of which the
trail tells of every program that faulted; or a selection that it gets to is stuck, as its candidates
all dominate each other, and that is how it ends. -/
theorem Blueprint.safe_of_decode {bytes : Bytes} {b : Blueprint} (h : decode bytes = .ok b) :
    b.Closed ∧
    (∀ program ∈ b.programs, ∀ parts,
      program.attemptWithin program.code.length parts = some (program.run parts.env)) ∧
    ∀ s : Situation, s.blueprint = b → s.expired = false →
      (∀ before after p, b.steps.zipIdx = before ++ after →
        s.runSteps before (.start b) = .ok p → p.fired.length = b.nodes.length) ∧
      ((∃ result, s.run = .ok result ∧ ∀ e, s.Incident e → e ∈ result.trail) ∨
        ∃ sel, s.Stalls sel ∧ s.run = .error (.arbitration (.dominanceCycle sel.group))) := by
  have hclosed := closed_of_decode h
  refine ⟨hclosed, fun program _ parts => program.attemptWithin_eq parts, ?_⟩
  rintro s rfl hexpired
  refine ⟨fun before after p hsplit hp => Situation.length_fired hexpired hclosed hsplit hp, ?_⟩
  exact (Situation.run_or hexpired hclosed).imp_left
    fun ⟨result, hresult⟩ => ⟨result, hresult, fun e he => Situation.run_trail hresult he⟩

/-- A plan with a guard that jumps backwards, a selection whose branches dominate each other, and a
veto that looks up a constant which it does not have. -/
def Blueprint.reckless : Blueprint where
  id := .blank
  tenant := []
  decisionType := []
  catalog := .empty
  symbols := .empty
  nodes := [⟨utf8 "a", .action, []⟩, ⟨utf8 "b", .action, []⟩]
  steps :=
    [.task 0 ⟨0, ⟨[⟨.testFlag, 9, 0⟩, ⟨.jumpIfFalse, 0, 0⟩], [], 0⟩, [], []⟩ ⟨utf8 "pay", .empty⟩,
      .task 1 ⟨0, .empty, [], []⟩ ⟨utf8 "pay", .empty⟩,
      .selector ⟨utf8 "g", .firstSatisfied, [],
        [⟨0, ⟨1, .empty, [], []⟩, 0, .zero, none, 0⟩, ⟨1, ⟨1, .empty, [], []⟩, 0, .zero, none, 1⟩],
        [(0, 1), (1, 0)]⟩]
  guardrails := [⟨utf8 "v", [], .veto, [], ⟨[⟨.pushConst, 7, 0⟩], [], 0⟩, [], .deny, [], .null,
    ⟨[], .empty⟩⟩]
  encoded := []

set_option maxRecDepth 100000 in
/-- The plan is read back from its bytes.  Where the branches are skipped, the run tells of the guard
and of the veto; where they pass, it gets stuck. -/
theorem Blueprint.safe_of_decode_reckless :
    ∃ b, decode reckless.encode = .ok b ∧ b.Closed ∧
      (∃ result, (Situation.ofAttributes b 0 .empty .empty false .empty false).run = .ok result ∧
        result.trail.map (·.kind) =
          [.guardFault, .fired, .arbitration, .guardrailFault, .guardrailVeto] ∧
        ∀ e, (Situation.ofAttributes b 0 .empty .empty false .empty false).Incident e →
          e ∈ result.trail) ∧
      ∃ sel, (Situation.ofAttributes b 1 .empty .empty false .empty false).Stalls sel := by
  have hclosed : reckless.Closed := ⟨by decide, by decide⟩
  have hstorable : reckless.Storable := by
    refine ⟨?_, by decide, by decide, by decide⟩
    unfold Wire.Reader.Short
    cbv
  have hsame : reckless.withoutNegativeZero = reckless := by decide
  have hdecode := decode_encode hclosed hstorable
  rw [hsame] at hdecode
  obtain ⟨hnodes, -, hsafe⟩ := safe_of_decode hdecode
  -- neither the id nor the bytes matter to a run, so neither is computed
  have hkinds : ∀ id bytes, ((Situation.ofAttributes { reckless with id := id, encoded := bytes } 0
      .empty .empty false .empty false).run.map fun result => result.trail.map (·.kind)) = .ok
        [.guardFault, .fired, .arbitration, .guardrailFault, .guardrailVeto] := by
    intro id bytes
    cbv
  have hfails : ∀ id bytes, (Situation.ofAttributes { reckless with id := id, encoded := bytes } 1
      .empty .empty false .empty false).run.toOption = none := by
    intro id bytes
    cbv
  refine ⟨_, hdecode, hnodes, ?_, ?_⟩
  · obtain ⟨result, hresult, hkinds⟩ := map_eq_ok.1 (hkinds _ _)
    rcases (hsafe (Situation.ofAttributes _ 0 .empty .empty false .empty false) rfl rfl).2 with
      ⟨result', hresult', htold⟩ | ⟨sel, -, hstuck⟩
    · obtain rfl : result = result' := Except.ok.inj (hresult.symm.trans hresult')
      exact ⟨result, hresult, hkinds, htold⟩
    · cases hresult.symm.trans hstuck
  · rcases (hsafe (Situation.ofAttributes _ 1 .empty .empty false .empty false) rfl rfl).2 with
      ⟨result, hresult, -⟩ | ⟨sel, hstalls, -⟩
    · cases (hfails _ _).symm.trans (congrArg Except.toOption hresult)
    · exact ⟨sel, hstalls⟩

end DecisionEngine
