import DecisionEngine.Proofs.Compile.Checks
/-!
# What an accepted revision has passed

A blueprint comes out of a compilation only where no stage found an error, and unless warnings
count as errors it comes out wherever none did.

* `Revision.Passed` — what each stage of a successful compilation saw.
* `Revision.passed_of_compile` — a blueprint has passed all stages.
* `Revision.compile_passed`, `Revision.compile_stopped` — what comes out of a compilation.
* `Revision.accepted` — whether a revision passes all stages.
-/

namespace DecisionEngine

/-! ## Stages -/

namespace Revision

/-- The graph of kept leaves. -/
def keptGraph (r : Revision) (o : CompilerOptions) : FlatGraph :=
  (FlatGraph.ofNormal (NormalGraph.ofRevision r).1 o.dropUnreachable).1

/-- The contests of the kept leaves, in the order of the plan. -/
def contests (r : Revision) (o : CompilerOptions) : List Contest :=
  ((r.keptGraph o).contests (r.keptGraph o).ordered.1).1

/-- No stage of a compilation found an error, and the blueprint is what was emitted. -/
structure Passed (r : Revision) (o : CompilerOptions) (b : Blueprint) : Prop where
  normal : (NormalGraph.ofRevision r).2.failed = false
  lint : ((NormalGraph.ofRevision r).1.lint r.guardrails).failed = false
  ordered : (r.keptGraph o).ordered.2.failed = false
  settled : ((r.keptGraph o).contests (r.keptGraph o).ordered.1).2.failed = false
  emitted : b = (r.emit o.maxAttributeBits (r.keptGraph o) (r.contests o)).1

theorem Passed.checked {r : Revision} {o : CompilerOptions} {b : Blueprint} (h : r.Passed o b) :
    r.Checked := ⟨h.normal, h.lint⟩

theorem blueprint_finish {o : CompilerOptions} {figures : CompileFigures} {found : Findings}
    {b : Option Blueprint} {b' : Blueprint}
    (h : (Compilation.finish o figures found b).blueprint = some b') : b = some b' := by
  unfold Compilation.finish at h
  dsimp only at h
  generalize (if o.warningsAsErrors then found.strict else found).failed = failed at h
  cases failed with
  | false => exact h
  | true => cases h

/-- A blueprint has passed all stages. -/
theorem passed_of_compile {r : Revision} {o : CompilerOptions} {b : Blueprint}
    (h : (r.compile o).blueprint = some b) : r.Passed o b := by
  unfold compile at h
  dsimp only at h
  split at h
  · exact absurd (blueprint_finish h) (by simp)
  · rename_i hnormal
    split at h
    · exact absurd (blueprint_finish h) (by simp)
    · rename_i hlint
      split at h
      · exact absurd (blueprint_finish h) (by simp)
      · rename_i hordered
        split at h
        · exact absurd (blueprint_finish h) (by simp)
        · rename_i hsettled
          have hb := Option.some.inj (blueprint_finish h)
          rw [Bool.not_eq_true] at hnormal hlint hordered hsettled
          exact ⟨hnormal, (Findings.failed_also.1 hlint).2, (Findings.failed_also.1 hordered).2,
            (Findings.failed_also.1 hsettled).2, hb.symm⟩

variable {r : Revision} {o : CompilerOptions} {figures : CompileFigures} {found : Findings}
variable {b : Option Blueprint}

theorem finish_of_failed (hstrict : o.warningsAsErrors = false) (h : found.failed = true) :
    (Compilation.finish o figures found b).blueprint = none ∧
      (Compilation.finish o figures found b).errors ≠ [] := by
  simp only [Compilation.finish, hstrict, Bool.false_eq_true, if_false, h, if_true, true_and]
  simpa [Findings.failed] using h

theorem finish_of_not_failed (hstrict : o.warningsAsErrors = false) (h : found.failed = false) :
    (Compilation.finish o figures found b).blueprint = b ∧
      (Compilation.finish o figures found b).errors = [] := by
  simp only [Compilation.finish, hstrict, Bool.false_eq_true, if_false, h, true_and]
  exact Findings.failed_iff.1 h

/-- What all stages of a compilation find. -/
def findings (r : Revision) (o : CompilerOptions) : Findings :=
  let (g, taken) := NormalGraph.ofRevision r
  ((((taken.also (g.lint r.guardrails)).also (FlatGraph.ofNormal g o.dropUnreachable).2.1).also
    (r.keptGraph o).ordered.2).also ((r.keptGraph o).contests (r.keptGraph o).ordered.1).2).also
    (r.emit o.maxAttributeBits (r.keptGraph o) (r.contests o)).2

/-- Where no stage finds an error, a compilation goes on to its end. -/
theorem compile_eq {b : Blueprint} (h : r.Passed o b) : (r.findings o).failed = false ∧
    ∃ figures, r.compile o = .finish o figures (r.findings o) (some b) := by
  have hlint := Findings.failed_also.2 ⟨h.normal, h.lint⟩
  have hpruning : (FlatGraph.ofNormal (NormalGraph.ofRevision r).1
      o.dropUnreachable).2.1.failed = false := rfl
  have hpruned := Findings.failed_also.2 ⟨hlint, hpruning⟩
  have hordered := Findings.failed_also.2 ⟨hpruned, h.ordered⟩
  have hsettled := Findings.failed_also.2 ⟨hordered, h.settled⟩
  refine ⟨Findings.failed_also.2 ⟨hsettled, rfl⟩, ?_⟩
  unfold compile
  dsimp only
  split
  · rename_i hfailed
    exact absurd (h.normal.symm.trans hfailed) Bool.false_ne_true
  · split
    · rename_i hfailed
      exact absurd (hlint.symm.trans hfailed) Bool.false_ne_true
    · split
      · rename_i hfailed
        exact absurd (hordered.symm.trans hfailed) Bool.false_ne_true
      · split
        · rename_i hfailed
          exact absurd (hsettled.symm.trans hfailed) Bool.false_ne_true
        · rw [h.emitted]
          exact ⟨_, rfl⟩

/-- Where no stage finds an error, a plan comes out and no error. -/
theorem compile_passed (hstrict : o.warningsAsErrors = false) {b : Blueprint} (h : r.Passed o b) :
    (r.compile o).blueprint = some b ∧ (r.compile o).errors = [] := by
  obtain ⟨hfound, figures, hcompile⟩ := compile_eq h
  rw [hcompile]
  exact finish_of_not_failed hstrict hfound

/-- Where a stage finds an error, errors come out and no plan. -/
theorem compile_stopped (hstrict : o.warningsAsErrors = false) (h : ¬∃ b, r.Passed o b) :
    (r.compile o).blueprint = none ∧ (r.compile o).errors ≠ [] := by
  unfold compile
  dsimp only
  split
  · rename_i hnormal
    exact finish_of_failed hstrict hnormal
  · rename_i hnormal
    split
    · rename_i hlint
      exact finish_of_failed hstrict hlint
    · rename_i hlint
      split
      · rename_i hordered
        exact finish_of_failed hstrict hordered
      · rename_i hordered
        split
        · rename_i hsettled
          exact finish_of_failed hstrict hsettled
        · rename_i hsettled
          rw [Bool.not_eq_true] at hnormal hlint hordered hsettled
          exact absurd ⟨_, hnormal, (Findings.failed_also.1 hlint).2,
            (Findings.failed_also.1 hordered).2, (Findings.failed_also.1 hsettled).2, rfl⟩ h

/-! ## Accepted revisions -/

/-- The plan that is made from a revision. -/
def planned (r : Revision) (o : CompilerOptions) : Blueprint :=
  (r.emit o.maxAttributeBits (r.keptGraph o) (r.contests o)).1

/-- Whether no stage of a compilation finds an error, be there warnings or not. -/
def accepted (r : Revision) (o : CompilerOptions) : Bool :=
  let (g, taken) := NormalGraph.ofRevision r
  let (units, ordering) := (r.keptGraph o).ordered
  !taken.failed && g.references.errors.isEmpty && g.membershipCycles.isEmpty &&
    g.orderingCycles.isEmpty && g.missingEntry.isEmpty && g.badExpressions.isEmpty &&
    (g.badGuardrails [] r.guardrails).isEmpty && !ordering.failed &&
    !((r.keptGraph o).contests units).2.failed

theorem accepted_iff : r.accepted o = true ↔ r.Passed o (r.planned o) := by
  simp only [accepted, Bool.and_eq_true, Bool.not_eq_true', List.isEmpty_iff]
  constructor
  · rintro ⟨⟨⟨⟨⟨⟨⟨⟨htaken, hreferences⟩, hmembers⟩, horder⟩, hentry⟩, hexpressions⟩, hrails⟩,
      hordered⟩, hsettled⟩
    exact ⟨htaken, NormalGraph.lint_failed_iff.2
      ⟨hreferences, hmembers, horder, hentry, hexpressions, hrails⟩, hordered, hsettled, rfl⟩
  · intro h
    obtain ⟨hreferences, hmembers, horder, hentry, hexpressions, hrails⟩ :=
      NormalGraph.lint_failed_iff.1 h.lint
    exact ⟨⟨⟨⟨⟨⟨⟨⟨h.normal, hreferences⟩, hmembers⟩, horder⟩, hentry⟩, hexpressions⟩, hrails⟩,
      h.ordered⟩, h.settled⟩

theorem compile_of_accepted (hstrict : o.warningsAsErrors = false) (h : r.accepted o = true) :
    (r.compile o).blueprint = some (r.planned o) :=
  (compile_passed hstrict (accepted_iff.1 h)).1

end Revision

/-! ## Edges -/

/-- An edge that puts nodes in order puts its ends in order. -/
theorem Edge.ends_of_ordering? {e : Edge} {a b : Bytes} (h : e.ordering? = some (a, b)) :
    (a = e.source ∧ b = e.target) ∨ (a = e.target ∧ b = e.source) := by
  unfold ordering? at h
  split at h <;> simp_all

end DecisionEngine
