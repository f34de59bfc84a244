import DecisionEngine.Proofs.Plan.Entries
/-!
# Runs with and without details

Whether everything is to be explained is looked at in two places, in the test of a guard and where a
branch becomes a candidate, and both times nothing but an entry of the trail depends on it.  So a
run without details is, from step to step, the run with details, with those entries left out.

* `TrailKind.isDetail`, `Trail.terse` — the entries that are left out.
* `Situation.quiet` — a situation in which nothing more is to be explained.
* `Situation.testGuard_quiet`, `Situation.agree_quiet_runStep` — guards and steps.
* `Trail.Only.terse_eq` — guardrails make no details.
* `Situation.agree_quiet_run` — whole runs.
-/

namespace DecisionEngine

/-! ## Details -/

/-- The kinds of entries that are made only where everything is to be explained. -/
def TrailKind.isDetail : TrailKind → Bool
  | maskSkip | guardPassed | guardFailed | candidate => true
  | _ => false

/-- The trail without details. -/
def Trail.terse (t : Trail) : Trail := t.filter fun e => !e.kind.isDetail

theorem Trail.terse_append (t u : Trail) : Trail.terse (t ++ u) = t.terse ++ u.terse :=
  List.filter_append ..

/-- The test of a guard without details. -/
def GuardTest.terse (t : GuardTest) : GuardTest := { t with trail := t.trail.terse }

/-- How far a run has come, without details. -/
def Progress.terse (p : Progress) : Progress := { p with trail := p.trail.terse }

theorem Progress.terse_noted (p : Progress) (t : Trail) :
    (p.noted t).terse = p.terse.noted t.terse := by
  unfold noted terse
  rw [Trail.terse_append]

/-- The second of two runs has come as far as the first one, without details. -/
def Progress.Terser (p q : Progress) : Prop := q = p.terse

namespace Progress.Terser

variable {p q : Progress}

theorem fire (h : p.Terser q) (node : Nat) : (p.fire node).Terser (q.fire node) := by
  cases h
  rfl

theorem decided (h : p.Terser q) (d : Decision) : (p.decided d).Terser (q.decided d) := by
  cases h
  rfl

theorem noted (h : p.Terser q) {t u : Trail} (htrail : u = t.terse) :
    (p.noted t).Terser (q.noted u) := by
  cases h
  cases htrail
  exact (p.terse_noted t).symm

theorem passedOver (h : p.Terser q) (more : List Alternative) :
    Progress.Terser { p with alternatives := p.alternatives ++ more }
      { q with alternatives := q.alternatives ++ more } := by
  cases h
  rfl

theorem leftOpen (h : p.Terser q) (step : Nat) :
    Progress.Terser { p with unresolved := p.unresolved ++ [step] }
      { q with unresolved := q.unresolved ++ [step] } := by
  cases h
  rfl

end Progress.Terser

/-- The result of a run without details. -/
def Situation.RunResult.terse (r : RunResult) : RunResult := { r with trail := r.trail.terse }

namespace Situation

/-! ## Guards -/

/-- The same situation, in which nothing more is to be explained. -/
def quiet (s : Situation) : Situation := { s with verbose := false }

variable {s : Situation} {p q : Progress}

/-- An entry about a detail is just what is left out. -/
theorem terse_verbosely {e : TrailEntry} (h : e.kind.isDetail = true) :
    Trail.terse (s.verbosely e) = s.quiet.verbosely e := by
  have hquiet : s.quiet.verbosely e = [] := rfl
  rw [hquiet]
  unfold verbosely
  split
  · exact List.filter_cons_of_neg (by simp [h])
  · rfl

/-- A guard is tested alike, and its fault is told either way. -/
theorem testGuard_quiet (fired : List Bool) (step : Nat) (node : Bytes) (g : Guard) :
    s.quiet.testGuard fired step node g = (s.testGuard fired step node g).terse := by
  have henv : s.quiet.env fired = s.env fired := rfl
  have hmask : s.quiet.mask = s.mask := rfl
  have hblueprint : s.quiet.blueprint = s.blueprint := rfl
  unfold testGuard GuardTest.terse
  rw [henv, hmask, hblueprint]
  dsimp only
  split
  · cases g.program.run (s.env fired) with
    | error fault => rfl
    | ok answer =>
      cases answer with
      | true => rw [terse_verbosely rfl]
      | false => rw [terse_verbosely rfl]
  · rw [terse_verbosely rfl]

theorem terser_afterTest (h : p.Terser q) (t : GuardTest) :
    (afterTest p t).Terser (afterTest q t.terse) := by
  cases h
  unfold Progress.Terser afterTest Progress.terse GuardTest.terse
  rw [Trail.terse_append]

/-- After a test of a guard both runs have come equally far, and it has the same result. -/
theorem agree_quiet_test (h : p.Terser q) (step : Nat) (node : Bytes) (g : Guard) :
    (s.quiet.testGuard q.fired step node g).result = (s.testGuard p.fired step node g).result ∧
      (afterTest p (s.testGuard p.fired step node g)).Terser
        (afterTest q (s.quiet.testGuard q.fired step node g)) := by
  have hfired : q.fired = p.fired := by rw [h, Progress.terse]
  rw [hfired, testGuard_quiet]
  exact ⟨rfl, terser_afterTest h _⟩

/-! ## Steps -/

theorem agree_quiet_runSequential (h : p.Terser q) (index node : Nat) (g : Guard) :
    Agree Progress.Terser (s.runSequential index node g p)
      (s.quiet.runSequential index node g q) := by
  unfold runSequential
  refine (Agree.refl (s.planNode node)).bind ?_
  rintro n _ rfl
  obtain ⟨hresult, hafter⟩ := agree_quiet_test (s := s) h index n.id g
  dsimp only
  rw [hresult]
  split
  · exact .ok ((hafter.fire node).noted rfl)
  · exact .ok hafter

theorem agree_quiet_runTask (h : p.Terser q) (index node : Nat) (g : Guard) (o : Outcome) :
    Agree Progress.Terser (s.runTask index node g o p) (s.quiet.runTask index node g o q) := by
  unfold runTask
  refine (Agree.refl (s.planNode node)).bind ?_
  rintro n _ rfl
  obtain ⟨hresult, hafter⟩ := agree_quiet_test (s := s) h index n.id g
  dsimp only
  rw [hresult]
  split
  · exact .ok (((hafter.fire node).decided _).noted rfl)
  · exact .ok hafter

/-- Testing branches gives the same candidates. -/
theorem agree_quiet_testBranches (h : p.Terser q) (index : Nat) (bs : List (Branch × Nat)) :
    Agree (fun x y => x.1 = y.1 ∧ x.2.Terser y.2) (s.testBranches index bs p)
      (s.quiet.testBranches index bs q) := by
  induction bs generalizing p q with
  | nil => exact .ok ⟨rfl, h⟩
  | cons head bs ih =>
    obtain ⟨b, place⟩ := head
    rw [testBranches, testBranches]
    refine (Agree.refl (s.planNode b.node)).bind ?_
    rintro n _ rfl
    obtain ⟨hresult, hafter⟩ := agree_quiet_test (s := s) h index n.id b.guard
    dsimp only
    rw [hresult]
    split
    · have hnoted := hafter.noted (terse_verbosely (s := s) (e := ⟨.candidate, some index, n.id,
        b.guard.mask, utf8 "priority " ++ Bytes.signedDecimal b.priority.toInt⟩) rfl).symm
      exact (ih hnoted).bind fun x y hxy => .ok ⟨by rw [hxy.1], hxy.2⟩
    · exact ih hafter

theorem agree_quiet_selected (h : p.Terser q) (index : Nat) (sel : Selector) (winner : Nat)
    (v : Selection) :
    Agree Progress.Terser (s.selected index sel winner v p)
      (s.quiet.selected index sel winner v q) := by
  unfold selected
  cases sel.branches[winner]? with
  | none => exact .error _
  | some b =>
    refine (Agree.refl (s.planNode b.node)).bind ?_
    rintro n _ rfl
    refine (Agree.refl (v.losers.mapM (s.alternativeOf index sel))).bind ?_
    rintro alternatives _ rfl
    have hfired := (h.fire b.node).noted
      (t := [⟨.arbitration, some index, n.id, b.guard.mask, v.rationale⟩]) rfl
    cases b.outcome with
    | none => exact .ok (hfired.passedOver alternatives)
    | some o => exact .ok ((hfired.decided _).passedOver alternatives)

theorem agree_quiet_runSelector (h : p.Terser q) (index : Nat) (sel : Selector) :
    Agree Progress.Terser (s.runSelector index sel p) (s.quiet.runSelector index sel q) := by
  unfold runSelector
  refine (agree_quiet_testBranches h index sel.branches.zipIdx).bind ?_
  rintro ⟨places, p'⟩ ⟨_, q'⟩ ⟨rfl, h'⟩
  refine ((Agree.refl (sel.arbitrate s.comparators s.blueprint.nodes places)).mapError
    RunError.arbitration).bind ?_
  rintro v _ rfl
  cases v.winner with
  | none => exact .ok ((h'.leftOpen index).noted rfl)
  | some winner => exact agree_quiet_selected h' index sel winner v

/-- **A step makes the same of both runs**, but for details. -/
theorem agree_quiet_runStep (h : p.Terser q) (index : Nat) (step : Step) :
    Agree Progress.Terser (s.runStep index step p) (s.quiet.runStep index step q) := by
  cases step with
  | sequential node g => exact agree_quiet_runSequential h index node g
  | task node g o => exact agree_quiet_runTask h index node g o
  | selector sel => exact agree_quiet_runSelector h index sel

/-- So do all steps. -/
theorem agree_quiet_runSteps (h : p.Terser q) (steps : List (Step × Nat)) :
    Agree Progress.Terser (s.runSteps steps p) (s.quiet.runSteps steps q) := by
  induction steps generalizing p q with
  | nil => exact .ok h
  | cons head rest ih =>
    refine (Agree.refl (s.checkTime .ruleEvaluation)).bind fun _ _ _ => ?_
    exact (agree_quiet_runStep h head.2 head.1).bind fun p' q' h' => ih h'

end Situation

/-! ## Guardrails -/

/-- What guardrails write is no detail. -/
theorem Trail.Only.terse_eq {t : Trail} (h : t.Only TrailKind.isOfGuardrail) : t.terse = t := by
  have hkinds : ∀ k : TrailKind, k.isOfGuardrail = true → k.isDetail = false := by
    intro k
    cases k <;> decide
  refine List.filter_eq_self.2 fun e he => ?_
  rw [hkinds e.kind (h e he)]
  rfl

/-! ## Plans -/

/-- **A run without details is the run with details**, with those left out: it comes to the same
decisions and alternatives and counts the same, or it fails alike. -/
theorem Situation.agree_quiet_run (s : Situation) :
    Agree (fun r r' => r' = r.terse) s.run s.quiet.run := by
  unfold run
  have hstart : (Progress.start s.blueprint).Terser (.start s.blueprint) := rfl
  refine (agree_quiet_runSteps hstart s.blueprint.steps.zipIdx).bind ?_
  rintro p _ rfl
  refine (Agree.refl (s.checkTime .guardrails)).bind fun _ _ _ => ?_
  have hreview : Agree (fun r r' => r = r' ∧ r.trail.terse = r.trail)
      (s.blueprint.applyGuardrails (s.env p.fired) p.unresolved p.decisions)
      (s.blueprint.applyGuardrails (s.env p.fired) p.unresolved p.decisions) := by
    cases happly : s.blueprint.applyGuardrails (s.env p.fired) p.unresolved p.decisions with
    | error e => exact .error e
    | ok r => exact .ok ⟨rfl, (Blueprint.only_applyGuardrails happly).terse_eq⟩
  refine (hreview.mapError fun _ => RunError.outOfRange).bind ?_
  rintro r _ ⟨rfl, hplain⟩
  refine (Agree.refl (s.checkTime .guardrails)).bind fun _ _ _ => .ok ?_
  unfold RunResult.terse
  rw [Trail.terse_append, hplain]
  rfl

end DecisionEngine
