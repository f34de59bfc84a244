import DecisionEngine.Proofs.Engine.Degraded
import DecisionEngine.Proofs.Plan.Explanations
/-!
# Asking for an explanation

A request may ask for an explanation, and an engine may explain everything by default.  Either way
this makes no difference to what is decided: with and without an explanation a plan fails alike, or
it comes to the same answer but for the details in the trail and the note that they were asked for.

* `Response.SameButDetails` — what the two answers have in common.
* `Engine.agree_planned` — the answers of a plan.
* `Call.outcome`, `Engine.outcome_executePinned` — what comes out of a call.
* `Engine.explanation_decides_nothing` — the answers of an engine.
-/

namespace DecisionEngine

/-! ## Responses -/

/-- A response with an explanation, and one to the same request without: they differ in clocks, in
the note whether an explanation was asked for, and in details.  Where everything is explained by
default, there are details in both. -/
structure Response.SameButDetails (byDefault : Bool) (on off : Response) : Prop where
  decisions : off.decisions = on.decisions
  alternatives : off.alternatives = on.alternatives
  explained : on.provenance.explain = true
  provenance : off.provenance = { on.provenance with explain := byDefault }
  traceId : off.stamp.traceId = on.stamp.traceId
  trail : off.trail = if byDefault then on.trail else on.trail.terse

/-- The request that does or does not ask for an explanation. -/
def Request.explained (r : Request) (explain : Bool) : Request := { r with explain := explain }

theorem Pinned.terse_noteEntries (pin : Pinned) : Trail.terse pin.noteEntries = pin.noteEntries := by
  refine List.filter_eq_self.2 fun e he => ?_
  obtain ⟨note, -, rfl⟩ := List.mem_map.1 he
  rfl

theorem Pinned.terse_opening (pin : Pinned) (b : Blueprint) (s : Snapshot) :
    Trail.terse (pin.opening b s) = pin.opening b s := by
  unfold opening
  rw [Trail.terse_append, Trail.terse_append, Trail.terse_append, pin.terse_noteEntries]
  congr 1
  · congr 1
    split <;> rfl
  · split <;> rfl

namespace Engine

open Call

variable {σ : Type} {out : Surroundings σ} {clock clock' : Clock} {request : Request}
  {w w' : World σ} {b : Blueprint} {snapshot : Option Snapshot} {pin : Pinned}

/-! ## Plans -/

/-- With and without an explanation, a plan comes to the same answer but for details. -/
theorem agree_planned (e : Engine) (request : Request) (b : Blueprint) (snapshot : Option Snapshot)
    (pin : Pinned) (expired : Bool) :
    Agree (Response.SameButDetails e.options.explainByDefault)
      (e.planned (request.explained true) b snapshot pin expired)
      (e.planned (request.explained false) b snapshot pin expired) := by
  have hon : e.isVerbose (request.explained true) = true := rfl
  have hoff : e.isVerbose (request.explained false) = e.options.explainByDefault := rfl
  unfold planned
  rw [hon, hoff]
  generalize e.options.explainByDefault = byDefault
  cases snapshot with
  | none =>
    refine .ok ⟨rfl, rfl, rfl, rfl, rfl, ?_⟩
    cases byDefault with
    | true => rfl
    | false =>
      simp only [Response.withoutContext, Trail.terse_append, pin.terse_noteEntries]
      rfl
  | some s =>
    have hrun : Agree (fun r r' => r' = if byDefault then r else r.terse)
        (pin.situation b s request.inputs true e.comparators expired).run
        (pin.situation b s request.inputs byDefault e.comparators expired).run := by
      cases byDefault with
      | true => exact (Agree.refl _).mono fun r r' h => h.symm
      | false => exact (pin.situation b s request.inputs true e.comparators expired).agree_quiet_run
    refine hrun.map ?_
    rintro r _ rfl
    cases byDefault with
    | true => exact ⟨rfl, rfl, rfl, rfl, rfl, rfl⟩
    | false =>
      refine ⟨rfl, rfl, rfl, rfl, rfl, ?_⟩
      simp only [Response.ofRun, Situation.RunResult.terse, Trail.terse_append, pin.terse_opening,
        Bool.false_eq_true, if_false]
      split <;> rfl

end Engine

/-! ## Calls -/

namespace Call

variable {σ α β : Type} {c : Call σ α} {f : α → Call σ β} {w w' : World σ} {a : α}

/-- What comes out of a call in a world. -/
def outcome (c : Call σ α) (w : World σ) : Except EngineError α := (c.run.run w).1

theorem outcome_of_returns (h : Returns c w a w') : c.outcome w = .ok a := by
  unfold outcome
  rw [show c.run.run w = (.ok a, w') from h]

theorem outcome_engine_bind (f : Engine → Call σ α) (w : World σ) :
    (engine >>= f).outcome w = (f w.engine).outcome w := rfl

theorem outcome_count_bind (g : Statistics → Statistics) (f : Unit → Call σ α) (w : World σ) :
    (count g >>= f).outcome w =
      (f ()).outcome { w with engine := { w.engine with statistics := g w.engine.statistics } } :=
  rfl

theorem outcome_bind_of_returns (h : Returns c w a w') :
    (c >>= f).outcome w = (f a).outcome w' := by
  unfold outcome
  rw [run_bind, show c.run.run w = (.ok a, w') from h]

theorem outcome_bind_of_error {e : EngineError} (h : c.outcome w = .error e) :
    (c >>= f).outcome w = .error e := by
  unfold outcome at *
  rw [run_bind]
  rcases hc : c.run.run w with ⟨r, v⟩
  rw [hc] at h
  cases h
  rfl

/-- Counting timeouts makes no difference to what comes out. -/
theorem outcome_countingTimeouts (c : Call σ α) (w : World σ) :
    (countingTimeouts c).outcome w = c.outcome w := by
  simp only [outcome, countingTimeouts, ExceptT.run, StateT.run]
  split
  · rename_i hc
    rw [hc]
  · rfl

end Call

namespace Engine

open Call

variable {σ : Type} {out : Surroundings σ} {clock clock' : Clock} {request : Request}
  {w w' : World σ} {b : Blueprint} {snapshot : Option Snapshot} {pin : Pinned}

/-- What comes out of running a plan is its answer, or its error. -/
theorem outcome_runPlan (request : Request) (b : Blueprint) (snapshot : Option Snapshot)
    (pin : Pinned) (expired : Bool) (w : World σ) :
    (runPlan request b snapshot pin expired).outcome w =
      (w.engine.planned request b snapshot pin expired).mapError .ofRun := by
  unfold outcome runPlan planned
  rw [run_engine_bind]
  cases snapshot with
  | none => rfl
  | some s =>
    dsimp only
    rw [run_warn_bind]
    cases (pin.situation b s request.inputs (w.engine.isVerbose request) w.engine.comparators
      expired).run with
    | error e => rfl
    | ok r => rfl

/-- What comes out of running a plan and delivering its answer is the answer under the next
stamp. -/
theorem outcome_delivered (request : Request) (b : Blueprint) (snapshot : Option Snapshot)
    (pin : Pinned) (expired : Bool) (w : World σ) :
    (runPlan request b snapshot pin expired >>= deliver out clock request pin).outcome w =
      ((w.engine.planned request b snapshot pin expired).mapError .ofRun).map
        fun r => { r with stamp := w.engine.nextStamp clock } := by
  cases hr : w.engine.planned request b snapshot pin expired with
  | error e =>
    refine outcome_bind_of_error ?_
    rw [outcome_runPlan, hr]
    rfl
  | ok r =>
    obtain ⟨v, hrun, t, hv⟩ := exists_returns_runPlan hr
    obtain ⟨x, hdeliver⟩ := exists_returns_deliver out clock request pin r v
    have hstamp : v.engine.nextStamp clock = w.engine.nextStamp clock := by
      rw [hv]
      rfl
    rw [outcome_bind_of_returns hrun, outcome_of_returns hdeliver, hstamp]
    rfl

/-- The answer from a given plan and snapshot of the tenant is the answer of the plan, under the
next stamp. -/
theorem outcome_executePinned (htenant : tenantError? request b snapshot = none) (w : World σ) :
    (executePinned out clock request (some b) snapshot pin).outcome w =
      ((w.engine.planned request b snapshot pin (w.engine.hasExpired request clock)).mapError
        .ofRun).map fun r => { r with stamp := w.engine.nextStamp clock } := by
  unfold executePinned
  dsimp only
  rw [htenant, outcome_count_bind, outcome_countingTimeouts, outcome_engine_bind]
  exact outcome_delivered request b snapshot pin (w.engine.hasExpired request clock) _

/-- **Asking for an explanation decides nothing.**  The answer from a given plan and snapshot, with
any comparators, is the same whether or not an explanation is asked for, but for clocks, the note
that it was asked for, and details in the trail, which are there just where it was, or where
everything is explained by default; and if the one fails, so does the other.  A compiled plan does
answer, if the snapshot is of the tenant and there is time. -/
theorem explanation_decides_nothing (out : Surroundings σ) (w : World σ) (request : Request)
    (b : Blueprint) (snapshot : Option Snapshot) (pin : Pinned)
    (htime : w.engine.hasExpired request clock' = w.engine.hasExpired request clock) :
    Agree (Response.SameButDetails w.engine.options.explainByDefault)
        ((executePinned out clock (request.explained true) (some b) snapshot pin).outcome w)
        ((executePinned out clock' (request.explained false) (some b) snapshot pin).outcome w) ∧
      ((∃ r o, (Revision.compile r o).blueprint = some b) →
        tenantError? request b snapshot = none → w.engine.hasExpired request clock = false →
        ∃ response, (executePinned out clock (request.explained true) (some b) snapshot
          pin).outcome w = .ok response) := by
  have htenant : ∀ explain, tenantError? (request.explained explain) b snapshot =
      tenantError? request b snapshot := fun _ => rfl
  cases herror : tenantError? request b snapshot with
  | some e =>
    refine ⟨?_, fun _ h => nomatch h⟩
    unfold executePinned
    dsimp only
    rw [htenant, htenant, herror]
    exact .error _
  | none =>
    rw [outcome_executePinned ((htenant true).trans herror),
      outcome_executePinned ((htenant false).trans herror)]
    have hexpired : ∀ explain c, w.engine.hasExpired (request.explained explain) c =
        w.engine.hasExpired request c := fun _ _ => rfl
    rw [hexpired, hexpired, htime]
    refine ⟨?_, ?_⟩
    · refine ((agree_planned w.engine request b snapshot pin _).mapError _).map fun on off h => ?_
      exact ⟨h.decisions, h.alternatives, h.explained, h.provenance, rfl, h.trail⟩
    · rintro ⟨r, o, hcompiled⟩ - hunexpired
      obtain ⟨response, hresponse⟩ := exists_planned w.engine (request.explained true)
        (Revision.passed_of_compile hcompiled).runnable snapshot pin
      rw [hunexpired, hresponse]
      exact ⟨_, rfl⟩

/-- A context without attributes, of the entity that the request is about. -/
def contextSample : Snapshot := .anonymous tokenSample.key .empty

theorem explanation_decides_nothing_sample :
    freshSample.engine.hasExpired tokenSample ⟨7, 2, 9⟩ =
        freshSample.engine.hasExpired tokenSample ⟨0, 0, 0⟩ ∧
      ∃ b on off, (Revision.sample.compile .standard).blueprint = some b ∧
        (executePinned strangers ⟨0, 0, 0⟩ (tokenSample.explained true) (some b) (some contextSample)
          .plain).outcome freshSample = .ok on ∧
        (executePinned strangers ⟨7, 2, 9⟩ (tokenSample.explained false) (some b)
          (some contextSample) .plain).outcome freshSample = .ok off ∧
        on.SameButDetails false off := by
  have htime : freshSample.engine.hasExpired tokenSample ⟨7, 2, 9⟩ =
      freshSample.engine.hasExpired tokenSample ⟨0, 0, 0⟩ := by decide
  have haccepted : Revision.sample.accepted .standard = true := by cbv
  have hb := Revision.compile_of_accepted rfl haccepted
  generalize hplanned : Revision.sample.planned .standard = b at hb
  have htenant : tenantError? tokenSample b (some contextSample) = none := by
    rw [← hplanned]
    rfl
  obtain ⟨hagree, hanswers⟩ := explanation_decides_nothing strangers freshSample tokenSample b
    (some contextSample) .plain htime
  obtain ⟨on, hon⟩ := hanswers ⟨.sample, .standard, hb⟩ htenant (by decide)
  rw [hon] at hagree
  generalize hoff : (executePinned strangers ⟨7, 2, 9⟩ (tokenSample.explained false) (some b)
    (some contextSample) .plain).outcome freshSample = answer at hagree
  cases hagree with
  | ok h => exact ⟨htime, b, on, _, hb, hon, hoff, h⟩

end Engine
end DecisionEngine
