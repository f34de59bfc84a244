import DecisionEngine.Proofs.Engine.Context
import DecisionEngine.Proofs.Failure
/-!
# How requests are answered

A request is answered without a plan, because none is active, or by the active plan on the context
of its entity.  What a plan answers depends on the rules of the engine, the context and what became
of the override token, and on nothing else.

* `Engine.planned` — the answer that a plan gives.
* `Engine.Executed` — the two ways in which a request is answered, `Engine.execute_returns` that
  there is no third one.
-/

namespace DecisionEngine
namespace Engine

open Call

variable {σ : Type} {out : Surroundings σ} {clock : Clock} {request : Request}
  {w w' : World σ}

/-! ## The answer of a plan -/

/-- The answer that a plan gives on a snapshot, before it is stamped. -/
def planned (e : Engine) (request : Request) (b : Blueprint) (snapshot : Option Snapshot)
    (pin : Pinned) (expired : Bool) : Except RunError Response :=
  match snapshot with
  | none => .ok (.withoutContext b pin (e.isVerbose request))
  | some s =>
    (pin.situation b s request.inputs (e.isVerbose request) e.comparators expired).run.map
      (.ofRun b s pin (e.isVerbose request))

/-- What running a plan gives is its answer, and nothing is done outside. -/
theorem returns_runPlan {b : Blueprint} {snapshot : Option Snapshot} {pin : Pinned}
    {expired : Bool} {r : Response}
    (h : Returns (runPlan request b snapshot pin expired) w r w') :
    w.engine.planned request b snapshot pin expired = .ok r ∧ w'.outside = w.outside := by
  cases snapshot with
  | none =>
    simp only [runPlan, returns_engine_bind, returns_count_bind, returns_pure] at h
    obtain ⟨rfl, rfl⟩ := h
    exact ⟨rfl, rfl⟩
  | some s =>
    simp only [runPlan, returns_engine_bind, returns_warn_bind] at h
    unfold planned
    split at h
    · exact absurd h not_returns_stop
    · rename_i result hrun
      simp only [returns_count_bind, returns_pure] at h
      obtain ⟨rfl, rfl⟩ := h
      dsimp only
      rw [hrun]
      exact ⟨rfl, rfl⟩

/-- A plan that has an answer gives it in every world, and nothing but counting is done to the
engine. -/
theorem exists_returns_runPlan {b : Blueprint} {snapshot : Option Snapshot} {pin : Pinned}
    {expired : Bool} {r : Response}
    (h : w.engine.planned request b snapshot pin expired = .ok r) :
    ∃ w', Returns (runPlan request b snapshot pin expired) w r w' ∧
      ∃ t, w'.engine = { w.engine with statistics := t } := by
  cases snapshot with
  | none =>
    cases h
    exact ⟨_, rfl, _, rfl⟩
  | some s =>
    obtain ⟨result, hrun, rfl⟩ := map_eq_ok.1 h
    simp only [runPlan, returns_engine_bind, returns_warn_bind, hrun]
    exact ⟨_, rfl, _, rfl⟩

/-- The answer of a plan names the plan, and says where its context is from. -/
theorem planned_provenance {e : Engine} {b : Blueprint} {snapshot : Option Snapshot}
    {pin : Pinned} {expired : Bool} {r : Response}
    (h : e.planned request b snapshot pin expired = .ok r) :
    r.provenance.blueprint = some b.id ∧
      r.provenance.snapshot = (snapshot.map (·.id)).getD [] := by
  cases snapshot with
  | none =>
    cases h
    exact ⟨rfl, rfl⟩
  | some s =>
    obtain ⟨result, -, rfl⟩ := map_eq_ok.1 h
    exact ⟨rfl, rfl⟩

/-! ## The answer to a request -/

/-- How a request was answered: without a plan, because none is active, or by the active plan on
the context that was resolved.  The answer is delivered under its stamp. -/
inductive Executed (out : Surroundings σ) (clock : Clock) (request : Request) (w : World σ)
    (response : Response) (w' : World σ) : Prop
  | withoutPlan (v : World σ)
      (inactive : w.engine.registry.active? request.tenant request.decisionType = none)
      (outside : v.outside = w.outside)
      (delivered : Returns (deliver out clock request .plain
        (.withoutBlueprint request (w.engine.isVerbose request))) v response w')
  | byPlan (b : Blueprint) (c : ResolvedContext) (check : OverrideCheck) (r : Response)
      (resolved v : World σ)
      (active : w.engine.registry.active? request.tenant request.decisionType = some b)
      (resolves : Returns (resolve out request.key clock.checked) w c resolved)
      (answer : w.engine.planned request b c.snapshot (pinnedBy c check) false = .ok r)
      (unchanged : v.outside = resolved.outside)
      (delivered : Returns (deliver out clock request (pinnedBy c check) r) v response w')

theorem recordOverride_outside {check : OverrideCheck} {u : Unit}
    (h : Returns (recordOverride request check) w u w') : w'.outside = w.outside := by
  cases check with
  | absent =>
    obtain ⟨-, rfl⟩ := returns_pure.1 h
    rfl
  | applied _ =>
    rw [recordOverride, returns_count] at h
    rw [h]
  | ignored reason =>
    simp only [recordOverride, returns_bind, returns_count, returns_warn] at h
    obtain ⟨_, _, rfl, rfl⟩ := h
    rfl

/-- A plan answers in time, from the context that is resolved and what becomes of the token. -/
theorem answerWith_returns {b : Blueprint} {response : Response}
    (h : Returns (answerWith out clock request b) w response w') :
    ∃ c r resolved checked ran, w.engine.hasExpired request clock = false ∧
      Returns (resolve out request.key clock.checked) w c resolved ∧
      Returns (recordOverride request (resolved.engine.checkOverride request clock.wallMillis))
        resolved () checked ∧
      Returns (runPlan request b c.snapshot
        (pinnedBy c (resolved.engine.checkOverride request clock.wallMillis)) false) checked r ran ∧
      Returns (deliver out clock request
        (pinnedBy c (resolved.engine.checkOverride request clock.wallMillis)) r) ran response w' := by
  simp only [answerWith, returns_engine_bind] at h
  obtain ⟨c, resolved, hc, h⟩ := returns_bind.1 h
  split at h
  · obtain ⟨_, _, hstop, -⟩ := returns_bind.1 h
    exact absurd hstop not_returns_stop
  · rename_i hexpired
    rw [Bool.not_eq_true] at hexpired
    rw [hexpired, returns_engine_bind] at h
    obtain ⟨_, checked, hover, h⟩ := returns_bind.1 h
    obtain ⟨r, ran, hrun, hdeliver⟩ := returns_bind.1 h
    exact ⟨c, r, resolved, checked, ran, hexpired, hc, hover, hrun, hdeliver⟩

/-- Every answer to a request comes about in one of the two ways. -/
theorem execute_returns {response : Response}
    (h : Returns (execute out clock request) w response w') :
    Executed out clock request w response w' := by
  simp only [execute, returns_count_bind, returns_countingTimeouts, returns_engine_bind] at h
  split at h
  · rename_i hnone
    simp only [answerWithoutBlueprint, returns_engine_bind, returns_count_bind] at h
    split at h
    · refine .withoutPlan _ hnone ?_ h
      rfl
    · exact absurd h not_returns_stop
  · rename_i b hsome
    obtain ⟨c, r, resolved, checked, ran, -, hc, hover, hrun, hdeliver⟩ := answerWith_returns h
    have hrules := (keeps_resolve _ _ _).of_returns hc
    have hchecked := hrules.trans ((keeps_recordOverride _ _).of_returns hover)
    obtain ⟨hr, hrunOutside⟩ := returns_runPlan hrun
    obtain ⟨u, hu, houtside⟩ := resolve_of_counted hc
    refine .byPlan b c _ r u ran hsome hu ?_ ?_ hdeliver
    · rw [← hr]
      unfold planned
      rw [hchecked.isVerbose, hchecked.comparators]
      rfl
    · rw [hrunOutside, recordOverride_outside hover, houtside]

/-- What is delivered is the answer under a stamp. -/
theorem deliver_returns {pin : Pinned} {r response : Response}
    (h : Returns (deliver out clock request pin r) w response w') :
    ∃ stamp, response = { r with stamp := stamp } := by
  simp only [deliver, stamped, returns_bind, returns_engine, returns_update, returns_pure] at h
  obtain ⟨_, _, ⟨_, _, _, _, _, rfl, rfl, _⟩, _, _, _, rfl, _⟩ := h
  exact ⟨_, rfl⟩

end Engine
end DecisionEngine
