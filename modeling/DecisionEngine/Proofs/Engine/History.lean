import DecisionEngine.Proofs.Engine.Calls
import DecisionEngine.Proofs.Registry.Slots
/-!
# Histories of an engine

Between two calls of an engine anything may happen: contexts are published and taken back,
blueprints are stored, activated and deactivated, and other requests are answered.  None of this
changes the options or the comparators, and no blueprint that was stored gets lost or changed.

* `Surroundings.logging` — the records that the sink is given are kept in a log.
* `World.afterAll` — what a history comes to.
* `World.continues_afterAll` — what no history changes.
-/

namespace DecisionEngine

variable {σ : Type}

/-- What is outside, with a log of all records that the sink was given, whether it took them or
not. -/
def Surroundings.logging (out : Surroundings σ) : Surroundings (σ × List TraceRecord) where
  fetch key s := ((out.fetch key s.1).1, (out.fetch key s.1).2, s.2)
  rehydrate key s := (out.rehydrate key s.1, s.2)
  archived? tenant id s := out.archived? tenant id s.1
  sink record s := ((out.sink record s.1).1, (out.sink record s.1).2, s.2 ++ [record])

/-- Something that happens to an engine: something is published or changes otherwise outside, a
call changes the registry, or a request is answered. -/
inductive Event (σ : Type)
  | publish (f : σ → σ)
  | change (c : Registry.Change)
  | execute (clock : Clock) (request : Request)

namespace World

/-- The world after an event, whatever the answer to a request was. -/
def after (out : Surroundings σ) (w : World (σ × List TraceRecord)) :
    Event σ → World (σ × List TraceRecord)
  | .publish f => { w with outside := (f w.outside.1, w.outside.2) }
  | .change c => { w with engine := { w.engine with registry := w.engine.registry.after c } }
  | .execute clock request => ((Engine.execute out.logging clock request).run.run w).2

/-- The world after a history. -/
def afterAll (out : Surroundings σ) (w : World (σ × List TraceRecord)) (events : List (Event σ)) :
    World (σ × List TraceRecord) := events.foldl (after out) w

end World

/-! ## What stays -/

/-- An engine later on: it has the same options and comparators, and all blueprints that it had. -/
structure Engine.Continues (e e' : Engine) : Prop where
  options : e'.options = e.options
  comparators : e'.comparators = e.comparators
  stored : ∀ id b, e.registry.find? id = some b → e'.registry.find? id = some b

namespace Engine

theorem Continues.refl (e : Engine) : Continues e e := ⟨rfl, rfl, fun _ _ h => h⟩

theorem Continues.trans {e e' e'' : Engine} (h : Continues e e') (h' : Continues e' e'') :
    Continues e e'' :=
  ⟨h'.options.trans h.options, h'.comparators.trans h.comparators,
    fun id b hb => h'.stored id b (h.stored id b hb)⟩

theorem SameRules.continues {e e' : Engine} (h : e.SameRules e') : e.Continues e' := by
  refine ⟨h.options, h.comparators, fun id b hb => ?_⟩
  rwa [h.registry]

end Engine

namespace World

variable (out : Surroundings σ)

theorem continues_after (w : World (σ × List TraceRecord)) (event : Event σ) :
    w.engine.Continues (w.after out event).engine := by
  cases event with
  | publish f => exact .refl _
  | change c => exact ⟨rfl, rfl, fun id b hb => Registry.find?_after hb c⟩
  | execute clock request => exact (Engine.keeps_execute _ _ _ w).continues

/-- No history changes the options or the comparators, or loses a blueprint. -/
theorem continues_afterAll (w : World (σ × List TraceRecord)) (events : List (Event σ)) :
    w.engine.Continues (w.afterAll out events).engine := by
  induction events generalizing w with
  | nil => exact .refl _
  | cons event rest ih => exact (w.continues_after out event).trans (ih (w.after out event))

variable {w : World (σ × List TraceRecord)}

theorem fits_after (h : w.engine.registry.Fits) (event : Event σ) :
    (w.after out event).engine.registry.Fits := by
  cases event with
  | publish f => exact h
  | change c => exact h.after c
  | execute clock request =>
    have hrules := (Engine.keeps_execute out.logging clock request w).registry
    unfold after
    dsimp only
    rwa [hrules]

/-- In every history, what is active is stored. -/
theorem fits_afterAll (h : w.engine.registry.Fits) (events : List (Event σ)) :
    (w.afterAll out events).engine.registry.Fits := by
  induction events generalizing w with
  | nil => exact h
  | cons event rest ih => exact ih (fits_after out h event)

end World
end DecisionEngine
