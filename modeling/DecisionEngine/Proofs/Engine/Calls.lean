import DecisionEngine.Engine.Execute
/-!
# What calls of an engine come to

A call changes the engine and what is outside, and may end with an error.  The calls of an engine
change what it counts and the copies it keeps, and never the rules it answers by.

* `Call.Returns` — a call ends with an answer; `Call.returns_bind` takes a call apart.
* `Call.Maintains` — whatever a call ends with, the engine has a property as before.
* `Engine.Counting`, `Engine.Stable` — properties that counting, or all of the bookkeeping of an
  engine, does not touch; all calls maintain them.
* `Call.Keeps`, `Engine.keeps_execute` — answering a request keeps the rules.
-/

namespace DecisionEngine

/-- What an engine answers by: its options, its keys, its comparators and its blueprints. -/
structure Engine.SameRules (e e' : Engine) : Prop where
  options : e'.options = e.options
  authority : e'.authority = e.authority
  comparators : e'.comparators = e.comparators
  registry : e'.registry = e.registry

namespace Engine.SameRules

theorem refl (e : Engine) : SameRules e e := ⟨rfl, rfl, rfl, rfl⟩

theorem trans {e e' e'' : Engine} (h : SameRules e e') (h' : SameRules e' e'') :
    SameRules e e'' :=
  ⟨h'.options.trans h.options, h'.authority.trans h.authority,
    h'.comparators.trans h.comparators, h'.registry.trans h.registry⟩

theorem isVerbose {e e' : Engine} (h : SameRules e e') (request : Request) :
    e'.isVerbose request = e.isVerbose request := by
  unfold Engine.isVerbose
  rw [h.options]

end Engine.SameRules

namespace Call

variable {σ α β : Type}

/-! ## Taking calls apart -/

/-- A call that is made in a world ends with an answer, and leaves another world behind. -/
def Returns (c : Call σ α) (w : World σ) (a : α) (w' : World σ) : Prop :=
  c.run.run w = (.ok a, w')

theorem returns_pure {a b : α} {w w' : World σ} :
    Returns (pure a) w b w' ↔ b = a ∧ w' = w := by
  constructor
  · intro h
    obtain ⟨h, h'⟩ := Prod.mk.inj h
    exact ⟨(Except.ok.inj h).symm, h'.symm⟩
  · rintro ⟨rfl, rfl⟩
    rfl

/-- A call that goes on with what another one gives ends where that one fails. -/
theorem run_bind (c : Call σ α) (f : α → Call σ β) (w : World σ) :
    (c >>= f).run.run w = match c.run.run w with
      | (.ok a, v) => (f a).run.run v
      | (.error e, v) => (.error e, v) := by
  simp only [ExceptT.run, StateT.run, bind, ExceptT.bind, ExceptT.mk, StateT.bind]
  rcases c w with ⟨r, v⟩
  cases r with
  | error e => rfl
  | ok a => rfl

theorem returns_bind {c : Call σ α} {f : α → Call σ β} {w w' : World σ} {b : β} :
    Returns (c >>= f) w b w' ↔ ∃ a v, Returns c w a v ∧ Returns (f a) v b w' := by
  unfold Returns
  rw [run_bind]
  rcases c.run.run w with ⟨r, v⟩
  cases r with
  | error e =>
    constructor
    · intro h
      cases h
    · rintro ⟨a, u, h, _⟩
      cases h
  | ok a =>
    constructor
    · intro h
      exact ⟨a, v, rfl, h⟩
    · rintro ⟨a', v', h, h'⟩
      cases h
      exact h'

theorem returns_engine {w w' : World σ} {e : Engine} :
    Returns engine w e w' ↔ e = w.engine ∧ w' = w := by
  constructor
  · intro h
    obtain ⟨h, h'⟩ := Prod.mk.inj h
    exact ⟨(Except.ok.inj h).symm, h'.symm⟩
  · rintro ⟨rfl, rfl⟩
    rfl

theorem returns_update {f : Engine → Engine} {w w' : World σ} {u : Unit} :
    Returns (update f) w u w' ↔ w' = { w with engine := f w.engine } := by
  constructor
  · intro h
    exact (Prod.mk.inj h).2.symm
  · rintro rfl
    rfl

theorem returns_count {f : Statistics → Statistics} {w w' : World σ} {u : Unit} :
    Returns (count f) w u w' ↔
      w' = { w with engine := { w.engine with statistics := f w.engine.statistics } } :=
  returns_update

theorem returns_warn {ws : List Warning} {w w' : World σ} {u : Unit} :
    Returns (warn ws) w u w' ↔ w' = { w with warnings := w.warnings ++ ws } := by
  constructor
  · intro h
    exact (Prod.mk.inj h).2.symm
  · rintro rfl
    rfl

theorem returns_withOutside {f : σ → α × σ} {w w' : World σ} {a : α} :
    Returns (withOutside f) w a w' ↔
      a = (f w.outside).1 ∧ w' = { w with outside := (f w.outside).2 } := by
  constructor
  · intro h
    obtain ⟨h, h'⟩ := Prod.mk.inj h
    exact ⟨(Except.ok.inj h).symm, h'.symm⟩
  · rintro ⟨rfl, rfl⟩
    rfl

theorem not_returns_stop {e : EngineError} {w w' : World σ} {a : α} :
    ¬ Returns (stop e) w a w' := by
  intro h
  cases (Prod.mk.inj h).1

/-! Calls that cannot fail are gone through from the front. -/

theorem returns_engine_bind {f : Engine → Call σ β} {w w' : World σ} {b : β} :
    Returns (engine >>= f) w b w' ↔ Returns (f w.engine) w b w' := Iff.rfl

theorem returns_update_bind {g : Engine → Engine} {f : Unit → Call σ β} {w w' : World σ} {b : β} :
    Returns (update g >>= f) w b w' ↔
      Returns (f ()) { w with engine := g w.engine } b w' := Iff.rfl

theorem returns_count_bind {g : Statistics → Statistics} {f : Unit → Call σ β} {w w' : World σ}
    {b : β} :
    Returns (count g >>= f) w b w' ↔ Returns (f ())
      { w with engine := { w.engine with statistics := g w.engine.statistics } } b w' := Iff.rfl

theorem returns_warn_bind {ws : List Warning} {f : Unit → Call σ β} {w w' : World σ} {b : β} :
    Returns (warn ws >>= f) w b w' ↔
      Returns (f ()) { w with warnings := w.warnings ++ ws } b w' := Iff.rfl

theorem returns_withOutside_bind {g : σ → α × σ} {f : α → Call σ β} {w w' : World σ} {b : β} :
    Returns (withOutside g >>= f) w b w' ↔
      Returns (f (g w.outside).1) { w with outside := (g w.outside).2 } b w' := Iff.rfl

theorem run_engine_bind (f : Engine → Call σ α) (w : World σ) :
    (engine >>= f).run.run w = (f w.engine).run.run w := rfl

theorem run_update_bind (g : Engine → Engine) (f : Unit → Call σ α) (w : World σ) :
    (update g >>= f).run.run w = (f ()).run.run { w with engine := g w.engine } := rfl

theorem run_warn_bind (ws : List Warning) (f : Unit → Call σ α) (w : World σ) :
    (warn ws >>= f).run.run w = (f ()).run.run { w with warnings := w.warnings ++ ws } := rfl

theorem run_withOutside_bind (g : σ → α × σ) (f : α → Call σ β) (w : World σ) :
    (withOutside g >>= f).run.run w =
      (f (g w.outside).1).run.run { w with outside := (g w.outside).2 } := rfl

/-- Counting timeouts changes nothing about a call that ends with an answer. -/
theorem returns_countingTimeouts {c : Call σ α} {w w' : World σ} {a : α} :
    Returns (countingTimeouts c) w a w' ↔ Returns c w a w' := by
  simp only [Returns, countingTimeouts, ExceptT.run, StateT.run]
  rcases hc : c w with ⟨r, v⟩
  cases r with
  | error e =>
    constructor
    · intro h
      cases e <;> cases (Prod.mk.inj h).1
    · intro h
      cases (Prod.mk.inj h).1
  | ok a => exact Iff.rfl

/-! ## What calls leave alone -/

/-- Whatever a call ends with, an engine that has a property has it afterwards. -/
def Maintains (P : Engine → Prop) (c : Call σ α) : Prop :=
  ∀ w : World σ, P w.engine → P (c.run.run w).2.engine

variable {P : Engine → Prop}

theorem maintains_pure (a : α) : Maintains P (pure a : Call σ α) := fun _ h => h

theorem maintains_engine : Maintains P (engine : Call σ Engine) := fun _ h => h

theorem maintains_get : Maintains P (get : Call σ (World σ)) := fun _ h => h

theorem maintains_stop (e : EngineError) : Maintains P (stop e : Call σ α) := fun _ h => h

theorem maintains_warn (ws : List Warning) : Maintains P (warn ws : Call σ Unit) := fun _ h => h

theorem maintains_withOutside (f : σ → α × σ) : Maintains P (withOutside f) := fun _ h => h

theorem maintains_update {f : Engine → Engine} (hf : ∀ e, P e → P (f e)) :
    Maintains P (update f : Call σ Unit) := fun w h => hf w.engine h

theorem maintains_bind {c : Call σ α} {f : α → Call σ β} (hc : Maintains P c)
    (hf : ∀ a, Maintains P (f a)) : Maintains P (c >>= f) := by
  intro w h
  have hw := hc w h
  rw [run_bind]
  rcases hr : c.run.run w with ⟨r, v⟩
  rw [hr] at hw
  cases r with
  | error e => exact hw
  | ok a => exact hf a v hw

/-- A call that looks at the engine first sees one that has the property. -/
theorem maintains_engine_bind {f : Engine → Call σ β} (hf : ∀ e, P e → Maintains P (f e)) :
    Maintains P (engine >>= f) := fun w h => hf w.engine h w h

/-- Whatever a call ends with, the engine answers by the same rules as before. -/
def Keeps (c : Call σ α) : Prop :=
  ∀ w : World σ, w.engine.SameRules (c.run.run w).2.engine

theorem Keeps.of_returns {c : Call σ α} (h : Keeps c) {w w' : World σ} {a : α}
    (hr : Returns c w a w') : w.engine.SameRules w'.engine := by
  have hw := h w
  rw [show c.run.run w = (.ok a, w') from hr] at hw
  exact hw

/-- To keep the rules is to maintain being an engine of the same rules. -/
theorem Keeps.of_maintains {c : Call σ α} (h : ∀ e : Engine, Maintains e.SameRules c) : Keeps c :=
  fun w => h w.engine w (.refl w.engine)

end Call

namespace Engine

open Call

variable {σ α : Type} {out : Surroundings σ} {clock : Clock} {request : Request}
  {w w' : World σ} {P : Engine → Prop}

/-! ## Calls of an engine -/

/-- A property that has nothing to do with what an engine counts and how it numbers its answers. -/
structure Counting (P : Engine → Prop) : Prop where
  counted : ∀ e t, P e → P { e with statistics := t }
  numbered : ∀ e n, P e → P { e with nextTrace := n }

namespace Counting

theorem count (h : Counting P) (f : Statistics → Statistics) :
    Maintains P (Call.count f : Call σ Unit) := maintains_update fun e he => h.counted e _ he

theorem countingTimeouts (h : Counting P) {c : Call σ α} (hc : Maintains P c) :
    Maintains P (Call.countingTimeouts c) := by
  intro w hw
  have hv := hc w hw
  simp only [Call.countingTimeouts, ExceptT.run, StateT.run] at hv ⊢
  split
  case h_1 stage v hr =>
    rw [hr] at hv
    exact h.counted _ _ hv
  case h_2 => exact hv

theorem recordOverride (h : Counting P) (request : Request) (check : OverrideCheck) :
    Maintains P (Engine.recordOverride request check : Call σ Unit) := by
  cases check with
  | absent => exact maintains_pure _
  | applied _ => exact h.count _
  | ignored reason => exact maintains_bind (h.count _) fun _ => maintains_warn _

theorem runPlan (h : Counting P) (request : Request) (b : Blueprint) (snapshot : Option Snapshot)
    (pin : Pinned) (expired : Bool) :
    Maintains P (Engine.runPlan request b snapshot pin expired : Call σ Response) := by
  refine maintains_bind maintains_engine fun e => ?_
  cases snapshot with
  | none => exact maintains_bind (h.count _) fun _ => maintains_pure _
  | some s =>
    refine maintains_bind (maintains_warn _) fun _ => ?_
    split
    · exact maintains_stop _
    · exact maintains_bind (h.count _) fun _ => maintains_pure _

theorem deliver (h : Counting P) (out : Surroundings σ) (clock : Clock) (request : Request)
    (pin : Pinned) (r : Response) : Maintains P (Engine.deliver out clock request pin r) := by
  refine maintains_bind ?_ fun r => maintains_bind ?_ fun _ => maintains_pure _
  · exact maintains_bind maintains_engine fun e =>
      maintains_bind (maintains_update fun e he => h.numbered e _ he) fun _ => maintains_pure _
  · refine maintains_bind (maintains_withOutside _) fun answer => ?_
    cases answer with
    | ok _ => exact maintains_pure _
    | error _ => exact maintains_bind (h.count _) fun _ => maintains_warn _

/-- Answering a request maintains what counting and looking up the context maintain. -/
theorem execute (h : Counting P) {out : Surroundings σ}
    (hresolve : ∀ key now, Maintains P (Engine.resolve out key now)) (clock : Clock)
    (request : Request) : Maintains P (Engine.execute out clock request) := by
  refine maintains_bind (h.count _) fun _ => h.countingTimeouts ?_
  refine maintains_bind maintains_engine fun e => ?_
  cases e.registry.active? request.tenant request.decisionType with
  | none =>
    refine maintains_bind maintains_engine fun e => maintains_bind (h.count _) fun _ => ?_
    split
    · exact h.deliver _ _ _ _ _
    · exact maintains_stop _
  | some b =>
    refine maintains_bind maintains_engine fun e => maintains_bind (hresolve _ _) fun c => ?_
    have hrest : Maintains P (do
        let check := (← Call.engine).checkOverride request clock.wallMillis
        Engine.recordOverride request check
        let pin := pinnedBy c check
        let r ← Engine.runPlan request b c.snapshot pin (e.hasExpired request clock)
        Engine.deliver out clock request pin r) :=
      maintains_bind maintains_engine fun e => maintains_bind (h.recordOverride _ _) fun _ =>
        maintains_bind (h.runPlan _ _ _ _ _) fun _ => h.deliver _ _ _ _ _
    dsimp only
    split
    · exact maintains_bind (maintains_stop _) fun _ => hrest
    · exact hrest

theorem executePinned (h : Counting P) (out : Surroundings σ) (clock : Clock) (request : Request)
    (blueprint : Option Blueprint) (snapshot : Option Snapshot) (pin : Pinned) :
    Maintains P (Engine.executePinned out clock request blueprint snapshot pin) := by
  unfold Engine.executePinned
  cases blueprint with
  | none => exact maintains_stop _
  | some b =>
    dsimp only
    split
    · exact maintains_stop _
    · exact maintains_bind (h.count _) fun _ => h.countingTimeouts <|
        maintains_bind maintains_engine fun e =>
          maintains_bind (h.runPlan _ _ _ _ _) fun _ => h.deliver _ _ _ _ _

theorem recordedSnapshot (out : Surroundings σ) (record : TraceRecord) :
    Maintains P (Engine.recordedSnapshot out record) := by
  unfold Engine.recordedSnapshot
  cases record.origin with
  | failClosed => exact maintains_pure _
  | «default» => exact maintains_bind maintains_engine fun _ => maintains_pure _
  | hotCache | shared | staleFallback | pinned =>
    refine maintains_bind maintains_get fun w => ?_
    split
    · exact maintains_pure _
    · exact maintains_stop _

theorem replay (h : Counting P) (out : Surroundings σ) (record : TraceRecord) :
    Maintains P (Engine.replay out record) := by
  refine maintains_bind maintains_engine fun e => ?_
  cases record.blueprint with
  | none => exact maintains_pure _
  | some id =>
    dsimp only
    cases e.registry.find? id with
    | none => exact maintains_stop _
    | some b =>
      exact maintains_bind (recordedSnapshot out record) fun _ =>
        maintains_bind (h.runPlan _ _ _ _ _) fun _ => maintains_pure _

end Counting

/-- A property that the bookkeeping of an engine does not touch: what it counts, the numbers of its
answers, and the copies of contexts that come in. -/
structure Stable (P : Engine → Prop) : Prop where
  counted : ∀ e t, P e → P { e with statistics := t }
  numbered : ∀ e n, P e → P { e with nextTrace := n }
  hit : ∀ e, P e → P { e with resolver := e.resolver.countHit }
  settled : ∀ e e' key now answer, P e → P e' →
    P { e' with resolver := (e.resolver.settle e.options key now answer).resolver }

theorem stable_sameRules (e : Engine) : Stable e.SameRules :=
  ⟨fun _ _ h => h.trans ⟨rfl, rfl, rfl, rfl⟩, fun _ _ h => h.trans ⟨rfl, rfl, rfl, rfl⟩,
    fun _ h => h.trans ⟨rfl, rfl, rfl, rfl⟩, fun _ _ _ _ _ _ h => h.trans ⟨rfl, rfl, rfl, rfl⟩⟩

namespace Stable

theorem counting (h : Stable P) : Counting P := ⟨h.counted, h.numbered⟩

theorem resolve (h : Stable P) (out : Surroundings σ) (key : ContextKey) (now : Int64) :
    Maintains P (Engine.resolve out key now) := by
  refine maintains_engine_bind fun e he => ?_
  cases e.resolver.hot? e.options key now with
  | some s => exact maintains_bind (maintains_update h.hit) fun _ => maintains_pure _
  | none =>
    refine maintains_bind (maintains_withOutside _) fun answer => ?_
    refine maintains_bind (maintains_update fun e' he' => h.settled e e' key now answer he he')
      fun _ => ?_
    refine maintains_bind (maintains_warn _) fun _ => ?_
    dsimp only
    cases (e.resolver.settle e.options key now answer).result with
    | ok c =>
      split
      · exact maintains_bind (maintains_withOutside _) fun _ => maintains_pure _
      · exact maintains_pure _
    | error err =>
      split
      · exact maintains_bind (maintains_withOutside _) fun _ => maintains_stop _
      · exact maintains_stop _

theorem execute (h : Stable P) (out : Surroundings σ) (clock : Clock) (request : Request) :
    Maintains P (Engine.execute out clock request) :=
  h.counting.execute (h.resolve out) clock request

theorem executePinned (h : Stable P) (out : Surroundings σ) (clock : Clock) (request : Request)
    (blueprint : Option Blueprint) (snapshot : Option Snapshot) (pin : Pinned) :
    Maintains P (Engine.executePinned out clock request blueprint snapshot pin) :=
  h.counting.executePinned out clock request blueprint snapshot pin

theorem replay (h : Stable P) (out : Surroundings σ) (record : TraceRecord) :
    Maintains P (Engine.replay out record) := h.counting.replay out record

end Stable

theorem keeps_resolve (out : Surroundings σ) (key : ContextKey) (now : Int64) :
    Keeps (resolve out key now) :=
  .of_maintains fun e => (stable_sameRules e).resolve out key now

theorem keeps_recordOverride (request : Request) (check : OverrideCheck) :
    Keeps (recordOverride request check : Call σ Unit) :=
  .of_maintains fun e => (stable_sameRules e).counting.recordOverride request check

/-- Answering a request changes no rule, however it ends. -/
theorem keeps_execute (out : Surroundings σ) (clock : Clock) (request : Request) :
    Keeps (execute out clock request) :=
  .of_maintains fun e => (stable_sameRules e).execute out clock request

end Engine
end DecisionEngine
