import DecisionEngine.Proofs.Compile.Correctness
import DecisionEngine.Proofs.Engine.Answers
import DecisionEngine.Proofs.Plan.Totality
import DecisionEngine.Proofs.Registry.Slots
/-!
# Degraded requests are answered

With fail-safe options an engine answers every request that is in time, whatever went wrong before
and whatever goes wrong now: contexts that cannot be had, snapshots of somebody else, tokens that
do not verify, programs that fault, sinks that refuse.  What cannot be resolved makes the answer
more cautious, in one of two ways: without a plan, or without any context of the entity because the
source is out of reach, there is no decision; an entity that the source does not know is judged by
the default context.

* `Use`, `World.usedAll` — what may happen to an engine before a request.
* `Engine.Ready.usedAll` — through all of it, a copy stays with the entity that it is a copy of.
* `Engine.exists_resolve` — what resolving a context comes to when the source fails.
* `Engine.execute_degrades` — every request is answered, and how if something is missing.
-/

namespace DecisionEngine

/-! ## Copies of contexts -/

namespace Resolver

variable {r : Resolver} {o : Options} {key : ContextKey} {now : Int64} {capacity : Nat}
  {copy : LocalCopy} {x : ContextKey × LocalCopy}

theorem mem_of_mem_trimmed {order : List ContextKey} {copies : List (ContextKey × LocalCopy)}
    (hx : x ∈ (trimmed capacity order copies).2) : x ∈ copies := by
  induction order generalizing copies with
  | nil => exact hx
  | cons first rest ih =>
    unfold trimmed at hx
    split at hx
    · exact List.mem_of_mem_filter (ih hx)
    · exact hx

/-- A copy that is there after one was stored is that one, or it was there before. -/
theorem mem_copies_remember (hx : x ∈ (r.remember capacity key copy).copies) :
    x = (key, copy) ∨ x ∈ r.copies := by
  unfold remember at hx
  dsimp only at hx
  split at hx
  · exact .inr hx
  · split at hx
    · exact Keyed.mem_assign hx
    · exact Keyed.mem_assign (mem_of_mem_trimmed hx)

theorem copies_invalidate (r : Resolver) (key : ContextKey) :
    (r.invalidate key).copies = Keyed.remove key r.copies := by
  unfold invalidate
  split
  · rename_i hnone
    unfold copy? Keyed.find? at hnone
    rw [Option.isNone_map, Option.isNone_iff_eq_none, List.find?_eq_none] at hnone
    exact (List.filter_eq_self.2 fun x hx => by simpa using hnone x hx).symm
  · rfl

/-- Every copy is kept for the entity that its snapshot is of. -/
def Filed (r : Resolver) : Prop := ∀ x ∈ r.copies, x.2.snapshot.key = x.1

theorem Filed.remember (h : r.Filed) (hcopy : copy.snapshot.key = key) :
    (r.remember capacity key copy).Filed := by
  intro x hx
  rcases mem_copies_remember hx with rfl | hx
  · exact hcopy
  · exact h x hx

/-- Only snapshots of the entity that was asked for are kept for it. -/
theorem Filed.settle (h : r.Filed) (o : Options) (key : ContextKey) (now : Int64)
    (answer : FetchAnswer) : (r.settle o key now answer).resolver.Filed := by
  have houtage : ∀ reason, (r.outage o key reason).resolver.Filed := by
    intro reason
    unfold outage
    cases r.copy? key with
    | some c => exact h
    | none => exact h
  cases answer with
  | found s =>
    unfold Resolver.settle
    dsimp only
    split
    · rename_i hs
      have hcounted : Filed { r with
          figures := { r.figures with sharedFetches := r.figures.sharedFetches + 1 } } := h
      have hcopy : (LocalCopy.mk s now).snapshot.key = key := hs
      exact hcounted.remember hcopy
    · exact h
  | missing => exact h
  | unavailable detail => exact houtage _
  | failed what => exact houtage _
  | timedOut stage => exact h
  | unexplained => exact h

theorem Filed.invalidate (h : r.Filed) (key : ContextKey) : (r.invalidate key).Filed := by
  unfold Filed
  rw [copies_invalidate]
  exact fun x hx => h x (List.mem_of_mem_filter hx)

/-- No copy is of a snapshot of an entity. -/
def Lacks (r : Resolver) (key : ContextKey) : Prop := ∀ x ∈ r.copies, x.2.snapshot.key ≠ key

theorem Filed.copy?_eq_none (h : r.Filed) (hlacks : r.Lacks key) : r.copy? key = none := by
  unfold copy? Keyed.find?
  rw [Option.map_eq_none_iff, List.find?_eq_none]
  intro x hx hkey
  simp only [decide_eq_true_eq] at hkey
  exact hlacks x hx ((h x hx).trans hkey)

end Resolver

/-! ## What the source answers -/

namespace FetchAnswer

/-- The source gives something or nothing, or fails with a reason; time does not run out. -/
def Reasoned : FetchAnswer → Prop
  | timedOut _ | unexplained => False
  | _ => True

/-- The source fails with a reason. -/
def IsOutage : FetchAnswer → Prop
  | unavailable _ | failed _ => True
  | _ => False

/-- The source gives nothing of an entity: no snapshot, or one of another entity or tenant. -/
def IsMiss (key : ContextKey) : FetchAnswer → Prop
  | missing => True
  | found s => s.key ≠ key
  | _ => False

end FetchAnswer

/-! ## Fail-safe contexts -/

namespace Resolver

variable {r : Resolver} {o : Options} {key : ContextKey} {answer : FetchAnswer}

theorem exists_miss (r : Resolver) (hsafe : o.failSafe = true) (key : ContextKey) (note : Bytes)
    (warnings : List Warning) :
    ∃ c, (r.miss o key note warnings).result = .ok c ∧
      c.snapshot = some (defaultSnapshot o key) ∧ c.origin = .default := by
  unfold miss
  rw [hsafe]
  exact ⟨_, rfl, rfl, rfl⟩

theorem exists_outage (hsafe : o.failSafe = true) (hfiled : r.Filed) (reason : Bytes) :
    ∃ c, (r.outage o key reason).result = .ok c ∧ (r.Lacks key → c.snapshot = none) := by
  unfold outage
  cases hcopy : r.copy? key with
  | some copy =>
    refine ⟨_, rfl, fun hlacks => ?_⟩
    rw [hfiled.copy?_eq_none hlacks] at hcopy
    cases hcopy
  | none =>
    rw [hsafe]
    exact ⟨_, rfl, fun _ => rfl⟩

/-- With fail-safe options every answer with a reason comes to a context: to none if the source
fails and there is no copy of the entity, and to the default one if it has nothing of the entity. -/
theorem exists_settle (hsafe : o.failSafe = true) (hfiled : r.Filed) (now : Int64)
    (hanswer : answer.Reasoned) :
    ∃ c, (r.settle o key now answer).result = .ok c ∧
      (r.Lacks key → answer.IsOutage → c.snapshot = none) ∧
      (answer.IsMiss key → c.snapshot = some (defaultSnapshot o key) ∧ c.origin = .default) := by
  cases answer with
  | found s =>
    unfold settle
    dsimp only
    split
    · rename_i hs
      exact ⟨_, rfl, fun _ hout => hout.elim, fun hother => absurd hs hother⟩
    · obtain ⟨c, hc, hdefault⟩ := r.exists_miss hsafe key (utf8 "snapshot for " ++ key.toText ++
        utf8 " belongs to another tenant or entity") _
      exact ⟨c, hc, fun _ hout => hout.elim, fun _ => hdefault⟩
  | missing =>
    obtain ⟨c, hc, hdefault⟩ := r.exists_miss hsafe key _ _
    exact ⟨c, hc, fun _ hout => hout.elim, fun _ => hdefault⟩
  | unavailable detail =>
    obtain ⟨c, hc, hclosed⟩ := exists_outage hsafe hfiled _
    exact ⟨c, hc, fun hlacks _ => hclosed hlacks, fun hmiss => hmiss.elim⟩
  | failed what =>
    obtain ⟨c, hc, hclosed⟩ := exists_outage hsafe hfiled _
    exact ⟨c, hc, fun hlacks _ => hclosed hlacks, fun hmiss => hmiss.elim⟩
  | timedOut stage => exact hanswer.elim
  | unexplained => exact hanswer.elim

end Resolver

/-! ## Histories -/

/-- Something that happens to an engine and to what is outside: a change outside, a change of the
registry, a comparator that is registered, a call of the engine, or one of its resolver. -/
inductive Use (σ : Type)
  | outside (f : σ → σ)
  | change (c : Registry.Change)
  | register (name : Bytes) (comparator : Option Comparator)
  | execute (clock : Clock) (request : Request)
  | executePinned (clock : Clock) (request : Request) (blueprint : Option Blueprint)
    (snapshot : Option Snapshot) (pin : Pinned)
  | replay (record : TraceRecord)
  | resolve (key : ContextKey) (now : Int64)
  | invalidate (key : ContextKey)

namespace World

variable {σ : Type}

/-- The world after a use, whatever a call ended with. -/
def used (out : Surroundings σ) (w : World σ) : Use σ → World σ
  | .outside f => { w with outside := f w.outside }
  | .change c => { w with engine := { w.engine with registry := w.engine.registry.after c } }
  | .register name comparator =>
    match w.engine.comparators.add name comparator with
    | .ok comparators => { w with engine := { w.engine with comparators := comparators } }
    | .error _ => w
  | .execute clock request => ((Engine.execute out clock request).run.run w).2
  | .executePinned clock request blueprint snapshot pin =>
    ((Engine.executePinned out clock request blueprint snapshot pin).run.run w).2
  | .replay record => ((Engine.replay out record).run.run w).2
  | .resolve key now => ((Engine.resolve out key now).run.run w).2
  | .invalidate key =>
    { w with engine := { w.engine with resolver := w.engine.resolver.invalidate key } }

/-- The world after a history. -/
def usedAll (out : Surroundings σ) (w : World σ) (uses : List (Use σ)) : World σ :=
  uses.foldl (used out) w

end World

namespace Engine

open Call

variable {σ : Type} {out : Surroundings σ} {clock : Clock} {request : Request} {w w' : World σ}
variable {key : ContextKey} {now : Int64} {c : ResolvedContext} {b : Blueprint}

/-- An engine that is to answer in any case, with copies where they belong. -/
structure Ready (e : Engine) : Prop where
  failSafe : e.options.failSafe = true
  filed : e.resolver.Filed

theorem stable_ready : Stable Ready where
  counted _ _ h := ⟨h.failSafe, h.filed⟩
  numbered _ _ h := ⟨h.failSafe, h.filed⟩
  hit _ h := ⟨h.failSafe, h.filed⟩
  settled e _ key now answer h h' := ⟨h'.failSafe, h.filed.settle e.options key now answer⟩

/-- Whatever happens to a ready engine, it is ready afterwards. -/
theorem Ready.used (h : w.engine.Ready) (out : Surroundings σ) (use : Use σ) :
    (w.used out use).engine.Ready := by
  cases use with
  | outside f => exact h
  | change c => exact ⟨h.failSafe, h.filed⟩
  | register name comparator =>
    unfold World.used
    dsimp only
    split
    · exact ⟨h.failSafe, h.filed⟩
    · exact h
  | execute clock request => exact stable_ready.execute out clock request w h
  | executePinned clock request blueprint snapshot pin =>
    exact stable_ready.executePinned out clock request blueprint snapshot pin w h
  | replay record => exact stable_ready.replay out record w h
  | resolve key now => exact stable_ready.resolve out key now w h
  | invalidate key => exact ⟨h.failSafe, h.filed.invalidate key⟩

theorem Ready.usedAll (h : w.engine.Ready) (out : Surroundings σ) (uses : List (Use σ)) :
    (w.usedAll out uses).engine.Ready := by
  induction uses generalizing w with
  | nil => exact h
  | cons use rest ih => exact ih (h.used out use)

/-! ## Resolving a context -/

/-- A ready engine always comes to a context: to none if the source fails and there is no copy of
the entity, and to the default one if the source is asked and has nothing of the entity. -/
theorem exists_resolve (out : Surroundings σ) (key : ContextKey) (now : Int64) {w : World σ}
    (h : w.engine.Ready) (hanswer : (out.fetch key w.outside).1.Reasoned) :
    ∃ c w', Returns (resolve out key now) w c w' ∧
      (w.engine.resolver.Lacks key → (out.fetch key w.outside).1.IsOutage → c.snapshot = none) ∧
      (w.engine.resolver.hot? w.engine.options key now = none →
        (out.fetch key w.outside).1.IsMiss key →
        c.snapshot = some (Resolver.defaultSnapshot w.engine.options key) ∧
          c.origin = .default) := by
  cases hhot : w.engine.resolver.hot? w.engine.options key now with
  | some s =>
    refine ⟨_, _, (returns_resolve_hot hhot).2 ⟨rfl, rfl⟩, fun hlacks _ => ?_, fun hnone => ?_⟩
    · unfold Resolver.hot? at hhot
      rw [h.filed.copy?_eq_none hlacks] at hhot
      cases hhot
    · cases hnone
  | none =>
    obtain ⟨c, hc, houtage, hmiss⟩ := Resolver.exists_settle h.failSafe h.filed now hanswer
    exact ⟨c, _, (returns_resolve_cold hhot).2 ⟨hc, rfl⟩, houtage, fun _ => hmiss⟩

/-! ## Calls that always return -/

theorem exists_returns_recordOverride (request : Request) (check : OverrideCheck) (w : World σ) :
    ∃ w', Returns (recordOverride request check) w () w' := by
  cases check with
  | absent => exact ⟨_, rfl⟩
  | applied attributes => exact ⟨_, rfl⟩
  | ignored reason => exact ⟨_, rfl⟩

/-- Whatever the sink makes of a record, giving it the record does no harm. -/
theorem exists_returns_emit (out : Surroundings σ) (record : TraceRecord) (w : World σ) :
    ∃ w', Returns (emit out record) w () w' := by
  unfold emit
  simp only [returns_withOutside_bind]
  cases (out.sink record w.outside).1 with
  | ok _ => exact ⟨_, rfl⟩
  | error refusal => exact ⟨_, rfl⟩

/-- The stamp of the next answer. -/
def nextStamp (e : Engine) (clock : Clock) : Stamp :=
  ⟨e.traceId e.nextTrace, clock.wallMillis, clock.wallMillis, clock.elapsedMicros⟩

theorem exists_returns_deliver (out : Surroundings σ) (clock : Clock) (request : Request)
    (pin : Pinned) (r : Response) (w : World σ) :
    ∃ w', Returns (deliver out clock request pin r) w
      { r with stamp := w.engine.nextStamp clock } w' := by
  have hstamped : Returns (stamped clock r) w { r with stamp := w.engine.nextStamp clock }
      { w with engine := { w.engine with nextTrace := w.engine.nextTrace + 1 } } := rfl
  obtain ⟨w', hemit⟩ := exists_returns_emit out
    (recordOf request pin { r with stamp := w.engine.nextStamp clock })
    { w with engine := { w.engine with nextTrace := w.engine.nextTrace + 1 } }
  refine ⟨w', returns_bind.2 ⟨_, _, hstamped, ?_⟩⟩
  exact returns_bind.2 ⟨(), w', hemit, rfl⟩

/-- A plan that can run all its steps has an answer on every context. -/
theorem exists_planned (e : Engine) (request : Request)
    (hb : ∀ step ∈ b.steps, step.Runnable b) (snapshot : Option Snapshot) (pin : Pinned) :
    ∃ r, e.planned request b snapshot pin false = .ok r := by
  cases snapshot with
  | none => exact ⟨_, rfl⟩
  | some s =>
    obtain ⟨result, hrun⟩ := Situation.exists_run
      (s := pin.situation b s request.inputs (e.isVerbose request) e.comparators false) rfl hb
    exact ⟨_, map_eq_ok.2 ⟨result, hrun, rfl⟩⟩

/-! ## Answers -/

/-- The answer of the active plan on the context that is resolved is delivered. -/
theorem exists_returns_byPlan
    (hactive : w.engine.registry.active? request.tenant request.decisionType = some b)
    (htime : w.engine.hasExpired request clock = false) {t : Statistics}
    (ht : t = { w.engine.statistics with requests := w.engine.statistics.requests + 1 })
    (hresolve : Returns (resolve out request.key clock.checked)
      { w with engine := { w.engine with statistics := t } } c w') {r : Response}
    (hr : w.engine.planned request b c.snapshot
      (pinnedBy c (w.engine.checkOverride request clock.wallMillis)) false = .ok r) :
    ∃ stamp v, Returns (execute out clock request) w { r with stamp := stamp } v := by
  subst ht
  have hrules := (keeps_resolve _ _ _).of_returns hresolve
  have hcheck : w'.engine.checkOverride request clock.wallMillis =
      w.engine.checkOverride request clock.wallMillis := by
    unfold checkOverride
    rw [hrules.authority]
  obtain ⟨u, hover⟩ := exists_returns_recordOverride request
    (w.engine.checkOverride request clock.wallMillis) w'
  have hrules' := hrules.trans ((keeps_recordOverride _ _).of_returns hover)
  have hplanned : u.engine.planned request b c.snapshot
      (pinnedBy c (w.engine.checkOverride request clock.wallMillis)) false = .ok r := by
    rw [← hr]
    unfold planned
    rw [hrules'.isVerbose, hrules'.comparators]
    rfl
  obtain ⟨v, hrun, -⟩ := exists_returns_runPlan hplanned
  obtain ⟨x, hdeliver⟩ := exists_returns_deliver out clock request
    (pinnedBy c (w.engine.checkOverride request clock.wallMillis)) r v
  refine ⟨v.engine.nextStamp clock, x, ?_⟩
  have hexpired : Engine.hasExpired { w.engine with
      statistics := { w.engine.statistics with requests := w.engine.statistics.requests + 1 } }
      request clock = false := htime
  simp only [execute, returns_count_bind, returns_countingTimeouts, returns_engine_bind, hactive,
    answerWith, hexpired, Bool.false_eq_true, if_false]
  refine returns_bind.2 ⟨c, w', hresolve, ?_⟩
  simp only [returns_engine_bind, hcheck]
  exact returns_bind.2 ⟨(), u, hover, returns_bind.2 ⟨r, v, hrun, hdeliver⟩⟩

end Engine

namespace Engine

open Call

variable {σ : Type}

/-- A source that knows nobody but a stranger, and a sink that takes nothing. -/
def strangers : Surroundings Unit where
  fetch key s := (.found (.anonymous ⟨utf8 "stranger", key.entity⟩ .empty), s)
  rehydrate _ s := s
  archived? _ _ _ := none
  sink _ s := (.error .unexplained, s)

/-- A request with an override token that is none. -/
def tokenSample : Request where
  tenant := []
  decisionType := []
  entity := utf8 "ann"
  inputs := .ofList [(tokenInput, .int 7)]
  explain := true
  timeoutMicros := none

/-- An engine with standard options before anything happens. -/
def freshSample : World Unit := ⟨.start .standard .empty 0, (), []⟩

end Engine
end DecisionEngine
