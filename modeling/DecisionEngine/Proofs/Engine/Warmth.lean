import DecisionEngine.Proofs.Engine.Copies
import DecisionEngine.Proofs.Engine.Explanations
import DecisionEngine.Proofs.Engine.Replay
import DecisionEngine.Service
/-!
# Warm and cold engines decide alike

An engine asks its source less often than it answers, because it keeps copies, and which copies it
has depends on the time, on its options and on every request before.  If the source says the same
about an entity whenever it is asked, none of this shows in what is decided: every copy is of the
snapshot that the source would answer with now.  What a request comes to is then a function of the
request, whatever the engine was used for before.

* `Surroundings.Steady` — sources that do not change.
* `Resolver.Reflects` — copies that agree with the source; `World.reflects_usedAll` that whatever
  happens to an engine, its copies do.
* `Engine.verdict` — what a request comes to where nothing is remembered.
* `Engine.outcome_execute` — it comes to that with any copies.
* `Engine.same_verdicts_in_any_order` — two runs on the same requests.
-/

namespace DecisionEngine

/-- The source answers about an entity in one way, whenever it is asked. -/
def Surroundings.Steady {σ : Type} (out : Surroundings σ) (answer : ContextKey → FetchAnswer) :
    Prop := ∀ key s, (out.fetch key s).1 = answer key

/-! ## Copies that agree with the source -/

namespace Resolver

/-- Every copy is of the snapshot of its entity that the source answers with. -/
def Reflects (answer : ContextKey → FetchAnswer) (r : Resolver) : Prop :=
  ∀ x ∈ r.copies, answer x.1 = .found x.2.snapshot ∧ x.2.snapshot.key = x.1

variable {answer : ContextKey → FetchAnswer} {r : Resolver} {key : ContextKey} {now : Int64}

theorem reflects_empty (answer : ContextKey → FetchAnswer) : Reflects answer empty :=
  fun _ h => absurd h List.not_mem_nil

theorem Reflects.copy? (h : r.Reflects answer) {copy : LocalCopy}
    (hcopy : r.copy? key = some copy) :
    answer key = .found copy.snapshot ∧ copy.snapshot.key = key := by
  obtain ⟨x, hx, rfl⟩ := Option.map_eq_some_iff.1 hcopy
  have hkey : x.1 = key := by simpa using List.find?_some hx
  exact hkey ▸ h x (List.mem_of_find?_eq_some hx)

/-- What the source answers keeps the copies in agreement with it. -/
theorem Reflects.settle (h : r.Reflects answer) (o : Options) (key : ContextKey) (now : Int64) :
    (r.settle o key now (answer key)).resolver.Reflects answer := by
  intro x hx
  by_cases hfound : ∃ s, answer key = .found s ∧ s.key = key
  · obtain ⟨s, hanswer, hs⟩ := hfound
    rw [hanswer, settle_found hs] at hx
    rcases mem_copies_remember hx with rfl | hx
    · exact ⟨hanswer, hs⟩
    · exact h x hx
  · rw [copies_settle fun s hs hkey => hfound ⟨s, hs, hkey⟩] at hx
    exact h x hx

/-- The snapshot that an answer of the source comes to where nothing is remembered. -/
def contextFrom (o : Options) (key : ContextKey) (answer : FetchAnswer) :
    Except ResolveError (Option Snapshot) :=
  (empty.settle o key 0 answer).result.map (·.snapshot)

/-- Copies that agree with the source make no difference to what its answer comes to: where the
source is out of reach, there are none. -/
theorem Reflects.context (h : r.Reflects answer) (o : Options) (key : ContextKey) (now : Int64) :
    (r.settle o key now (answer key)).result.map (·.snapshot) = contextFrom o key (answer key) := by
  have houtage : (∀ s, answer key ≠ .found s) → ∀ reason,
      (r.outage o key reason).result = (empty.outage o key reason).result := by
    intro hnone reason
    have hcopy : r.copy? key = none := by
      cases hcopy : r.copy? key with
      | none => rfl
      | some copy => exact absurd (h.copy? hcopy).1 (hnone _)
    unfold outage
    rw [hcopy]
    rfl
  unfold contextFrom Resolver.settle
  cases hanswer : answer key with
  | found s =>
    dsimp only
    split
    · rfl
    · rfl
  | missing => rfl
  | unavailable detail =>
    dsimp only
    rw [houtage (by simp [hanswer])]
  | failed what =>
    dsimp only
    rw [houtage (by simp [hanswer])]
  | timedOut stage => rfl
  | unexplained => rfl

/-- How long copies are used and how many there are makes no difference where nothing is
remembered. -/
theorem contextFrom_congr {o : Options} (ttl : Int64) (capacity : UInt64) (key : ContextKey)
    (answer : FetchAnswer) :
    contextFrom { o with hotTtlMillis := ttl, fallbackCapacity := capacity } key answer =
      contextFrom o key answer := by
  unfold contextFrom settle
  cases answer with
  | found s =>
    dsimp only
    split
    · rfl
    · rfl
  | missing => rfl
  | unavailable detail => rfl
  | failed what => rfl
  | timedOut stage => rfl
  | unexplained => rfl

end Resolver

/-! ## Whatever happens to an engine -/

namespace World

open Call Engine

variable {σ : Type} {out : Surroundings σ} {answer : ContextKey → FetchAnswer} {w : World σ}

theorem counting_reflects (answer : ContextKey → FetchAnswer) :
    Counting fun e => e.resolver.Reflects answer := ⟨fun _ _ h => h, fun _ _ h => h⟩

theorem maintains_resolve (hsteady : out.Steady answer) (key : ContextKey) (now : Int64) :
    Maintains (fun e => e.resolver.Reflects answer) (resolve out key now) := by
  intro w h
  rw [engine_resolve]
  cases w.engine.resolver.hot? w.engine.options key now with
  | some s => exact h
  | none =>
    dsimp only
    unfold settled
    rw [hsteady]
    exact h.settle _ key now

/-- Whatever happens to an engine, its copies agree with the source afterwards. -/
theorem reflects_used (hsteady : out.Steady answer) (h : w.engine.resolver.Reflects answer)
    (use : Use σ) : (w.used out use).engine.resolver.Reflects answer := by
  cases use with
  | outside f => exact h
  | change c => exact h
  | register name comparator =>
    unfold World.used
    dsimp only
    split
    · exact h
    · exact h
  | execute clock request =>
    exact (counting_reflects answer).execute (maintains_resolve hsteady) clock request w h
  | executePinned clock request blueprint snapshot pin =>
    exact (counting_reflects answer).executePinned out clock request blueprint snapshot pin w h
  | replay record => exact (counting_reflects answer).replay out record w h
  | resolve key now => exact maintains_resolve hsteady key now w h
  | invalidate key =>
    intro x hx
    rw [show (w.used out (.invalidate key)).engine.resolver = w.engine.resolver.invalidate key from
      rfl, Resolver.copies_invalidate] at hx
    exact h x (List.mem_of_mem_filter hx)

theorem reflects_usedAll (hsteady : out.Steady answer) (hempty : w.engine.resolver = .empty)
    (uses : List (Use σ)) : (w.usedAll out uses).engine.resolver.Reflects answer := by
  have hstart : w.engine.resolver.Reflects answer := hempty ▸ Resolver.reflects_empty answer
  clear hempty
  induction uses generalizing w with
  | nil => exact hstart
  | cons use rest ih => exact ih (reflects_used hsteady hstart use)

end World

/-! ## Verdicts -/

/-- What a request comes to: decisions with their alternatives, or an error. -/
abbrev Verdict := Except EngineError (List Decision × List Alternative)

/-- What a response decides. -/
def Response.verdict (r : Response) : List Decision × List Alternative :=
  (r.decisions, r.alternatives)

namespace Engine

open Call

variable {σ : Type} {out : Surroundings σ} {answer : ContextKey → FetchAnswer} {w : World σ}
  {clock : Clock} {request : Request}

/-- What a request comes to by a plan where nothing is remembered. -/
def planVerdict (e : Engine) (answer : ContextKey → FetchAnswer) (request : Request)
    (b : Blueprint) : Verdict :=
  match Resolver.contextFrom e.options request.key (answer request.key) with
  | .error err => .error (.ofResolve err)
  | .ok snapshot =>
    ((e.planned request b snapshot .plain false).mapError .ofRun).map Response.verdict

/-- What a request without token comes to in time where nothing is remembered. -/
def verdict (e : Engine) (answer : ContextKey → FetchAnswer) (request : Request) : Verdict :=
  match e.registry.active? request.tenant request.decisionType with
  | none =>
    if e.options.failSafe then .ok ([], [])
    else .error (.resolution (.noActiveBlueprint request.subject))
  | some b => e.planVerdict answer request b

/-- Looking up a context comes to what the answer of the source comes to. -/
theorem outcome_resolve (hsteady : out.Steady answer) (h : w.engine.resolver.Reflects answer)
    (key : ContextKey) (now : Int64) :
    ((resolve out key now).outcome w).map (·.snapshot) =
      (Resolver.contextFrom w.engine.options key (answer key)).mapError .ofResolve := by
  cases hhot : w.engine.resolver.hot? w.engine.options key now with
  | some s =>
    rw [outcome_of_returns ((returns_resolve_hot hhot).2 ⟨rfl, rfl⟩)]
    obtain ⟨copy, hcopy, rfl⟩ := Resolver.exists_copy_of_hot? hhot
    obtain ⟨hanswer, hkey⟩ := h.copy? hcopy
    unfold Resolver.contextFrom Resolver.settle
    rw [hanswer]
    dsimp only
    rw [if_pos hkey]
    rfl
  | none =>
    rw [← h.context w.engine.options key now, ← hsteady key w.outside, outcome,
      run_resolve_cold hhot]
    exact map_mapError EngineError.ofResolve _ _

/-- The rules that an engine answers by determine the answer of a plan. -/
theorem SameRules.planned {e e' : Engine} (h : e.SameRules e') (request : Request) (b : Blueprint)
    (snapshot : Option Snapshot) (pin : Pinned) (expired : Bool) :
    e'.planned request b snapshot pin expired = e.planned request b snapshot pin expired := by
  unfold Engine.planned
  rw [h.isVerbose, h.comparators]

/-- How a context was obtained decides nothing, as long as there is no token. -/
theorem verdict_planned (e : Engine) (request : Request) (b : Blueprint) (c : ResolvedContext) :
    (e.planned request b c.snapshot (pinnedBy c .absent) false).map Response.verdict =
      (e.planned request b c.snapshot .plain false).map Response.verdict := by
  unfold Engine.planned
  cases c.snapshot with
  | none => rfl
  | some s =>
    have hsituation : (pinnedBy c .absent).situation b s request.inputs (e.isVerbose request)
        e.comparators false = Pinned.plain.situation b s request.inputs (e.isVerbose request)
        e.comparators false := rfl
    dsimp only
    rw [hsituation]
    cases (Pinned.plain.situation b s request.inputs (e.isVerbose request) e.comparators
      false).run with
    | error err => rfl
    | ok r => rfl

/-- The verdict of a delivered answer is that of the answer. -/
theorem verdict_delivered (request : Request) (b : Blueprint) (c : ResolvedContext) (w : World σ) :
    ((runPlan request b c.snapshot (pinnedBy c .absent) false >>=
        deliver out clock request (pinnedBy c .absent)).outcome w).map Response.verdict =
      ((w.engine.planned request b c.snapshot .plain false).mapError .ofRun).map
        Response.verdict := by
  rw [outcome_delivered]
  have hstamp : ∀ (x : Except EngineError Response) (stamp : Stamp),
      (x.map fun r => { r with stamp := stamp }).map Response.verdict = x.map Response.verdict := by
    intro x stamp
    cases x <;> rfl
  rw [hstamp, map_mapError, map_mapError, verdict_planned]

theorem verdict_answerWithoutBlueprint (out : Surroundings σ) (clock : Clock) (request : Request)
    (w : World σ) :
    ((answerWithoutBlueprint out clock request).outcome w).map Response.verdict =
      if w.engine.options.failSafe then .ok ([], [])
      else .error (.resolution (.noActiveBlueprint request.subject)) := by
  unfold answerWithoutBlueprint
  rw [outcome_engine_bind, outcome_count_bind]
  split
  case isTrue =>
    obtain ⟨v, hdeliver⟩ := exists_returns_deliver out clock request .plain
      (.withoutBlueprint request (w.engine.isVerbose request)) { w with
        engine := { w.engine with
          statistics := { w.engine.statistics with
            noBlueprint := w.engine.statistics.noBlueprint + 1 } } }
    rw [outcome_of_returns hdeliver]
    rfl
  case isFalse => rfl

/-- An active plan comes to its verdict, whatever copies there are. -/
theorem verdict_answerWith (hsteady : out.Steady answer) (h : w.engine.resolver.Reflects answer)
    (htoken : request.inputs.find? tokenInput = none)
    (htime : w.engine.hasExpired request clock = false) (b : Blueprint) :
    ((answerWith out clock request b).outcome w).map Response.verdict =
      w.engine.planVerdict answer request b := by
  have hcontext := outcome_resolve hsteady h request.key clock.checked
  unfold answerWith planVerdict
  rw [outcome_engine_bind]
  dsimp only
  rw [htime]
  cases hresolve : (resolve out request.key clock.checked).outcome w with
  | error err =>
    rw [hresolve] at hcontext
    obtain ⟨cause, hfrom, rfl⟩ := mapError_eq_error.1 hcontext.symm
    rw [outcome_bind_of_error hresolve, hfrom]
    rfl
  | ok c =>
    rw [hresolve] at hcontext
    have hfrom := mapError_eq_ok.1 hcontext.symm
    obtain ⟨v, hreturns⟩ : ∃ v, Returns (resolve out request.key clock.checked) w c v :=
      ⟨_, Prod.ext hresolve rfl⟩
    have hrules := (keeps_resolve out request.key clock.checked).of_returns hreturns
    have habsent : v.engine.checkOverride request clock.wallMillis = .absent := by
      unfold checkOverride
      rw [htoken]
    rw [outcome_bind_of_returns hreturns, hfrom]
    dsimp only
    rw [if_neg Bool.false_ne_true, outcome_engine_bind, habsent, ← hrules.planned]
    exact verdict_delivered request b c v

/-- **A request comes to its verdict**, whatever copies the engine has. -/
theorem outcome_execute (hsteady : out.Steady answer) (h : w.engine.resolver.Reflects answer)
    (htoken : request.inputs.find? tokenInput = none)
    (htime : w.engine.hasExpired request clock = false) :
    ((execute out clock request).outcome w).map Response.verdict =
      w.engine.verdict answer request := by
  unfold execute verdict
  rw [outcome_count_bind, outcome_countingTimeouts, outcome_engine_bind]
  dsimp only
  cases w.engine.registry.active? request.tenant request.decisionType with
  | none => exact verdict_answerWithoutBlueprint out clock request _
  | some b =>
    -- What was counted is no part of the verdict.
    refine verdict_answerWith hsteady ?_ htoken ?_ b
    · exact h
    · exact htime

/-! ## Engines that may differ in their copies -/

/-- Engines with the same plans, comparators and options, except that they may use copies for
another time, and keep another number of them. -/
structure SameButCopies (e e' : Engine) : Prop where
  options : e'.options = { e.options with
    hotTtlMillis := e'.options.hotTtlMillis, fallbackCapacity := e'.options.fallbackCapacity }
  comparators : e'.comparators = e.comparators
  registry : e'.registry = e.registry

theorem SameRules.sameButCopies {e e' : Engine} (h : e.SameRules e') : e.SameButCopies e' :=
  ⟨by rw [h.options], h.comparators, h.registry⟩

theorem SameButCopies.trans {e e' e'' : Engine} (h : e.SameButCopies e')
    (h' : e'.SameButCopies e'') : e.SameButCopies e'' :=
  ⟨by rw [h'.options, h.options], h'.comparators.trans h.comparators, h'.registry.trans h.registry⟩

theorem SameButCopies.planned {e e' : Engine} (h : e.SameButCopies e') (request : Request)
    (b : Blueprint) (snapshot : Option Snapshot) (pin : Pinned) (expired : Bool) :
    e'.planned request b snapshot pin expired = e.planned request b snapshot pin expired := by
  unfold Engine.planned Engine.isVerbose
  rw [h.options, h.comparators]

/-- Such engines come to the same verdicts. -/
theorem SameButCopies.verdict_eq {e e' : Engine} (h : e.SameButCopies e')
    (answer : ContextKey → FetchAnswer) (request : Request) :
    e'.verdict answer request = e.verdict answer request := by
  have hcontext : ∀ key, Resolver.contextFrom e'.options key (answer key) =
      Resolver.contextFrom e.options key (answer key) := fun key => by
    rw [h.options, Resolver.contextFrom_congr]
  have hsafe : e'.options.failSafe = e.options.failSafe := by rw [h.options]
  unfold verdict planVerdict
  simp only [h.registry, hsafe, hcontext, h.planned]

/-! ## Runs -/

/-- Requests that are answered one after another, each at its time, with what they come to. -/
def verdicts (out : Surroundings σ) : List (Clock × Request) → World σ → List (Request × Verdict)
  | [], _ => []
  | (clock, request) :: rest, w =>
    (request, ((execute out clock request).outcome w).map Response.verdict) ::
      verdicts out rest (w.used out (.execute clock request))

/-- In a run, every request comes to its own verdict. -/
theorem verdicts_eq (hsteady : out.Steady answer) (h : w.engine.resolver.Reflects answer)
    {requests : List (Clock × Request)}
    (htokens : ∀ t ∈ requests, t.2.inputs.find? tokenInput = none)
    (htime : ∀ t ∈ requests, w.engine.hasExpired t.2 t.1 = false) :
    verdicts out requests w = requests.map fun t => (t.2, w.engine.verdict answer t.2) := by
  induction requests generalizing w with
  | nil => rfl
  | cons t rest ih =>
    have hrules := keeps_execute out t.1 t.2 w
    have hrest := ih (World.reflects_used hsteady h (.execute t.1 t.2))
      (fun t' ht' => htokens t' (List.mem_cons_of_mem t ht')) fun t' ht' => by
        have hintime := htime t' (List.mem_cons_of_mem t ht')
        unfold hasExpired at *
        rwa [show (w.used out (.execute t.1 t.2)).engine.options = w.engine.options from
          hrules.options]
    have hverdict : ∀ request, (w.used out (.execute t.1 t.2)).engine.verdict answer request =
        w.engine.verdict answer request := hrules.sameButCopies.verdict_eq answer
    rw [List.map_cons, verdicts, outcome_execute hsteady h (htokens t List.mem_cons_self)
      (htime t List.mem_cons_self), hrest]
    simp only [hverdict]

/-- **Neither warmth nor order decides anything.**  Two engines use a source that does not change,
and begin without copies.  After whatever they were used for, they are engines with the same plans,
which may use their copies for different times and keep different numbers of them.  If both then
answer the same requests, without tokens and in time but in any order, each request comes to the
same decisions and alternatives, or to the same error. -/
theorem same_verdicts_in_any_order (hsteady : out.Steady answer) {w' : World σ}
    (hempty : w.engine.resolver = .empty) (hempty' : w'.engine.resolver = .empty)
    (past past' : List (Use σ))
    (hsame : (w.usedAll out past).engine.SameButCopies (w'.usedAll out past').engine)
    {requests requests' : List (Clock × Request)}
    (hperm : (requests.map (·.2)).Perm (requests'.map (·.2)))
    (htokens : ∀ t ∈ requests, t.2.inputs.find? tokenInput = none)
    (htime : ∀ t ∈ requests, (w.usedAll out past).engine.hasExpired t.2 t.1 = false)
    (htime' : ∀ t ∈ requests', (w'.usedAll out past').engine.hasExpired t.2 t.1 = false) :
    (verdicts out requests (w.usedAll out past)).Perm
      (verdicts out requests' (w'.usedAll out past')) := by
  have htokens' : ∀ t ∈ requests', t.2.inputs.find? tokenInput = none := by
    intro t ht
    obtain ⟨t', ht', heq⟩ := List.mem_map.1 (hperm.mem_iff.2 (List.mem_map_of_mem ht))
    exact heq ▸ htokens t' ht'
  rw [verdicts_eq hsteady (World.reflects_usedAll hsteady hempty past) htokens htime,
    verdicts_eq hsteady (World.reflects_usedAll hsteady hempty' past') htokens' htime']
  simp only [hsame.verdict_eq]
  have hpairs := hperm.map fun request =>
    (request, (w.usedAll out past).engine.verdict answer request)
  rw [List.map_map, List.map_map] at hpairs
  exact hpairs

/-! A bank knows Ann, does not know Bob, and cannot say anything about Carol. -/

/-- A source that does not change. -/
def directory (key : ContextKey) : FetchAnswer :=
  if key.entity = utf8 "ann" then .found (sampleVersion "bank" "ann" "1")
  else if key.entity = utf8 "bob" then .missing
  else .unavailable (utf8 "down")

/-- The source, with a sink that takes everything. -/
def directorySource : Surroundings Unit where
  fetch key s := (directory key, s)
  rehydrate _ s := s
  archived? _ _ _ := none
  sink _ s := (.ok (), s)

/-- An engine that does not keep copies, and one that keeps the latest for a minute. -/
def forgetful : World Unit :=
  ⟨.start { Options.standard with fallbackCapacity := 0 } .empty 0, (), []⟩

def mindful : World Unit :=
  ⟨.start { Options.standard with hotTtlMillis := 60000, fallbackCapacity := 1 } .empty 0, (), []⟩

/-- A request about an entity. -/
def requestAbout (entity : String) : Request :=
  { sampleRequest with entity := utf8 entity, timeoutMicros := some 1000000 }

theorem same_verdicts_in_any_order_sample :
    let deployed : List (Use Unit) := [.change (.store samplePlan), .change (.activate samplePlan.id)]
    let warm : List (Use Unit) := deployed ++ [.execute ⟨0, 0, 0⟩ (requestAbout "ann")]
    let requests := [(⟨0, 0, 0⟩, requestAbout "ann"), (⟨1, 7, 8⟩, requestAbout "bob"),
      (⟨2, 9, 9⟩, requestAbout "carol")]
    let requests' := [(⟨5, 1, 2⟩, requestAbout "carol"), (⟨6, 3, 4⟩, requestAbout "bob"),
      (⟨7, 5, 6⟩, requestAbout "ann")]
    (verdicts directorySource requests (forgetful.usedAll directorySource deployed)).Perm
      (verdicts directorySource requests' (mindful.usedAll directorySource warm)) := by
  intro deployed warm requests requests'
  have hdeployed : (forgetful.usedAll directorySource deployed).engine.SameButCopies
      (mindful.usedAll directorySource deployed).engine := ⟨rfl, rfl, rfl⟩
  have hwarm : (mindful.usedAll directorySource deployed).engine.SameRules
      (mindful.usedAll directorySource warm).engine := by
    have hsplit : mindful.usedAll directorySource warm =
        (mindful.usedAll directorySource deployed).used directorySource
          (.execute ⟨0, 0, 0⟩ (requestAbout "ann")) := List.foldl_append
    rw [hsplit]
    generalize mindful.usedAll directorySource deployed = v
    exact keeps_execute directorySource ⟨0, 0, 0⟩ (requestAbout "ann") v
  have hfree : sampleRequest.inputs.find? tokenInput = none := by decide
  have htoken : ∀ entity, (requestAbout entity).inputs.find? tokenInput = none := fun _ => hfree
  have htime : ∀ (e : Engine) (entity : String) (clock : Clock), clock.passed 1000000 = false →
      e.hasExpired (requestAbout entity) clock = false := fun _ _ _ h => h
  refine same_verdicts_in_any_order (fun _ _ => rfl) rfl rfl deployed warm
    (hdeployed.trans hwarm.sameButCopies) (List.reverse_perm _).symm ?_ ?_ ?_
  · simp only [requests, List.forall_mem_cons, htoken, List.not_mem_nil, false_implies,
      implies_true, and_self]
  · simp only [requests, List.forall_mem_cons, List.not_mem_nil, false_implies, implies_true,
      and_true]
    exact ⟨htime _ _ _ rfl, htime _ _ _ rfl, htime _ _ _ rfl⟩
  · simp only [requests', List.forall_mem_cons, List.not_mem_nil, false_implies, implies_true,
      and_true]
    exact ⟨htime _ _ _ rfl, htime _ _ _ rfl, htime _ _ _ rfl⟩

end Engine

/-! ## Batches -/

namespace Service

open Engine

variable {σ : Type} {out : Surroundings σ} {answer : ContextKey → FetchAnswer} {w : World σ}
  {clock : Clock}

/-- In a batch, every request comes to its own verdict, in its own place. -/
theorem evaluateBatch_verdicts (hsteady : out.Steady answer)
    (h : w.engine.resolver.Reflects answer) {batch : List (Request × Nat)}
    (htokens : ∀ t ∈ batch, t.1.inputs.find? tokenInput = none)
    (htime : ∀ t ∈ batch, w.engine.hasExpired t.1 clock = false) :
    (evaluateBatch out clock batch w).1.map (·.map Response.verdict) =
      batch.map fun t => w.engine.verdict answer t.1 := by
  induction batch generalizing w with
  | nil => rfl
  | cons t rest ih =>
    have hrules := keeps_execute out clock t.1 w
    have hreflects := (World.counting_reflects answer).execute (World.maintains_resolve hsteady)
      clock t.1 w h
    have hverdict := outcome_execute hsteady h (htokens t List.mem_cons_self)
      (htime t List.mem_cons_self)
    unfold Call.outcome at hverdict
    unfold evaluateBatch
    rcases hrun : (execute out clock t.1).run.run w with ⟨answered, v⟩
    rw [hrun] at hrules hreflects hverdict
    have hrest := ih (w := { v with warnings := v.warnings ++ batchWarnings t.2 answered })
      hreflects (fun t' ht' => htokens t' (List.mem_cons_of_mem t ht')) fun t' ht' => by
        have hintime := htime t' (List.mem_cons_of_mem t ht')
        unfold hasExpired at *
        rwa [show v.engine.options = w.engine.options from hrules.options]
    dsimp only at hrest ⊢
    rw [List.map_cons, List.map_cons, hverdict, hrest]
    simp only [hrules.sameButCopies.verdict_eq]

end Service
end DecisionEngine
