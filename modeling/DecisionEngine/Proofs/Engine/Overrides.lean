import DecisionEngine.Proofs.Engine.Degraded
import DecisionEngine.Proofs.Plan.Entries
/-!
# What becomes of override tokens

The token of a request is verified, and what becomes of it is counted, as soon as a context was
resolved; the note about it and the flag are part of the answer.  An answer that comes from running
the plan has both.  One that fails closed, because there is no context, has neither, although the
token was counted.

* `Statistics.SameOverrides` — nothing about tokens was counted.
* `Engine.OverrideCheck.Tallied` — what was counted of a token.
* `Response.ofKind_override_ofRun`, `Response.ofKind_override_withoutContext` — the notes about
  tokens in an answer.
* `Engine.Accounted` — a token is accounted for.
* `Engine.accounted_iff` — tokens are accounted for in all answers but those that fail closed.
* `Engine.token_unaccounted` — a request whose token is not.
-/

namespace DecisionEngine

/-! ## Notes about tokens -/

namespace Trail

/-- The entries of a kind are all of a note that is of that kind. -/
theorem ofKind_note (kind : TrailKind) (detail : Bytes) :
    ofKind kind [TrailEntry.note kind detail] = [TrailEntry.note kind detail] :=
  List.filter_cons_of_pos (beq_self_eq_true kind)

/-- What is noted about other things says nothing about tokens. -/
theorem ofKind_map_note {kind other : TrailKind} (h : other ≠ kind) (details : List Bytes) :
    ofKind kind (details.map (TrailEntry.note other)) = [] := by
  refine List.filter_eq_nil_iff.2 fun e he hkind => ?_
  obtain ⟨detail, -, rfl⟩ := List.mem_map.1 he
  exact h (eq_of_beq hkind)

end Trail

namespace Response

variable {b : Blueprint} {s : Snapshot} {pin : Pinned} {verbose : Bool}

/-- An answer that comes from a run has the note about the token, if there is one. -/
theorem ofKind_override_ofRun {result : Situation.RunResult}
    (h : result.trail.Only TrailKind.isOfRun) :
    (ofRun b s pin verbose result).trail.ofKind .override =
      if pin.overrideNote = [] then [] else [TrailEntry.note .override pin.overrideNote] := by
  have hresolution : ∀ (c : Prop) [Decidable c] (detail : Bytes), Trail.ofKind .override
      (if c then [TrailEntry.note .resolution detail] else []) = [] := by
    intro c _ detail
    split <;> rfl
  have hnotes : Trail.ofKind .override pin.noteEntries = [] :=
    Trail.ofKind_map_note (by decide) pin.notes
  have hrun : Trail.ofKind .override result.trail = [] := h.ofKind_eq_nil rfl
  have hfirst : ∀ detail : Bytes,
      Trail.ofKind .override [TrailEntry.note .resolution detail] = [] := fun _ => rfl
  unfold ofRun Pinned.opening
  simp only [Trail.ofKind_append, hresolution, hnotes, hrun, hfirst, List.nil_append,
    List.append_nil]
  split
  · rfl
  · exact Trail.ofKind_note ..

/-- An answer that fails closed says nothing about the token. -/
theorem ofKind_override_withoutContext :
    (withoutContext b pin verbose).trail.ofKind .override = [] := by
  have hnotes : Trail.ofKind .override pin.noteEntries = [] :=
    Trail.ofKind_map_note (by decide) pin.notes
  unfold withoutContext
  rw [Trail.ofKind_append, Trail.ofKind_append, hnotes]
  rfl

end Response

/-! ## Counts of tokens -/

/-- Nothing about override tokens was counted. -/
structure Statistics.SameOverrides (t t' : Statistics) : Prop where
  applied : t'.overridesApplied = t.overridesApplied
  rejected : t'.overridesRejected = t.overridesRejected

namespace Engine

open Call

variable {σ : Type} {out : Surroundings σ} {clock : Clock} {request : Request} {w w' : World σ}

theorem sameOverrides_resolve {key : ContextKey} {now : Int64} {c : ResolvedContext}
    (h : Returns (resolve out key now) w c w') :
    w.engine.statistics.SameOverrides w'.engine.statistics := by
  rcases returns_resolve.1 h with ⟨s, -, -, rfl⟩ | ⟨-, -, rfl⟩
  · exact ⟨rfl, rfl⟩
  · exact ⟨rfl, rfl⟩

theorem sameOverrides_runPlan {b : Blueprint} {snapshot : Option Snapshot} {pin : Pinned}
    {expired : Bool} {r : Response} (h : Returns (runPlan request b snapshot pin expired) w r w') :
    w.engine.statistics.SameOverrides w'.engine.statistics := by
  cases snapshot with
  | none =>
    simp only [runPlan, returns_engine_bind, returns_count_bind, returns_pure] at h
    obtain ⟨-, rfl⟩ := h
    exact ⟨rfl, rfl⟩
  | some s =>
    simp only [runPlan, returns_engine_bind, returns_warn_bind] at h
    split at h
    · exact absurd h not_returns_stop
    · simp only [returns_count_bind, returns_pure] at h
      obtain ⟨-, rfl⟩ := h
      exact ⟨rfl, rfl⟩

theorem sameOverrides_deliver {pin : Pinned} {r response : Response}
    (h : Returns (deliver out clock request pin r) w response w') :
    w.engine.statistics.SameOverrides w'.engine.statistics := by
  obtain ⟨stamped, v, hstamp, h⟩ := returns_bind.1 h
  obtain ⟨_, x, hemit, h⟩ := returns_bind.1 h
  obtain ⟨-, rfl⟩ := returns_pure.1 h
  simp only [Engine.stamped, returns_engine_bind, returns_update_bind, returns_pure] at hstamp
  obtain ⟨-, rfl⟩ := hstamp
  simp only [emit, returns_withOutside_bind] at hemit
  split at hemit
  · obtain ⟨-, rfl⟩ := returns_pure.1 hemit
    exact ⟨rfl, rfl⟩
  · simp only [returns_count_bind, returns_warn] at hemit
    rw [hemit]
    exact ⟨rfl, rfl⟩

namespace OverrideCheck

/-- What was counted of a token: it was applied, or else rejected. -/
structure Tallied (check : OverrideCheck) (t t' : Statistics) : Prop where
  applied : t'.overridesApplied = t.overridesApplied + if check.overrides.isSome then 1 else 0
  rejected : t'.overridesRejected = t.overridesRejected + if check.overrides.isSome then 0 else 1

theorem Tallied.of_same {check : OverrideCheck} {t u v t' : Statistics}
    (h : check.Tallied u v) (hbefore : t.SameOverrides u) (hafter : v.SameOverrides t') :
    check.Tallied t t' where
  applied := by rw [hafter.applied, h.applied, hbefore.applied]
  rejected := by rw [hafter.rejected, h.rejected, hbefore.rejected]

theorem tallied_recordOverride {check : OverrideCheck} (hcheck : check ≠ .absent) {u : Unit}
    (h : Returns (recordOverride request check) w u w') :
    check.Tallied w.engine.statistics w'.engine.statistics := by
  cases check with
  | absent => exact absurd rfl hcheck
  | applied attributes =>
    rw [recordOverride, returns_count] at h
    rw [h]
    exact ⟨rfl, rfl⟩
  | ignored reason =>
    simp only [recordOverride, returns_count_bind, returns_warn] at h
    rw [h]
    exact ⟨rfl, rfl⟩

/-- There is a note about every token. -/
theorem note_ne_nil {check : OverrideCheck} (h : check ≠ .absent) : check.note ≠ [] := by
  cases check with
  | absent => exact absurd rfl h
  | applied attributes => exact List.append_ne_nil_of_left_ne_nil (by decide) _
  | ignored reason => exact List.append_ne_nil_of_left_ne_nil (by decide) _

end OverrideCheck

/-- A token that comes with a request is verified. -/
theorem checkOverride_ne_absent {e : Engine} {now : Int64}
    (h : (request.inputs.find? tokenInput).isSome = true) :
    e.checkOverride request now ≠ .absent := by
  obtain ⟨v, hv⟩ := Option.isSome_iff_exists.1 h
  unfold checkOverride
  rw [hv]
  dsimp only
  split
  · exact nofun
  · split <;> exact nofun
  · exact nofun

/-! ## Tokens that are accounted for -/

/-- A token is accounted for: the trail has one entry about it, and it is counted as applied if the
answer says that it was, and as rejected if not. -/
structure Accounted (t t' : Statistics) (r : Response) : Prop where
  noted : (r.trail.ofKind .override).length = 1
  applied : t'.overridesApplied = t.overridesApplied + if r.provenance.overrideApplied then 1 else 0
  rejected : t'.overridesRejected =
    t.overridesRejected + if r.provenance.overrideApplied then 0 else 1

/-- What an answer says about a token: all of it if it comes from a run, and nothing if it fails
closed. -/
structure Says (check : OverrideCheck) (r : Response) : Prop where
  run : r.provenance.failClosed = false →
    r.trail.ofKind .override = [TrailEntry.note .override check.note] ∧
      r.provenance.overrideApplied = check.overrides.isSome
  closed : r.provenance.failClosed = true →
    r.trail.ofKind .override = [] ∧ r.provenance.overrideApplied = false

theorem says_planned {e : Engine} {b : Blueprint} {c : ResolvedContext} {check : OverrideCheck}
    {expired : Bool} {r : Response} (hcheck : check ≠ .absent)
    (h : e.planned request b c.snapshot (pinnedBy c check) expired = .ok r) : Says check r := by
  cases hsnapshot : c.snapshot with
  | none =>
    rw [hsnapshot] at h
    cases h
    exact ⟨nofun, fun _ => ⟨Response.ofKind_override_withoutContext, rfl⟩⟩
  | some s =>
    rw [hsnapshot] at h
    obtain ⟨result, hresult, rfl⟩ := map_eq_ok.1 h
    have hnotes : (Response.ofRun b s (pinnedBy c check) (e.isVerbose request)
        result).trail.ofKind .override = _ :=
      Response.ofKind_override_ofRun (Situation.only_run hresult)
    have hnote : (pinnedBy c check).overrideNote ≠ [] := OverrideCheck.note_ne_nil hcheck
    rw [if_neg hnote] at hnotes
    exact ⟨fun _ => ⟨hnotes, rfl⟩, nofun⟩

/-- The token of a request that an active plan answers is counted once, by what became of it, and
the answer says what its kind of answers says about tokens. -/
theorem tallied_and_says {b : Blueprint} {response : Response}
    (hactive : w.engine.registry.active? request.tenant request.decisionType = some b)
    (htoken : (request.inputs.find? tokenInput).isSome = true)
    (h : Returns (execute out clock request) w response w') :
    (w.engine.checkOverride request clock.wallMillis).Tallied w.engine.statistics
        w'.engine.statistics ∧
      Says (w.engine.checkOverride request clock.wallMillis) response := by
  simp only [execute, returns_count_bind, returns_countingTimeouts, returns_engine_bind] at h
  split at h
  · rename_i hnone
    rw [hactive] at hnone
    cases hnone
  · obtain ⟨c, r, resolved, checked, ran, -, hresolve, hover, hrun, hdeliver⟩ :=
      answerWith_returns h
    have hrules := (keeps_resolve _ _ _).of_returns hresolve
    have hsame : resolved.engine.checkOverride request clock.wallMillis =
        w.engine.checkOverride request clock.wallMillis := by
      unfold checkOverride
      rw [hrules.authority]
    rw [hsame] at hover hrun hdeliver
    generalize hcheck : w.engine.checkOverride request clock.wallMillis = check at *
    have hpresent : check ≠ .absent := hcheck ▸ checkOverride_ne_absent htoken
    constructor
    · refine (OverrideCheck.tallied_recordOverride hpresent hover).of_same ?_ ?_
      · have hbefore := sameOverrides_resolve hresolve
        exact ⟨hbefore.applied, hbefore.rejected⟩
      · have hran := sameOverrides_runPlan hrun
        have hdelivered := sameOverrides_deliver hdeliver
        exact ⟨hdelivered.applied.trans hran.applied, hdelivered.rejected.trans hran.rejected⟩
    · obtain ⟨stamp, rfl⟩ := deliver_returns hdeliver
      have hplanned := says_planned hpresent (returns_runPlan hrun).1
      exact ⟨hplanned.run, hplanned.closed⟩

/-- **A token is accounted for exactly in the answers that do not fail closed.**  In any world, and
so after any history of calls, let a request with a token be answered while a plan is active for
it.  The token is counted once, by what became of it; an answer that comes from running the plan
says the same, and one that fails closed says nothing. -/
theorem accounted_iff {b : Blueprint} {response : Response}
    (hactive : w.engine.registry.active? request.tenant request.decisionType = some b)
    (htoken : (request.inputs.find? tokenInput).isSome = true)
    (h : Returns (execute out clock request) w response w') :
    (Accounted w.engine.statistics w'.engine.statistics response ↔
        response.provenance.failClosed = false) ∧
      (w.engine.checkOverride request clock.wallMillis).Tallied w.engine.statistics
        w'.engine.statistics ∧
      Says (w.engine.checkOverride request clock.wallMillis) response := by
  obtain ⟨htallied, htold⟩ := tallied_and_says hactive htoken h
  refine ⟨?_, htallied, htold⟩
  constructor
  · intro haccounted
    rw [Bool.eq_false_iff]
    intro hclosed
    have hnoted := haccounted.noted
    rw [(htold.closed hclosed).1] at hnoted
    cases hnoted
  · intro hopen
    obtain ⟨hnotes, hflag⟩ := htold.run hopen
    refine ⟨?_, ?_, ?_⟩
    · rw [hnotes]
      rfl
    · rw [hflag]
      exact htallied.applied
    · rw [hflag]
      exact htallied.rejected

/-- A source that answers everybody alike, and a sink that takes everything. -/
def alike (answer : FetchAnswer) : Surroundings Unit where
  fetch _ s := (answer, s)
  rehydrate _ s := s
  archived? _ _ _ := none
  sink _ s := (.ok (), s)

/-- A request with an override token that is not even a text. -/
def badToken : Request where
  tenant := []
  decisionType := []
  entity := utf8 "ann"
  inputs := .ofList [(tokenInput, .int 7)]
  explain := false
  timeoutMicros := none

/-- An engine with standard options for which a plan is active. -/
def activated : World Unit where
  engine := .start .standard (Registry.empty.afterAll
    [.store (Revision.sample.planned .standard),
      .activate (Revision.sample.planned .standard).id]) 0
  outside := ()
  warnings := []

theorem active?_activated :
    activated.engine.registry.active? badToken.tenant badToken.decisionType =
      some (Revision.sample.planned .standard) :=
  Registry.active?_store_activate _ (.inl ⟨rfl, rfl⟩)

/-- The bad token is answered in any case, but the answer fails closed if the source does. -/
theorem exists_returns_badToken (answer : FetchAnswer) (hanswer : answer.Reasoned) :
    ∃ response w', Returns (execute (alike answer) ⟨0, 0, 0⟩ badToken) activated response w' ∧
      (answer.IsOutage → response.provenance.failClosed = true) ∧
      (answer.IsMiss badToken.key → response.provenance.failClosed = false) := by
  have hcompiled := Revision.compile_of_accepted (r := .sample) (o := .standard) rfl (by cbv)
  let t : Statistics :=
    { activated.engine.statistics with requests := activated.engine.statistics.requests + 1 }
  let counted : World Unit := { activated with engine := { activated.engine with statistics := t } }
  have hready : counted.engine.Ready := ⟨rfl, fun x hx => absurd hx List.not_mem_nil⟩
  obtain ⟨c, v, hresolve, houtage, hmiss⟩ :=
    exists_resolve (alike answer) badToken.key (Clock.checked ⟨0, 0, 0⟩) hready hanswer
  obtain ⟨r, hr⟩ := exists_planned activated.engine badToken
    (Revision.passed_of_compile hcompiled).runnable c.snapshot
    (pinnedBy c (activated.engine.checkOverride badToken 0))
  have htime : activated.engine.hasExpired badToken ⟨0, 0, 0⟩ = false :=
    show Clock.passed ⟨0, 0, 0⟩ 10000 = false by decide
  obtain ⟨stamp, w', hreturns⟩ := exists_returns_byPlan active?_activated htime rfl hresolve hr
  refine ⟨_, w', hreturns, fun hout => ?_, fun hnothing => ?_⟩
  · rw [houtage (fun x hx => absurd hx List.not_mem_nil) hout] at hr
    cases hr
    rfl
  · rw [(hmiss rfl hnothing).1] at hr
    obtain ⟨result, -, rfl⟩ := map_eq_ok.1 hr
    rfl

theorem accounted_iff_sample :
    activated.engine.registry.active? badToken.tenant badToken.decisionType =
        some (Revision.sample.planned .standard) ∧
      (badToken.inputs.find? tokenInput).isSome = true ∧
      ∃ response w', Returns (execute (alike .missing) ⟨0, 0, 0⟩ badToken) activated response w' ∧
        response.provenance.failClosed = false ∧
        Accounted activated.engine.statistics w'.engine.statistics response := by
  have htoken : (badToken.inputs.find? tokenInput).isSome = true := by decide
  obtain ⟨response, w', hreturns, -, hopen⟩ := exists_returns_badToken .missing trivial
  have haccounted := (accounted_iff active?_activated htoken hreturns).1
  exact ⟨active?_activated, htoken, response, w', hreturns, hopen trivial,
    haccounted.2 (hopen trivial)⟩

/-- Where the source is out of reach and there is no copy, the token is counted as rejected, and
nothing in the trail says so. -/
theorem token_unaccounted :
    activated.engine.registry.active? badToken.tenant badToken.decisionType =
        some (Revision.sample.planned .standard) ∧
      (badToken.inputs.find? tokenInput).isSome = true ∧
      ∃ response w', Returns (execute (alike (.unavailable [])) ⟨0, 0, 0⟩ badToken) activated
          response w' ∧
        response.trail.ofKind .override = [] ∧
        w'.engine.statistics.overridesRejected = 1 ∧
        ¬Accounted activated.engine.statistics w'.engine.statistics response := by
  have htoken : (badToken.inputs.find? tokenInput).isSome = true := by decide
  obtain ⟨response, w', hreturns, hclosed, -⟩ :=
    exists_returns_badToken (.unavailable []) trivial
  obtain ⟨htallied, htold⟩ := tallied_and_says active?_activated htoken hreturns
  obtain ⟨hsilent, -⟩ := htold.closed (hclosed trivial)
  refine ⟨active?_activated, htoken, response, w', hreturns, hsilent, htallied.rejected, ?_⟩
  intro haccounted
  have hnoted := haccounted.noted
  rw [hsilent] at hnoted
  cases hnoted

end Engine
end DecisionEngine
