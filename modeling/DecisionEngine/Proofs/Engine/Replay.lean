import DecisionEngine.Proofs.Decision.Equivalence
import DecisionEngine.Proofs.Engine.Answers
import DecisionEngine.Proofs.Engine.History
import DecisionEngine.Proofs.Trace.RoundTrip
/-!
# Replaying recorded answers

A record holds everything that an answer depended on, except for the plan, which the registry
keeps, and the snapshot, which is archived if it was published.  So whatever happened in the
meantime, replaying the record gives the answer again, also after it was written and read back.

* `Engine.Recorded` — a request was answered, and its record was emitted.
* `Engine.Reproduces` — a record is replayed to an equivalent response.
* `Engine.reproduces_of_recorded` — recorded answers are reproduced.
-/

namespace DecisionEngine
namespace Engine

open Call

variable {σ : Type} {out : Surroundings σ} {clock : Clock} {request : Request}
  {w w' : World (σ × List TraceRecord)} {response : Response} {record : TraceRecord}

/-! ## Records -/

/-- A request was answered, and the sink was given a record of that. -/
structure Recorded (out : Surroundings σ) (clock : Clock) (request : Request)
    (w : World (σ × List TraceRecord)) (response : Response) (record : TraceRecord)
    (w' : World (σ × List TraceRecord)) : Prop where
  returns : Returns (execute out.logging clock request) w response w'
  logged : w'.outside.2 = w.outside.2 ++ [record]

/-- The snapshot that a request is answered on in a world. -/
def Uses (out : Surroundings σ) (clock : Clock) (request : Request)
    (w : World (σ × List TraceRecord)) (s : Snapshot) : Prop :=
  ∃ c v, Returns (resolve out.logging request.key clock.checked) w c v ∧ c.snapshot = some s

/-- A record is replayed without error, to something equivalent to a response. -/
def Reproduces (out : Surroundings σ) (w : World (σ × List TraceRecord)) (record : TraceRecord)
    (response : Response) : Prop :=
  ∃ r w', Returns (replay out.logging record) w r w' ∧ r.equivalent response = true

/-- Delivering an answer stamps it and emits its record, which is the only one. -/
theorem deliver_logged {pin : Pinned} {r : Response}
    (h : Returns (deliver out.logging clock request pin r) w response w') :
    (∃ stamp, response = { r with stamp := stamp }) ∧
      w'.outside.2 = w.outside.2 ++ [recordOf request pin response] := by
  refine ⟨deliver_returns h, ?_⟩
  simp only [deliver, stamped, returns_bind, returns_engine, returns_update, returns_pure] at h
  obtain ⟨_, _, ⟨_, _, ⟨rfl, rfl⟩, _, _, rfl, rfl, rfl⟩, _, _, hemit, rfl, rfl⟩ := h
  simp only [emit, returns_bind, returns_withOutside] at hemit
  obtain ⟨_, _, ⟨rfl, rfl⟩, hemit⟩ := hemit
  split at hemit
  · obtain ⟨-, rfl⟩ := returns_pure.1 hemit
    rfl
  · simp only [returns_bind, returns_count, returns_warn] at hemit
    obtain ⟨_, _, rfl, rfl⟩ := hemit
    rfl

/-- Resolving a context emits no record. -/
theorem resolve_logs_nothing {key : ContextKey} {now : Int64} {c : ResolvedContext}
    (h : Returns (resolve out.logging key now) w c w') : w'.outside.2 = w.outside.2 := by
  rcases returns_resolve.1 h with ⟨s, -, -, rfl⟩ | ⟨-, -, rfl⟩
  · rfl
  · dsimp only [asked]
    split <;> rfl

/-! ## Replays -/

/-- What a plan answers depends on the inputs of the request and the wish for an explanation, and
on the options and the comparators. -/
theorem planned_of_continues {e e' : Engine} (h : e.Continues e') {request' : Request}
    (hinputs : request'.inputs = request.inputs) (hexplain : request'.explain = request.explain)
    (b : Blueprint) (snapshot : Option Snapshot) (pin : Pinned) (expired : Bool) :
    e'.planned request' b snapshot pin expired = e.planned request b snapshot pin expired := by
  have hverbose : e'.isVerbose request' = e.isVerbose request := by
    unfold isVerbose
    rw [hexplain, h.options]
  unfold planned
  rw [hverbose, hinputs, h.comparators]

/-- The snapshot of a context that can be found again is found. -/
theorem recordedSnapshot_returns {c : ResolvedContext}
    (hc : c.Recoverable w.engine.options record.request.key) (horigin : record.origin = c.origin)
    (harchive : c.origin.isArchived = true →
      out.archived? record.request.tenant record.snapshot w.outside.1 = c.snapshot) :
    Returns (recordedSnapshot out.logging record) w c.snapshot w := by
  unfold recordedSnapshot
  cases hc with
  | published s origin notes archived few =>
    have hs : out.logging.archived? record.request.tenant record.snapshot w.outside = some s :=
      harchive archived
    rw [horigin]
    dsimp only
    split
    · cases archived
    · cases archived
    · rw [returns_bind]
      refine ⟨w, w, rfl, ?_⟩
      rw [hs]
      rfl
  | anonymous notes few =>
    rw [horigin]
    rfl
  | nowhere notes few =>
    rw [horigin]
    rfl

/-- What a plan answers is what a replay gives, under the recorded stamp. -/
theorem replay_returns {id : BlueprintId} {b : Blueprint} {snapshot : Option Snapshot}
    {r : Response} (hid : record.blueprint = some id)
    (hb : w.engine.registry.find? id = some b)
    (hsnapshot : Returns (recordedSnapshot out.logging record) w snapshot w)
    (hr : w.engine.planned record.request b snapshot
      ⟨record.origin, record.notes, record.overrides, record.overrideNote⟩ false = .ok r) :
    ∃ w', Returns (replay out.logging record) w { r with stamp := recordedStamp record } w' := by
  obtain ⟨w', hrun, -⟩ := exists_returns_runPlan hr
  refine ⟨w', ?_⟩
  unfold replay
  rw [returns_engine_bind, hid]
  dsimp only
  rw [hb]
  dsimp only
  rw [returns_bind]
  refine ⟨snapshot, w, hsnapshot, ?_⟩
  rw [returns_bind]
  exact ⟨r, w', hrun, rfl⟩

/-- Without NaN in the plan, its answers are equivalent to themselves. -/
theorem planned_params {e : Engine} {b : Blueprint} {snapshot : Option Snapshot} {pin : Pinned}
    {expired : Bool} {r : Response} (hb : b.hasNaN = false)
    (h : e.planned request b snapshot pin expired = .ok r) :
    AllParams (·.hasNaN = false) r.decisions := by
  cases snapshot with
  | none =>
    cases h
    exact fun _ hd => absurd hd List.not_mem_nil
  | some s =>
    obtain ⟨result, hrun, rfl⟩ := map_eq_ok.1 h
    exact Situation.run_params (Blueprint.supplies_of_hasNaN hb) hrun

/-! ## Recorded answers -/

/-- A record as it is replayed: neither the time limit of its request nor its response count. -/
def replayed (request : Request) (pin : Pinned) (response : Response) (timeout : Option Int64)
    (kept : Response) : TraceRecord :=
  { recordOf request pin response with
    request := { request with timeoutMicros := timeout }
    response := kept }

theorem readBack_recordOf {pin : Pinned} (hinputs : request.inputs.hasNegativeZero = false)
    (hoverrides : ∀ o ∈ pin.overrides, o.hasNegativeZero = false) :
    (recordOf request pin response).readBack =
      replayed request pin response (request.timeoutMicros.filter fun t => !decide (t < 0))
        response.readBack := by
  have hread : pin.overrides.map AttributeSet.withoutNegativeZero = pin.overrides := by
    cases ho : pin.overrides with
    | none => rfl
    | some o =>
      rw [Option.map_some, AttributeSet.withoutNegativeZero_eq_self (hoverrides o ho)]
  unfold TraceRecord.readBack recordOf replayed Request.readBack
  dsimp only
  rw [hread, AttributeSet.withoutNegativeZero_eq_self hinputs]
  rfl

variable {later : World (σ × List TraceRecord)} {pin : Pinned}

/-- Where nothing was active, the replay does without a plan, too. -/
theorem reproduces_withoutPlan {verbose : Bool} (hresponse : ∃ stamp,
      response = { Response.withoutBlueprint request verbose with stamp := stamp })
    (timeout : Option Int64) (kept : Response) :
    Reproduces out later (replayed request pin response timeout kept) response := by
  obtain ⟨stamp, rfl⟩ := hresponse
  refine ⟨_, later, rfl, ?_⟩
  simp [Response.equivalent, Response.sameDecisions, Response.withoutBlueprint, replayed,
    recordOf, Request.subject]

/-- Where a plan was active, the replay runs it again on the same snapshot. -/
theorem reproduces_byPlan {b : Blueprint} {c : ResolvedContext} {check : OverrideCheck}
    {r : Response} (hlater : w.engine.Continues later.engine)
    (hc : c.Recoverable w.engine.options request.key)
    (hb : w.engine.registry.find? b.id = some b) (hnan : b.hasNaN = false)
    (hanswer : w.engine.planned request b c.snapshot (pinnedBy c check) false = .ok r)
    (hresponse : ∃ stamp, response = { r with stamp := stamp })
    (harchive : c.origin.isArchived = true →
      out.archived? request.tenant response.provenance.snapshot later.outside.1 = c.snapshot)
    (timeout : Option Int64) (kept : Response) :
    Reproduces out later (replayed request (pinnedBy c check) response timeout kept) response := by
  obtain ⟨stamp, rfl⟩ := hresponse
  rw [← hlater.options] at hc
  have hsnapshot : Returns (recordedSnapshot out.logging
      (replayed request (pinnedBy c check) { r with stamp := stamp } timeout kept)) later
      c.snapshot later := recordedSnapshot_returns hc rfl harchive
  have hid : (replayed request (pinnedBy c check) { r with stamp := stamp } timeout kept).blueprint
      = some b.id := (planned_provenance hanswer).1
  have hr : later.engine.planned { request with timeoutMicros := timeout } b c.snapshot
      (pinnedBy c check) false = .ok r := by
    rw [← hanswer]
    exact planned_of_continues hlater rfl rfl b c.snapshot (pinnedBy c check) false
  obtain ⟨v, hreplay⟩ := replay_returns hid (hlater.stored _ _ hb) hsnapshot hr
  exact ⟨_, v, hreplay, Response.equivalent_of_stamps (planned_params hnan hanswer) _ _⟩

/-- How an emitted record came about, and that it is replayed wherever its snapshot is archived. -/
theorem Recorded.exists_pinned (h : Recorded out clock request w response record w')
    (hfits : w.engine.registry.Fits)
    (hnan : ∀ b, w.engine.registry.active? request.tenant request.decisionType = some b →
      b.hasNaN = false) :
    ∃ pin, record = recordOf request pin response ∧ pin.notes.length ≤ 2 ∧
      ∀ later : World (σ × List TraceRecord), w.engine.Continues later.engine →
        (record.origin.isArchived = true → ∀ s, Uses out clock request w s →
          out.archived? request.tenant record.snapshot later.outside.1 = some s) →
        ∀ timeout kept, Reproduces out later (replayed request pin response timeout kept)
          response := by
  have hlogged := h.logged
  cases execute_returns h.returns with
  | withoutPlan v _ houtside delivered =>
    obtain ⟨hresponse, hlog⟩ := deliver_logged delivered
    rw [hlog, houtside, List.append_cancel_left_eq, List.singleton_inj] at hlogged
    refine ⟨.plain, hlogged.symm, Nat.zero_le 2, fun later _ _ timeout kept => ?_⟩
    exact reproduces_withoutPlan hresponse timeout kept
  | byPlan b c check r resolved v active resolves answer unchanged delivered =>
    obtain ⟨hresponse, hlog⟩ := deliver_logged delivered
    rw [hlog, unchanged, resolve_logs_nothing resolves, List.append_cancel_left_eq,
      List.singleton_inj] at hlogged
    have hc := recoverable_of_resolve resolves
    refine ⟨pinnedBy c check, hlogged.symm, hc.notes_length, ?_⟩
    intro later hlater harchive timeout kept
    refine reproduces_byPlan hlater hc (hfits _ _ b active).1 (hnan b active) answer hresponse ?_
      timeout kept
    intro harchived
    rw [← hlogged] at harchive
    cases hs : c.snapshot with
    | none =>
      cases hc with
      | published s => cases hs
      | anonymous => cases hs
      | nowhere => cases harchived
    | some s => exact harchive harchived s ⟨c, resolved, resolves, hs⟩

open Wire.Reader (Short)

/-- **Recorded answers are reproduced.**  A request is answered after some history that began
without blueprints, and its record is emitted.  After any further history in which the archive has
the snapshot that was used, if it was a published one, replaying the record ends without error and
with an equivalent response; the plan is there, as no history loses one.  So does replaying the
record that is read back from its bytes, if these are few enough for their lengths to be signed
numbers of 64 bits.  NaN in the plan is ruled out because it is not equal to itself, and negative
zero because it is read back as zero. -/
theorem reproduces_of_recorded {start : World (σ × List TraceRecord)}
    {past future : List (Event σ)} (hstart : start.engine.registry = .empty)
    (hrecorded : Recorded out clock request (start.afterAll out past) response record w')
    (hnan : ∀ b, (start.afterAll out past).engine.registry.active? request.tenant
      request.decisionType = some b → b.hasNaN = false)
    (harchive : record.origin.isArchived = true → ∀ s,
      Uses out clock request (start.afterAll out past) s →
        out.archived? request.tenant record.snapshot (w'.afterAll out future).outside.1 =
          some s) :
    Reproduces out (w'.afterAll out future) record response ∧
      (request.inputs.hasNegativeZero = false →
        (∀ o ∈ record.overrides, o.hasNegativeZero = false) → Short record.encode →
        ∃ read, TraceRecord.decode record.encode = .ok read ∧
          Reproduces out (w'.afterAll out future) read response) := by
  have hempty : start.engine.registry.Fits := by
    rw [hstart]
    exact Registry.fits_empty
  have hfits := World.fits_afterAll out hempty past
  have hcall := ((keeps_execute _ _ _).of_returns hrecorded.returns).continues
  have hlater := hcall.trans (World.continues_afterAll out w' future)
  obtain ⟨pin, rfl, hnotes, hreproduces⟩ := hrecorded.exists_pinned hfits hnan
  have hagain := hreproduces _ hlater harchive
  refine ⟨hagain request.timeoutMicros response, fun hinputs hoverrides hshort => ?_⟩
  have hfew : pin.notes.length ≤ Wire.Reader.maxTexts := Nat.le_trans hnotes (by decide)
  refine ⟨_, TraceRecord.decode_encode hshort hfew, ?_⟩
  rw [readBack_recordOf hinputs hoverrides]
  exact hagain _ _

/-! A plan with one action, of which the parameter is capped, is active while a request is answered
on a published snapshot.  Before the replay the plan is deactivated, and another snapshot comes. -/

/-- Published snapshots, of which the latest of an entity is served and all are archived. -/
def shelf : Surroundings (List Snapshot) where
  fetch key s :=
    (match s.find? (·.key = key) with
      | some snapshot => .found snapshot
      | none => .missing, s)
  rehydrate _ s := s
  archived? tenant id s := s.find? fun snapshot => snapshot.tenant = tenant ∧ snapshot.id = id
  sink _ s := (.ok (), s)

/-- A plan that grants a limit and caps it. -/
def samplePlan : Blueprint where
  id := ⟨utf8 "limits", 1, 0⟩
  tenant := utf8 "bank"
  decisionType := utf8 "limit"
  catalog := .empty
  symbols := .empty
  nodes := [⟨utf8 "grant", .action, utf8 "grant"⟩]
  steps := [.task 0 ⟨0, .empty, [], []⟩ ⟨utf8 "grant", .ofList [(utf8 "limit", .int 900)]⟩]
  guardrails := [⟨utf8 "cap", [], .veto, [], .empty, [], .cap, utf8 "limit", .int 500, .none⟩]
  encoded := []

/-- A request about an entity. -/
def sampleRequest : Request where
  tenant := utf8 "bank"
  decisionType := utf8 "limit"
  entity := utf8 "ann"
  inputs := .ofList [(utf8 "channel", .text (utf8 "web"))]
  explain := true
  timeoutMicros := none

/-- A snapshot of the entity. -/
def sampleSnapshot (id : Bytes) : Snapshot :=
  .make (utf8 "bank") (utf8 "ann") .empty .empty 0 id

/-- A world in which nothing has happened. -/
def sampleStart : World (List Snapshot × List TraceRecord) :=
  ⟨.start .standard .empty 0, ([], []), []⟩

/-- The plan is activated and a snapshot is published. -/
def samplePast : List (Event (List Snapshot)) :=
  [.change (.store samplePlan), .change (.activate samplePlan.id),
    .publish (sampleSnapshot (utf8 "first") :: ·)]

/-- The plan is deactivated and another snapshot is published. -/
def sampleFuture : List (Event (List Snapshot)) :=
  [.change (.deactivate (utf8 "bank") (utf8 "limit")),
    .publish (sampleSnapshot (utf8 "second") :: ·)]

set_option maxRecDepth 100000 in
theorem reproduces_of_recorded_sample : ∃ response record w',
    Recorded shelf ⟨0, 0, 0⟩ sampleRequest (sampleStart.afterAll shelf samplePast) response
      record w' ∧
    response.decisions.map (·.status) = [.capped] ∧ record.origin = .shared ∧
    Short record.encode ∧ Reproduces shelf (w'.afterAll shelf sampleFuture) record response ∧
    ∃ read, TraceRecord.decode record.encode = .ok read ∧
      Reproduces shelf (w'.afterAll shelf sampleFuture) read response := by
  have hrecorded : ∃ response record w', Recorded shelf ⟨0, 0, 0⟩ sampleRequest
      (sampleStart.afterAll shelf samplePast) response record w' ∧
      response.decisions.map (·.status) = [.capped] ∧ record.origin = .shared ∧
      record.overrides = none ∧ Short record.encode ∧
      shelf.archived? sampleRequest.tenant record.snapshot
        (w'.afterAll shelf sampleFuture).outside.1 = some (sampleSnapshot (utf8 "first")) :=
    ⟨_, _, _, ⟨rfl, rfl⟩, by decide +kernel, rfl, rfl, by decide +kernel, by decide +kernel⟩
  obtain ⟨response, record, w', hrecorded, hcapped, horigin, hoverrides, hshort, harchived⟩ :=
    hrecorded
  have hplan : (sampleStart.afterAll shelf samplePast).engine.registry.active? sampleRequest.tenant
      sampleRequest.decisionType = some samplePlan := rfl
  have hresolve : ∃ v, Returns (resolve shelf.logging sampleRequest.key 0)
      (sampleStart.afterAll shelf samplePast)
      ⟨some (sampleSnapshot (utf8 "first")), .shared, []⟩ v := ⟨_, rfl⟩
  obtain ⟨v, hresolve⟩ := hresolve
  obtain ⟨hagain, hread⟩ := reproduces_of_recorded rfl hrecorded
    (fun b hb => by
      rw [hplan] at hb
      cases hb
      decide)
    (fun _ s hs => by
      obtain ⟨c, u, hc, hs⟩ := hs
      cases Except.ok.inj (Prod.mk.inj (hc.symm.trans hresolve)).1
      cases hs
      exact harchived)
  refine ⟨response, record, w', hrecorded, hcapped, horigin, hshort, hagain,
    hread (by decide) ?_ hshort⟩
  rw [hoverrides]
  exact fun o ho => absurd ho (Option.not_mem_none o)

end Engine
end DecisionEngine
