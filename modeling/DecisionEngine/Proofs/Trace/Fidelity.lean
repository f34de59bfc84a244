import DecisionEngine.Proofs.Trace.RoundTrip
/-!
# What a trace record loses

A trace record is read back from its bytes with everything in it, save that a negative zero comes
back as zero and that a negative timeout does not come back at all: -1 is written where there is no
timeout, and every negative number is read as none.

* `TraceRecord.withoutNegativeZero`, `TraceRecord.withoutNegativeTimeout` — what may be lost.
* `TraceRecord.readBack_eq` — nothing else is, if the numbers of steps fit.
* `TraceRecord.lossless_iff` — a record comes back whole just if its timeout is not negative.
* `TraceRecord.negative_timeout_lost` — a record that does not.
-/

namespace DecisionEngine

/-! ## Records and what may be lost of them -/

/-- The request with positive zeros in the place of negative ones. -/
def Request.withoutNegativeZero (r : Request) : Request :=
  { r with inputs := r.inputs.withoutNegativeZero }

/-- The decision with positive zeros in the place of negative ones among its parameters. -/
def Decision.withoutNegativeZero (d : Decision) : Decision :=
  { d with params := d.params.withoutNegativeZero }

/-- The response with positive zeros in the place of negative ones. -/
def Response.withoutNegativeZero (r : Response) : Response :=
  { r with decisions := r.decisions.map Decision.withoutNegativeZero }

namespace TraceRecord

variable {r : TraceRecord}

/-- The record with positive zeros in the place of negative ones. -/
def withoutNegativeZero (r : TraceRecord) : TraceRecord :=
  { r with
    request := r.request.withoutNegativeZero
    overrides := r.overrides.map AttributeSet.withoutNegativeZero
    response := r.response.withoutNegativeZero }

/-- The record with no timeout in the place of a negative one. -/
def withoutNegativeTimeout (r : TraceRecord) : TraceRecord :=
  { r with
    request := { r.request with
      timeoutMicros := r.request.timeoutMicros.filter fun t => !decide (t < 0) } }

/-- A record can be held in memory: its bytes, and the list of its notes. -/
structure Storable (r : TraceRecord) : Prop where
  bytes : Wire.Reader.Short r.encode
  notes : r.notes.length ≤ Wire.Reader.maxTexts

/-- The numbers of steps in the response of a record are signed numbers of 64 bits. -/
structure StepsFit (r : TraceRecord) : Prop where
  decisions : ∀ d ∈ r.response.decisions, d.step < 2 ^ 63
  alternatives : ∀ a ∈ r.response.alternatives, a.step < 2 ^ 63
  trail : ∀ e ∈ r.response.trail, ∀ n ∈ e.step, n < 2 ^ 63

/-- The timeout of the request of a record, if there is one, is not negative. -/
def TimeoutFits (r : TraceRecord) : Prop := ∀ t ∈ r.request.timeoutMicros, ¬t < 0

/-! ## Steps -/

theorem readBack_decision {d : Decision} (h : d.step < 2 ^ 63) :
    d.readBack = d.withoutNegativeZero := by
  have hstep : d.step % 2 ^ 64 = d.step := Nat.mod_eq_of_lt (by omega)
  unfold Decision.readBack Decision.withoutNegativeZero
  rw [hstep]

theorem readBack_alternative {a : Alternative} (h : a.step < 2 ^ 63) : a.readBack = a := by
  have hstep : a.step % 2 ^ 64 = a.step := Nat.mod_eq_of_lt (by omega)
  unfold Alternative.readBack
  rw [hstep]

theorem readBack_trailEntry {e : TrailEntry} (h : ∀ n ∈ e.step, n < 2 ^ 63) : e.readBack = e := by
  have hstep : (e.step.map (· % 2 ^ 64)).filter (fun n => decide (n < 2 ^ 63)) = e.step := by
    cases hn : e.step with
    | none => rfl
    | some n =>
      have hlt : n < 2 ^ 63 := h n hn
      rw [Option.map_some, Nat.mod_eq_of_lt (by omega), Option.filter_some,
        if_pos (decide_eq_true hlt)]
  unfold TrailEntry.readBack
  rw [hstep]

theorem StepsFit.readBack_response (h : r.StepsFit) :
    r.response.readBack = r.response.withoutNegativeZero := by
  have hdecisions : r.response.decisions.map Decision.readBack =
      r.response.decisions.map Decision.withoutNegativeZero :=
    List.map_congr_left fun d hd => readBack_decision (h.decisions d hd)
  have halternatives : r.response.alternatives.map Alternative.readBack =
      r.response.alternatives :=
    (List.map_congr_left fun a ha => readBack_alternative (h.alternatives a ha)).trans
      (List.map_id _)
  have htrail : r.response.trail.map TrailEntry.readBack = r.response.trail :=
    (List.map_congr_left fun e he => readBack_trailEntry (h.trail e he)).trans (List.map_id _)
  unfold Response.readBack Response.withoutNegativeZero
  rw [hdecisions, halternatives, htrail]

/-! ## Timeouts -/

/-- What is read back of a record whose steps fit lacks a negative timeout, and nothing else. -/
theorem readBack_eq (h : r.StepsFit) :
    r.readBack = r.withoutNegativeZero.withoutNegativeTimeout := by
  unfold readBack
  rw [h.readBack_response]
  rfl

/-- Timeouts that are not negative are kept. -/
theorem withoutNegativeTimeout_eq_self_iff : r.withoutNegativeTimeout = r ↔ r.TimeoutFits := by
  constructor
  · intro h t ht
    have htimeout := congrArg (·.request.timeoutMicros) h
    dsimp only [withoutNegativeTimeout] at htimeout
    rw [Option.mem_def.1 ht, Option.filter_eq_some_iff] at htimeout
    simpa using htimeout.2
  · intro h
    have htimeout : r.request.timeoutMicros.filter (fun t => !decide (t < 0)) =
        r.request.timeoutMicros := by
      cases ht : r.request.timeoutMicros with
      | none => rfl
      | some t =>
        have hfits : ¬t < 0 := h t ht
        rw [Option.filter_some, if_pos (by simpa using hfits)]
    unfold withoutNegativeTimeout
    rw [htimeout]

/-- **A trace record comes back whole just if its timeout is not negative.**  A record that can be
held in memory, and whose steps are signed numbers of 64 bits, is read back from its bytes with
positive zeros in the place of negative ones and without a timeout that is negative. -/
theorem lossless_iff (hstorable : r.Storable) (hsteps : r.StepsFit) :
    decode r.encode = .ok r.withoutNegativeZero.withoutNegativeTimeout ∧
      (decode r.encode = .ok r.withoutNegativeZero ↔ r.TimeoutFits) := by
  have hdecode := decode_encode hstorable.bytes hstorable.notes
  rw [readBack_eq hsteps] at hdecode
  refine ⟨hdecode, ?_⟩
  have htimeout : r.withoutNegativeZero.TimeoutFits ↔ r.TimeoutFits := Iff.rfl
  rw [hdecode, Except.ok.injEq, withoutNegativeTimeout_eq_self_iff, htimeout]

/-- A record in which nothing is blank; one of its inputs is negative zero. -/
def audited : TraceRecord where
  traceId := utf8 "replica-0-1-7"
  request := ⟨utf8 "acme", utf8 "quote", utf8 "ann",
    .ofList [(utf8 "balance", .real .negativeZero)], true, some 1500⟩
  blueprint := some ⟨utf8 "pricing", 3, 0xfeedfacecafebeef⟩
  snapshot := utf8 "ann@00ff"
  origin := .staleFallback
  notes := [utf8 "source unavailable", []]
  overrides := some (.ofList [(utf8 "tier", .text (utf8 "premium"))])
  overrideNote := utf8 "applied"
  response :=
    { decisions := [⟨utf8 "premium", utf8 "discount", .ofList [(utf8 "percent", .int 20)], .capped,
        utf8 "floor", 9223372036854775807⟩]
      alternatives := [⟨utf8 "loyalty", utf8 "discount", 1, utf8 "tied"⟩]
      trail := [⟨.arbitration, some 1, utf8 "premium", 5, utf8 "selected"⟩,
        .note .failClosed (utf8 "none")]
      provenance := ⟨none, utf8 "ann@00ff", .pinned, true, true, false, true⟩
      stamp := ⟨utf8 "replica-0-1-7", 1700000000000, -1, -9223372036854775808⟩ }

set_option maxRecDepth 100000 in
theorem lossless_iff_audited :
    audited.Storable ∧ audited.StepsFit ∧ audited.TimeoutFits ∧
      decode audited.encode = .ok audited.withoutNegativeZero ∧
      audited.withoutNegativeZero ≠ audited := by
  have hstorable : audited.Storable := ⟨by decide +kernel, by decide⟩
  have hsteps : audited.StepsFit :=
    ⟨by decide, by decide, by decide⟩
  have htimeout : audited.TimeoutFits := fun t ht => by cases ht; decide
  exact ⟨hstorable, hsteps, htimeout, (lossless_iff hstorable hsteps).2.2 htimeout, by decide⟩

/-- The record of a request whose time was up before it came. -/
def overdue : TraceRecord where
  traceId := utf8 "replica-0-1-7"
  request := ⟨utf8 "t", utf8 "d", utf8 "e", .empty, false, some (-5)⟩
  blueprint := none
  snapshot := []
  origin := .shared
  notes := []
  overrides := none
  overrideNote := []
  response := ⟨[], [], [], .blank, .blank⟩

set_option maxRecDepth 100000 in
/-- A negative timeout is read back as none. -/
theorem negative_timeout_lost :
    overdue.Storable ∧ overdue.StepsFit ∧ overdue.request.timeoutMicros = some (-5) ∧
      (∃ r, decode overdue.encode = .ok r ∧ r.request.timeoutMicros = none) ∧
      decode overdue.encode ≠ .ok overdue.withoutNegativeZero := by
  have hstorable : overdue.Storable := ⟨by decide +kernel, by decide⟩
  have hsteps : overdue.StepsFit := ⟨by decide, by decide, by decide⟩
  have hdecode := decode_encode hstorable.bytes hstorable.notes
  refine ⟨hstorable, hsteps, rfl, ⟨_, hdecode, rfl⟩, ?_⟩
  rw [hdecode]
  decide

end TraceRecord
end DecisionEngine
