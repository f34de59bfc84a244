import DecisionEngine.Proofs.Wire.Items
import DecisionEngine.Trace.Decode
/-!
# Reading trace records back

A trace record is read back as it was written, but for negative zeros, timeouts that are negative
and steps that have no number of 64 bits.

* `TraceRecord.readBack` — what a record is read back as.
* `TraceRecord.decode_encode` — reading what was written.
-/

namespace DecisionEngine

/-! ## What is read back -/

/-- A request without a negative timeout, which stands for none. -/
def Request.readBack (r : Request) : Request where
  tenant := r.tenant
  decisionType := r.decisionType
  entity := r.entity
  inputs := r.inputs.withoutNegativeZero
  explain := r.explain
  timeoutMicros := r.timeoutMicros.filter fun t => !decide (t < 0)

/-- A decision with its step modulo `2 ^ 64`. -/
def Decision.readBack (d : Decision) : Decision :=
  { d with params := d.params.withoutNegativeZero, step := d.step % 2 ^ 64 }

/-- An alternative with its step modulo `2 ^ 64`. -/
def Alternative.readBack (a : Alternative) : Alternative := { a with step := a.step % 2 ^ 64 }

/-- An entry with its step modulo `2 ^ 64`; one that is then negative as a signed number stands
for none. -/
def TrailEntry.readBack (e : TrailEntry) : TrailEntry :=
  { e with step := (e.step.map (· % 2 ^ 64)).filter fun n => decide (n < 2 ^ 63) }

/-- A response with everything in it as it is read back. -/
def Response.readBack (r : Response) : Response :=
  { r with
    decisions := r.decisions.map Decision.readBack
    alternatives := r.alternatives.map Alternative.readBack
    trail := r.trail.map TrailEntry.readBack }

/-- A record with everything in it as it is read back. -/
def TraceRecord.readBack (r : TraceRecord) : TraceRecord :=
  { r with
    request := r.request.readBack
    overrides := r.overrides.map AttributeSet.withoutNegativeZero
    response := r.response.readBack }

namespace Wire
namespace Reader

/-! ## Parts of a record -/

theorem toNat_ofNat (n : Nat) : (Int64.ofNat n).toUInt64.toNat = n % 2 ^ 64 := rfl

theorem ofNat_neg_iff (n : Nat) : Int64.ofNat n < 0 ↔ ¬n % 2 ^ 64 < 2 ^ 63 := by
  rw [Int64.lt_iff_toInt_lt, Int64.toInt_ofNat', Int64.toInt_zero, Int.bmod,
    show Int64.size = 2 ^ 64 from rfl]
  split <;> omega

theorem reads_step64 (n : Nat) : Reads step64 (Wire.nat n) (n % 2 ^ 64) := by
  rw [← toNat_ofNat]
  exact (reads_int _).last (reads_pure _)

theorem reads_blueprintId (id : BlueprintId) :
    Reads blueprintId (Wire.blueprintId id) id := by
  unfold blueprintId Wire.blueprintId
  simp only [List.append_assoc]
  refine (reads_function (by decide)).bind ?_
  refine (reads_text _).bind ?_
  exact (reads_word _).bind ((reads_word _).last (reads_pure _))

theorem reads_blueprintId? (id : Option BlueprintId) :
    Reads blueprintId? (Wire.optional Wire.blueprintId id) id := by
  have hread := reads_orNull "BlueprintId or Null" .function (by decide) (fun _ => ⟨_, rfl⟩)
    reads_blueprintId id
  rw [Option.map_id'] at hread
  exact hread

theorem reads_request (r : Request) : Reads request (Wire.request r) r.readBack := by
  unfold request Wire.request
  simp only [List.append_assoc]
  refine (reads_function (by decide)).bind ?_
  refine (reads_text _).bind ((reads_text _).bind ((reads_text _).bind ?_))
  refine (reads_attributes _).bind ((reads_bool _).bind ((reads_int _).last ?_))
  have htimeout : (if r.timeoutMicros.getD (-1) < 0 then none
      else some (r.timeoutMicros.getD (-1))) =
        r.timeoutMicros.filter fun t => !decide (t < 0) := by
    cases r.timeoutMicros with
    | none => rfl
    | some t => by_cases ht : t < 0 <;> simp [Option.filter, ht]
  rw [htimeout]
  exact reads_pure _

theorem reads_decision (d : Decision) : Reads decision (Wire.decision d) d.readBack := by
  unfold decision Wire.decision
  simp only [List.append_assoc]
  have hstatus : d.status ∈ DecisionStatus.all := by
    cases d.status <;> decide
  refine (reads_function (by decide)).bind ?_
  refine (reads_text _).bind ((reads_text _).bind ((reads_attributes _).bind ?_))
  refine (reads_enumeration hstatus (by decide)).bind ((reads_text _).bind ?_)
  exact (reads_step64 _).last (reads_pure _)

theorem reads_alternative (a : Alternative) :
    Reads alternative (Wire.alternative a) a.readBack := by
  unfold alternative Wire.alternative
  simp only [List.append_assoc]
  refine (reads_function (by decide)).bind ?_
  refine (reads_text _).bind ((reads_text _).bind ((reads_step64 _).bind ?_))
  exact (reads_text _).last (reads_pure _)

theorem reads_trailEntry (e : TrailEntry) :
    Reads trailEntry (Wire.trailEntry e) e.readBack := by
  have hkind : e.kind ∈ TrailKind.all := by
    cases e.kind <;> decide
  have hbytes : Wire.trailEntry e = Wire.functionHead (utf8 "Entry") 5 ++
      Wire.nat (TrailKind.all.idxOf e.kind) ++ Wire.int ((e.step.map Int64.ofNat).getD (-1)) ++
      Wire.text e.node ++ Wire.word e.mask ++ Wire.text e.detail := by
    unfold Wire.trailEntry
    cases e.step <;> rfl
  have hback : (if (e.step.map Int64.ofNat).getD (-1) < 0 then none
      else some ((e.step.map Int64.ofNat).getD (-1)).toUInt64.toNat) =
        (e.step.map (· % 2 ^ 64)).filter fun n => decide (n < 2 ^ 63) := by
    cases e.step with
    | none => rfl
    | some n =>
      simp only [Option.map_some, Option.getD_some, ofNat_neg_iff, toNat_ofNat,
        Option.filter_some, decide_eq_true_eq]
      by_cases hn : n % 2 ^ 64 < 2 ^ 63
      · rw [if_pos hn, if_neg (not_not_intro hn)]
      · rw [if_neg hn, if_pos hn]
  rw [hbytes]
  unfold trailEntry
  simp only [List.append_assoc]
  refine (reads_function (by decide)).bind ((reads_enumeration hkind (by decide)).bind ?_)
  refine (reads_int _).bind ((reads_text _).bind ((reads_word _).bind ((reads_text _).last ?_)))
  rw [hback]
  exact reads_pure _

theorem reads_origin (o : ContextOrigin) :
    Reads (enumeration ContextOrigin.all) (Wire.origin o) o := by
  have horigin : o ∈ ContextOrigin.all := by
    cases o <;> decide
  exact reads_enumeration horigin (by decide)

theorem reads_metadata (p : Provenance) (s : Stamp) :
    Reads (associationWith metadataEntry (Provenance.blank, Stamp.blank)) (Wire.metadata p s)
      (p, s) := by
  unfold associationWith Wire.metadata
  rw [← List.append_nil (_ ++ Wire.entry "Explain" _)]
  simp only [List.append_assoc]
  refine (reads_associationHead (by decide)).bind ?_
  refine Reads.entry rfl ((reads_blueprintId? _).last (reads_pure _)) ?_
  refine Reads.entry rfl ((reads_text _).last (reads_pure _)) ?_
  refine Reads.entry rfl ((reads_origin _).last (reads_pure _)) ?_
  refine Reads.entry rfl ((reads_text _).last (reads_pure _)) ?_
  refine Reads.entry rfl ((reads_int _).last (reads_pure _)) ?_
  refine Reads.entry rfl ((reads_int _).last (reads_pure _)) ?_
  refine Reads.entry rfl ((reads_int _).last (reads_pure _)) ?_
  refine Reads.entry rfl ((reads_bool _).last (reads_pure _)) ?_
  refine Reads.entry rfl ((reads_bool _).last (reads_pure _)) ?_
  refine Reads.entry rfl ((reads_bool _).last (reads_pure _)) ?_
  refine Reads.entry rfl ((reads_bool _).last (reads_pure _)) ?_
  exact reads_pure _

theorem reads_response (r : Response) : Reads response (Wire.response r) r.readBack := by
  unfold response Wire.response
  simp only [List.append_assoc]
  refine (reads_function (by decide)).bind ?_
  refine (reads_list (fun _ => List.cons_ne_nil _ _) fun d _ => reads_decision d).bind ?_
  refine (reads_list (fun _ => List.cons_ne_nil _ _) fun a _ => reads_alternative a).bind ?_
  refine (reads_list (fun _ => List.cons_ne_nil _ _) fun e _ => reads_trailEntry e).bind ?_
  exact (reads_metadata r.provenance r.stamp).last (reads_pure _)

theorem reads_recordHead {name : Bytes} {fields : Nat} (h : fields < 2 ^ 63) :
    Reads (recordHead name fields) (functionHead name fields) () := by
  refine Reads.position fun p => (reads_function h).last ?_
  rw [if_pos rfl]
  exact reads_pure ()

end Reader
end Wire

open Wire Wire.Reader

/-- **Trace records are read back.**  Records of which no length is out of range are read back as
they were written, but for negative zeros, negative timeouts and steps beyond 64 bits. -/
theorem TraceRecord.decode_encode {r : TraceRecord} (hshort : Short r.encode)
    (hnotes : r.notes.length ≤ maxTexts) : decode r.encode = .ok r.readBack := by
  refine ReadsAll.run ?_ hshort
  unfold encode
  rw [← List.append_nil (_ ++ Wire.response _)]
  simp only [List.append_assoc]
  refine reads_header.bindAll ((reads_recordHead (by decide)).bindAll ?_)
  refine (reads_text _).bindAll ((reads_request _).bindAll ?_)
  refine (reads_blueprintId? _).bindAll ((reads_text _).bindAll ((reads_origin _).bindAll ?_))
  refine (reads_texts hnotes).bindAll ?_
  have hoverrides : Reads (orNull "attributes or Null" attributes)
      (Wire.optional Wire.attributes r.overrides)
      (r.overrides.map AttributeSet.withoutNegativeZero) :=
    reads_orNull _ .association (by decide) (fun _ => ⟨_, rfl⟩) reads_attributes r.overrides
  refine hoverrides.bindAll ((reads_text _).bindAll ((reads_response _).bindAll ?_))
  exact ReadsAll.finish (readsAll_pure _)

end DecisionEngine
