import DecisionEngine.Proofs.Trace.Fidelity
import DecisionEngine.Proofs.Trace.Refusals
/-!
# Files of trace records

A file to which records were appended is read back as these records, however often it was closed
and opened in between.  Cut between two records it is read as the records before the cut; cut
anywhere else it is refused as truncated, since a record says how long it is before it begins.

* `TraceRecord.Loggable` — what a record has to be for a file to hold it.
* `FileLog.readFramed_records`, `FileLog.readFramed_torn` — whole records, and a torn one behind.
* `FileLog.exists_torn` — a cut that is no boundary tears a record.
* `FileLog.exists_written` — what a history of a file leaves in it.
* `FileLog.reads_back` — reading the file, and every part of it up to a cut.
-/

namespace DecisionEngine

open Wire (littleEndian)
open Wire.Reader (length_le_flatMap length_littleEndian maxTexts ofLittleEndian
  ofLittleEndian_littleEndian)

/-! ## Records in a file -/

namespace TraceRecord

variable {r : TraceRecord}

/-- A record is kept whole in a file: its timeout and its steps are read back, and its length is a
number of four bytes. -/
structure Loggable (r : TraceRecord) : Prop where
  timeout : r.TimeoutFits
  steps : r.StepsFit
  length : r.encode.length < 2 ^ 32

/-- A record has at least as many bytes as notes. -/
theorem notes_length_le (r : TraceRecord) : r.notes.length ≤ r.encode.length := by
  have htexts : r.notes.length ≤ (r.notes.flatMap Wire.text).length :=
    length_le_flatMap fun _ => List.cons_ne_nil _ _
  unfold encode Wire.texts Wire.list
  simp only [List.length_append]
  omega

theorem Loggable.storable (h : r.Loggable) : r.Storable := by
  have hlength := h.length
  have hnotes := r.notes_length_le
  have hroom : 2 ^ 32 ≤ maxTexts := by decide
  exact ⟨by unfold Wire.Reader.Short; omega, by omega⟩

theorem Loggable.decode_encode (h : r.Loggable) : decode r.encode = .ok r.withoutNegativeZero := by
  have hkept : r.withoutNegativeZero.withoutNegativeTimeout = r.withoutNegativeZero :=
    withoutNegativeTimeout_eq_self_iff.2 h.timeout
  rw [TraceRecord.decode_encode h.storable.bytes h.storable.notes, readBack_eq h.steps, hkept]

theorem length_framed (r : TraceRecord) : r.framed.length = 4 + r.encode.length := by
  rw [framed, List.length_append, length_littleEndian]

/-- A record in front of others is read, and then the others. -/
theorem Loggable.readFramed_framed (h : r.Loggable) (position : Nat) (rest : Bytes) :
    readFramed position (r.framed ++ rest) = (do
      let others ← readFramed (position + r.framed.length) rest
      return r.withoutNegativeZero :: others) := by
  have hframe := FileLog.readFramed_frame h.length rest position
  rw [h.decode_encode, Nat.add_assoc, ← length_framed] at hframe
  exact hframe

/-- The reasons to refuse a record that is cut. -/
def Truncated (e : Wire.Error) : Prop :=
  e.cause = .malformed .truncatedLength ∨ e.cause = .malformed .truncatedRecord

theorem Truncated.isCodec {e : Wire.Error} (h : Truncated e) : e.IsCodec := by
  rintro hcause
  rcases h with h | h
  · cases h.symm.trans hcause
  · cases h.symm.trans hcause

/-- A record that is cut is refused: in its length, or for want of the bytes that this says. -/
theorem Loggable.readFramed_cut (h : r.Loggable) (position : Nat) {k : Nat} (hpos : 0 < k)
    (hcut : k < r.framed.length) :
    ∃ e, readFramed position (r.framed.take k) = .error e ∧ Truncated e := by
  have hback : ofLittleEndian (littleEndian 4 r.encode.length) = r.encode.length := by
    rw [ofLittleEndian_littleEndian]
    exact Nat.mod_eq_of_lt h.length
  obtain ⟨a, b, c, d, hhead⟩ : ∃ a b c d, littleEndian 4 r.encode.length = [a, b, c, d] :=
    ⟨_, _, _, _, rfl⟩
  rw [length_framed] at hcut
  rw [hhead] at hback
  rw [framed, hhead]
  match k, hpos with
  | 1, _ | 2, _ | 3, _ =>
    refine ⟨⟨.malformed .truncatedLength, position⟩, ?_, .inl rfl⟩
    simp only [List.cons_append, List.take_succ_cons, List.take_zero]
    rw [readFramed]
  | k + 4, _ =>
    refine ⟨⟨.malformed .truncatedRecord, position + 4⟩, ?_, .inr rfl⟩
    have hshort : (r.encode.take k).length < r.encode.length := by
      rw [List.length_take]
      omega
    simp only [List.cons_append, List.nil_append, List.take_succ_cons]
    rw [readFramed, hback, if_pos hshort]
    rfl

end TraceRecord

/-! ## Cuts -/

namespace FileLog

open TraceRecord (Loggable Truncated readFramed)

variable {rs : List TraceRecord} {r : TraceRecord}

/-- Where the first `n` records of a file end. -/
def boundary (rs : List TraceRecord) (n : Nat) : Nat :=
  ((rs.take n).flatMap TraceRecord.framed).length

theorem take_boundary (rs : List TraceRecord) (n : Nat) :
    (rs.flatMap TraceRecord.framed).take (boundary rs n) =
      (rs.take n).flatMap TraceRecord.framed := by
  have hsplit : rs.flatMap TraceRecord.framed = (rs.take n).flatMap TraceRecord.framed ++
      (rs.drop n).flatMap TraceRecord.framed := by
    rw [← List.flatMap_append, List.take_append_drop]
  rw [hsplit, boundary, List.take_left]

/-- A cut in front of the end of the first record, or behind it in the others. -/
theorem boundary_cons (r : TraceRecord) (rs : List TraceRecord) (n : Nat) :
    boundary (r :: rs) (n + 1) = r.framed.length + boundary rs n := by
  rw [boundary, boundary, List.take_succ_cons, List.flatMap_cons, List.length_append]

/-- A cut that is no boundary leaves some records whole and then tears one. -/
theorem exists_torn {k : Nat} (hk : k < (rs.flatMap TraceRecord.framed).length)
    (hcut : ∀ n, k ≠ boundary rs n) :
    ∃ n, ∃ r ∈ rs, ∃ j, 0 < j ∧ j < r.framed.length ∧
      (rs.flatMap TraceRecord.framed).take k =
        (rs.take n).flatMap TraceRecord.framed ++ r.framed.take j := by
  induction rs generalizing k with
  | nil => exact absurd hk (Nat.not_lt_zero k)
  | cons r rs ih =>
    rw [List.flatMap_cons, List.length_append] at hk
    rw [List.flatMap_cons]
    by_cases hfirst : k < r.framed.length
    · refine ⟨0, r, List.mem_cons_self .., k, ?_, hfirst, ?_⟩
      · exact Nat.pos_of_ne_zero fun hzero => hcut 0 (by rw [hzero]; rfl)
      · rw [List.take_append_of_le_length (Nat.le_of_lt hfirst)]
        rfl
    · obtain ⟨l, rfl⟩ : ∃ l, k = r.framed.length + l := ⟨k - r.framed.length, by omega⟩
      have hcut' : ∀ n, l ≠ boundary rs n := fun n hl =>
        hcut (n + 1) (by rw [boundary_cons, hl])
      obtain ⟨n, r', hr', j, hpos, hj, htake⟩ := ih (by omega) hcut'
      refine ⟨n + 1, r', List.mem_cons_of_mem _ hr', j, hpos, hj, ?_⟩
      rw [List.take_length_add_append, htake, List.take_succ_cons, List.flatMap_cons,
        List.append_assoc]

/-! ## Reading -/

/-- Whole records, one behind the other. -/
theorem readFramed_records (h : ∀ r ∈ rs, r.Loggable) (position : Nat) :
    readFramed position (rs.flatMap TraceRecord.framed) =
      .ok (rs.map TraceRecord.withoutNegativeZero) := by
  induction rs generalizing position with
  | nil => rw [List.flatMap_nil, readFramed, List.map_nil]
  | cons r rs ih =>
    obtain ⟨hr, hrs⟩ := List.forall_mem_cons.1 h
    rw [List.flatMap_cons, hr.readFramed_framed, ih hrs]
    rfl

/-- Behind whole records, a torn one is refused. -/
theorem readFramed_torn (h : ∀ r ∈ rs, r.Loggable) (hr : r.Loggable) {k : Nat} (hpos : 0 < k)
    (hcut : k < r.framed.length) (position : Nat) :
    ∃ e, readFramed position (rs.flatMap TraceRecord.framed ++ r.framed.take k) = .error e ∧
      Truncated e := by
  induction rs generalizing position with
  | nil => exact hr.readFramed_cut position hpos hcut
  | cons r' rs ih =>
    obtain ⟨hr', hrs⟩ := List.forall_mem_cons.1 h
    obtain ⟨e, he, htruncated⟩ := ih hrs (position + r'.framed.length)
    refine ⟨e, ?_, htruncated⟩
    rw [List.flatMap_cons, List.append_assoc, hr'.readFramed_framed, he]
    rfl

/-! ## Histories of a file -/

/-- What happens to a file: a record is appended, or the file is closed and opened again. -/
inductive Event
  | emit (r : TraceRecord)
  | reopen

/-- The record that an event appends. -/
def Event.record? : Event → Option TraceRecord
  | emit r => some r
  | reopen => none

/-- The log after an event. -/
def after (f : FileLog) : Event → Except FileLogError FileLog
  | .emit r => f.emit r
  | .reopen => .ok (opened f.path f.contents)

/-- Events append their records to what a file holds, and nothing else. -/
theorem exists_written (path : Bytes) (events : List Event) (bytes : Bytes) :
    events.foldlM after ⟨path, some bytes⟩ = .ok ⟨path,
      some (bytes ++ (events.filterMap Event.record?).flatMap TraceRecord.framed)⟩ := by
  induction events generalizing bytes with
  | nil =>
    rw [List.filterMap_nil, List.flatMap_nil, List.append_nil]
    rfl
  | cons event events ih =>
    rw [List.foldlM_cons]
    cases event with
    | emit r =>
      rw [List.filterMap_cons, Event.record?, List.flatMap_cons, ← List.append_assoc]
      exact ih (bytes ++ r.framed)
    | reopen => exact ih bytes

/-- **A file of trace records is read back as it was written.**  To a file that was not there,
records are appended, and between them it is opened again any number of times.  Then it holds these
records.  Cut where a record ends, it holds the records before the cut; cut anywhere else, it is
refused as truncated. -/
theorem reads_back (path : Bytes) (events : List Event)
    (h : ∀ r ∈ events.filterMap Event.record?, r.Loggable) :
    ∃ bytes, events.foldlM after (opened path none) = .ok ⟨path, some bytes⟩ ∧
      readAll ⟨path, some bytes⟩ =
        .ok ((events.filterMap Event.record?).map TraceRecord.withoutNegativeZero) ∧
      (∀ n, readAll ⟨path, some (bytes.take (boundary (events.filterMap Event.record?) n))⟩ =
        .ok (((events.filterMap Event.record?).take n).map TraceRecord.withoutNegativeZero)) ∧
      ∀ k ≤ bytes.length, (∀ n, k ≠ boundary (events.filterMap Event.record?) n) →
        ∃ e, readAll ⟨path, some (bytes.take k)⟩ = .error (.unreadable e) ∧ e.IsCodec ∧
          Truncated e := by
  refine ⟨_, exists_written path events [], ?_⟩
  rw [List.nil_append]
  generalize events.filterMap Event.record? = rs at h ⊢
  unfold readAll
  dsimp only
  refine ⟨?_, fun n => ?_, fun k hk hcut => ?_⟩
  · rw [readFramed_records h]
    rfl
  · rw [take_boundary, readFramed_records fun r hr => h r (List.mem_of_mem_take hr)]
    rfl
  · have hend : k ≠ (rs.flatMap TraceRecord.framed).length := fun hk =>
      hcut rs.length (by rw [boundary, List.take_length, hk])
    obtain ⟨n, r, hr, j, hpos, hj, htake⟩ := exists_torn (by omega) hcut
    obtain ⟨e, he, htruncated⟩ := readFramed_torn
      (fun r hr => h r (List.mem_of_mem_take (i := n) hr)) (h r hr) hpos hj 0
    refine ⟨e, ?_, htruncated.isCodec, htruncated⟩
    rw [htake, he]
    rfl

/-- A record, another opening and the same record again. -/
def sampleEvents : List Event := [.emit .audited, .reopen, .emit .audited]

set_option maxRecDepth 100000 in
/-- The file is read as two records; cut behind the first as one, and cut in the second not at
all. -/
theorem reads_back_sample :
    ∃ bytes cut, (∀ r ∈ sampleEvents.filterMap Event.record?, r.Loggable) ∧
      sampleEvents.foldlM after (opened (utf8 "log") none) = .ok ⟨utf8 "log", some bytes⟩ ∧
      readAll ⟨utf8 "log", some bytes⟩ =
        .ok [TraceRecord.audited.withoutNegativeZero, TraceRecord.audited.withoutNegativeZero] ∧
      readAll ⟨utf8 "log", some (bytes.take cut)⟩ =
        .ok [TraceRecord.audited.withoutNegativeZero] ∧
      ∃ e, readAll ⟨utf8 "log", some (bytes.take (cut + 9))⟩ = .error (.unreadable e) ∧
        e.IsCodec := by
  have haudited : TraceRecord.audited.Loggable :=
    ⟨fun t ht => by cases ht; decide, ⟨by decide, by decide, by decide⟩, by decide +kernel⟩
  have hrecords : sampleEvents.filterMap Event.record? =
      [TraceRecord.audited, TraceRecord.audited] := rfl
  have hloggable : ∀ r ∈ sampleEvents.filterMap Event.record?, r.Loggable := by
    rw [hrecords]
    exact List.forall_mem_cons.2 ⟨haudited, List.forall_mem_singleton.2 haudited⟩
  obtain ⟨bytes, hwritten, hall, hboundary, hcut⟩ := reads_back (utf8 "log") sampleEvents hloggable
  have hbytes : bytes.length =
      TraceRecord.audited.framed.length + TraceRecord.audited.framed.length := by
    have hlog := (exists_written (utf8 "log") sampleEvents []).symm.trans hwritten
    cases hlog
    simp [hrecords]
  rw [hrecords] at hall hboundary hcut
  have hlong : 9 < TraceRecord.audited.framed.length := by decide +kernel
  have hfirst : boundary [TraceRecord.audited, TraceRecord.audited] 1 =
      TraceRecord.audited.framed.length := by
    simp [boundary]
  obtain ⟨e, he, hcodec, -⟩ := hcut (TraceRecord.audited.framed.length + 9) (by omega) fun n => by
    match n with
    | 0 => simp [boundary]
    | 1 => omega
    | n + 2 =>
      rw [boundary_cons, boundary_cons]
      omega
  exact ⟨bytes, _, hloggable, hwritten, hall, hfirst ▸ hboundary 1, e, he, hcodec⟩

end FileLog
end DecisionEngine
