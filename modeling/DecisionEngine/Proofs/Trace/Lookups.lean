import DecisionEngine.Proofs.Trace.Files
import Mathlib.Data.List.Nodup
/-!
# Finding trace records again

A log in memory and a log in a file, to which the same records were emitted, both find a record for
an id just if one was emitted with it.  The file is searched from its front, so it finds the
earliest; in memory the latest takes the place of those before it.  As long as no id is used for two
different records, that is the same record.

* `TraceRecord.Preserved` — a record that a file gives back as it was.
* `TraceRecord.Earliest`, `TraceRecord.Latest` — the first and the last record of an id.
* `MemoryLog.find?_ofRecords_iff`, `FileLog.exists_emitted` — what is found in either log.
* `TraceRecord.lookups_agree_iff` — where the logs agree.
* `TraceRecord.repeated_id_found_apart` — records on which they do not.
-/

namespace DecisionEngine
namespace TraceRecord

variable {rs : List TraceRecord} {r r' : TraceRecord} {id : Bytes}

/-- A record is preserved by a file: it is read back from its bytes as it was, and their number is
one of four bytes. -/
structure Preserved (r : TraceRecord) : Prop where
  decoded : decode r.encode = .ok r
  length : r.encode.length < 2 ^ 32

/-- Without negative zeros, a record that a file can hold is preserved. -/
theorem Loggable.preserved (h : r.Loggable) (hzero : r.withoutNegativeZero = r) : r.Preserved :=
  ⟨by rw [h.decode_encode, hzero], h.length⟩

/-- Preserved records are read back as they were emitted. -/
theorem readFramed_preserved (h : ∀ r ∈ rs, r.Preserved) (position : Nat) :
    readFramed position (rs.flatMap framed) = .ok rs := by
  induction rs generalizing position with
  | nil => rw [List.flatMap_nil, readFramed]
  | cons r rs ih =>
    obtain ⟨hr, hrs⟩ := List.forall_mem_cons.1 h
    have hframe := FileLog.readFramed_frame hr.length (rs.flatMap framed) position
    rw [hr.decoded, ih hrs] at hframe
    rw [List.flatMap_cons]
    exact hframe

/-! ## The first and the last record of an id -/

/-- No record of the id was emitted before this one. -/
def Earliest (rs : List TraceRecord) (id : Bytes) (r : TraceRecord) : Prop :=
  ∃ before after, rs = before ++ r :: after ∧ r.traceId = id ∧ ∀ x ∈ before, x.traceId ≠ id

/-- No record of the id was emitted after this one. -/
def Latest (rs : List TraceRecord) (id : Bytes) (r : TraceRecord) : Prop :=
  ∃ before after, rs = before ++ r :: after ∧ r.traceId = id ∧ ∀ x ∈ after, x.traceId ≠ id

/-- A search from the front finds the earliest record. -/
theorem find?_eq_some_iff : rs.find? (·.traceId == id) = some r ↔ Earliest rs id r := by
  simp only [List.find?_eq_some_iff_append, beq_iff_eq, Bool.not_eq_true', beq_eq_false_iff_ne]
  constructor
  · rintro ⟨hid, before, after, rfl, hbefore⟩
    exact ⟨before, after, rfl, hid, hbefore⟩
  · rintro ⟨before, after, rfl, hid, hbefore⟩
    exact ⟨hid, before, after, rfl, hbefore⟩

/-- The latest record is the earliest one from behind. -/
theorem earliest_reverse_iff : Earliest rs.reverse id r ↔ Latest rs id r := by
  constructor
  · rintro ⟨before, after, hsplit, hid, hbefore⟩
    refine ⟨after.reverse, before.reverse, ?_, hid, fun x hx => hbefore x (List.mem_reverse.1 hx)⟩
    rw [← List.reverse_reverse rs, hsplit]
    simp
  · rintro ⟨before, after, rfl, hid, hafter⟩
    refine ⟨after.reverse, before.reverse, by simp, hid, fun x hx => ?_⟩
    exact hafter x (List.mem_reverse.1 hx)

theorem Earliest.mem (h : Earliest rs id r) : r ∈ rs ∧ r.traceId = id := by
  obtain ⟨before, after, rfl, hid, -⟩ := h
  exact ⟨by simp, hid⟩

theorem Latest.mem (h : Latest rs id r) : r ∈ rs ∧ r.traceId = id := by
  obtain ⟨hmem, hid⟩ := (earliest_reverse_iff.2 h).mem
  exact ⟨List.mem_reverse.1 hmem, hid⟩

/-- If there is a record of the id, one of them is the earliest. -/
theorem exists_earliest (hmem : r ∈ rs) (hid : r.traceId = id) : ∃ r', Earliest rs id r' := by
  have hfound : (rs.find? (·.traceId == id)).isSome = true :=
    List.find?_isSome.2 ⟨r, hmem, beq_iff_eq.2 hid⟩
  obtain ⟨r', hr'⟩ := Option.isSome_iff_exists.1 hfound
  exact ⟨r', find?_eq_some_iff.1 hr'⟩

theorem exists_latest (hmem : r ∈ rs) (hid : r.traceId = id) : ∃ r', Latest rs id r' := by
  obtain ⟨r', hr'⟩ := exists_earliest (List.mem_reverse.2 hmem) hid
  exact ⟨r', earliest_reverse_iff.1 hr'⟩

/-- Records with ids of their own are the earliest and the latest at once. -/
theorem eq_of_nodup (h : (rs.map (·.traceId)).Nodup) (hr : Earliest rs id r)
    (hr' : Latest rs id r') : r = r' :=
  List.inj_on_of_nodup_map h hr.mem.1 hr'.mem.1 (hr.mem.2.trans hr'.mem.2.symm)

end TraceRecord

open TraceRecord (Earliest Latest)

/-! ## Both logs -/

namespace MemoryLog

/-- The log to which records were emitted one after another. -/
def ofRecords (rs : List TraceRecord) : MemoryLog := rs.foldl emit empty

theorem records_foldl_emit (rs : List TraceRecord) (l : MemoryLog) :
    (rs.foldl emit l).records = l.records ++ rs := by
  induction rs generalizing l with
  | nil => exact (List.append_nil _).symm
  | cons r rs ih => rw [List.foldl_cons, ih, emit, List.append_assoc, List.singleton_append]

/-- A log in memory finds the latest record. -/
theorem find?_ofRecords_iff {rs : List TraceRecord} {id : Bytes} {r : TraceRecord} :
    (ofRecords rs).find? id = some r ↔ Latest rs id r := by
  have hrecords : (ofRecords rs).records = rs := records_foldl_emit rs empty
  unfold find?
  rw [hrecords, TraceRecord.find?_eq_some_iff, TraceRecord.earliest_reverse_iff]

end MemoryLog

namespace FileLog

/-- Records can be emitted to a new file, which is then searched from its front. -/
theorem exists_emitted (path : Bytes) {rs : List TraceRecord} (h : ∀ r ∈ rs, r.Preserved) :
    ∃ file, rs.foldlM emit (opened path none) = .ok file ∧
      ∀ id, file.find? id = .ok (rs.find? (·.traceId == id)) := by
  have hwritten := exists_written path (rs.map Event.emit) []
  have hrecords : (rs.map Event.emit).filterMap Event.record? = rs := by
    rw [List.filterMap_map]
    exact List.filterMap_some
  rw [hrecords, List.foldlM_map, List.nil_append] at hwritten
  refine ⟨_, hwritten, fun id => ?_⟩
  unfold find? readAll
  dsimp only
  rw [TraceRecord.readFramed_preserved h]
  rfl

end FileLog

namespace TraceRecord

/-- **Where a log in a file and a log in memory agree.**  Records that a file preserves are emitted
to both, in the same order.  Then the file finds the earliest record of an id and the log in memory
finds the latest, and they answer alike just if this is the same record.  That is so of every id if
no two records share one. -/
theorem lookups_agree_iff (path : Bytes) {rs : List TraceRecord} (h : ∀ r ∈ rs, r.Preserved) :
    ∃ file, rs.foldlM FileLog.emit (FileLog.opened path none) = .ok file ∧ ∀ id,
      (∀ r, file.find? id = .ok (some r) ↔ Earliest rs id r) ∧
      (∀ r, (MemoryLog.ofRecords rs).find? id = some r ↔ Latest rs id r) ∧
      (file.find? id = .ok ((MemoryLog.ofRecords rs).find? id) ↔
        ∀ r r', Earliest rs id r → Latest rs id r' → r = r') ∧
      ((rs.map (·.traceId)).Nodup →
        file.find? id = .ok ((MemoryLog.ofRecords rs).find? id)) := by
  obtain ⟨file, hemitted, hfind⟩ := FileLog.exists_emitted path h
  refine ⟨file, hemitted, fun id => ?_⟩
  have hagree : file.find? id = .ok ((MemoryLog.ofRecords rs).find? id) ↔
      ∀ r r', Earliest rs id r → Latest rs id r' → r = r' := by
    rw [hfind, Except.ok.injEq]
    constructor
    · intro hsame r r' hr hr'
      have hfound := find?_eq_some_iff.2 hr
      rw [hsame, MemoryLog.find?_ofRecords_iff.2 hr'] at hfound
      exact (Option.some.inj hfound).symm
    · intro hone
      cases hfound : (MemoryLog.ofRecords rs).find? id with
      | none =>
        refine List.find?_eq_none.2 fun r hr hid => ?_
        obtain ⟨r', hr'⟩ := exists_latest hr (beq_iff_eq.1 hid)
        rw [MemoryLog.find?_ofRecords_iff.2 hr'] at hfound
        cases hfound
      | some r' =>
        have hlatest := MemoryLog.find?_ofRecords_iff.1 hfound
        obtain ⟨r, hr⟩ := exists_earliest hlatest.mem.1 hlatest.mem.2
        rw [← hone r r' hr hlatest]
        exact find?_eq_some_iff.2 hr
  refine ⟨fun r => ?_, fun r => MemoryLog.find?_ofRecords_iff, hagree, fun hnodup => ?_⟩
  · rw [hfind, Except.ok.injEq, find?_eq_some_iff]
  · exact hagree.2 fun r r' hr hr' => eq_of_nodup hnodup hr hr'

/-- The record of a request that was answered without a context. -/
def plain (traceId note : Bytes) : TraceRecord where
  traceId := traceId
  request := ⟨utf8 "t", utf8 "d", utf8 "e", .empty, false, none⟩
  blueprint := none
  snapshot := []
  origin := .shared
  notes := []
  overrides := none
  overrideNote := note
  response := ⟨[], [], [], .blank, .blank⟩

/-- Two records of one id, and one of another. -/
def sampleRecords : List TraceRecord :=
  [plain (utf8 "a") (utf8 "first"), plain (utf8 "a") (utf8 "second"), plain (utf8 "b") []]

set_option maxRecDepth 100000 in
theorem preserved_of_mem_sampleRecords : ∀ r ∈ sampleRecords, r.Preserved := by
  have hloggable : ∀ r ∈ sampleRecords, r.Loggable := by
    intro r hr
    simp only [sampleRecords, List.mem_cons, List.not_mem_nil, or_false] at hr
    rcases hr with rfl | rfl | rfl <;>
      exact ⟨fun t ht => (Option.not_mem_none t ht).elim, ⟨by decide, by decide, by decide⟩,
        by decide +kernel⟩
  have hzero : ∀ r ∈ sampleRecords, r.withoutNegativeZero = r := by decide
  exact fun r hr => (hloggable r hr).preserved (hzero r hr)

/-- The logs agree on the id that is used once, and not on the other one. -/
theorem lookups_agree_iff_sample :
    (∀ r ∈ sampleRecords, r.Preserved) ∧
    ∃ file, sampleRecords.foldlM FileLog.emit (FileLog.opened (utf8 "log") none) = .ok file ∧
      file.find? (utf8 "b") = .ok ((MemoryLog.ofRecords sampleRecords).find? (utf8 "b")) ∧
      file.find? (utf8 "a") ≠ .ok ((MemoryLog.ofRecords sampleRecords).find? (utf8 "a")) := by
  obtain ⟨file, hemitted, hfind⟩ :=
    lookups_agree_iff (utf8 "log") preserved_of_mem_sampleRecords
  refine ⟨preserved_of_mem_sampleRecords, file, hemitted, ?_, fun hagree => ?_⟩
  · obtain ⟨-, -, hagree, -⟩ := hfind (utf8 "b")
    refine hagree.2 fun r r' hr hr' => ?_
    have hlast : ∀ x ∈ sampleRecords, x.traceId = utf8 "b" → x = plain (utf8 "b") [] := by decide
    rw [hlast r hr.mem.1 hr.mem.2, hlast r' hr'.mem.1 hr'.mem.2]
  · obtain ⟨-, -, hiff, -⟩ := hfind (utf8 "a")
    have hsame := hiff.1 hagree (plain (utf8 "a") (utf8 "first"))
      (plain (utf8 "a") (utf8 "second")) ⟨[], _, rfl, rfl, by simp⟩
      ⟨[plain (utf8 "a") (utf8 "first")], _, rfl, rfl, by decide⟩
    exact absurd hsame (by decide)

/-- Of two records of one id the file finds the first, and the log in memory finds the second. -/
theorem repeated_id_found_apart :
    (∀ r ∈ sampleRecords, r.Preserved) ∧
    ∃ file, sampleRecords.foldlM FileLog.emit (FileLog.opened (utf8 "log") none) = .ok file ∧
      file.find? (utf8 "a") = .ok (some (plain (utf8 "a") (utf8 "first"))) ∧
      (MemoryLog.ofRecords sampleRecords).find? (utf8 "a") =
        some (plain (utf8 "a") (utf8 "second")) := by
  obtain ⟨file, hemitted, hfind⟩ :=
    FileLog.exists_emitted (utf8 "log") preserved_of_mem_sampleRecords
  refine ⟨preserved_of_mem_sampleRecords, file, hemitted, ?_, ?_⟩
  · rw [hfind]
    rfl
  · rfl

end TraceRecord
end DecisionEngine
