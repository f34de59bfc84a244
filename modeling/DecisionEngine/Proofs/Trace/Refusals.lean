import DecisionEngine.Proofs.Blueprint.Refusals
import DecisionEngine.Proofs.Wire.Numbers
import DecisionEngine.Trace.Log
/-!
# How bytes are refused as a trace

Blueprints and trace records are to be refused as damaged or as another kind of item, and so are
the files in which records are kept. All three have bytes that they refuse for another reason.

* `TraceRecord.overflows_iff` — a record is refused so if its notes are too many for a list.
* `FileLog.overflows_iff` — a file is refused so if that holds of its first unreadable record.
* `refusals_of_decoders` — blueprints, records and files together.
* `refusals_beyond_codec` — bytes of each kind that are refused otherwise.
-/

namespace DecisionEngine
namespace Wire
namespace Reader

variable {bytes : Bytes} {P : Nat → Prop}

/-! ## Parts of records -/

theorem orderly_step64 : Orderly bytes P step64 := orderly_int.map _

theorem orderly_blueprintId : Orderly bytes P blueprintId :=
  (orderly_function _).bind fun _ => orderly_text.bind fun _ => orderly_word.bind fun _ =>
    orderly_word.map _

theorem orderly_blueprintId? : Orderly bytes P blueprintId? := orderly_orNull _ orderly_blueprintId

theorem orderly_request : Orderly bytes P request :=
  (orderly_function _).bind fun _ => orderly_text.bind fun _ => orderly_text.bind fun _ =>
    orderly_text.bind fun _ => orderly_attributes.bind fun _ => orderly_bool.bind fun _ =>
      orderly_int.map _

theorem orderly_decision : Orderly bytes P decision :=
  (orderly_function _).bind fun _ => orderly_text.bind fun _ => orderly_text.bind fun _ =>
    orderly_attributes.bind fun _ => (orderly_enumeration _).bind fun _ =>
      orderly_text.bind fun _ => orderly_step64.map _

theorem orderly_alternative : Orderly bytes P alternative :=
  (orderly_function _).bind fun _ => orderly_text.bind fun _ => orderly_text.bind fun _ =>
    orderly_step64.bind fun _ => orderly_text.map _

theorem orderly_trailEntry : Orderly bytes P trailEntry :=
  (orderly_function _).bind fun _ => (orderly_enumeration _).bind fun _ => orderly_int.bind fun _ =>
    orderly_text.bind fun _ => orderly_word.bind fun _ => orderly_text.map _

theorem orderly_metadataEntry (k : Bytes) (m : Provenance × Stamp) :
    ∀ r ∈ metadataEntry k m, Orderly bytes P r :=
  orderly_entry (orderly_blueprintId?.map _) <| orderly_entry (orderly_text.map _) <|
    orderly_entry ((orderly_enumeration _).map _) <| orderly_entry (orderly_text.map _) <|
    orderly_entry (orderly_int.map _) <| orderly_entry (orderly_int.map _) <|
    orderly_entry (orderly_int.map _) <| orderly_entry (orderly_bool.map _) <|
    orderly_entry (orderly_bool.map _) <| orderly_entry (orderly_bool.map _) <|
    orderly_entry (orderly_bool.map _) orderly_noEntry

theorem orderly_response : Orderly bytes P response :=
  (orderly_function _).bind fun _ => (orderly_list orderly_decision).bind fun _ =>
    (orderly_list orderly_alternative).bind fun _ => (orderly_list orderly_trailEntry).bind
      fun _ => (orderly_associationWith orderly_metadataEntry).map _

theorem orderly_recordHead (name : Bytes) (fields : Nat) : Orderly bytes P (recordHead name fields) :=
  orderly_position.bind fun _ => (orderly_function _).bind fun _ => orderly_ite (orderly_pure _)
    (orderly_failAt Cause.noConfusion)

end Reader
end Wire

/-! ## Records -/

namespace TraceRecord

open Wire (Cursor Reader)

/-- The fields in front of the notes. -/
def beforeNotes : Reader (Bytes × Request × Option BlueprintId × Bytes × ContextOrigin) := do
  Reader.header
  Reader.recordHead (utf8 "TraceRecord") 9
  let traceId ← Reader.text
  let request ← Reader.request
  let blueprint ← Reader.blueprintId?
  let snapshot ← Reader.text
  let origin ← Reader.enumeration ContextOrigin.all
  return (traceId, request, blueprint, snapshot, origin)

/-- The fields in front of the notes can be read, and the list of the notes announces more than
can be addressed. -/
def Overstates (bytes : Bytes) : Prop :=
  ∃ fields c n c', beforeNotes (Cursor.start bytes) = .ok (fields, c) ∧
    Reader.listHead c = .ok (n, c') ∧ Reader.maxTexts < n

theorem tame_beforeNotes : Reader.Tame beforeNotes :=
  Reader.tame_of_orderly fun _ => Reader.orderly_header.bind fun _ =>
    (Reader.orderly_recordHead _ _).bind fun _ => Reader.orderly_text.bind fun _ =>
      Reader.orderly_request.bind fun _ => Reader.orderly_blueprintId?.bind fun _ =>
        Reader.orderly_text.bind fun _ => (Reader.orderly_enumeration _).map _

/-- The fields behind the notes. -/
def afterNotes (notes : List Bytes)
    (fields : Bytes × Request × Option BlueprintId × Bytes × ContextOrigin) :
    Reader TraceRecord := do
  let overrides ← Reader.orNull "attributes or Null" Reader.attributes
  let overrideNote ← Reader.text
  let response ← Reader.response
  Reader.finish "TraceRecord"
  let (traceId, request, blueprint, snapshot, origin) := fields
  return ⟨traceId, request, blueprint, snapshot, origin, notes, overrides, overrideNote, response⟩

theorem decode_eq (bytes : Bytes) :
    decode bytes = Reader.run (beforeNotes >>= fun fields => Reader.texts >>= fun notes =>
      afterNotes notes fields) bytes := by
  unfold decode beforeNotes afterNotes
  simp only [bind_assoc, pure_bind]

theorem tame_afterNotes (notes : List Bytes)
    (fields : Bytes × Request × Option BlueprintId × Bytes × ContextOrigin) :
    Reader.Tame (afterNotes notes fields) :=
  Reader.tame_of_orderly fun _ => (Reader.orderly_orNull _ Reader.orderly_attributes).bind fun _ =>
    Reader.orderly_text.bind fun _ => Reader.orderly_response.bind fun _ =>
      (Reader.orderly_finish _).map _

/-- A record is refused neither as damaged nor as something else if its notes are too many for a
list, and in no other case. -/
theorem overflows_iff {bytes : Bytes} :
    (∃ e, decode bytes = .error e ∧ ¬e.IsCodec) ↔ Overstates bytes := by
  have hnotes : ∀ fields c, Reader.Overflows
      (Reader.texts >>= fun notes => afterNotes notes fields) c ↔
        ∃ n c', Reader.listHead c = .ok (n, c') ∧ Reader.maxTexts < n := fun fields c => by
    rw [Reader.overflows_bind_tame_iff fun notes => tame_afterNotes notes fields,
      Reader.overflows_texts_iff]
  rw [decode_eq, Reader.overflows_run_iff, tame_beforeNotes.overflows_bind_iff]
  simp only [hnotes, Overstates, exists_and_left]

end TraceRecord

/-! ## Files -/

/-- The records of a file are refused as damaged or as another kind of item. -/
def FileLogError.IsCodec : FileLogError → Prop
  | cannotOpen _ => False
  | unreadable e => e.IsCodec

namespace FileLog

open Wire (littleEndian)
open Wire.Reader (ofLittleEndian ofLittleEndian_lt ofLittleEndian_littleEndian
  littleEndian_ofLittleEndian)

/-- Bytes behind their length. -/
def frame (body : Bytes) : Bytes := littleEndian 4 body.length ++ body

/-- The contents of a file have the bytes of a record whose notes are too many for a list, behind
records that can be read. -/
inductive Overstates : Bytes → Prop
  | here {body : Bytes} (more : Bytes) (hlength : body.length < 2 ^ 32)
      (h : TraceRecord.Overstates body) : Overstates (frame body ++ more)
  | behind {body rest : Bytes} {r : TraceRecord} (hlength : body.length < 2 ^ 32)
      (hread : TraceRecord.decode body = .ok r) (h : Overstates rest) :
      Overstates (frame body ++ rest)

/-- A framed record is read, and then what follows it. -/
theorem readFramed_frame {body : Bytes} (hlength : body.length < 2 ^ 32) (rest : Bytes)
    (position : Nat) :
    TraceRecord.readFramed position (frame body ++ rest) = (do
      let r ← TraceRecord.decode body
      let others ← TraceRecord.readFramed (position + 4 + body.length) rest
      return r :: others) := by
  have hback : ofLittleEndian (littleEndian 4 body.length) = body.length := by
    rw [ofLittleEndian_littleEndian]
    exact Nat.mod_eq_of_lt hlength
  obtain ⟨a, b, c, d, hhead⟩ : ∃ a b c d, littleEndian 4 body.length = [a, b, c, d] :=
    ⟨_, _, _, _, rfl⟩
  rw [hhead] at hback
  rw [frame, hhead]
  change TraceRecord.readFramed position (a :: b :: c :: d :: (body ++ rest)) = _
  rw [TraceRecord.readFramed]
  rw [hback, if_neg (by rw [List.length_append]; omega), List.take_left, List.drop_left]

/-- Four bytes and as many as they say are a framed record. -/
theorem frame_take_append {a b c d : UInt8} {tail : Bytes}
    (h : ¬tail.length < ofLittleEndian [a, b, c, d]) :
    frame (tail.take (ofLittleEndian [a, b, c, d])) ++ tail.drop (ofLittleEndian [a, b, c, d]) =
      a :: b :: c :: d :: tail := by
  rw [frame, List.length_take_of_le (Nat.le_of_not_lt h), List.append_assoc,
    List.take_append_drop]
  exact congrArg (· ++ tail) (littleEndian_ofLittleEndian [a, b, c, d])

/-- Records are read until one is refused, so the first such one tells the reason. -/
theorem readFramed_overflows_iff (position : Nat) {bytes : Bytes} :
    (∃ e, TraceRecord.readFramed position bytes = .error e ∧ ¬e.IsCodec) ↔ Overstates bytes := by
  constructor
  · rintro ⟨e, he, hcodec⟩
    fun_induction TraceRecord.readFramed position bytes with
    | case1 => cases he
    | case2 | case3 | case4 =>
      cases he
      exact absurd Wire.Cause.noConfusion hcodec
    | case5 =>
      cases he
      exact absurd Wire.Cause.noConfusion hcodec
    | case6 position a b c d tail length hroom ih =>
      have hlength : (tail.take length).length < 2 ^ 32 := by
        have hbound : ofLittleEndian [a, b, c, d] < 256 ^ 4 := ofLittleEndian_lt [a, b, c, d]
        rw [List.length_take_of_le (Nat.le_of_not_lt hroom)]
        omega
      rw [← frame_take_append hroom]
      cases hread : TraceRecord.decode (tail.take length) with
      | error e' =>
        rw [hread] at he
        cases he
        exact .here _ hlength (TraceRecord.overflows_iff.1 ⟨e, hread, hcodec⟩)
      | ok r =>
        refine .behind hlength hread (ih ?_)
        rw [hread] at he
        dsimp only [Bind.bind, Except.bind] at he
        cases hrest : TraceRecord.readFramed (position + 4 + length) (tail.drop length) with
        | error e' =>
          rw [hrest] at he
          cases he
          rfl
        | ok rs =>
          rw [hrest] at he
          cases he
  · intro h
    induction h generalizing position with
    | here more hlength h =>
      obtain ⟨e, he, hcodec⟩ := TraceRecord.overflows_iff.2 h
      refine ⟨e, ?_, hcodec⟩
      rw [readFramed_frame hlength, he]
      rfl
    | @behind body _ _ hlength hread _ ih =>
      obtain ⟨e, he, hcodec⟩ := @ih (position + 4 + body.length)
      refine ⟨e, ?_, hcodec⟩
      rw [readFramed_frame hlength, hread]
      dsimp only [Bind.bind, Except.bind]
      rw [he]

/-- A file is refused neither as damaged nor as something else if the first of its records that
cannot be read has notes that are too many for a list, and in no other case. -/
theorem overflows_iff {path bytes : Bytes} :
    (∃ e, readAll ⟨path, some bytes⟩ = .error e ∧ ¬e.IsCodec) ↔ Overstates bytes := by
  rw [← readFramed_overflows_iff 0]
  unfold readAll
  dsimp only
  cases TraceRecord.readFramed 0 bytes with
  | error e =>
    constructor
    · rintro ⟨_, h, hcodec⟩
      cases h
      exact ⟨e, rfl, hcodec⟩
    · rintro ⟨_, h, hcodec⟩
      cases h
      exact ⟨.unreadable e, rfl, hcodec⟩
  | ok rs => exact iff_of_false (fun ⟨_, h, _⟩ => by cases h) fun ⟨_, h, _⟩ => by cases h

end FileLog

/-! ## Refusals -/

open Wire (Overstated)

/-- Bytes that are no blueprint, no trace record or no file of them are refused as damaged or as
another kind of item, with two exceptions. The labels of a blueprint may not fit into a catalog;
and the head of a list may announce more texts than can be addressed, which in a record is the
list of its notes, and in a file that of the first record that cannot be read. -/
theorem refusals_of_decoders (path bytes : Bytes) :
    (∀ e, Blueprint.decode bytes = .error e → ¬e.IsCodec →
      Blueprint.Mislabelled bytes ∨
        ∃ p, e = .unreadable ⟨.oversized, p⟩ ∧ Overstated bytes p) ∧
    (Blueprint.Mislabelled bytes → ∃ e, Blueprint.decode bytes = .error e ∧ ¬e.IsCodec) ∧
    ((∃ e, TraceRecord.decode bytes = .error e ∧ ¬e.IsCodec) ↔ TraceRecord.Overstates bytes) ∧
    ((∃ e, FileLog.readAll ⟨path, some bytes⟩ = .error e ∧ ¬e.IsCodec) ↔
      FileLog.Overstates bytes) := by
  refine ⟨fun e h hcodec => ?_, fun hmis => ?_, TraceRecord.overflows_iff, FileLog.overflows_iff⟩
  · cases e with
    | badCatalog e => exact .inl (Blueprint.badCatalog_iff.1 ⟨e, h⟩)
    | unreadable e =>
      have hcause : e.cause = .oversized := Decidable.not_not.1 hcodec
      refine .inr ⟨e.position, ?_, Blueprint.overstated_of_decode h hcause⟩
      rw [← hcause]
  · obtain ⟨e, he⟩ := Blueprint.badCatalog_iff.2 hmis
    exact ⟨.badCatalog e, he, id⟩

/-- A blueprint whose only label is `=x`. -/
def Blueprint.keyless : Bytes :=
  Wire.header ++ [102, 0, 115, 9] ++ utf8 "Blueprint" ++ [65, 0, 102, 1, 115, 4] ++ utf8 "List" ++
    [83, 2] ++ utf8 "=x"

/-- A blank trace record up to the list of its notes, which is to have `2 ^ 58` of them. -/
def TraceRecord.overstated : Bytes :=
  Wire.header ++ [102, 9, 115, 11] ++ utf8 "TraceRecord" ++ [83, 0] ++
    [102, 6, 115, 7] ++ utf8 "Request" ++ [83, 0, 83, 0, 83, 0, 65, 0, 115, 5] ++ utf8 "False" ++
    [67, 255, 115, 4] ++ utf8 "Null" ++ [83, 0, 67, 0] ++
    [102, 128, 128, 128, 128, 128, 128, 128, 128, 4, 115, 4] ++ utf8 "List"

/-- Short bytes of each kind that are refused for those reasons: a label without a key, and too
many notes. -/
theorem refusals_beyond_codec :
    Blueprint.decode Blueprint.keyless = .error (.badCatalog (.noKey (utf8 "=x"))) ∧
    ¬(BlueprintError.badCatalog (.noKey (utf8 "=x"))).IsCodec ∧
    TraceRecord.decode TraceRecord.overstated = .error ⟨.oversized, 73⟩ ∧
    FileLog.readAll ⟨[], some (FileLog.frame TraceRecord.overstated)⟩ =
      .error (.unreadable ⟨.oversized, 73⟩) ∧
    ¬(FileLogError.unreadable ⟨.oversized, 73⟩).IsCodec := by
  have hrecord : TraceRecord.decode TraceRecord.overstated = .error ⟨.oversized, 73⟩ := by rfl
  refine ⟨rfl, id, hrecord, ?_, fun h => h rfl⟩
  have hframed := FileLog.readFramed_frame
    (by decide : TraceRecord.overstated.length < 2 ^ 32) [] 0
  rw [hrecord, List.append_nil] at hframed
  unfold FileLog.readAll
  dsimp only
  rw [hframed]
  rfl

end DecisionEngine
