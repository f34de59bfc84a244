import DecisionEngine.Proofs.Catalog.Labels
import DecisionEngine.Proofs.Wire.Refusals
/-!
# How bytes are refused as a blueprint

The labels of a catalog are judged while a blueprint is read, and a catalog has reasons of its own
to refuse them.

* `Blueprint.Mislabelled` — the labels that stand in the bytes do not fit.
* `Blueprint.badCatalog_iff` — then the catalog refuses the bytes, and in no other case.
* `Blueprint.overstated_of_decode` — where a list is refused as oversized, its head says so.
-/

namespace DecisionEngine

/-- The bytes are refused as damaged or as another kind of item. -/
def BlueprintError.IsCodec : BlueprintError → Prop
  | unreadable e => e.IsCodec
  | badCatalog _ => False

namespace Blueprint

open Wire (Cursor Overstated Reader)

/-- The labels that stand in the bytes of a blueprint do not fit into a catalog. -/
def Mislabelled (bytes : Bytes) : Prop :=
  ∃ h labels c, readFront (Cursor.start bytes) = .ok ((h, labels), c) ∧ ¬Catalog.Fits labels

theorem orderly_front (bytes : Bytes) :
    Reader.Orderly bytes (Overstated bytes) readFront := by
  have hentry : ∀ k h, ∀ r ∈ headerEntry k h, Reader.Orderly bytes (Overstated bytes) r :=
    fun _ _ => Reader.orderly_entry (Reader.orderly_text.map _) <|
      Reader.orderly_entry (Reader.orderly_word.map _) <|
      Reader.orderly_entry (Reader.orderly_text.map _) <|
      Reader.orderly_entry (Reader.orderly_text.map _) Reader.orderly_noEntry
  exact Reader.orderly_header.bind fun _ => (Reader.orderly_function _).bind fun _ =>
    (Reader.orderly_associationWith hentry).bind fun _ => Reader.orderly_texts.map _

theorem orderly_back {bytes : Bytes} (h : Header) (catalog : Catalog) (encoded : Bytes) :
    Reader.Orderly bytes (Overstated bytes) (readBack h catalog encoded) :=
  Reader.orderly_texts.bind fun _ => (Reader.orderly_list Reader.orderly_planNode).bind fun _ =>
    (Reader.orderly_list (Reader.orderly_step _)).bind fun _ =>
      (Reader.orderly_list Reader.orderly_guardrail).bind fun _ =>
        (Reader.orderly_finish _).map _

/-- Once the labels have been read, it is for the catalog to refuse them. -/
theorem decode_of_front {bytes : Bytes} {h : Header} {labels : List Bytes} {c : Cursor}
    (hfront : readFront (Cursor.start bytes) = .ok ((h, labels), c)) :
    decode bytes = match Catalog.ofLabels labels with
      | .error e => .error (.badCatalog e)
      | .ok catalog => ((readBack h catalog bytes c).map Prod.fst).mapError .unreadable := by
  unfold decode
  rw [hfront]
  cases hlabels : Catalog.ofLabels labels with
  | error e =>
    dsimp only [Except.mapError, Bind.bind, Except.bind]
    rw [hlabels]
  | ok catalog =>
    dsimp only [Except.mapError, Bind.bind, Except.bind]
    rw [hlabels]
    dsimp only
    cases readBack h catalog bytes c with
    | error e => rfl
    | ok b => rfl

/-- Bytes are refused by the catalog if their labels do not fit, and in no other case. -/
theorem badCatalog_iff {bytes : Bytes} :
    (∃ e, decode bytes = .error (.badCatalog e)) ↔ Mislabelled bytes := by
  cases hfront : readFront (Cursor.start bytes) with
  | error e =>
    unfold decode Mislabelled
    rw [hfront]
    exact iff_of_false (fun ⟨_, h⟩ => by cases h) fun ⟨_, _, _, h, _⟩ => by cases h
  | ok p =>
    obtain ⟨⟨header, labels⟩, c⟩ := p
    have hmis : Mislabelled bytes ↔ ¬Catalog.Fits labels := by
      refine ⟨fun ⟨_, _, _, h, hfits⟩ => ?_, fun hfits => ⟨header, labels, c, hfront, hfits⟩⟩
      rw [hfront] at h
      cases h
      exact hfits
    rw [hmis, ← Catalog.exists_ofLabels_iff, decode_of_front hfront]
    cases Catalog.ofLabels labels with
    | error e => exact iff_of_true ⟨e, rfl⟩ fun ⟨_, h⟩ => by cases h
    | ok catalog =>
      refine iff_of_false (fun ⟨e, h⟩ => ?_) fun h => h ⟨catalog, rfl⟩
      dsimp only at h
      cases hback : readBack header catalog bytes c with
      | error e' =>
        rw [hback] at h
        cases h
      | ok b =>
        rw [hback] at h
        cases h

/-- Where a list is refused as oversized, its head has just announced too many texts. -/
theorem overstated_of_decode {bytes : Bytes} {e : Wire.Error}
    (h : decode bytes = .error (.unreadable e)) (hcause : e.cause = .oversized) :
    Overstated bytes e.position := by
  have hin := orderly_front bytes (Cursor.start bytes) rfl
  cases hfront : readFront (Cursor.start bytes) with
  | error e' =>
    unfold decode at h
    rw [hfront] at h hin
    cases h
    exact hin hcause
  | ok p =>
    obtain ⟨⟨header, labels⟩, c⟩ := p
    rw [hfront] at hin
    rw [decode_of_front hfront] at h
    cases hlabels : Catalog.ofLabels labels with
    | error e' =>
      rw [hlabels] at h
      cases h
    | ok catalog =>
      rw [hlabels] at h
      dsimp only at h
      have hback := orderly_back header catalog bytes c hin
      cases hrun : readBack header catalog bytes c with
      | error e' =>
        rw [hrun] at h hback
        cases h
        exact hback hcause
      | ok b =>
        rw [hrun] at h
        cases h

end Blueprint
end DecisionEngine
