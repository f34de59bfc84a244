import DecisionEngine.Proofs.Blueprint.RoundTrip
import DecisionEngine.Proofs.Trace.Fidelity
import DecisionEngine.Proofs.Trace.Refusals
import DecisionEngine.Proofs.Wire.Decoders
/-!
# No encoding begins another one

What a reader finds in the bytes that it has does not depend on the bytes behind them, and where it
would need these it says that the data ends.  So if bytes are read as a blueprint or as a trace
record, with nothing left, then those among them up to any cut are too few, and with any others
behind them they are too many.

* `Reader.Local` — what a reader does with bytes that others follow.
* `Walk.isLocal` — readers that have walks are of this kind.
* `Reader.whole_cut`, `Reader.whole_followed` — bytes that are read as a whole, cut or followed.
* `Blueprint.refuses_cut`, `Blueprint.refuses_followed` — so it is with blueprints.
* `TraceRecord.refuses_cut`, `TraceRecord.refuses_followed` — and with trace records.
* `encodings_prefix_free` — encodings of blueprints and of trace records.
-/

namespace DecisionEngine
namespace Wire

/-- The same position, with more bytes behind those that are left. -/
def Cursor.followed (c : Cursor) (more : Bytes) : Cursor := ⟨c.position, c.rest ++ more⟩

/-- The data ends before an item does. -/
def Error.IsEnd (e : Error) : Prop := e.cause = .malformed .endOfData

theorem Error.IsEnd.isCodec {e : Error} (h : e.IsEnd) : e.IsCodec := fun hcause =>
  nomatch h.symm.trans hcause

namespace Reader

variable {α β : Type} {inner : Reader Unit}

/-! ## Bytes that others follow -/

/-- What a reader reads, it reads too when more bytes follow, and leaves these; what it refuses, it
refuses then too, unless because the data ends. -/
def Local (r : Reader α) : Prop :=
  ∀ c more, match r c with
    | .ok (x, c') => r (c.followed more) = .ok (x, c'.followed more)
    | .error e => e.IsEnd ∨ r (c.followed more) = .error e

theorem Local.ok {r : Reader α} (h : Local r) {c c' : Cursor} {x : α} (hr : r c = .ok (x, c'))
    (more : Bytes) : r (c.followed more) = .ok (x, c'.followed more) := by
  have hlocal := h c more
  rw [hr] at hlocal
  exact hlocal

theorem Local.error {r : Reader α} (h : Local r) {c : Cursor} {e : Error} (hr : r c = .error e)
    (more : Bytes) : e.IsEnd ∨ r (c.followed more) = .error e := by
  have hlocal := h c more
  rw [hr] at hlocal
  exact hlocal

theorem local_pure (x : α) : Local (pure x) := fun _ _ => rfl

theorem local_position : Local position := fun _ _ => rfl

theorem local_failAt (at_ : Nat) (cause : Cause) : Local (failAt at_ cause : Reader α) :=
  fun _ _ => .inr rfl

theorem local_peek : Local peek := by
  rintro ⟨position, _ | ⟨b, rest⟩⟩ more
  · exact .inl rfl
  · rfl

theorem local_byte : Local byte := by
  rintro ⟨position, _ | ⟨b, rest⟩⟩ more
  · exact .inl rfl
  · rfl

theorem split?_append_right {n : Nat} {bs front back : Bytes}
    (h : split? n bs = some (front, back)) (more : Bytes) :
    split? n (bs ++ more) = some (front, back ++ more) := by
  obtain ⟨rfl, rfl⟩ := split?_spec h
  rw [List.append_assoc, split?_append]

theorem local_take (n : Nat) : Local (take n) := by
  intro c more
  unfold take Cursor.followed
  cases hsplit : split? n c.rest with
  | none => exact .inl rfl
  | some p =>
    dsimp only
    rw [split?_append_right hsplit]

theorem Local.bind {r : Reader α} {f : α → Reader β} (h : Local r) (hf : ∀ x, Local (f x)) :
    Local (r >>= f) := by
  intro c more
  simp only [Bind.bind, StateT.bind]
  cases hr : r c with
  | error e =>
    refine (h.error hr more).imp_right fun hmore => ?_
    rw [hmore]
    rfl
  | ok p =>
    rw [h.ok hr more]
    exact hf p.1 p.2 more

theorem local_ite {p : Prop} [Decidable p] {r r' : Reader α} (h : Local r) (h' : Local r') :
    Local (if p then r else r') := by
  split
  · exact h
  · exact h'

/-- A walk minds only the bytes that it has if the reader does that it calls. -/
theorem Walk.isLocal {r : Reader α} (w : Walk inner r) (h : Local inner) : Local r := by
  induction w with
  | done x => exact local_pure x
  | position => exact local_position
  | failAt at_ cause => exact local_failAt at_ cause
  | peek => exact local_peek
  | byte => exact local_byte
  | take n => exact local_take n
  | inner => exact h
  | bind w v ihw ihv => exact ihw.bind ihv
  | choose w w' ihw ihw' => exact local_ite ihw ihw'

theorem local_skipWithin (depth : Nat) : Local (skipWithin depth) := by
  induction depth with
  | zero => exact (Walk.fail _ : Walk (pure ()) _).isLocal (local_pure ())
  | succ depth ih =>
    rw [skipWithin_succ]
    exact (Walk.skipHead.bind (.skipNested .inner)).isLocal ih

theorem local_skip : Local skip := by
  intro c more
  -- One depth serves for both, that of the longer bytes.
  have hlong : (c.followed more).rest.length < (c.followed more).rest.length + 1 := by omega
  have hshort : c.rest.length < (c.followed more).rest.length + 1 := by
    rw [Cursor.followed, List.length_append]
    omega
  rw [skip_congr hlong, skip_congr hshort]
  exact local_skipWithin _ c more

/-! ## Bytes that are read as a whole -/

theorem whole_eq_ok_iff {what : String} {r : Reader α} {c c' : Cursor} {x : α} :
    whole what r c = .ok (x, c') ↔ r c = .ok (x, c') ∧ c'.rest = [] := by
  unfold whole
  simp only [Bind.bind, StateT.bind]
  cases hr : r c with
  | error e => exact iff_of_false (fun h => nomatch h) fun h => nomatch h.1
  | ok p =>
    by_cases hrest : p.2.rest = []
    · simp only [Except.bind, finish_nil hrest]
      refine ⟨fun h => ?_, fun h => h.1⟩
      cases h
      exact ⟨rfl, hrest⟩
    · simp only [Except.bind, finish_ne_nil hrest]
      refine iff_of_false (fun h => nomatch h) fun h => ?_
      cases h.1
      exact hrest h.2

/-- Up to a cut, bytes that were read as a whole are too few. -/
theorem whole_cut {what : String} {r : Reader α} (h : Local r) {c c' : Cursor} {x : α}
    {more : Bytes} (hmore : more ≠ []) (hread : whole what r (c.followed more) = .ok (x, c')) :
    ∃ e, whole what r c = .error e ∧ e.IsEnd := by
  obtain ⟨hr, hrest⟩ := whole_eq_ok_iff.1 hread
  cases hshort : r c with
  | error e =>
    have hend : e.IsEnd := (h.error hshort more).resolve_right fun hlong =>
      nomatch hlong.symm.trans hr
    refine ⟨e, ?_, hend⟩
    simp only [whole, Bind.bind, StateT.bind, hshort, Except.bind]
  | ok p =>
    -- What was left behind the short bytes is left behind the long ones too.
    cases (h.ok hshort more).symm.trans hr
    exact absurd (List.append_eq_nil_iff.1 hrest).2 hmore

/-- With others behind them, bytes that were read as a whole are too many. -/
theorem whole_followed {what : String} {r : Reader α} (h : Local r) {c c' : Cursor} {x : α}
    {more : Bytes} (hmore : more ≠ []) (hread : whole what r c = .ok (x, c')) :
    whole what r (c.followed more) = .error ⟨.malformed (.trailing (utf8 what)), c'.position⟩ := by
  obtain ⟨hr, hrest⟩ := whole_eq_ok_iff.1 hread
  have hleft : (c'.followed more).rest ≠ [] := fun hnil =>
    hmore (List.append_eq_nil_iff.1 hnil).2
  simp only [whole, Bind.bind, StateT.bind, h.ok hr more, Except.bind, finish_ne_nil hleft]
  rfl

theorem run_eq_ok_iff {r : Reader α} {bytes : Bytes} {x : α} :
    run r bytes = .ok x ↔ ∃ c, r (Cursor.start bytes) = .ok (x, c) := by
  unfold run
  rw [map_eq_ok]
  exact ⟨fun ⟨p, hp, hx⟩ => ⟨p.2, hx ▸ hp⟩, fun ⟨c, hc⟩ => ⟨(x, c), hc, rfl⟩⟩

theorem run_whole_cut {what : String} {r : Reader α} (h : Local r) {bytes more : Bytes} {x : α}
    (hmore : more ≠ []) (hrun : run (whole what r) (bytes ++ more) = .ok x) :
    ∃ e, run (whole what r) bytes = .error e ∧ e.IsEnd := by
  obtain ⟨c, hread⟩ := run_eq_ok_iff.1 hrun
  have hlong : Cursor.start (bytes ++ more) = (Cursor.start bytes).followed more := rfl
  rw [hlong] at hread
  obtain ⟨e, he, hend⟩ := whole_cut h hmore hread
  refine ⟨e, ?_, hend⟩
  rw [run, he]
  rfl

theorem run_whole_followed {what : String} {r : Reader α} (h : Local r) {bytes more : Bytes}
    {x : α} (hmore : more ≠ []) (hrun : run (whole what r) bytes = .ok x) :
    ∃ e, run (whole what r) (bytes ++ more) = .error e ∧
      e.cause = .malformed (.trailing (utf8 what)) := by
  obtain ⟨c, hread⟩ := run_eq_ok_iff.1 hrun
  have hlong : Cursor.start (bytes ++ more) = (Cursor.start bytes).followed more := rfl
  refine ⟨⟨.malformed (.trailing (utf8 what)), c.position⟩, ?_, rfl⟩
  rw [run, hlong, whole_followed h hmore hread]
  rfl

end Reader
end Wire

open Wire (Cursor Reader)

/-! ## Trace records -/

namespace TraceRecord

theorem local_readFields : Reader.Local readFields := readFields.walk.isLocal Reader.local_skip

/-- In front of a cut, the bytes of a record are refused since they end. -/
theorem refuses_cut {bytes more : Bytes} {r : TraceRecord} (h : decode (bytes ++ more) = .ok r)
    (hmore : more ≠ []) : ∃ e, decode bytes = .error e ∧ e.IsEnd := by
  rw [decode_eq_whole] at h ⊢
  exact Reader.run_whole_cut local_readFields hmore h

/-- The bytes of a record are refused with any others behind them. -/
theorem refuses_followed {bytes more : Bytes} {r : TraceRecord} (h : decode bytes = .ok r)
    (hmore : more ≠ []) : ∃ e, decode (bytes ++ more) = .error e ∧
      e.cause = .malformed (.trailing (utf8 "TraceRecord")) := by
  rw [decode_eq_whole] at h ⊢
  exact Reader.run_whole_followed local_readFields hmore h

end TraceRecord

/-! ## Blueprints -/

namespace Blueprint

theorem local_readFront : Reader.Local readFront := readFront.walk.isLocal Reader.local_skip

theorem local_readParts : Reader.Local readParts := readParts.walk.isLocal Reader.local_skip

/-- What has been read when a blueprint has. -/
theorem read_of_decode {bytes : Bytes} {b : Blueprint} (h : decode bytes = .ok b) :
    ∃ header labels c catalog p c',
      readFront (Cursor.start bytes) = .ok ((header, labels), c) ∧
      Catalog.ofLabels labels = .ok catalog ∧
      Reader.whole "blueprint" readParts c = .ok (p, c') := by
  rw [decode_eq_whole] at h
  obtain ⟨⟨⟨header, labels⟩, c⟩, hfront, h⟩ := bind_eq_ok.1 h
  obtain ⟨catalog, hcatalog, h⟩ := bind_eq_ok.1 h
  obtain ⟨⟨p, c'⟩, hparts, -⟩ := bind_eq_ok.1 h
  exact ⟨header, labels, c, catalog, p, c', mapError_eq_ok.1 hfront, mapError_eq_ok.1 hcatalog,
    mapError_eq_ok.1 hparts⟩

/-- Where the parts of a blueprint are refused, it is. -/
theorem decode_of_parts {bytes : Bytes} {header : Header} {labels : List Bytes} {c : Cursor}
    {catalog : Catalog} {e : Wire.Error}
    (hfront : readFront (Cursor.start bytes) = .ok ((header, labels), c))
    (hcatalog : Catalog.ofLabels labels = .ok catalog)
    (hparts : Reader.whole "blueprint" readParts c = .error e) :
    decode bytes = .error (.unreadable e) := by
  rw [decode_eq_whole, hfront]
  dsimp only [Except.mapError, Bind.bind, Except.bind]
  rw [hcatalog]
  dsimp only
  rw [hparts]

/-- In front of a cut, the bytes of a blueprint are refused since they end. -/
theorem refuses_cut {bytes more : Bytes} {b : Blueprint} (h : decode (bytes ++ more) = .ok b)
    (hmore : more ≠ []) : ∃ e, decode bytes = .error (.unreadable e) ∧ e.IsEnd := by
  obtain ⟨header, labels, c, catalog, p, c', hfront, hcatalog, hparts⟩ := read_of_decode h
  have hlong : Cursor.start (bytes ++ more) = (Cursor.start bytes).followed more := rfl
  rw [hlong] at hfront
  cases hshort : readFront (Cursor.start bytes) with
  | error e =>
    refine ⟨e, ?_, (local_readFront.error hshort more).resolve_right fun hlong =>
      nomatch hlong.symm.trans hfront⟩
    rw [decode_eq_whole, hshort]
    rfl
  | ok q =>
    obtain ⟨front, c⟩ := q
    -- The front is in the bytes, with its labels, so what is cut is something behind it.
    cases (local_readFront.ok hshort more).symm.trans hfront
    obtain ⟨e, he, hend⟩ := Reader.whole_cut local_readParts hmore hparts
    exact ⟨e, decode_of_parts hshort hcatalog he, hend⟩

/-- The bytes of a blueprint are refused with any others behind them. -/
theorem refuses_followed {bytes more : Bytes} {b : Blueprint} (h : decode bytes = .ok b)
    (hmore : more ≠ []) : ∃ e, decode (bytes ++ more) = .error (.unreadable e) ∧
      e.cause = .malformed (.trailing (utf8 "blueprint")) := by
  obtain ⟨header, labels, c, catalog, p, c', hfront, hcatalog, hparts⟩ := read_of_decode h
  exact ⟨_, decode_of_parts (local_readFront.ok hfront more) hcatalog
    (Reader.whole_followed local_readParts hmore hparts), rfl⟩

end Blueprint

/-! ## Encodings -/

/-- **No encoding begins another one.**  If the encoding of a blueprint can be read, then nothing
that is in front of a cut in it can, nor can anything that has more bytes behind it; and the same
holds of trace records.  The bytes are refused as damaged: they end too early, or too late. -/
theorem encodings_prefix_free (b : Blueprint) (r : TraceRecord)
    (hb : ∃ d, Blueprint.decode b.encode = .ok d) (hr : ∃ d, TraceRecord.decode r.encode = .ok d) :
    (∀ cut, cut <+: b.encode → cut ≠ b.encode →
      ∃ e, Blueprint.decode cut = .error (.unreadable e) ∧ e.IsCodec ∧ e.IsEnd) ∧
    (∀ more ≠ [], ∃ e, Blueprint.decode (b.encode ++ more) = .error (.unreadable e) ∧ e.IsCodec ∧
      e.cause = .malformed (.trailing (utf8 "blueprint"))) ∧
    (∀ cut, cut <+: r.encode → cut ≠ r.encode →
      ∃ e, TraceRecord.decode cut = .error e ∧ e.IsCodec ∧ e.IsEnd) ∧
    ∀ more ≠ [], ∃ e, TraceRecord.decode (r.encode ++ more) = .error e ∧ e.IsCodec ∧
      e.cause = .malformed (.trailing (utf8 "TraceRecord")) := by
  obtain ⟨b', hb⟩ := hb
  obtain ⟨r', hr⟩ := hr
  have hcut : ∀ {cut whole : Bytes}, cut <+: whole → cut ≠ whole →
      ∃ more, whole = cut ++ more ∧ more ≠ [] := by
    rintro cut _ ⟨more, rfl⟩ hne
    exact ⟨more, rfl, fun hmore => hne (by rw [hmore, List.append_nil])⟩
  have htrailing : ∀ {e : Wire.Error} {what : Bytes},
      e.cause = .malformed (.trailing what) → e.IsCodec := fun hcause hover =>
    nomatch hcause.symm.trans hover
  refine ⟨fun cut hprefix hne => ?_, fun more hmore => ?_, fun cut hprefix hne => ?_,
    fun more hmore => ?_⟩
  · obtain ⟨more, hsplit, hmore⟩ := hcut hprefix hne
    rw [hsplit] at hb
    obtain ⟨e, he, hend⟩ := Blueprint.refuses_cut hb hmore
    exact ⟨e, he, hend.isCodec, hend⟩
  · obtain ⟨e, he, hcause⟩ := Blueprint.refuses_followed hb hmore
    exact ⟨e, he, htrailing hcause, hcause⟩
  · obtain ⟨more, hsplit, hmore⟩ := hcut hprefix hne
    rw [hsplit] at hr
    obtain ⟨e, he, hend⟩ := TraceRecord.refuses_cut hr hmore
    exact ⟨e, he, hend.isCodec, hend⟩
  · obtain ⟨e, he, hcause⟩ := TraceRecord.refuses_followed hr hmore
    exact ⟨e, he, htrailing hcause, hcause⟩

/-- A plan of one task, which asks for a label and runs a program, and one guardrail. -/
def Blueprint.tiered : Blueprint where
  id := ⟨utf8 "pricing", 3, 0⟩
  tenant := utf8 "acme"
  decisionType := utf8 "quote"
  catalog := (Catalog.ofLabels [utf8 "tier=premium"]).toOption.getD .empty
  symbols := .ofList [utf8 "balance"]
  nodes := [⟨utf8 "premium", .action, utf8 "Premium offer"⟩]
  steps := [.task 0 ⟨1, ⟨[⟨.pushConst, 0, 0⟩], [.int 1], 1⟩, [utf8 "tier=premium"], utf8 "true"⟩
    ⟨utf8 "discount", .ofList [(utf8 "percent", .int 20)]⟩]
  guardrails := [⟨utf8 "floor", [], .veto, [utf8 "discount"], .empty, [], .cap, utf8 "percent",
    .int 10, ⟨[], .empty⟩⟩]
  encoded := []

set_option maxRecDepth 100000 in
theorem encodings_prefix_free_sample :
    (∃ d, Blueprint.decode Blueprint.tiered.encode = .ok d) ∧
      (∃ d, TraceRecord.decode TraceRecord.audited.encode = .ok d) ∧
      (∃ e, Blueprint.decode [] = .error (.unreadable e) ∧ e.IsCodec) ∧
      (∃ e, Blueprint.decode (Blueprint.tiered.encode ++ [0]) = .error (.unreadable e) ∧
        e.IsCodec) ∧
      (∃ e, TraceRecord.decode (TraceRecord.audited.encode.take 100) = .error e ∧ e.IsCodec) ∧
      ∃ e, TraceRecord.decode (TraceRecord.audited.encode ++ [0]) = .error e ∧ e.IsCodec := by
  have hclosed : Blueprint.tiered.Closed := ⟨by decide, by decide⟩
  have hstorable : Blueprint.tiered.Storable := ⟨by decide +kernel, by decide, by decide, by decide⟩
  have hb := Blueprint.decode_encode hclosed hstorable
  have hr := TraceRecord.decode_encode (r := TraceRecord.audited) (by decide +kernel) (by decide)
  obtain ⟨hcut, hmore, hcut', hmore'⟩ := encodings_prefix_free _ _ ⟨_, hb⟩ ⟨_, hr⟩
  obtain ⟨e₁, he₁, hcodec₁, -⟩ := hcut [] List.nil_prefix (by decide)
  obtain ⟨e₂, he₂, hcodec₂, -⟩ := hmore [0] (List.cons_ne_nil _ _)
  have hfront := List.take_prefix 100 TraceRecord.audited.encode
  obtain ⟨e₃, he₃, hcodec₃, -⟩ := hcut' _ hfront (by decide +kernel)
  obtain ⟨e₄, he₄, hcodec₄, -⟩ := hmore' [0] (List.cons_ne_nil _ _)
  exact ⟨⟨_, hb⟩, ⟨_, hr⟩, ⟨e₁, he₁, hcodec₁⟩, ⟨e₂, he₂, hcodec₂⟩, ⟨e₃, he₃, hcodec₃⟩,
    ⟨e₄, he₄, hcodec₄⟩⟩

end DecisionEngine
