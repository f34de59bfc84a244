import DecisionEngine.Proofs.Options.RoundTrip
import Mathlib.Algebra.Order.BigOperators.Group.List
/-!
# Encodings are trees of items

A record says in its head how many arguments follow, an association how many entries, and the
decoders of plans, trace records and options do not look at most of these numbers.  A reader that
knows nothing of what is encoded depends on them.  They are all right: behind the header of every
encoding is one item, with as many items in each as its head announces, and passing over this one
item ends where the encoding does.

* `Whole` — bytes that are one item, if a length can be written of them.
* `Followed` — a head, and parts that are written behind it one after another.
* `whole_record`, `whole_entries` — as many parts as the head announces make an item.
* `whole_program`, `whole_step`, `whole_response`, … — what is written of the parts of encodings.
* `IsTree` — a header with one item behind it.
* `encodings_are_trees` — blueprints, trace records and options.
-/

namespace DecisionEngine
namespace Wire

open Reader (Short)

/-! ## Items -/

/-- Bytes are one item, unless there are more of them than a length can count. -/
def Whole (bs : Bytes) : Prop := Short bs → Complete bs

theorem whole_int (n : Int64) : Whole (int n) := fun _ => complete_int n

theorem whole_nat (n : Nat) : Whole (nat n) := whole_int _

theorem whole_enumeration {α : Type} [BEq α] (members : List α) (x : α) :
    Whole (enumeration members x) := whole_nat _

theorem whole_word (w : UInt64) : Whole (word w) :=
  fun _ => .int (show Tag.int64.intWidth? = some 8 from rfl)
    (Reader.length_littleEndian 8 w.toNat)

theorem whole_real (x : Binary64) : Whole (real x) := fun _ => complete_real x

theorem whole_text (s : Bytes) : Whole (text s) := fun h => .text h.right

theorem whole_symbol (s : Bytes) : Whole (symbol s) := fun h => .symbol h.right

theorem whole_binary (s : Bytes) : Whole (binary s) := fun h => .binary h.right

theorem whole_bool (b : Bool) : Whole (bool b) := whole_symbol _

theorem whole_null : Whole null := whole_symbol _

theorem whole_value (v : Value) : Whole (value v) :=
  fun h => complete_value (Reader.short_of_value h)

theorem whole_optional {α : Type} {item : α → Bytes} (h : ∀ x, Whole (item x)) (x : Option α) :
    Whole (optional item x) := by
  cases x with
  | some x => exact h x
  | none => exact whole_null

/-! ## Items with others in them -/

theorem Complete.ne_nil {bs : Bytes} (h : Complete bs) : bs ≠ [] := by
  cases h with
  | function | association =>
    exact fun hnil => List.cons_ne_nil _ _ (List.append_eq_nil_iff.1 hnil).1
  | _ => exact List.cons_ne_nil _ _

theorem short_of_mem_flatten {parts : List Bytes} {part : Bytes} (h : Short parts.flatten)
    (hpart : part ∈ parts) : Short part := by
  obtain ⟨front, back, rfl⟩ := List.append_of_mem hpart
  rw [List.flatten_append, List.flatten_cons] at h
  exact h.right.left

/-- Parts that are not empty are not more than their bytes. -/
theorem length_le_flatten {parts : List Bytes} (h : ∀ part ∈ parts, part ≠ []) :
    parts.length ≤ parts.flatten.length := by
  have hone : ∀ n ∈ parts.map List.length, 1 ≤ n := by
    intro n hn
    obtain ⟨part, hpart, rfl⟩ := List.mem_map.1 hn
    exact List.length_pos_iff.2 (h part hpart)
  have hsum := List.length_le_sum_of_one_le _ hone
  rwa [List.length_map, ← List.length_flatten] at hsum

/-- A record of items is an item, if its head announces as many. -/
theorem whole_function {head : Bytes} {parts : List Bytes} (h : ∀ part ∈ parts, Whole part) :
    Whole (functionHead head parts.length ++ parts.flatten) := by
  intro hs
  have hparts : ∀ part ∈ parts, Complete part := fun part hpart =>
    h part hpart (short_of_mem_flatten hs.right hpart)
  have hcount := length_le_flatten fun part hpart => (hparts part hpart).ne_nil
  exact .function (Reader.short_of_functionHead hs.left) (Nat.lt_of_le_of_lt hcount hs.right) hparts

/-- An association of items is an item. -/
theorem whole_association {entries : List (Bytes × Bytes)} (h : ∀ e ∈ entries, Whole e.2) :
    Whole (association entries) := by
  intro hs
  have hbytes := hs.right
  rw [List.flatMap_def] at hbytes
  have hentry : ∀ e ∈ entries, Short (key e.1 ++ e.2) := fun e he =>
    short_of_mem_flatten hbytes (List.mem_map_of_mem he)
  have hne : ∀ part ∈ entries.map fun e => key e.1 ++ e.2, part ≠ [] := by
    intro part hpart
    obtain ⟨e, -, rfl⟩ := List.mem_map.1 hpart
    exact List.cons_ne_nil _ _
  have hcount := length_le_flatten hne
  rw [List.length_map] at hcount
  exact .association (Nat.lt_of_le_of_lt hcount hbytes)
    (fun e he => Reader.short_of_key (hentry e he).left)
    fun e he => h e he (hentry e he).right

theorem whole_list {α : Type} {item : α → Bytes} (h : ∀ x, Whole (item x)) (xs : List α) :
    Whole (list item xs) := by
  have hlist : Whole (listHead (xs.map item).length ++ (xs.map item).flatten) :=
    whole_function fun part hpart => by
      obtain ⟨x, -, rfl⟩ := List.mem_map.1 hpart
      exact h x
  rwa [List.length_map, ← List.flatMap_def] at hlist

theorem whole_texts (xs : List Bytes) : Whole (texts xs) := whole_list whole_text xs

theorem whole_attributes (a : AttributeSet) : Whole (attributes a) := by
  have hentries : Whole (association (a.entries.map fun e => (e.1, value e.2))) :=
    whole_association fun e he => by
      obtain ⟨x, -, rfl⟩ := List.mem_map.1 he
      exact whole_value x.2
  unfold association at hentries
  rwa [List.length_map, List.flatMap_map, a.length_entries] at hentries

/-! ## Heads and what is written behind them -/

/-- A head, and a number of parts behind it. -/
inductive Followed (head : Bytes) (Part : Bytes → Prop) : Nat → Bytes → Prop
  | head : Followed head Part 0 head
  | part {n : Nat} {bs part : Bytes} (front : Followed head Part n bs) (h : Part part) :
      Followed head Part (n + 1) (bs ++ part)

/-- The head of a record, before its arguments are written. -/
theorem Followed.record (name : Bytes) (n : Nat) :
    Followed (functionHead name n) Whole 0 (functionHead name n) := .head

/-- A key with an item behind it. -/
def IsEntry (bs : Bytes) : Prop := ∃ k v, bs = key k ++ v ∧ Whole v

theorem isEntry (k : String) {v : Bytes} (h : Whole v) : IsEntry (entry k v) := ⟨_, v, rfl, h⟩

/-- Keys with items behind them are the entries of an association. -/
theorem exists_entries {parts : List Bytes} (h : ∀ part ∈ parts, IsEntry part) :
    ∃ entries : List (Bytes × Bytes), parts = entries.map (fun e => key e.1 ++ e.2) ∧
      ∀ e ∈ entries, Whole e.2 := by
  induction parts with
  | nil => exact ⟨[], rfl, by simp⟩
  | cons part parts ih =>
    obtain ⟨⟨k, v, rfl, hv⟩, hrest⟩ := List.forall_mem_cons.1 h
    obtain ⟨entries, rfl, hentries⟩ := ih hrest
    exact ⟨(k, v) :: entries, rfl, List.forall_mem_cons.2 ⟨hv, hentries⟩⟩

theorem Followed.exists_parts {head : Bytes} {Part : Bytes → Prop} {n : Nat} {bs : Bytes}
    (h : Followed head Part n bs) :
    ∃ parts : List Bytes, parts.length = n ∧ bs = head ++ parts.flatten ∧
      ∀ part ∈ parts, Part part := by
  induction h with
  | head => exact ⟨[], rfl, by simp, by simp⟩
  | @part _ _ part _ hpart ih =>
    obtain ⟨parts, rfl, rfl, hparts⟩ := ih
    refine ⟨parts ++ [part], by simp, by simp, fun other hother => ?_⟩
    rcases List.mem_append.1 hother with hother | hother
    · exact hparts other hother
    · exact List.mem_singleton.1 hother ▸ hpart

/-- A record is an item once it has the arguments that its head announces. -/
theorem whole_record {name : Bytes} {n : Nat} {bs : Bytes}
    (h : Followed (functionHead name n) Whole n bs) : Whole bs := by
  obtain ⟨parts, rfl, rfl, hparts⟩ := h.exists_parts
  exact whole_function hparts

/-- An association is an item once it has the entries that its head announces. -/
theorem whole_entries {n : Nat} {bs : Bytes} (h : Followed (associationHead n) IsEntry n bs) :
    Whole bs := by
  obtain ⟨parts, rfl, rfl, hparts⟩ := h.exists_parts
  obtain ⟨entries, rfl, hwhole⟩ := exists_entries hparts
  have hassociation := whole_association hwhole
  unfold association at hassociation
  rwa [List.flatMap_def, ← List.length_map fun e : Bytes × Bytes => key e.1 ++ e.2] at hassociation

/-! ## Parts of blueprints -/

theorem whole_program (p : Program) : Whole (program p) :=
  whole_record <| Followed.head |>.part (whole_nat _) |>.part (whole_list whole_value _)
    |>.part (whole_binary _)

theorem whole_outcome (o : Outcome) : Whole (outcome o) :=
  whole_record <| Followed.head |>.part (whole_text _) |>.part (whole_attributes _)

theorem whole_guard (g : Guard) : Whole (guard g) :=
  whole_record <| Followed.head |>.part (whole_word _) |>.part (whole_program _)
    |>.part (whole_texts _) |>.part (whole_text _)

theorem whole_planNode (n : PlanNode) : Whole (planNode n) :=
  whole_record <| Followed.head |>.part (whole_text _) |>.part (whole_enumeration _ _)
    |>.part (whole_text _)

theorem whole_branch (b : Branch) : Whole (branch b) := by
  refine whole_record <| Followed.head |>.part (whole_nat _) |>.part (whole_guard _)
    |>.part (whole_int _) |>.part (whole_real _) |>.part ?_ |>.part (whole_nat _)
  cases b.outcome with
  | some o => exact whole_outcome o
  | none => exact whole_null

theorem whole_dominance (p : Nat × Nat) : Whole (dominance p) :=
  whole_record <| Followed.head |>.part (whole_nat _) |>.part (whole_nat _)

theorem whole_step (s : Step) : Whole (step s) := by
  cases s with
  | sequential node g =>
    exact whole_record <| Followed.head |>.part (whole_nat _) |>.part (whole_guard _)
  | task node g o =>
    exact whole_record <| Followed.head |>.part (whole_nat _) |>.part (whole_guard _)
      |>.part (whole_outcome _)
  | selector s =>
    exact whole_record <| Followed.head |>.part (whole_text _) |>.part (whole_enumeration _ _)
      |>.part (whole_text _) |>.part (whole_list whole_branch _)
      |>.part (whole_list whole_dominance _)

theorem whole_guardrail (g : PlanGuardrail) : Whole (guardrail g) :=
  whole_record <| Followed.head |>.part (whole_text _) |>.part (whole_text _)
    |>.part (whole_enumeration _ _) |>.part (whole_texts _) |>.part (whole_program _)
    |>.part (whole_text _) |>.part (whole_enumeration _ _) |>.part (whole_text _)
    |>.part (whole_value _) |>.part (whole_outcome _)

/-! ## Parts of trace records -/

theorem whole_blueprintId (id : BlueprintId) : Whole (blueprintId id) :=
  whole_record <| Followed.head |>.part (whole_text _) |>.part (whole_word _)
    |>.part (whole_word _)

theorem whole_request (r : Request) : Whole (request r) :=
  whole_record <| Followed.head |>.part (whole_text _) |>.part (whole_text _)
    |>.part (whole_text _) |>.part (whole_attributes _) |>.part (whole_bool _)
    |>.part (whole_int _)

theorem whole_decision (d : Decision) : Whole (decision d) :=
  whole_record <| Followed.head |>.part (whole_text _) |>.part (whole_text _)
    |>.part (whole_attributes _) |>.part (whole_nat _) |>.part (whole_text _)
    |>.part (whole_nat _)

theorem whole_alternative (a : Alternative) : Whole (alternative a) :=
  whole_record <| Followed.head |>.part (whole_text _) |>.part (whole_text _)
    |>.part (whole_nat _) |>.part (whole_text _)

theorem whole_trailEntry (e : TrailEntry) : Whole (trailEntry e) := by
  refine whole_record <| Followed.head |>.part (whole_nat _) |>.part ?_
    |>.part (whole_text _) |>.part (whole_word _) |>.part (whole_text _)
  cases e.step with
  | some n => exact whole_nat n
  | none => exact whole_int _

theorem whole_origin (o : ContextOrigin) : Whole (origin o) := whole_nat _

theorem whole_metadata (p : Provenance) (s : Stamp) : Whole (metadata p s) :=
  whole_entries <| Followed.head
    |>.part (isEntry _ (whole_optional whole_blueprintId _)) |>.part (isEntry _ (whole_text _))
    |>.part (isEntry _ (whole_origin _)) |>.part (isEntry _ (whole_text _))
    |>.part (isEntry _ (whole_int _)) |>.part (isEntry _ (whole_int _))
    |>.part (isEntry _ (whole_int _)) |>.part (isEntry _ (whole_bool _))
    |>.part (isEntry _ (whole_bool _)) |>.part (isEntry _ (whole_bool _))
    |>.part (isEntry _ (whole_bool _))

theorem whole_response (r : Response) : Whole (response r) :=
  whole_record <| Followed.head |>.part (whole_list whole_decision _)
    |>.part (whole_list whole_alternative _) |>.part (whole_list whole_trailEntry _)
    |>.part (whole_metadata _ _)

/-! ## Encodings -/

/-- A header and one item behind it.  Whoever passes over this item is at the end. -/
structure IsTree (bytes : Bytes) : Prop where
  item : ∃ item, bytes = header ++ item ∧ Complete item
  skipped : (Reader.header >>= fun _ => Reader.skip) (Cursor.start bytes) =
    .ok ((), ⟨bytes.length, []⟩)

theorem Whole.isTree {item : Bytes} (h : Whole item) (hs : Short (header ++ item)) :
    IsTree (header ++ item) := by
  have hcomplete := h hs.right
  have hheader : Reader.Exact Reader.header header () := fun _ _ => rfl
  have hboth : Reader.Exact (Reader.header >>= fun _ => Reader.skip) (header ++ item) () :=
    hheader.bind hcomplete.skip
  have hread := hboth 0 []
  rw [List.append_nil, Nat.zero_add] at hread
  exact ⟨⟨item, rfl, hcomplete⟩, hread⟩

end Wire

open Wire (Followed IsTree Whole isEntry)
open Wire.Reader (Short)

theorem Blueprint.isTree {b : Blueprint} (h : Short b.encode) : IsTree b.encode := by
  have hfront : Whole (Wire.associationHead 4 ++ Wire.entry "GraphId" (Wire.text b.id.graph) ++
      Wire.entry "Version" (Wire.word b.id.version) ++ Wire.entry "Tenant" (Wire.text b.tenant) ++
      Wire.entry "DecisionType" (Wire.text b.decisionType)) :=
    Wire.whole_entries <| Followed.head |>.part (isEntry _ (Wire.whole_text _))
      |>.part (isEntry _ (Wire.whole_word _)) |>.part (isEntry _ (Wire.whole_text _))
      |>.part (isEntry _ (Wire.whole_text _))
  have hitem := Wire.whole_record <| Followed.record (utf8 "Blueprint") 6
    |>.part hfront |>.part (Wire.whole_texts b.catalog.labels)
    |>.part (Wire.whole_texts b.symbols.names)
    |>.part (Wire.whole_list Wire.whole_planNode b.nodes)
    |>.part (Wire.whole_list Wire.whole_step b.steps)
    |>.part (Wire.whole_list Wire.whole_guardrail b.guardrails)
  unfold encode at h ⊢
  simp only [List.append_assoc] at hitem h ⊢
  exact hitem.isTree h

theorem TraceRecord.isTree {r : TraceRecord} (h : Short r.encode) : IsTree r.encode := by
  have hitem := Wire.whole_record <| Followed.record (utf8 "TraceRecord") 9
    |>.part (Wire.whole_text r.traceId) |>.part (Wire.whole_request r.request)
    |>.part (Wire.whole_optional Wire.whole_blueprintId r.blueprint)
    |>.part (Wire.whole_text r.snapshot) |>.part (Wire.whole_origin r.origin)
    |>.part (Wire.whole_texts r.notes)
    |>.part (Wire.whole_optional Wire.whole_attributes r.overrides)
    |>.part (Wire.whole_text r.overrideNote) |>.part (Wire.whole_response r.response)
  unfold encode at h ⊢
  simp only [List.append_assoc] at hitem h ⊢
  exact hitem.isTree h

theorem Options.isTree {o : Options} (h : Short o.encode) : IsTree o.encode := by
  rw [encode_eq] at h ⊢
  refine (Wire.whole_association fun e he => ?_).isTree h
  simp only [entries, List.mem_cons, List.not_mem_nil, or_false] at he
  rcases he with rfl | rfl | rfl | rfl | rfl | rfl | rfl | rfl | rfl
  · exact Wire.whole_int _
  · exact Wire.whole_int _
  · exact Wire.whole_int _
  · exact Wire.whole_bool _
  · exact Wire.whole_attributes _
  · exact Wire.whole_text _
  · exact Wire.whole_int _
  · exact Wire.whole_bool _
  · exact Wire.whole_text _

/-- **Every encoding is a tree of items.**  What is written of a blueprint, of a trace record and of
options is a header and one item, in which every head announces as many arguments or entries as
follow it, however deep it is nested; so passing over one item behind the header takes the encoding
to its end.  Encodings that no length can be written of are left out. -/
theorem encodings_are_trees (b : Blueprint) (r : TraceRecord) (o : Options) :
    (Short b.encode → IsTree b.encode) ∧ (Short r.encode → IsTree r.encode) ∧
      (Short o.encode → IsTree o.encode) :=
  ⟨Blueprint.isTree, TraceRecord.isTree, Options.isTree⟩

set_option maxRecDepth 100000 in
theorem encodings_are_trees_sample :
    Short Blueprint.tiered.encode ∧ IsTree Blueprint.tiered.encode ∧
      Short TraceRecord.audited.encode ∧ IsTree TraceRecord.audited.encode ∧
      Short Options.sample.encode ∧ IsTree Options.sample.encode := by
  have hb : Short Blueprint.tiered.encode := by decide +kernel
  have hr : Short TraceRecord.audited.encode := by decide +kernel
  have ho : Short Options.sample.encode := by decide +kernel
  obtain ⟨hblueprint, hrecord, hoptions⟩ :=
    encodings_are_trees Blueprint.tiered TraceRecord.audited Options.sample
  exact ⟨hb, hblueprint hb, hr, hrecord hr, ho, hoptions ho⟩

end DecisionEngine
