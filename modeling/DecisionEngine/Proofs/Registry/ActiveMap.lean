import DecisionEngine.Proofs.Engine.Isolation
import DecisionEngine.Proofs.Registry.Repository
import DecisionEngine.Service
/-!
# The active map

Seen from outside, a registry maps every pair of a tenant and a decision type to the blueprint in
force and counts how often that changed. Inside it keeps slots that come into being with their
first change, under keys that join both ids with a separator. For pairs without separator the two
views agree after every history of calls: what is in force and the count can be read off the calls
that returned true.

* `Registry.switch?` — the change that a call makes if it returns true.
* `Registry.slot_after` — what one call does to the slot of a pair.
* `Registry.slot_afterAll` — what a history does to it.
* `Registry.is_active_map` — the registry as a map with a change counter.
-/

namespace DecisionEngine
namespace Registry

/-! ## Calls that return true -/

/-- A change of what is in force for a pair. -/
structure Switch where
  tenant : Bytes
  type : Bytes
  current : Option Blueprint

/-- The change that a call makes if it returns true. -/
def switch? (r : Registry) : Change → Option Switch
  | .store _ => none
  | .activate id => match r.activate id with
    | .ok (true, _) => (r.find? id).map fun b => ⟨b.tenant, b.decisionType, some b⟩
    | .ok (false, _) => none
    | .error _ => none
  | .deactivate tenant type =>
    if (r.deactivate tenant type).1 then some ⟨tenant, type, none⟩ else none

/-- The change is one of the pair. -/
def Switch.isOf (tenant type : Bytes) (s : Switch) : Bool :=
  decide (s.tenant = tenant ∧ s.type = type)

/-- The changes of a pair in a history, from the first one on. -/
def switchesOf (r : Registry) (changes : List Change) (tenant type : Bytes) : List Switch :=
  (r.events switch? changes).filter (Switch.isOf tenant type)

/-! ## Activations -/

/-- A blueprint that is stored is active in its place after an activation; the call says whether it
was active there before. -/
theorem activate_of_find? {r : Registry} {id : BlueprintId} {b : Blueprint}
    (h : r.find? id = some b) :
    r.activate id =
      if (r.active? b.tenant b.decisionType).map (·.id) = some id then .ok (false, r)
      else .ok (true, r.switch b.tenant b.decisionType (some b)) := by
  have hid := id_of_find? h
  unfold activate
  rw [h]
  dsimp only
  cases r.active? b.tenant b.decisionType with
  | none => rfl
  | some current => simp [hid]

/-- An activation fails exactly when there is no blueprint of the id. -/
theorem activate_eq_error_iff {r : Registry} {id : BlueprintId} :
    r.activate id = .error id ↔ r.find? id = none := by
  cases h : r.find? id with
  | none => simp [activate, h]
  | some b =>
    rw [activate_of_find? h]
    split <;> simp

/-! ## One call and a slot -/

theorem slot_switch (r : Registry) (tenant type tenant' type' : Bytes)
    (current : Option Blueprint) :
    (r.switch tenant type current).slot tenant' type' =
      if slotKey tenant type = slotKey tenant' type' then
        ⟨current, r.generation tenant' type' + 1⟩
      else r.slot tenant' type' := by
  unfold switch generation slot
  rw [Keyed.find?_assign]
  split
  case isTrue hk => rw [hk]; rfl
  case isFalse => rfl

/-- What a slot holds after a change of its pair. -/
def Switch.onto (slot : ActiveSlot) (s : Switch) : ActiveSlot :=
  ⟨s.current, slot.generation + 1⟩

variable {tenant type : Bytes}

/-- Switching a pair is a change of that pair, and of no other one. -/
theorem slot_switch_free (r : Registry) (ht : separator ∉ tenant) (hd : separator ∉ type)
    (s : Switch) :
    (r.switch s.tenant s.type s.current).slot tenant type =
      ([s].filter (Switch.isOf tenant type)).foldl Switch.onto (r.slot tenant type) := by
  rw [slot_switch]
  by_cases hpair : s.tenant = tenant ∧ s.type = type
  · have hof : s.isOf tenant type = true := decide_eq_true hpair
    rw [if_pos (by rw [hpair.1, hpair.2]), List.filter_cons_of_pos hof]
    rfl
  · have hof : s.isOf tenant type ≠ true := by simpa [Switch.isOf] using hpair
    have hkey : slotKey s.tenant s.type ≠ slotKey tenant type := fun hk =>
      hpair (eq_of_confused_free ((slotKey_eq_iff ..).1 hk) ht hd)
    rw [if_neg hkey, List.filter_cons_of_neg hof]
    rfl

/-- A call does to the slot of a pair what it did if it returned true, and nothing otherwise. -/
theorem slot_after (r : Registry) (c : Change) (ht : separator ∉ tenant)
    (hd : separator ∉ type) :
    (r.after c).slot tenant type =
      ((r.switch? c).toList.filter (Switch.isOf tenant type)).foldl Switch.onto
        (r.slot tenant type) := by
  cases c with
  | store b =>
    have hspec := r.store_spec b
    unfold after switch?
    dsimp only
    generalize r.store b = outcome at hspec ⊢
    cases hspec <;> rfl
  | activate id =>
    cases hf : r.find? id with
    | none => simp [after, switch?, activate_eq_error_iff.2 hf]
    | some b =>
      simp only [after, switch?, activate_of_find? hf, hf]
      by_cases hsame : (r.active? b.tenant b.decisionType).map (·.id) = some id
      · simp only [hsame, if_true]
        rfl
      · simp only [hsame, if_false]
        exact r.slot_switch_free ht hd ⟨b.tenant, b.decisionType, some b⟩
  | deactivate tenant' type' =>
    unfold after switch? deactivate
    dsimp only
    cases r.active? tenant' type' with
    | none => rfl
    | some b => exact r.slot_switch_free ht hd ⟨tenant', type', none⟩

/-! ## A history and a slot -/

/-- A history does to the slot of a pair what those of its calls did that returned true for it. -/
theorem slot_afterAll (r : Registry) (changes : List Change) (ht : separator ∉ tenant)
    (hd : separator ∉ type) :
    (r.afterAll changes).slot tenant type =
      (r.switchesOf changes tenant type).foldl Switch.onto (r.slot tenant type) := by
  induction changes generalizing r with
  | nil => rfl
  | cons c rest ih =>
    have hrest := ih (r.after c)
    rw [slot_after r c ht hd] at hrest
    rw [switchesOf, events, List.filter_append, List.foldl_append]
    exact hrest

/-- A slot holds what the last change put in force, and the number of changes. -/
theorem foldl_onto (switches : List Switch) (slot : ActiveSlot) :
    switches.foldl Switch.onto slot =
      ⟨(switches.getLast?.map (·.current)).getD slot.current,
        slot.generation + switches.length⟩ := by
  induction switches using List.reverseRecOn with
  | nil => rfl
  | append_singleton switches s ih =>
    rw [List.foldl_concat, ih]
    simp [Switch.onto, Nat.add_assoc]

/-! ## The active map -/

/-- An id is unknown exactly when no store of the history returned a blueprint of it. -/
theorem find?_eq_none_iff (changes : List Change) (id : BlueprintId) :
    (empty.afterAll changes).find? id = none ↔
      ∀ receipt ∈ empty.receipts changes, receipt.kept.id ≠ id := by
  unfold find?
  rw [List.find?_eq_none]
  simp only [mem_stored_iff, beq_iff_eq, forall_exists_index, and_imp, forall_apply_eq_imp_iff₂]

/-- What is expected of the registry at the end of a history, as far as a pair is concerned. -/
structure ActiveMap (r : Registry) (receipts : List Receipt) (switches : List Switch)
    (tenant type : Bytes) : Prop where
  /-- What the last change put in force is active. -/
  active : r.active? tenant type = switches.getLast?.bind (·.current)
  /-- The generation counts the changes. -/
  generation : r.generation tenant type = switches.length
  /-- Activating a blueprint of the pair returns false exactly when its id is active already. -/
  activate : ∀ b, r.find? b.id = some b → b.tenant = tenant → b.decisionType = type →
    ∃ r', r.activate b.id =
      .ok (decide ((r.active? tenant type).map (·.id) ≠ some b.id), r')
  /-- An id is refused exactly when no store returned a blueprint of it, -/
  unknown : ∀ id (e : Engine), e.registry = r →
    (Service.activate id e = .error (.unknownBlueprint id) ↔
      ∀ receipt ∈ receipts, receipt.kept.id ≠ id)
  /-- and then nothing changes. -/
  unchanged : ∀ id, (∀ receipt ∈ receipts, receipt.kept.id ≠ id) → r.after (.activate id) = r

/-- **The registry is a map with a change counter**: at the end of any history, what is active for
a pair without separators is what the last call that returned true for it put there, and the
generation is the number of such calls. -/
theorem is_active_map (changes : List Change) {tenant type : Bytes} (ht : separator ∉ tenant)
    (hd : separator ∉ type) :
    ActiveMap (empty.afterAll changes) (empty.receipts changes)
      (empty.switchesOf changes tenant type) tenant type := by
  have hslot := slot_afterAll empty changes ht hd
  rw [foldl_onto] at hslot
  refine ⟨?_, ?_, ?_, ?_, ?_⟩
  · unfold active?
    rw [hslot]
    cases (empty.switchesOf changes tenant type).getLast? <;> rfl
  · unfold generation
    rw [hslot]
    exact Nat.zero_add _
  · rintro b hf rfl rfl
    rw [activate_of_find? hf]
    split
    case isTrue hsame => exact ⟨_, by rw [decide_eq_false (not_not.2 hsame)]⟩
    case isFalse hother => exact ⟨_, by rw [decide_eq_true hother]⟩
  · rintro id e he
    rw [← find?_eq_none_iff, ← activate_eq_error_iff]
    unfold Service.activate
    rw [he]
    cases (empty.afterAll changes).activate id with
    | error other => simp
    | ok p => simp
  · intro id hid
    unfold after
    dsimp only
    rw [activate_eq_error_iff.2 ((find?_eq_none_iff changes id).2 hid)]

/-- Two blueprints of a pair take turns, the second one twice in a row; then nothing is active. -/
theorem is_active_map_sample :
    let first := sampleOf (utf8 "a plan")
    let second := sampleOf (utf8 "another plan")
    let changes : List Change := [.store first, .store second, .activate first.id,
      .activate second.id, .activate second.id, .activate ⟨utf8 "x", 1, 0⟩,
      .deactivate (utf8 "acme") (utf8 "pricing"), .activate first.id]
    (empty.afterAll changes).active? (utf8 "acme") (utf8 "pricing") = some first ∧
      (empty.afterAll changes).generation (utf8 "acme") (utf8 "pricing") = 4 ∧
      ActiveMap (empty.afterAll changes) (empty.receipts changes)
        (empty.switchesOf changes (utf8 "acme") (utf8 "pricing"))
        (utf8 "acme") (utf8 "pricing") :=
  ⟨by decide, by decide, is_active_map _ (by decide) (by decide)⟩

end Registry
end DecisionEngine
