import DecisionEngine.Proofs.Keyed
import DecisionEngine.Registry
/-!
# What is active after a history

The slots of a registry are kept under one text per pair of tenant and decision type, with a
separator byte in between. Ids may contain that byte, so two pairs may share a slot.

* `Registry.slotKey_eq_iff` — two pairs share a slot exactly when they are equal or one comes out
  of the other by moving the boundary from one separator of the text to another one.
* `Registry.changed_after` — the four things that a change can come to.
* `Registry.find?_after` — no change loses a blueprint.
* `Registry.Fits.after` — every change keeps what is active stored, and active under its own key.
* `Registry.active?_after` — a change to one slot leaves every other slot alone.
-/

namespace DecisionEngine

namespace Registry

/-! ## Shared slots -/

/-- The second pair is the first one with the boundary moved to an earlier separator: the text
between the two separators goes from the tenant to the decision type. -/
def Moved (tenant type tenant' type' : Bytes) : Prop :=
  ∃ between, tenant = tenant' ++ separator :: between ∧ type' = between ++ separator :: type

/-- Two pairs of a tenant and a decision type that share a slot. -/
def Confused (tenant type tenant' type' : Bytes) : Prop :=
  (tenant = tenant' ∧ type = type') ∨ Moved tenant type tenant' type' ∨
    Moved tenant' type' tenant type

/-- Two pairs have one key exactly when they are confused. -/
theorem slotKey_eq_iff (tenant type tenant' type' : Bytes) :
    slotKey tenant type = slotKey tenant' type' ↔ Confused tenant type tenant' type' := by
  unfold slotKey Confused Moved
  constructor
  · intro h
    rcases List.append_eq_append_iff.mp h with ⟨more, ht, hs⟩ | ⟨more, ht, hs⟩
    · cases more with
      | nil => simp_all
      | cons b between =>
        obtain ⟨rfl, rfl⟩ := List.cons.inj hs
        exact .inr (.inr ⟨between, ht, rfl⟩)
    · cases more with
      | nil => simp_all
      | cons b between =>
        obtain ⟨rfl, rfl⟩ := List.cons.inj hs
        exact .inr (.inl ⟨between, ht, rfl⟩)
  · rintro (⟨rfl, rfl⟩ | ⟨between, rfl, rfl⟩ | ⟨between, rfl, rfl⟩)
    · rfl
    · simp
    · simp

/-! ## Changes -/

/-- A call that changes a registry, or is refused. -/
inductive Change
  | store (b : Blueprint)
  | activate (id : BlueprintId)
  | deactivate (tenant type : Bytes)

/-- The registry after a change; one that is refused leaves it as it is. -/
def after (r : Registry) : Change → Registry
  | .store b => match r.store b with
    | .ok s => s.registry
    | .error _ => r
  | .activate id => match r.activate id with
    | .ok p => p.2
    | .error _ => r
  | .deactivate tenant type => (r.deactivate tenant type).2

/-- The registry after a history. -/
def afterAll (r : Registry) (changes : List Change) : Registry := changes.foldl after r

/-- The pair that a change is about; storing a blueprint is about none. -/
def Change.pair? (r : Registry) : Change → Option (Bytes × Bytes)
  | .store _ => none
  | .activate id => (r.find? id).map fun b => (b.tenant, b.decisionType)
  | .deactivate tenant type => some (tenant, type)

/-- After a switch, the slot of the key holds the new blueprint, and others what they held. -/
theorem active?_switch (r : Registry) (tenant type tenant' type' : Bytes)
    (current : Option Blueprint) :
    (r.switch tenant type current).active? tenant' type' =
      if slotKey tenant type = slotKey tenant' type' then current
      else r.active? tenant' type' := by
  unfold active? slot switch
  rw [Keyed.find?_assign]
  split <;> rfl

/-- What a store comes to: either nothing changes, or the blueprint is appended. -/
theorem store_cases {r : Registry} {b : Blueprint} {s : Stored} (h : r.store b = .ok s) :
    s.registry = r ∨ (r.find? b.id = none ∧ s.registry = r.append b) := by
  have hById : ∀ first, r.storeById b first = .ok s →
      s.registry = r ∨ (r.find? b.id = none ∧ s.registry = r.append b) := by
    intro first h
    unfold storeById at h
    cases hk : r.find? b.id with
    | none =>
      rw [hk] at h
      cases h
      exact .inr ⟨rfl, rfl⟩
    | some known =>
      rw [hk] at h
      dsimp only at h
      split at h
      · cases h
        exact .inl rfl
      · cases h
  unfold store at h
  split at h
  · split at h
    · cases h
      exact .inl rfl
    · exact hById _ h
  · exact hById _ h

/-- What an activation comes to: either nothing changes, or the blueprint of the id takes the
slot of its own pair. -/
theorem activate_cases {r : Registry} {id : BlueprintId} {p : Bool × Registry}
    (h : r.activate id = .ok p) :
    ∃ b, r.find? id = some b ∧
      (p.2 = r ∨ p.2 = r.switch b.tenant b.decisionType (some b)) := by
  unfold activate at h
  cases hf : r.find? id with
  | none => rw [hf] at h; cases h
  | some b =>
    rw [hf] at h
    refine ⟨b, rfl, ?_⟩
    dsimp only at h
    split at h
    · split at h
      · cases h
        exact .inl rfl
      · cases h
        exact .inr rfl
    · cases h
      exact .inr rfl

/-- What a deactivation comes to: either nothing changes, or the slot is emptied. -/
theorem deactivate_cases (r : Registry) (tenant type : Bytes) :
    (r.deactivate tenant type).2 = r ∨
      (r.deactivate tenant type).2 = r.switch tenant type none := by
  unfold deactivate
  split
  · exact .inr rfl
  · exact .inl rfl

/-- What a change comes to: nothing, or a new blueprint is appended, or a stored blueprint takes the
slot of its own pair, or a slot is emptied. -/
inductive Changed (r : Registry) : Change → Registry → Prop
  | nothing (c : Change) : Changed r c r
  | stored (b : Blueprint) : r.find? b.id = none → Changed r (.store b) (r.append b)
  | activated (b : Blueprint) : r.find? b.id = some b →
    Changed r (.activate b.id) (r.switch b.tenant b.decisionType (some b))
  | deactivated (tenant type : Bytes) :
    Changed r (.deactivate tenant type) (r.switch tenant type none)

/-- The key under which a stored blueprint is found is its own id. -/
theorem id_of_find? {r : Registry} {id : BlueprintId} {b : Blueprint} (h : r.find? id = some b) :
    b.id = id := by
  simpa using List.find?_some h

theorem changed_after (r : Registry) (c : Change) : Changed r c (r.after c) := by
  cases c with
  | store b =>
    unfold after
    dsimp only
    split
    case h_1 s hs =>
      rcases store_cases hs with he | ⟨hnew, he⟩
      · rw [he]
        exact .nothing _
      · rw [he]
        exact .stored b hnew
    case h_2 => exact .nothing _
  | activate id =>
    unfold after
    dsimp only
    split
    case h_1 p hp =>
      obtain ⟨b, hf, he | he⟩ := activate_cases hp
      · rw [he]
        exact .nothing _
      · obtain rfl := id_of_find? hf
        rw [he]
        exact .activated b hf
    case h_2 => exact .nothing _
  | deactivate tenant type =>
    unfold after
    dsimp only
    rcases r.deactivate_cases tenant type with he | he
    · rw [he]
      exact .nothing _
    · rw [he]
      exact .deactivated tenant type

/-! ## The invariant -/

/-- Everything active is stored, and it is active under the key of its own pair. -/
def Fits (r : Registry) : Prop :=
  ∀ tenant type b, r.active? tenant type = some b →
    r.find? b.id = some b ∧ slotKey b.tenant b.decisionType = slotKey tenant type

/-- Nothing is active in the empty registry. -/
theorem fits_empty : Fits empty := by
  intro tenant type b h
  cases h

/-- A blueprint that is stored stays stored. -/
theorem find?_append {r : Registry} {b c : Blueprint} {id : BlueprintId}
    (h : r.find? id = some b) : (r.append c).find? id = some b := by
  unfold find? append at *
  rw [List.find?_append, h]
  rfl

theorem find?_switch (r : Registry) (tenant type : Bytes) (current : Option Blueprint)
    (id : BlueprintId) : (r.switch tenant type current).find? id = r.find? id := rfl

/-- Every blueprint that is stored stays stored. -/
theorem find?_after {r : Registry} {id : BlueprintId} {b : Blueprint}
    (h : r.find? id = some b) (c : Change) : (r.after c).find? id = some b := by
  have hchange := r.changed_after c
  generalize r.after c = r' at hchange ⊢
  cases hchange with
  | nothing => exact h
  | stored b' _ => exact find?_append h
  | activated b' _ => rwa [find?_switch]
  | deactivated tenant type => rwa [find?_switch]

/-- Switching a slot to a stored blueprint of its own pair, or to nothing, keeps the invariant. -/
theorem Fits.switch {r : Registry} (hr : r.Fits) {tenant type : Bytes}
    {current : Option Blueprint}
    (hc : ∀ b ∈ current, r.find? b.id = some b ∧ b.tenant = tenant ∧ b.decisionType = type) :
    (r.switch tenant type current).Fits := by
  intro tenant' type' b hb
  rw [active?_switch] at hb
  by_cases hk : slotKey tenant type = slotKey tenant' type'
  · rw [if_pos hk] at hb
    obtain ⟨hf, rfl, rfl⟩ := hc b hb
    exact ⟨hf, hk⟩
  · rw [if_neg hk] at hb
    exact hr tenant' type' b hb

/-- Every change keeps the invariant. -/
theorem Fits.after {r : Registry} (hr : r.Fits) (c : Change) : (r.after c).Fits := by
  have hchange := r.changed_after c
  generalize r.after c = r' at hchange ⊢
  cases hchange with
  | nothing => exact hr
  | stored b _ =>
    intro tenant type active h
    obtain ⟨hf, hk⟩ := hr tenant type active h
    exact ⟨find?_append hf, hk⟩
  | activated b hb =>
    refine hr.switch ?_
    rintro b' ⟨⟩
    exact ⟨hb, rfl, rfl⟩
  | deactivated tenant type => exact hr.switch fun b hb => absurd hb (Option.not_mem_none b)

/-- Every history keeps the invariant. -/
theorem Fits.afterAll {r : Registry} (hr : r.Fits) (changes : List Change) :
    (r.afterAll changes).Fits := by
  induction changes generalizing r with
  | nil => exact hr
  | cons c rest ih => exact ih (hr.after c)

/-- A change leaves alone what is active under other keys than that of its own pair. -/
theorem active?_after {r : Registry} {c : Change} {tenant type : Bytes}
    (h : ∀ p ∈ c.pair? r, ¬Confused p.1 p.2 tenant type) :
    (r.after c).active? tenant type = r.active? tenant type := by
  have hchange := r.changed_after c
  generalize r.after c = r' at hchange ⊢
  cases hchange with
  | nothing => rfl
  | stored b _ => rfl
  | activated b hb =>
    have hk := h (b.tenant, b.decisionType) (by simp [Change.pair?, hb])
    rw [active?_switch, if_neg (fun hc => hk ((slotKey_eq_iff ..).1 hc))]
  | deactivated tenant' type' =>
    have hk := h (tenant', type') rfl
    rw [active?_switch, if_neg (fun hc => hk ((slotKey_eq_iff ..).1 hc))]

/-- Storing and activating a blueprint in a registry that is empty. -/
theorem afterAll_store_activate (b : Blueprint) : empty.afterAll [.store b, .activate b.id] =
    ⟨[b], [(slotKey b.tenant b.decisionType, ⟨some b, 1⟩)]⟩ := by
  have hs : empty.after (.store b) = ⟨[b], []⟩ := rfl
  have hf : (⟨[b], []⟩ : Registry).find? b.id = some b := by simp [find?]
  have ha : (⟨[b], []⟩ : Registry).active? b.tenant b.decisionType = none := rfl
  have hb : (⟨[b], []⟩ : Registry).after (.activate b.id) =
      (⟨[b], []⟩ : Registry).switch b.tenant b.decisionType (some b) := by
    simp [after, activate, hf, ha]
  unfold afterAll
  rw [List.foldl_cons, hs, List.foldl_cons, hb, List.foldl_nil]
  rfl

/-- In a registry that is empty, storing and activating a blueprint makes it active for every pair
that its own is confused with. -/
theorem active?_store_activate (b : Blueprint) {tenant type : Bytes}
    (h : Confused b.tenant b.decisionType tenant type) :
    (empty.afterAll [.store b, .activate b.id]).active? tenant type = some b := by
  rw [afterAll_store_activate]
  unfold active? slot
  rw [(slotKey_eq_iff ..).2 h]
  simp [Keyed.find?]

end Registry
end DecisionEngine
