import DecisionEngine.Proofs.Engine.Answers
import DecisionEngine.Proofs.Registry.Slots
/-!
# Isolation of tenants

What is active for a tenant and a decision type should be a blueprint of that tenant and that
decision type, no request should be answered by another one, and no call about another pair should
change it.  Since a slot is found by a text that joins both ids with a separator byte, this holds
for exactly those pairs in which that byte does not occur.

* `Engine.execute_answers_from_active` — a request is answered by the active plan or by none.
* `Registry.isolated_iff_free` — the pairs that are isolated.
-/

namespace DecisionEngine

open Call

/-- A response that names a plan names the one that is active for the request. -/
theorem Engine.execute_answers_from_active {σ : Type} {out : Surroundings σ} {clock : Clock}
    {request : Request} {w w' : World σ} {response : Response} {id : BlueprintId}
    (h : Returns (execute out clock request) w response w')
    (hid : response.provenance.blueprint = some id) :
    ∃ b, w.engine.registry.active? request.tenant request.decisionType = some b ∧ b.id = id := by
  cases execute_returns h with
  | withoutPlan v _ _ delivered =>
    obtain ⟨stamp, rfl⟩ := deliver_returns delivered
    cases hid
  | byPlan b c check r resolved v active _ answer _ delivered =>
    obtain ⟨stamp, rfl⟩ := deliver_returns delivered
    have hb := (planned_provenance answer).1
    refine ⟨b, active, ?_⟩
    rw [show r.provenance.blueprint = some id from hid] at hb
    exact (Option.some.inj hb).symm

namespace Registry

/-- Isolation of a pair: in every history, only a blueprint of the pair is active for it, only
calls about the pair change that, and requests about the pair are answered by such a blueprint or
by none. -/
structure Isolated (tenant type : Bytes) : Prop where
  active : ∀ changes b, (empty.afterAll changes).active? tenant type = some b →
    b.tenant = tenant ∧ b.decisionType = type
  others : ∀ changes (c : Change),
    (∀ p ∈ c.pair? (empty.afterAll changes), p ≠ (tenant, type)) →
    ((empty.afterAll changes).after c).active? tenant type =
      (empty.afterAll changes).active? tenant type
  answers : ∀ changes (σ : Type) (out : Surroundings σ) (clock : Clock) (request : Request)
    (w w' : World σ) (response : Response) (id : BlueprintId),
    w.engine.registry = empty.afterAll changes →
    request.tenant = tenant → request.decisionType = type →
    Returns (Engine.execute out clock request) w response w' →
    response.provenance.blueprint = some id →
    ∃ b, (empty.afterAll changes).find? id = some b ∧ b.tenant = tenant ∧ b.decisionType = type

/-- What is active in a history belongs to a pair that is confused with the one asked for. -/
theorem confused_of_active {changes : List Change} {tenant type : Bytes} {b : Blueprint}
    (h : (empty.afterAll changes).active? tenant type = some b) :
    Confused b.tenant b.decisionType tenant type :=
  (slotKey_eq_iff ..).1 ((fits_empty.afterAll changes) tenant type b h).2

/-- A pair without separators is confused with no other one. -/
theorem eq_of_confused_free {tenant type tenant' type' : Bytes}
    (h : Confused tenant' type' tenant type) (ht : separator ∉ tenant) (hd : separator ∉ type) :
    tenant' = tenant ∧ type' = type := by
  rcases h with h | ⟨between, -, rfl⟩ | ⟨between, rfl, -⟩
  · exact h
  · simp at hd
  · simp at ht

/-- A pair with a separator is confused with another one. -/
theorem exists_confused {tenant type : Bytes} (h : separator ∈ tenant ∨ separator ∈ type) :
    ∃ tenant' type', Confused tenant' type' tenant type ∧ tenant' ≠ tenant := by
  rcases h with h | h
  · obtain ⟨front, between, rfl⟩ := List.append_of_mem h
    exact ⟨front, between ++ separator :: type, .inr (.inr ⟨between, rfl, rfl⟩), by simp⟩
  · obtain ⟨between, back, rfl⟩ := List.append_of_mem h
    exact ⟨tenant ++ separator :: between, back, .inr (.inl ⟨between, rfl, rfl⟩), by simp⟩

/-- **The isolated pairs** are those in which the separator does not occur. -/
theorem isolated_iff_free (tenant type : Bytes) :
    Isolated tenant type ↔ separator ∉ tenant ∧ separator ∉ type := by
  constructor
  · intro h
    have hnone : ¬(separator ∈ tenant ∨ separator ∈ type) := by
      intro hsep
      obtain ⟨tenant', type', hconf, hne⟩ := exists_confused hsep
      -- Any blueprint of the other pair shows up where it does not belong.
      let b : Blueprint := ⟨.blank, tenant', type', .empty, .empty, [], [], [], []⟩
      exact hne (h.active _ b (active?_store_activate b hconf)).1
    exact not_or.mp hnone
  · rintro ⟨ht, hd⟩
    have hactive : ∀ changes b, (empty.afterAll changes).active? tenant type = some b →
        b.tenant = tenant ∧ b.decisionType = type := fun changes b h =>
      eq_of_confused_free (confused_of_active h) ht hd
    refine ⟨hactive, ?_, ?_⟩
    · intro changes c hother
      refine active?_after fun p hp hconf => hother p hp ?_
      obtain ⟨h1, h2⟩ := eq_of_confused_free hconf ht hd
      exact Prod.ext h1 h2
    · rintro changes σ out clock request w w' response id hw rfl rfl hreturns hid
      obtain ⟨b, hb, rfl⟩ := Engine.execute_answers_from_active hreturns hid
      rw [hw] at hb
      exact ⟨b, ((fits_empty.afterAll changes) _ _ b hb).1, hactive changes b hb⟩

/-- A blueprint of a tenant whose id holds the separator. -/
def sampleBlueprint : Blueprint where
  id := ⟨[0x67], 1, 0⟩
  tenant := [0x61, 0x1f, 0x62]
  decisionType := [0x63]
  catalog := .empty
  symbols := .empty
  nodes := []
  steps := []
  guardrails := []
  encoded := []

/-- Once the blueprint of one tenant is active, it is active for another tenant. -/
theorem active_for_other_tenant :
    (empty.afterAll [.store sampleBlueprint, .activate sampleBlueprint.id]).active?
        [0x61] [0x62, 0x1f, 0x63] = some sampleBlueprint ∧
      sampleBlueprint.tenant ≠ [0x61] ∧ ¬Isolated [0x61] [0x62, 0x1f, 0x63] := by
  have hactive : (empty.afterAll [.store sampleBlueprint, .activate sampleBlueprint.id]).active?
      [0x61] [0x62, 0x1f, 0x63] = some sampleBlueprint := by rfl
  have hne : sampleBlueprint.tenant ≠ [0x61] := by decide
  exact ⟨hactive, hne, fun h => hne (h.active _ _ hactive).1⟩

end Registry
end DecisionEngine
