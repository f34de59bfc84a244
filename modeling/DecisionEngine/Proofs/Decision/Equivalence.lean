import DecisionEngine.Decision.Response
import DecisionEngine.Proofs.Attributes.Entries
import DecisionEngine.Proofs.Plan.Parameters
/-!
# Responses that are equivalent to themselves

Responses are compared as rules compare values, so one with NaN among its parameters is not even
equivalent to itself.  Plans that are free of NaN never give such a response.

* `Response.equivalent_of_stamps` — without NaN, the stamp is all that equivalence overlooks here.
* `Blueprint.hasNaN` — whether there is NaN in what a plan gives as parameters.
-/

namespace DecisionEngine

/-! ## NaN -/

/-- Whether a value is not a number, though it is a real. -/
def Value.isNaN : Value → Bool
  | real x => x.isNaN
  | _ => false

theorem Value.same_self {v : Value} (h : v.isNaN = false) : v.same v = true := by
  cases v with
  | real x =>
    have hx : x.isNaN = false := h
    simp [same, Binary64.same, hx]
  | _ => simp [same]

namespace AttributeSet

/-- Whether there is NaN among the values. -/
def hasNaN (a : AttributeSet) : Bool := a.entries.any (·.2.isNaN)

theorem hasNaN_eq_false {a : AttributeSet} :
    a.hasNaN = false ↔ ∀ e ∈ a.entries, e.2.isNaN = false := by
  simp [hasNaN]

theorem hasNaN_set {a : AttributeSet} {name : Bytes} {value : Value} (ha : a.hasNaN = false)
    (hvalue : value.isNaN = false) : (a.set name value).hasNaN = false := by
  rw [hasNaN_eq_false] at *
  intro e he
  rcases mem_entries_set he with rfl | he
  · exact hvalue
  · exact ha e he

theorem same_self {a : AttributeSet} (h : a.hasNaN = false) : a.same a = true := by
  have hvalues : ∀ v ∈ a.values, v.isNaN = false := by
    rw [← a.map_snd_entries]
    intro v hv
    obtain ⟨e, he, rfl⟩ := List.mem_map.1 hv
    exact hasNaN_eq_false.1 h e he
  have hzip : ∀ values : List Value, (∀ v ∈ values, v.isNaN = false) →
      ((values.zip values).all fun p => p.1.same p.2) = true := by
    intro values hv
    induction values with
    | nil => rfl
    | cons v rest ih =>
      have hrest := ih fun w hw => hv w (List.mem_cons_of_mem _ hw)
      rw [List.zip_cons_cons, List.all_cons, hrest, Value.same_self (hv v (List.mem_cons_self ..))]
      rfl
  rw [same, hzip a.values hvalues, beq_self_eq_true]
  rfl

end AttributeSet

/-! ## Responses -/

namespace Response

theorem sameDecisions_self {ds : List Decision} (h : AllParams (·.hasNaN = false) ds) :
    sameDecisions ds ds = true := by
  have hzip : ((ds.zip ds).all fun p => p.1.same p.2) = true := by
    induction ds with
    | nil => rfl
    | cons d rest ih =>
      have hrest := ih fun d' hd' => h d' (List.mem_cons_of_mem _ hd')
      have hparams := AttributeSet.same_self (h d (List.mem_cons_self ..))
      rw [List.zip_cons_cons, List.all_cons, hrest]
      simp [Decision.same, hparams]
  unfold sameDecisions
  rw [hzip]
  simp

/-- One response under two stamps. -/
theorem equivalent_of_stamps {r : Response} (h : AllParams (·.hasNaN = false) r.decisions)
    (stamp stamp' : Stamp) :
    equivalent { r with stamp := stamp } { r with stamp := stamp' } = true := by
  simp [equivalent, sameDecisions_self h]

end Response

/-! ## Plans -/

namespace Blueprint

/-- Whether there is NaN among the parameters of the outcomes of a plan or among its caps. -/
def hasNaN (b : Blueprint) : Bool :=
  b.steps.any (fun step => step.outcomes.any (·.params.hasNaN)) ||
    b.guardrails.any fun g => g.defaultOutcome.params.hasNaN || g.capValue.isNaN

/-- A plan that is free of NaN makes no decision with it. -/
theorem supplies_of_hasNaN {b : Blueprint} (h : b.hasNaN = false) :
    b.Supplies (·.hasNaN = false) := by
  unfold hasNaN at h
  simp only [Bool.or_eq_false_iff, List.any_eq_false, Bool.not_eq_true] at h
  obtain ⟨hsteps, hguardrails⟩ := h
  refine ⟨hsteps, fun g hg => (hguardrails g hg).1, fun g hg a ha => ?_, rfl⟩
  exact AttributeSet.hasNaN_set ha (hguardrails g hg).2

end Blueprint
end DecisionEngine
