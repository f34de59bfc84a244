import DecisionEngine.Proofs.Compile.Runs
import DecisionEngine.Proofs.Plan.Guardrails
/-!
# What plans decide

A plan that carries out contests runs to its end, whatever the attributes, inputs and comparators
are.  Its decisions are those of the rules that fire and the defaults for the contests that stay
unresolved, as its guardrails leave them.

* `Blueprint.FullyAddressable` — the programs of guardrails can be addressed as well.
* `Contest.idsAt` — the rules of the contest at a place.
* `EmissionContext.CarriesOut.exists_run` — a plan runs to its end.
-/

namespace DecisionEngine

/-- Everything in a plan can be addressed by numbers of 32 bits, in its guardrails as well. -/
structure Blueprint.FullyAddressable (b : Blueprint) : Prop extends b.Addressable where
  violations : ∀ g ∈ b.guardrails, g.violation.code.length < 2 ^ 32

instance (b : Blueprint) : Decidable b.FullyAddressable :=
  decidable_of_iff (b.Addressable ∧ ∀ g ∈ b.guardrails, g.violation.code.length < 2 ^ 32)
    ⟨fun ⟨haddressable, hviolations⟩ => ⟨haddressable, hviolations⟩,
      fun h => ⟨h.toAddressable, h.violations⟩⟩

/-- The ids of the rules of the contest at a place. -/
def Contest.idsAt (cs : List Contest) (index : Nat) : List Bytes :=
  (cs[index]?.map fun d => d.members.map (·.id)).getD []

theorem Contest.opens_eq_or (d : Contest) (fires : Bytes → Prop) (index : Nat) :
    d.opens fires index = [] ∨ d.opens fires index = [index] ∧ 1 < d.members.length := by
  classical
  unfold Contest.opens
  split
  · rename_i h
    exact .inr ⟨rfl, h.1⟩
  · exact .inl rfl

/-- The places of the contests that stay unresolved ascend. -/
theorem Contest.sublist_opens (cs : List Contest) (fires : Bytes → Prop) (start : Nat) :
    ((cs.zipIdx start).flatMap fun d => d.1.opens fires d.2).Sublist
      (List.range' start cs.length) := by
  induction cs generalizing start with
  | nil => exact List.Sublist.slnil
  | cons d cs ih =>
    rw [List.zipIdx_cons, List.flatMap_cons, List.length_cons, List.range'_succ]
    rcases d.opens_eq_or fires start with h | ⟨h, -⟩
    · rw [h]
      exact (ih (start + 1)).cons _
    · rw [h]
      exact (ih (start + 1)).cons_cons _

namespace EmissionContext.CarriesOut

variable {c : EmissionContext} {r : Revision} {k : FlatGraph} {cs : List Contest} {b : Blueprint}
variable {e : Evidence} {p : Progress} {comparators : Comparators}

theorem nodeId?_number (h : c.CarriesOut r k cs b) {d : Contest} (hd : d ∈ cs) {n : FlatNode}
    (hn : n ∈ d.members) : b.nodeId? (c.number n.id) = some n.id := by
  have hid : b.nodeId? (c.number n.id) = c.table[c.number n.id]? := by
    rw [← h.nodes, List.getElem?_map]
    rfl
  rw [hid, number, List.getElem?_idxOf (h.mem_table_of_has hd ⟨n, hn, rfl⟩)]

/-- The steps that stay unresolved are selections. -/
theorem selects_of_unresolved (h : c.CarriesOut r k cs b)
    (hstage : Stage c r comparators k e cs [] p) :
    p.unresolved.Nodup ∧ ∀ i ∈ p.unresolved, b.Selects i (Contest.idsAt cs i) := by
  rw [hstage.unresolved]
  refine ⟨(Contest.sublist_opens cs _ 0).nodup List.nodup_range', fun i hi => ?_⟩
  obtain ⟨⟨d, j⟩, hd, hi⟩ := List.mem_flatMap.1 hi
  have hj : cs[j]? = some d := List.mem_zipIdx_iff_getElem?.1 hd
  rcases d.opens_eq_or (c.Fired p.fired) j with hnone | ⟨hsome, hseveral⟩
  · rw [hnone] at hi
    exact absurd hi List.not_mem_nil
  · rw [hsome, List.mem_singleton] at hi
    subst hi
    have hmem : d ∈ cs := List.mem_of_getElem? hj
    have hplan := getElem?_rel h.plans i
    rw [hj] at hplan
    unfold Contest.idsAt
    rw [hj]
    generalize hstep : b.steps[i]? = step at hplan
    cases hplan with
    | some hplan =>
      cases hplan with
      | sequential members => simp [members] at hseveral
      | task members => simp [members] at hseveral
      | selector _ hoffers =>
        refine ⟨_, hstep, ?_⟩
        rw [Option.map_some, Option.getD_some, List.forall₂_map_right_iff]
        have hmembers := (List.forall₂_and_left d.members _).2 ⟨fun _ hn => hn, hoffers⟩
        refine (hmembers.imp fun n br hoffer => ?_).flip
        change b.nodeId? br.node = some n.id
        rw [hoffer.2.node]
        exact h.nodeId?_number hmem hoffer.1

/-- A plan runs to its end.  Up to their order, its decisions are what its guardrails make of the
decisions of the rules that fire, and the defaults that they supply for the contests that stay
unresolved. -/
theorem exists_run (h : c.CarriesOut r k cs b) (attributes inputs : AttributeSet) (verbose : Bool)
    (comparators : Comparators) :
    ∃ p x, Stage c r comparators k ⟨attributes, inputs, .empty, []⟩ cs [] p ∧
      (c.situation b attributes inputs verbose comparators).run = .ok x ∧
      x.decisions.Perm
        (p.decisions.map (settledBy
          ((c.situation b attributes inputs verbose comparators).env p.fired) b.guardrails) ++
        p.unresolved.filterMap (suppliedBy
          ((c.situation b attributes inputs verbose comparators).env p.fired) (Contest.idsAt cs)
          b.guardrails)) := by
  obtain ⟨p, hrun, hstage⟩ := h.exists_runSteps attributes inputs verbose comparators
  obtain ⟨hnodup, hselects⟩ := h.selects_of_unresolved hstage
  obtain ⟨review, hreview, hperm⟩ := b.exists_applyGuardrails
    ((c.situation b attributes inputs verbose comparators).env p.fired) hnodup hselects p.decisions
  refine ⟨p, ⟨review.decisions, p.alternatives, p.trail ++ review.trail, p.figures,
    review.figures⟩, hstage, ?_, hperm⟩
  unfold Situation.run
  dsimp only [EmissionContext.situation, Situation.ofAttributes] at hrun hreview ⊢
  rw [hrun]
  dsimp only [bind, Except.bind]
  rw [hreview]
  rfl

end EmissionContext.CarriesOut
end DecisionEngine
