import DecisionEngine.Proofs.Compile.Catalogs
import DecisionEngine.Proofs.Compile.Regrouping
import DecisionEngine.Proofs.Plan.Unplaced
/-!
# What is left of contests comes to the same

A run decides what its contests come to, one by one.  Where a graph is what is left of another one,
and no exclusion group is split, the contests of the two come to the same.

* `comesTo` — what the rules of a contest come to, apart from the step.
* `EmissionContext.CarriesOut.exists_run_unplaced` — a run decides what its contests come to.
* `FlatGraph.comesTo_left` — what is left of a contest comes to the same.
* `FlatGraph.Thins.perm_comesTo` — all contests together.
-/

namespace DecisionEngine

open Relation (EqvGen)

/-! ## What contests come to -/

open Classical in
/-- What the rules of a contest come to, apart from the step: the decisions of those that fire, or
the default that the contest gets, as guardrails leave them. -/
noncomputable def comesTo (env : Program.Env) (rails : List PlanGuardrail) (fires : Bytes → Prop)
    (ns : List FlatNode) : List Decision :=
  ((ns.filter fun n => fires n.id).flatMap (·.decisions 0)).map (settledBy env rails) ++
    if 1 < ns.length ∧ ∀ n ∈ ns, ¬fires n.id then
      (suppliedBy env (fun _ => ns.map (·.id)) rails 0).toList
    else []

theorem comesTo_nil (env : Program.Env) (rails : List PlanGuardrail) (fires : Bytes → Prop) :
    comesTo env rails fires [] = [] := by
  simp [comesTo]

theorem flatMap_zipIdx {α β : Type} (xs : List α) (f : α → List β) :
    (xs.zipIdx.flatMap fun x => f x.1) = xs.flatMap f := by
  rw [← List.flatMap_map (f := Prod.fst) (g := f), List.zipIdx_map_fst]

namespace Contest

variable {env : Program.Env} {rails : List PlanGuardrail} {fires : Bytes → Prop}

theorem unplaced_decisions (c : Contest) (index : Nat) :
    (c.decisions fires index).map Decision.unplaced = c.decisions fires 0 := by
  have hnode : ∀ n : FlatNode, (n.decisions index).map Decision.unplaced = n.decisions 0 := by
    intro n
    unfold FlatNode.decisions
    cases n.outcome <;> rfl
  unfold decisions
  rw [List.map_flatMap]
  simp only [hnode]

/-- What a contest adds to a run, as guardrails leave it, apart from the step. -/
theorem comesTo_eq {cs : List Contest} {c : Contest} {index : Nat} (h : cs[index]? = some c) :
    ((c.decisions fires index).map (settledBy env rails)).map Decision.unplaced ++
      ((c.opens fires index).filterMap (suppliedBy env (idsAt cs) rails)).map Decision.unplaced =
    comesTo env rails fires c.members := by
  classical
  have hids : idsAt cs index = c.members.map (·.id) := by
    unfold idsAt
    rw [h]
    rfl
  unfold comesTo
  congr 1
  · change _ = (c.decisions fires 0).map (settledBy env rails)
    rw [List.map_map, ← unplaced_decisions c index, List.map_map]
    exact List.map_congr_left fun d _ => settledBy_unplaced env rails d
  · unfold opens
    split
    · have hsupplied := suppliedBy_unplaced env (idsAt cs) rails index
      rw [hids] at hsupplied
      rw [← hsupplied]
      cases hsome : suppliedBy env (idsAt cs) rails index <;> simp [hsome]
    · rfl

end Contest

namespace EmissionContext.CarriesOut

variable {c : EmissionContext} {r : Revision} {k : FlatGraph} {cs : List Contest} {b : Blueprint}

/-- A plan runs to its end; apart from their steps, and up to their order, its decisions are what
its contests come to. -/
theorem exists_run_unplaced (h : c.CarriesOut r k cs b) (attributes inputs : AttributeSet)
    (verbose : Bool) (comparators : Comparators) :
    ∃ p x, Stage c r comparators k ⟨attributes, inputs, .empty, []⟩ cs [] p ∧
      (c.situation b attributes inputs verbose comparators).run = .ok x ∧
      (x.decisions.map Decision.unplaced).Perm ((cs.map (·.members)).flatMap
        (comesTo ((c.situation b attributes inputs verbose comparators).env p.fired) b.guardrails
          (c.Fired p.fired))) := by
  obtain ⟨p, x, hstage, hrun, hperm⟩ := h.exists_run attributes inputs verbose comparators
  refine ⟨p, x, hstage, hrun, (hperm.map _).trans ?_⟩
  generalize (c.situation b attributes inputs verbose comparators).env p.fired = env
  rw [hstage.decisions, hstage.unresolved, List.map_append, List.map_flatMap, List.map_flatMap,
    List.filterMap_flatMap, List.map_flatMap]
  refine (List.flatMap_append_perm ..).trans (List.Perm.of_eq ?_)
  have hzip := flatMap_zipIdx cs fun d => comesTo env b.guardrails (c.Fired p.fired) d.members
  rw [List.flatMap_map, ← hzip]
  exact List.flatMap_congr fun d hd => Contest.comesTo_eq (List.mem_zipIdx_iff_getElem?.1 hd)

/-- Only eligible rules have fired at the end of a run. -/
theorem honest (h : c.CarriesOut r k cs b) {comparators : Comparators} {e : Evidence} {p : Progress}
    (hstage : Stage c r comparators k e cs [] p) : k.Honest e (c.Fired p.fired) := by
  intro id hfired
  have hlt := (List.getElem?_eq_some_iff.1 hfired).1
  rw [hstage.length] at hlt
  obtain ⟨n, hn, rfl⟩ := List.mem_map.1 (h.mem_table.1 (List.idxOf_lt_length_iff.1 hlt))
  obtain ⟨d, hd, hnd⟩ := List.mem_flatMap.1 (h.arranges.perm.mem_iff.2 hn)
  obtain ⟨beats, -, hsettled⟩ := hstage.settled d hd
  exact ⟨n, hn, rfl, (hsettled.resolved (h.arranges.acyclic d hd)).eligible n hnd hfired⟩

end EmissionContext.CarriesOut

/-! ## What is left of contests -/

theorem PlanGuardrail.names_mono (g : PlanGuardrail) {ids ids' : List Bytes} (h : ids ⊆ ids')
    (hnames : g.names ids = true) : g.names ids' = true := by
  unfold names at hnames ⊢
  rw [Bool.or_eq_true, List.any_eq_true] at hnames ⊢
  exact hnames.imp_right fun ⟨id, hid, hcontains⟩ => ⟨id, h hid, hcontains⟩

section

variable {k : FlatGraph} {env env' : Program.Env} {rails rails' : List PlanGuardrail}
variable {fires fires' : Bytes → Prop} {c : Contest}

open Classical in
/-- What has fired of a contest is left of it, if whatever fires is left. -/
theorem FlatGraph.fired_left (hkept : ∀ id, fires' id → id ∈ k.ids)
    (hsame : ∀ id ∈ k.ids, fires id ↔ fires' id) (c : Contest) :
    ((k.left c).filter fun n => fires n.id) = c.members.filter fun n => fires' n.id := by
  unfold left
  rw [List.filter_filter]
  refine List.filter_congr fun n _ => ?_
  rw [Bool.eq_iff_iff, Bool.and_eq_true, decide_eq_true_iff, decide_eq_true_iff,
    List.contains_iff_mem]
  exact ⟨fun h => (hsame _ h.2).1 h.1, fun h => ⟨(hsame _ (hkept _ h)).2 h, hkept _ h⟩⟩

/-- Nothing has fired of what is left of a contest exactly if nothing of the contest has. -/
theorem FlatGraph.unfired_left_iff (hkept : ∀ id, fires' id → id ∈ k.ids)
    (hsame : ∀ id ∈ k.ids, fires id ↔ fires' id) :
    (∀ n ∈ k.left c, ¬fires n.id) ↔ ∀ n ∈ c.members, ¬fires' n.id := by
  constructor
  · intro h n hn hfires
    have hnk := hkept _ hfires
    exact h n (mem_left.2 ⟨hn, hnk⟩) ((hsame _ hnk).2 hfires)
  · intro h n hn hfires
    obtain ⟨hn, hnk⟩ := mem_left.1 hn
    exact h n hn ((hsame _ hnk).1 hfires)

/-- What is left of a contest comes to the same, if what fires is left, and mandates that are about
the contest are about enough that is left. -/
theorem FlatGraph.comesTo_left (hkept : ∀ id, fires' id → id ∈ k.ids)
    (hsame : ∀ id ∈ k.ids, fires id ↔ fires' id)
    (hrails : List.Forall₂ (PlanGuardrail.Matches env env') rails rails')
    (houtcome : env.outcome = env'.outcome)
    (hmandates : 1 < c.members.length → ∀ g ∈ rails, g.mode = .mandateDefault →
      g.names (c.members.map (·.id)) = true →
        1 < (k.left c).length ∧ g.names ((k.left c).map (·.id)) = true) :
    comesTo env rails fires (k.left c) = comesTo env' rails' fires' c.members := by
  classical
  have hsub : (k.left c).Sublist c.members := List.filter_sublist
  have hnone := unfired_left_iff (c := c) hkept hsame
  unfold comesTo
  rw [fired_left hkept hsame c, settledBy_congr hrails]
  congr 1
  by_cases hopen : ∀ n ∈ c.members, ¬fires' n.id
  · by_cases hseveral : 1 < (k.left c).length
    · have hall : 1 < c.members.length := hseveral.trans_le hsub.length_le
      rw [if_pos ⟨hseveral, hnone.2 hopen⟩, if_pos ⟨hall, hopen⟩,
        suppliedBy_congr hrails houtcome fun g hg hmode => ?_]
      rw [Bool.eq_iff_iff]
      exact ⟨g.names_mono (hsub.map _).subset, fun h => (hmandates hall g hg hmode h).2⟩
    · rw [if_neg fun h => hseveral h.1]
      by_cases hall : 1 < c.members.length
      · have hunnamed : ∀ g ∈ rails, g.mode = .mandateDefault →
            g.names (c.members.map (·.id)) = false := fun g hg hmode => by
          by_contra hnames
          exact hseveral (hmandates hall g hg hmode (by simpa using hnames)).1
        rw [if_pos ⟨hall, hopen⟩, ← suppliedBy_congr hrails houtcome fun _ _ _ => rfl,
          suppliedBy_of_unnamed hunnamed]
        rfl
      · rw [if_neg fun h => hall h.1]
  · rw [if_neg fun h => hopen (hnone.1 h.2), if_neg fun h => hopen h.2]

end

namespace FlatGraph.Thins

variable {k k' : FlatGraph} {cs cs' : List Contest} {env env' : Program.Env}
variable {rails rails' : List PlanGuardrail} {e : Evidence} {fires fires' : Bytes → Prop}

/-- The contests of a graph, and those of the one that it is left of, come to the same up to their
order, if no exclusion group is split and mandates stay about the contests that they are about. -/
theorem perm_comesTo (h : k.Thins k') (hk : k.Tidy) (hk' : k'.Tidy) (hjoint : k.Joint k')
    (hcs : k.Arranges cs) (hcs' : k'.Arranges cs') (hdeclares : k.Declares cs)
    (hdeclares' : k'.Declares cs') {beats : FlatNode → FlatNode → Bool}
    (hhonest : k'.Honest e fires') (hsettled : ∀ c ∈ cs, c.Settled k e beats fires)
    (hsettled' : ∀ c ∈ cs', c.Settled k' e beats fires')
    (hrails : List.Forall₂ (PlanGuardrail.Matches env env') rails rails')
    (houtcome : env.outcome = env'.outcome)
    (hmandates : ∀ c ∈ cs', 1 < c.members.length → ∀ g ∈ rails, g.mode = .mandateDefault →
      g.names (c.members.map (·.id)) = true →
        1 < (k.left c).length ∧ g.names ((k.left c).map (·.id)) = true) :
    ((cs.map (·.members)).flatMap (comesTo env rails fires)).Perm
      ((cs'.map (·.members)).flatMap (comesTo env' rails' fires')) := by
  have hcontest : ∀ c ∈ cs, ∃ c' ∈ cs', k.left c' = c.members := fun c hc => by
    obtain ⟨hmem, -⟩ := List.mem_filter.1
      ((h.members_perm hk hk' hjoint hcs hcs' hdeclares hdeclares').subset
        (List.mem_map_of_mem hc))
    exact List.mem_map.1 hmem
  have hsettles : ∀ c ∈ cs, c.Settled k e beats fires' := fun c hc => by
    obtain ⟨c', hc', hleft⟩ := hcontest c hc
    exact h.settled hjoint hcs hcs' hhonest hc hc' hleft (hsettled' c' hc')
  have hsame : ∀ id ∈ k.ids, fires id ↔ fires' id := by
    intro id hid
    obtain ⟨n, hn, rfl⟩ := List.mem_map.1 hid
    obtain ⟨c, hc, hnc⟩ := List.mem_flatMap.1 (hcs.perm.mem_iff.2 hn)
    exact hcs.settled_unique hsettled hsettles c hc n.id ⟨n, hnc, rfl⟩
  have hnonempty : (((cs'.map k.left).filter fun ns => !ns.isEmpty).flatMap
      (comesTo env rails fires)) = (cs'.map k.left).flatMap (comesTo env rails fires) := by
    generalize cs'.map k.left = lefts
    induction lefts with
    | nil => rfl
    | cons ns lefts ih =>
      rw [List.filter_cons, List.flatMap_cons, ← ih]
      cases ns with
      | nil => rw [comesTo_nil]; rfl
      | cons n ns => rfl
  refine ((h.members_perm hk hk' hjoint hcs hcs' hdeclares hdeclares').flatMap_right _).trans
    (List.Perm.of_eq ?_)
  rw [hnonempty, List.flatMap_map, List.flatMap_map]
  exact List.flatMap_congr fun c hc => comesTo_left (fun id hid => h.kept_of_fires hhonest hid)
    hsame hrails houtcome (hmandates c hc)

end FlatGraph.Thins

end DecisionEngine
