import DecisionEngine.Proofs.Compile.Runs
import Mathlib
/-!
# Plans do what rule graphs say

What fires when the plan of a revision is run is what the nodes and edges of the revision say,
whatever the attributes and inputs are, and whichever comparators there are.

* `Revision.Passed.carriesOut` — the plan of an accepted revision carries out its contests.
* `Revision.Passed.runnable` — its steps can be run.
* `Revision.Passed.eligible_iff` — eligibility in the graph of kept leaves is what was authored.
* `Revision.honoredBy_compile` — running the plan fires what the revision says.
-/

namespace DecisionEngine

open Relation (EqvGen)

/-- A node of a plan has fired in a run. -/
def Blueprint.Fires (b : Blueprint) (p : Progress) (id : Bytes) : Prop :=
  ∃ i, b.nodeId? i = some id ∧ p.fired[i]? = some true

namespace Revision

variable {r : Revision} {o : CompilerOptions} {b : Blueprint}

/-- What the plan of a revision was emitted with. -/
def context (r : Revision) (o : CompilerOptions) : EmissionContext :=
  r.emissionContext o.maxAttributeBits (r.keptGraph o) (r.contests o)

/-- A plan numbers the rules of its contests in their order. -/
theorem table_context (r : Revision) (o : CompilerOptions) :
    (r.context o).table = ((r.contests o).flatMap (·.members)).map (·.id) := by
  unfold context emissionContext
  rfl

/-- The plan of a revision, before it is sealed. -/
def draft (r : Revision) (o : CompilerOptions) : Blueprint :=
  r.emitted o.maxAttributeBits (r.keptGraph o) (r.contests o)

/-- What is true of a plan whatever its bytes and their hash are is true of it. -/
theorem planned_of_draft {P : Blueprint → Prop}
    (h : ∀ bytes hash, P ((r.draft o).resealed bytes hash)) : P (r.planned o) :=
  h (r.draft o).encode (Fnv.hash (r.draft o).encode)

namespace Passed

theorem tidy (h : r.Passed o b) : (r.keptGraph o).Tidy := h.depicts.tidy

/-- The contests of an accepted revision arrange its kept leaves. -/
theorem arranges (h : r.Passed o b) : (r.keptGraph o).Arranges (r.contests o) :=
  FlatGraph.arranges_contests h.tidy h.ordered h.settled

/-- The nodes of a plan are the rules of the contests, in their order. -/
theorem nodes (h : r.Passed o b) : b.nodes.map (·.id) = (r.context o).table := by
  rw [h.emitted]
  exact nodes_emit ..

theorem nodeId?_eq (h : r.Passed o b) (i : Nat) : b.nodeId? i = (r.context o).table[i]? := by
  rw [← h.nodes, List.getElem?_map]
  rfl

theorem nodup_table (h : r.Passed o b) : (r.context o).table.Nodup :=
  (h.arranges.perm.map _).nodup_iff.2 h.tidy.nodup

/-- The steps of a plan are what the contests are emitted as, one by one, and its guardrails enforce
those of the revision. -/
theorem plans (h : r.Passed o b) :
    List.Forall₂ (fun contest step => (r.context o).Plans r.policy r.comparator contest b.symbols
      step) (r.contests o) b.steps ∧
    List.Forall₂ (fun rail g => rail.EnforcedBy g b.symbols) r.guardrails b.guardrails := by
  rw [h.emitted]
  exact plans_emit h.arranges.nonempty fun c hc n hn =>
    h.depicts.usable n (h.arranges.mem_nodes hc hn)

/-- The plan of an accepted revision carries out its contests. -/
theorem carriesOut (h : r.Passed o b) (hsize : b.Addressable) :
    (r.context o).CarriesOut r (r.keptGraph o) (r.contests o) b :=
  ⟨h.tidy, h.arranges, h.depicts.usable, rfl, r.table_context o, h.nodes, h.plans.1, hsize⟩

/-- The plan of an accepted revision can run all its steps, however large it is. -/
theorem runnable (h : r.Passed o b) : ∀ step ∈ b.steps, step.Runnable b := by
  intro step hstep
  obtain ⟨contest, hcontest, hplans⟩ := forall₂_of_mem_left h.plans.1.flip hstep
  have hlength : (r.context o).table.length = b.nodes.length := by
    rw [← h.nodes, List.length_map]
  refine EmissionContext.CarriesOut.runnable_of_decides hplans.decides hlength h.arranges hcontest
    fun id hid => ?_
  obtain ⟨n, hn, rfl⟩ := hid
  exact List.mem_map_of_mem (List.mem_flatMap.2 ⟨contest, hcontest, hn⟩)

/-! ## Eligibility -/

theorem rivals_iff (h : r.Passed o b) {x y : Bytes} :
    r.Rivals o x y ↔ EqvGen (r.keptGraph o).Excludes x y := h.depicts.rivals_iff

/-- Eligibility in the graph of kept leaves is what was authored. -/
theorem eligible_iff (h : r.Passed o b) {e : Evidence} {fires : Bytes → Prop}
    (hfires : ∀ id, fires id → r.Kept o id) {n : FlatNode} (hn : n ∈ (r.keptGraph o).nodes) :
    (r.keptGraph o).Eligible e fires n ↔ r.Eligible o e fires n.id := by
  have hd := h.depicts
  have hkept : r.Kept o n.id := (hd.kept _).1 (List.mem_map_of_mem hn)
  constructor
  · rintro ⟨hmet, hrequired, hneutralized, hreached⟩
    refine ⟨(hd.met n hn e).1 hmet, fun other hjoins => ?_, fun other hjoins houter hother => ?_,
      ?_⟩
    · obtain ⟨hother, hne⟩ := hd.requires _ _ hkept hjoins
      exact hrequired other ((hd.edges _).2 ⟨hne, hkept, hother, hjoins⟩)
    · have hne : other ≠ n.id := by
        rintro rfl
        exact houter (.refl _)
      refine hneutralized other ?_ (fun hrival => houter (h.rivals_iff.2 hrival)) hother
      exact (hd.edges _).2 ⟨hne, hfires other hother, hkept, hjoins⟩
    · rintro ⟨other, hjoins⟩
      obtain ⟨c, hc, hcn⟩ := hd.flowsTo _ _ hkept hjoins
      have hne : c ≠ n.id := hd.apart .flowsTo c n.id rfl hcn
      obtain ⟨a, ha, hfa⟩ := hreached ⟨c, (hd.edges _).2 ⟨hne, hc, hkept, hcn⟩⟩
      obtain ⟨-, hka, -, hjoinsa⟩ := (hd.edges _).1 ha
      exact ⟨a, hka, hjoinsa, hfa⟩
  · rintro ⟨henabled, hrequired, hneutralized, hreached⟩
    refine ⟨(hd.met n hn e).2 henabled, fun other he => ?_, fun other he houter => ?_, ?_⟩
    · exact hrequired other ((hd.edges _).1 he).2.2.2
    · exact hneutralized other ((hd.edges _).1 he).2.2.2 fun hrival =>
        houter (h.rivals_iff.1 hrival)
    · rintro ⟨a, ha⟩
      obtain ⟨c, hc, hjoins, hfc⟩ := hreached ⟨a, ((hd.edges _).1 ha).2.2.2⟩
      have hne : c ≠ n.id := hd.apart .flowsTo c n.id rfl hjoins
      exact ⟨c, (hd.edges _).2 ⟨hne, hc, hkept, hjoins⟩, hfc⟩

/-- The rules of the contest of a kept leaf are its rivals. -/
theorem exists_contest (h : r.Passed o b) {id : Bytes} (hid : r.Kept o id) :
    ∃ d ∈ r.contests o, (∃ n ∈ d.members, n.id = id) ∧
      ∀ other, d.Has other ↔ r.Rivals o id other := by
  have harranges := h.arranges
  obtain ⟨n, hn, rfl⟩ := List.mem_map.1 ((h.depicts.kept id).2 hid)
  obtain ⟨d, hd, hnd⟩ := List.mem_flatMap.1 (harranges.perm.mem_iff.2 hn)
  refine ⟨d, hd, ⟨n, hnd, rfl⟩, fun other => ⟨fun hhas => ?_, fun hrival => ?_⟩⟩
  · obtain ⟨m, hm, rfl⟩ := hhas
    exact h.rivals_iff.2 ((harranges.rivals d hd n hnd m).1 hm).2
  · have hother := (h.depicts.kept other).2 ((kept_of_rivals hrival).1 hid)
    exact (harranges.has_iff hd hnd hother).2 (h.rivals_iff.1 hrival)

/-! ## Runs -/

theorem fires_iff (h : r.Passed o b) {p : Progress}
    (hlength : p.fired.length = (r.context o).table.length) {id : Bytes} :
    b.Fires p id ↔ (r.context o).Fired p.fired id := by
  unfold Blueprint.Fires EmissionContext.Fired EmissionContext.number
  constructor
  · rintro ⟨i, hi, hfired⟩
    rw [h.nodeId?_eq] at hi
    obtain ⟨hlt, rfl⟩ := List.getElem?_eq_some_iff.1 hi
    rwa [h.nodup_table.idxOf_getElem]
  · intro hfired
    have hlt := (List.getElem?_eq_some_iff.1 hfired).1
    rw [hlength] at hlt
    refine ⟨_, ?_, hfired⟩
    rw [h.nodeId?_eq, List.getElem?_idxOf (List.idxOf_lt_length_iff.1 hlt)]

/-- Where every contest is resolved, what fires is what the revision says. -/
theorem honoredBy_of_resolved (h : r.Passed o b) {e : Evidence}
    {fires : Bytes → Prop} (hfires : ∀ id, fires id → r.Kept o id)
    (hresolved : ∀ d ∈ r.contests o, d.Resolved (r.keptGraph o) e fires) :
    r.HonoredBy o e fires := by
  have harranges := h.arranges
  have heligible : ∀ d ∈ r.contests o, ∀ n ∈ d.members,
      ((r.keptGraph o).Eligible e fires n ↔ r.Eligible o e fires n.id) := fun d hd n hn =>
    h.eligible_iff hfires (harranges.mem_nodes hd hn)
  refine ⟨hfires, fun id hid halone => ?_, fun id hid => ?_, fun id hfire => ?_,
    fun id hfire other hrival hne he hjoins => ?_⟩
  · obtain ⟨d, hd, ⟨n, hn, rfl⟩, hrivals⟩ := h.exists_contest hid
    constructor
    · intro hfire
      exact (heligible d hd n hn).1 ((hresolved d hd).eligible n hn hfire)
    · intro he
      obtain ⟨m, hm, hfire⟩ := (hresolved d hd).decided ⟨n, hn, (heligible d hd n hn).2 he⟩
      rwa [← halone m.id ((hrivals m.id).1 ⟨m, hm, rfl⟩)]
  · rintro ⟨other, hrival, he⟩
    obtain ⟨d, hd, -, hrivals⟩ := h.exists_contest hid
    obtain ⟨n, hn, rfl⟩ := (hrivals other).2 hrival
    obtain ⟨w, hw, hfire⟩ := (hresolved d hd).decided ⟨n, hn, (heligible d hd n hn).2 he⟩
    refine ⟨w.id, ⟨(hrivals w.id).1 ⟨w, hw, rfl⟩, hfire⟩, ?_⟩
    rintro y ⟨hy, hfirey⟩
    obtain ⟨m, hm, rfl⟩ := (hrivals y).2 hy
    rw [(hresolved d hd).single m hm w hw hfirey hfire]
  · obtain ⟨d, hd, ⟨n, hn, rfl⟩, -⟩ := h.exists_contest (hfires id hfire)
    exact (heligible d hd n hn).1 ((hresolved d hd).eligible n hn hfire)
  · have hid := hfires id hfire
    obtain ⟨d, hd, ⟨n, hn, rfl⟩, hrivals⟩ := h.exists_contest hid
    obtain ⟨m, hm, rfl⟩ := (hrivals other).2 hrival
    refine (hresolved d hd).undominated n hn hfire m hm (fun hsame => hne (by rw [hsame]))
      ((heligible d hd m hm).2 he) ?_
    rw [harranges.dominates d hd]
    refine ⟨⟨m, hm, rfl⟩, ⟨n, hn, rfl⟩, (h.depicts.edges _).2 ⟨hne, ?_, hid, hjoins⟩⟩
    exact (kept_of_rivals hrival).1 hid

end Passed

/-- **Running a plan means what the graph says.**  If a revision is compiled, with whichever
options, then its plan can be run on all attributes and inputs, with whichever comparators.  Its
nodes are the kept leaves, and those fire that the revision says should: given which others fire, a
leaf without rivals exactly if it is eligible; of rivals exactly one, if one is eligible; and only
eligible ones that no eligible rival dominates. -/
theorem honoredBy_compile (h : (r.compile o).blueprint = some b) (hsize : b.Addressable)
    (attributes inputs : AttributeSet) (verbose : Bool) (comparators : Comparators) :
    ((b.nodes.map (·.id)).Nodup ∧ ∀ id, id ∈ b.nodes.map (·.id) ↔ r.Kept o id) ∧
    ∃ p, (Situation.ofAttributes b (b.catalog.maskOf attributes) attributes inputs verbose
        comparators false).runSteps b.steps.zipIdx (.start b) = .ok p ∧
      r.HonoredBy o ⟨attributes, inputs, .empty, []⟩ (b.Fires p) := by
  have hpassed := passed_of_compile h
  have hplan := hpassed.carriesOut hsize
  have hcatalog : b.catalog = (r.context o).catalog := by
    rw [hpassed.emitted]
    rfl
  obtain ⟨p, hrun, hstage⟩ := hplan.exists_runSteps attributes inputs verbose comparators
  have hlength := hstage.length
  have hresolved : ∀ d ∈ r.contests o, d.Resolved (r.keptGraph o) _ _ := fun d hd => by
    obtain ⟨beats, -, hsettled⟩ := hstage.settled d hd
    exact hsettled.resolved (hplan.arranges.acyclic d hd)
  unfold EmissionContext.situation at hrun
  rw [← hcatalog] at hrun
  have hfires : b.Fires p = (r.context o).Fired p.fired :=
    funext fun id => propext (hpassed.fires_iff hlength)
  have htable : ∀ id, id ∈ (r.context o).table ↔ r.Kept o id := fun id => by
    rw [hplan.mem_table, hpassed.depicts.kept]
  have hkept : ∀ id, (r.context o).Fired p.fired id → r.Kept o id := by
    intro id hfired
    have hlt := (List.getElem?_eq_some_iff.1 hfired).1
    rw [hlength] at hlt
    exact (htable id).1 (List.idxOf_lt_length_iff.1 hlt)
  refine ⟨⟨?_, fun id => by rw [hplan.nodes, htable]⟩, p, hrun, ?_⟩
  · rw [hplan.nodes, hplan.table]
    exact (hplan.arranges.perm.map _).nodup_iff.2 hplan.tidy.nodup
  · rw [hfires]
    exact hpassed.honoredBy_of_resolved hkept hresolved

/-- Two actions that exclude each other behind a decision: loyal customers get a gift, which
dominates getting nothing. -/
def sample : Revision where
  graph := utf8 "offers"
  version := 1
  tenant := []
  decisionType := []
  catalog := .empty
  nodes := [⟨utf8 "start", [], 0, .zero, .decision ⟨[], []⟩⟩,
    ⟨utf8 "gift", [], 0, .zero, .action ⟨[utf8 "loyal"], []⟩ ⟨utf8 "gift", .empty⟩⟩,
    ⟨utf8 "none", [], 0, .zero, .action ⟨[], []⟩ ⟨utf8 "none", .empty⟩⟩]
  edges := [⟨utf8 "start", .flowsTo, utf8 "gift"⟩, ⟨utf8 "start", .flowsTo, utf8 "none"⟩,
    ⟨utf8 "gift", .excludes, utf8 "none"⟩, ⟨utf8 "gift", .dominates, utf8 "none"⟩]
  policy := .highestPriority
  comparator := []
  guardrails := []

set_option maxRecDepth 100000 in
theorem honoredBy_compile_sample : ∃ b, (sample.compile .standard).blueprint = some b ∧
    b.Addressable ∧ ∃ p, (Situation.ofAttributes b (b.catalog.maskOf .empty) .empty .empty false
        .empty false).runSteps b.steps.zipIdx (.start b) = .ok p ∧
      sample.HonoredBy .standard ⟨.empty, .empty, .empty, []⟩ (b.Fires p) := by
  have hb := compile_of_accepted rfl (by cbv : sample.accepted .standard = true)
  have hsize : (sample.planned .standard).Addressable :=
    planned_of_draft fun _ _ => of_decide_eq_true (by cbv)
  exact ⟨_, hb, hsize, (honoredBy_compile hb hsize .empty .empty false .empty).2⟩

end Revision
end DecisionEngine
