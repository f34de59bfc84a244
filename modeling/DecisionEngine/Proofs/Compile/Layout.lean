import DecisionEngine.Proofs.Compile.Correctness
import DecisionEngine.Proofs.Plan.Selection
/-!
# The layout of compiled plans

The steps of a compiled plan hold every kept leaf once, and number them in their order.  Leaves
that exclude each other share a selection, where they are in the order of declaration.  A guard
asks about nodes of earlier steps, save that it may ask whether a rival in its own selection has
not fired; and a selection comes to a winner whichever of its branches are candidates.

* `Step.numbers`, `Blueprint.idsOf` — the nodes of a step.
* `EmissionContext.Guards.operand` — a guard asks about what its rule depends on.
* `Revision.Passed.numbered` — the steps number the nodes of a plan.
* `Revision.Passed.operand` — what a guard asks about is earlier, or a rival.
* `Revision.wellOrdered_compile` — compiled plans are `Blueprint.WellOrdered`.
* `Revision.exists_winner_compile` — their selections come to winners.
-/

namespace DecisionEngine

/-- The numbers of the nodes of a step, in the order of its choices. -/
def Step.numbers (step : Step) : List Nat := step.choices.map (·.1)

/-- The ids of the nodes of a step, in the order of its choices. -/
def Blueprint.idsOf (b : Blueprint) (step : Step) : List Bytes :=
  step.numbers.map fun i => (b.nodeId? i).getD []

/-! ## Steps and guards -/

namespace EmissionContext

variable {c : EmissionContext} {contest : Contest} {step : Step} {symbols : SymbolTable}

/-- The nodes of a step are the rules of the contest that it decides. -/
theorem Decides.numbers (h : c.Decides contest step symbols) :
    step.numbers = contest.members.map fun n => c.number n.id := by
  unfold Step.numbers
  rw [← List.forall₂_eq_eq_eq, List.forall₂_map_left_iff, List.forall₂_map_right_iff]
  exact h.choices.flip.imp fun _ _ hch => hch.1

/-- A guard asks only about nodes that an edge puts before its rule, and whether such a node has
fired only if the edge does not neutralize the rule. -/
theorem Guards.operand {n : FlatNode} {g : Guard} (h : c.Guards n g symbols) {ins : Instruction}
    (hins : ins ∈ g.program.code) (htest : ins.isTest = true) :
    ∃ e ∈ c.edges, ∃ a, e.ordering? = some (a, n.id) ∧ ins.a = UInt32.ofNat (c.number a) ∧
      (ins.op = .fired → e.kind ≠ .neutralizes) := by
  have hmem : ins ∈ (c.conjunctList n).flatMap Conjunct.tests := by
    rw [← h.tests]
    exact List.mem_filter.2 ⟨hins, htest⟩
  obtain ⟨cj, hcj, hin⟩ := List.mem_flatMap.1 hmem
  cases hasConjunct_of_mem hcj with
  | label p => cases hin
  | expression _ => cases hin
  | required hi =>
    obtain ⟨a, ha, rfl⟩ := mem_required_iff.1 hi
    rw [List.mem_singleton.1 hin]
    exact ⟨_, ha, a, rfl, rfl, fun _ => EdgeKind.noConfusion⟩
  | neutralizing hi =>
    obtain ⟨a, ha, rfl⟩ := mem_numbers_source_iff.1 hi
    rw [List.mem_singleton.1 hin]
    exact ⟨_, ha, a, rfl, rfl, Opcode.noConfusion⟩
  | flowing _ =>
    rw [Conjunct.tests, List.map_map] at hin
    obtain ⟨i, hi, rfl⟩ := List.mem_map.1 hin
    obtain ⟨a, ha, rfl⟩ := mem_numbers_source_iff.1 hi
    exact ⟨_, ha, a, rfl, rfl, fun _ => EdgeKind.noConfusion⟩

end EmissionContext

theorem map_idxOf_eq_range {l : List Bytes} (h : l.Nodup) :
    l.map l.idxOf = List.range l.length := by
  refine List.ext_getElem (by simp) fun i hi _ => ?_
  rw [List.getElem_map, List.getElem_range, h.idxOf_getElem]

namespace Revision

variable {r : Revision} {o : CompilerOptions} {b : Blueprint}

theorem mem_table_of_mem {contest : Contest} (hcontest : contest ∈ r.contests o) {n : FlatNode}
    (hn : n ∈ contest.members) : n.id ∈ (r.context o).table :=
  List.mem_map_of_mem (List.mem_flatMap.2 ⟨contest, hcontest, hn⟩)

namespace Passed

variable {contest : Contest} {step : Step} {before after : List Step}

/-! ## Numbers -/

/-- The steps of a plan number its nodes in their order. -/
theorem numbered (h : r.Passed o b) :
    b.steps.flatMap Step.numbers = List.range b.nodes.length := by
  have hsteps : b.steps.map Step.numbers =
      (r.contests o).map fun c => c.members.map fun n => (r.context o).number n.id := by
    rw [← List.forall₂_eq_eq_eq, List.forall₂_map_left_iff, List.forall₂_map_right_iff]
    exact h.plans.1.flip.imp fun _ _ hplan => hplan.decides.numbers
  have htable : (r.contests o).flatMap (fun c => c.members.map fun n => (r.context o).number n.id) =
      (r.context o).table.map (r.context o).table.idxOf := by
    change _ = (((r.contests o).flatMap (·.members)).map (·.id)).map _
    rw [List.map_map, List.map_flatMap]
    rfl
  rw [List.flatMap_def, hsteps, ← List.flatMap_def, htable, map_idxOf_eq_range h.nodup_table,
    ← h.nodes, List.length_map]

/-- Numbers below one of the first steps belong to the first steps. -/
theorem mem_numbers_of_le (h : r.Passed o b) (hsplit : b.steps = before ++ after) {i j : Nat}
    (hi : i ∈ before.flatMap Step.numbers) (hle : j ≤ i) : j ∈ before.flatMap Step.numbers := by
  have hrange := h.numbered
  rw [hsplit, List.flatMap_append] at hrange
  have hfirst : before.flatMap Step.numbers <+: List.range b.nodes.length := ⟨_, hrange⟩
  rw [List.prefix_iff_eq_take, List.take_range] at hfirst
  rw [hfirst, List.mem_range] at hi ⊢
  omega

/-- A step decides the contest at its place, and the steps before it those before. -/
theorem exists_split (h : r.Passed o b) (hsplit : b.steps = before ++ step :: after) :
    ∃ earlier contest later, r.contests o = earlier ++ contest :: later ∧
      (∀ d ∈ earlier, ∃ s ∈ before, (r.context o).Decides d s b.symbols) ∧
      (r.context o).Plans r.policy r.comparator contest b.symbols step := by
  have hplans := h.plans.1
  rw [hsplit] at hplans
  have hbefore := List.forall₂_take_append _ _ _ hplans
  have hafter := List.forall₂_drop_append _ _ _ hplans
  cases hrest : (r.contests o).drop before.length with
  | nil =>
    rw [hrest] at hafter
    cases hafter
  | cons contest later =>
    rw [hrest] at hafter
    obtain ⟨hplan, -⟩ := List.forall₂_cons.1 hafter
    refine ⟨(r.contests o).take before.length, contest, later, ?_, fun d hd => ?_, hplan⟩
    · rw [← hrest, List.take_append_drop]
    · obtain ⟨s, hs, hds⟩ := forall₂_of_mem_left hbefore hd
      exact ⟨s, hs, hds.decides⟩

/-! ## Contests -/

theorem idsOf_eq (h : r.Passed o b) (hcontest : contest ∈ r.contests o)
    (hdecides : (r.context o).Decides contest step b.symbols) :
    b.idsOf step = contest.members.map (·.id) := by
  unfold Blueprint.idsOf
  rw [hdecides.numbers, List.map_map]
  refine List.map_congr_left fun n hn => ?_
  rw [Function.comp_apply, h.nodeId?_eq, EmissionContext.number,
    List.getElem?_idxOf (mem_table_of_mem hcontest hn), Option.getD_some]

/-- The contest of a selection. -/
theorem exists_contest_of_selector (h : r.Passed o b) {s : Selector}
    (hs : Step.selector s ∈ b.steps) :
    ∃ d ∈ r.contests o, b.idsOf (.selector s) = d.members.map (·.id) := by
  obtain ⟨d, hd, hplan⟩ := forall₂_of_mem_left h.plans.1.flip hs
  exact ⟨d, hd, h.idsOf_eq hd hplan.decides⟩

/-- Different leaves share a selection exactly if they are rivals. -/
theorem share_selector_iff (h : r.Passed o b) {x y : Bytes} (hx : r.Kept o x) (hne : x ≠ y) :
    (∃ s, .selector s ∈ b.steps ∧ x ∈ b.idsOf (.selector s) ∧ y ∈ b.idsOf (.selector s)) ↔
      r.Rivals o x y := by
  constructor
  · rintro ⟨s, hs, hxs, hys⟩
    obtain ⟨d, hd, hids⟩ := h.exists_contest_of_selector hs
    rw [hids] at hxs hys
    obtain ⟨n, hn, rfl⟩ := List.mem_map.1 hxs
    obtain ⟨m, hm, rfl⟩ := List.mem_map.1 hys
    exact h.rivals_iff.2 ((h.arranges.rivals d hd n hn m).1 hm).2
  · intro hrivals
    obtain ⟨d, hd, ⟨n, hn, rfl⟩, hhas⟩ := h.exists_contest hx
    obtain ⟨m, hm, rfl⟩ := (hhas y).2 hrivals
    obtain ⟨step, hstep, hplan⟩ := forall₂_of_mem_left h.plans.1 hd
    have hids := h.idsOf_eq hd hplan.decides
    cases hplan with
    | sequential members =>
      rw [members, List.mem_singleton] at hn hm
      exact absurd (by rw [hn, hm]) hne
    | task members =>
      rw [members, List.mem_singleton] at hn hm
      exact absurd (by rw [hn, hm]) hne
    | selector several offers =>
      refine ⟨_, hstep, ?_, ?_⟩ <;> rw [hids]
      · exact List.mem_map_of_mem hn
      · exact List.mem_map_of_mem hm

/-! ## Declaration -/

/-- A kept leaf is declared, and its order is where. -/
theorem order_eq (h : r.Passed o b) {n : FlatNode} (hn : n ∈ (r.keptGraph o).nodes) :
    n.order = UInt32.ofNat (r.place n.id) ∧ n.id ∈ r.nodes.map (·.id) := by
  obtain ⟨m, hm, rfl⟩ := List.mem_map.1 (List.mem_filter.1 hn).1
  have hnode := (List.mem_filter.1 hm).1
  refine ⟨NormalGraph.order_ofRevision h.normal m hnode, ?_⟩
  obtain ⟨d, hd, hmd⟩ := (NormalGraph.stands_ofRevision h.normal).declared m hnode
  have hid : ((NormalGraph.ofRevision r).1.flatNode m).id = d.id := by
    rw [← d.represents_normal.id, ← hmd]
    rfl
  rw [hid]
  exact List.mem_map_of_mem hd

/-- The rules of a contest are in the order of declaration. -/
theorem pairwise_place (h : r.Passed o b) (hsize : r.nodes.length ≤ 2 ^ 32)
    (hcontest : contest ∈ r.contests o) :
    contest.members.Pairwise fun n m => r.place n.id < r.place m.id := by
  have hsorted : contest.members.Pairwise fun n m => n.order ≤ m.order := by
    have hmem := hcontest
    unfold contests at hmem
    rw [FlatGraph.contests_eq] at hmem
    obtain ⟨u, -, rfl⟩ := List.mem_map.1 hmem
    refine (List.pairwise_mergeSort (fun a b c hab hbc => ?_) (fun a b => ?_) _).imp
      fun hab => of_decide_eq_true hab
    · exact decide_eq_true (UInt32.le_trans (of_decide_eq_true hab) (of_decide_eq_true hbc))
    · simpa using UInt32.le_total a.order b.order
  have hdistinct := h.arranges.nodup_rules h.tidy hcontest
  rw [List.Nodup, List.pairwise_map] at hdistinct
  refine (List.Pairwise.and_mem.1 (hsorted.and hdistinct)).imp fun {n m} hnm => ?_
  obtain ⟨hn, hm, hle, hne⟩ := hnm
  obtain ⟨horder, hnid⟩ := h.order_eq (h.arranges.mem_nodes hcontest hn)
  obtain ⟨horder', hmid⟩ := h.order_eq (h.arranges.mem_nodes hcontest hm)
  have hlt : ∀ {id}, id ∈ r.nodes.map (·.id) → r.place id < 2 ^ 32 := fun hid =>
    (List.idxOf_lt_length_of_mem hid).trans_le (by simpa using hsize)
  rw [horder, horder', UInt32.le_iff_toNat_le, UInt32.toNat_ofNat_of_lt' (hlt hnid),
    UInt32.toNat_ofNat_of_lt' (hlt hmid)] at hle
  exact Nat.lt_of_le_of_ne hle fun hsame => hne ((List.idxOf_inj hnid).1 hsame)

/-! ## Operands -/

/-- What a guard asks about is a node of an earlier step, or, if it asks whether a node has not
fired, another node of its own step. -/
theorem operand (h : r.Passed o b) (hsplit : b.steps = before ++ step :: after)
    {ch : Nat × Guard} (hch : ch ∈ step.choices) {ins : Instruction}
    (hins : ins ∈ ch.2.program.code) (htest : ins.isTest = true) :
    (∃ s ∈ before, ins.a.toNat ∈ s.numbers) ∨
      (ins.op ≠ .fired ∧ ∃ i ∈ step.numbers, i ≠ ch.1 ∧ ins.a = UInt32.ofNat i) := by
  obtain ⟨earlier, contest, later, hcontests, hbefore, hplan⟩ := h.exists_split hsplit
  have hcontest : contest ∈ r.contests o := by simp [hcontests]
  obtain ⟨n, hn, hnumber, hguards⟩ := forall₂_of_mem_left hplan.decides.choices.flip hch
  obtain ⟨e, he, a, hordering, hoperand, hkind⟩ := hguards.operand hins htest
  rcases h.arranges.order earlier contest later hcontests n hn e he a hordering with
    ⟨d, hd, m, hm, rfl⟩ | ⟨hneutralizes, m, hm, rfl⟩
  · left
    obtain ⟨s, hs, hdecides⟩ := hbefore d hd
    have hnumbers : (r.context o).number m.id ∈ s.numbers := by
      rw [hdecides.numbers]
      exact List.mem_map.2 ⟨m, hm, rfl⟩
    have hle : ins.a.toNat ≤ (r.context o).number m.id := by
      rw [hoperand, UInt32.toNat_ofNat']
      exact Nat.mod_le ..
    exact List.mem_flatMap.1
      (h.mem_numbers_of_le hsplit (List.mem_flatMap.2 ⟨s, hs, hnumbers⟩) hle)
  · right
    refine ⟨fun hop => hkind hop hneutralizes, (r.context o).number m.id, ?_, ?_, hoperand⟩
    · rw [hplan.decides.numbers]
      exact List.mem_map.2 ⟨m, hm, rfl⟩
    · have hends : e.source ≠ e.target := ((h.depicts.edges e).1 he).1
      have hne : m.id ≠ n.id := by
        rcases Edge.ends_of_ordering? hordering with ⟨hs, ht⟩ | ⟨ht, hs⟩
        · rwa [hs, ht]
        · rw [hs, ht]
          exact hends.symm
      rw [hnumber]
      exact fun hsame => hne ((List.idxOf_inj (mem_table_of_mem hcontest hm)).1 hsame)

end Passed
end Revision

/-! ## Well-ordered plans -/

/-- A plan is a well-ordered one of a revision.  Its nodes are the kept leaves, and its steps hold
each of them once, numbered in the order of the steps and their branches.  Leaves share a selection
if exclusions between kept leaves connect them, and in a selection they are in the order of
declaration.  What a guard asks to have fired is a node of an earlier step, and what it asks not to
have fired is such a node or a node of another branch of its selection. -/
structure Blueprint.WellOrdered (b : Blueprint) (r : Revision) (o : CompilerOptions) : Prop where
  distinct : (b.nodes.map (·.id)).Nodup
  kept : ∀ id, id ∈ b.nodes.map (·.id) ↔ r.Kept o id
  numbered : b.steps.flatMap Step.numbers = List.range b.nodes.length
  rivals : ∀ x y, r.Kept o x → r.Kept o y → x ≠ y →
    ((∃ s, .selector s ∈ b.steps ∧ x ∈ b.idsOf (.selector s) ∧ y ∈ b.idsOf (.selector s)) ↔
      r.Rivals o x y)
  declared : r.nodes.length ≤ 2 ^ 32 → ∀ s, .selector s ∈ b.steps →
    (b.idsOf (.selector s)).Pairwise fun x y => r.place x < r.place y
  fired : ∀ before step after, b.steps = before ++ step :: after → ∀ g ∈ step.guards,
    ∀ ins ∈ g.program.code, ins.op = .fired → ∃ earlier ∈ before, ins.a.toNat ∈ earlier.numbers
  notFired : b.nodes.length ≤ 2 ^ 32 → ∀ before step after, b.steps = before ++ step :: after →
    ∀ ch ∈ step.choices, ∀ ins ∈ ch.2.program.code, ins.op = .notFired →
      (∃ earlier ∈ before, ins.a.toNat ∈ earlier.numbers) ∨
      ∃ s, step = .selector s ∧ ∃ br ∈ s.branches, br.node = ins.a.toNat ∧ br.node ≠ ch.1

namespace Revision

variable {r : Revision} {o : CompilerOptions} {b : Blueprint}

/-- **Compiled plans are well ordered.**  Instructions have 32 bits for the number of a node, and so
has its place in the order of declaration: the order in selections is claimed of revisions, and that
no guard asks its own node not to have fired of plans, in which 32 bits suffice. -/
theorem wellOrdered_compile (h : (r.compile o).blueprint = some b) : b.WellOrdered r o := by
  have hpassed := passed_of_compile h
  refine ⟨?_, fun id => ?_, hpassed.numbered, fun x y hx _ hne => hpassed.share_selector_iff hx hne,
    fun hsize s hs => ?_, ?_, ?_⟩
  · rw [hpassed.nodes]
    exact hpassed.nodup_table
  · rw [hpassed.nodes, ← hpassed.depicts.kept]
    exact (hpassed.arranges.perm.map _).mem_iff
  · obtain ⟨d, hd, hids⟩ := hpassed.exists_contest_of_selector hs
    rw [hids, List.pairwise_map]
    exact hpassed.pairwise_place hsize hd
  · intro before step after hsplit g hg ins hins hop
    rw [Step.guards_eq] at hg
    obtain ⟨ch, hch, rfl⟩ := List.mem_map.1 hg
    have htest : ins.isTest = true := by simp [Instruction.isTest, hop]
    exact (hpassed.operand hsplit hch hins htest).resolve_right fun hnot => hnot.1 hop
  · intro hsize before step after hsplit ch hch ins hins hop
    have htest : ins.isTest = true := by simp [Instruction.isTest, hop]
    refine (hpassed.operand hsplit hch hins htest).imp_right ?_
    rintro ⟨-, i, hi, hne, hoperand⟩
    have hlt : i < b.nodes.length := by
      rw [← List.mem_range, ← hpassed.numbered, hsplit]
      exact List.mem_flatMap.2 ⟨step, by simp, hi⟩
    rw [hoperand, UInt32.toNat_ofNat_of_lt' (hlt.trans_le hsize)]
    -- A step that is no selection has only the one node.
    cases step with
    | sequential node g =>
      rw [List.mem_singleton.1 hi, List.mem_singleton.1 hch] at hne
      exact absurd rfl hne
    | task node g outcome =>
      rw [List.mem_singleton.1 hi, List.mem_singleton.1 hch] at hne
      exact absurd rfl hne
    | selector s =>
      simp only [Step.numbers, Step.choices, List.map_map, List.mem_map, Function.comp_apply] at hi
      obtain ⟨br, hbr, rfl⟩ := hi
      exact ⟨s, rfl, br, hbr, rfl, hne⟩

/-- Three offers that exclude one another.  A gift dominates points, and rewards, which are both,
dominate getting nothing, which is also said to dominate itself.  It is neutralized by a gift, and
neutralizes a letter. -/
def rewardsSample : Revision where
  graph := utf8 "rewards"
  version := 1
  tenant := []
  decisionType := []
  catalog := .empty
  nodes := [⟨utf8 "start", [], 0, .zero, .decision ⟨[], []⟩⟩,
    ⟨utf8 "points", [], 0, .zero, .action ⟨[], []⟩ ⟨utf8 "points", .empty⟩⟩,
    ⟨utf8 "none", [], 0, .zero, .evaluator ⟨[], []⟩⟩,
    ⟨utf8 "gift", [], 0, .zero, .action ⟨[utf8 "loyal"], []⟩ ⟨utf8 "gift", .empty⟩⟩,
    ⟨utf8 "rewards", [], 0, .zero, .composite ⟨[], []⟩ [utf8 "gift", utf8 "points"]⟩,
    ⟨utf8 "letter", [], 0, .zero, .action ⟨[], []⟩ ⟨utf8 "letter", .empty⟩⟩]
  edges := [⟨utf8 "start", .flowsTo, utf8 "rewards"⟩, ⟨utf8 "start", .flowsTo, utf8 "none"⟩,
    ⟨utf8 "start", .flowsTo, utf8 "letter"⟩, ⟨utf8 "rewards", .excludes, utf8 "none"⟩,
    ⟨utf8 "gift", .dominates, utf8 "points"⟩, ⟨utf8 "rewards", .dominates, utf8 "none"⟩,
    ⟨utf8 "none", .dominates, utf8 "none"⟩, ⟨utf8 "gift", .neutralizes, utf8 "none"⟩,
    ⟨utf8 "none", .neutralizes, utf8 "letter"⟩]
  policy := .highestPriority
  comparator := []
  guardrails := []

set_option maxRecDepth 100000 in
theorem compile_rewardsSample : (rewardsSample.compile .standard).blueprint =
    some (rewardsSample.planned .standard) := compile_of_accepted rfl (by cbv)

theorem wellOrdered_compile_rewards : ∃ b, (rewardsSample.compile .standard).blueprint = some b ∧
    b.WellOrdered rewardsSample .standard :=
  ⟨_, compile_rewardsSample, wellOrdered_compile compile_rewardsSample⟩

/-! ## Selections -/

/-- **Selections of compiled plans come to winners.**  Whatever dominates what in a revision, if it
is compiled, then each selection of its plan picks one of any candidates, and never finds that all
of them are dominated. -/
theorem exists_winner_compile (h : (r.compile o).blueprint = some b) {s : Selector}
    (hs : .selector s ∈ b.steps) (comparators : Comparators) {places : List Nat}
    (hne : places ≠ []) (hplaces : ∀ i ∈ places, i < s.branches.length) :
    ∃ v w, s.arbitrate comparators b.nodes places = .ok v ∧ v.winner = some w ∧ w ∈ places ∧
      ∀ i ∈ places, ¬s.Dominates i w := by
  have hrunnable := (passed_of_compile h).runnable _ hs
  exact Selector.exists_winner hne hplaces
    (fun br hbr => hrunnable.nodes (br.node, br.guard) (List.mem_map.2 ⟨br, hbr, rfl⟩))
    hrunnable.acyclic

set_option maxRecDepth 100000 in
theorem exists_winner_compile_rewards : ∃ b s,
    (rewardsSample.compile .standard).blueprint = some b ∧ .selector s ∈ b.steps ∧
    ∃ v w, s.arbitrate .empty b.nodes [0, 2] = .ok v ∧ v.winner = some w ∧ w ∈ [0, 2] ∧
      ∀ i ∈ [0, 2], ¬s.Dominates i w := by
  have hthree : (rewardsSample.contests .standard).any (·.members.length == 3) = true := by cbv
  have hb := compile_rewardsSample
  obtain ⟨d, hd, hlength⟩ := List.any_eq_true.1 hthree
  obtain ⟨step, hstep, hplan⟩ := forall₂_of_mem_left (passed_of_compile hb).plans.1 hd
  cases hplan with
  | sequential members => simp [members] at hlength
  | task members => simp [members] at hlength
  | selector several offers =>
    have hplaces : ∀ i ∈ [0, 2], i < d.members.length := by
      rw [eq_of_beq hlength]
      decide
    rw [offers.length_eq] at hplaces
    exact ⟨_, _, hb, hstep, exists_winner_compile hb hstep .empty (by decide) hplaces⟩

end Revision
end DecisionEngine
