import DecisionEngine.Proofs.Compile.Kept
import DecisionEngine.Proofs.Compile.Ordering
import DecisionEngine.Proofs.Plan.Steps
/-!
# What contests come to

Of the eligible rules of a contest one is picked, and that one fires.  Whether a rule is eligible is
settled by the contests before its own.

* `FlatGraph.Eligible` — everything holds that a rule asks for, given which rules fire.
* `Contest.Settled` — the rule fires that is picked of the eligible ones, and no other one.
* `Contest.Resolved` — what follows from that, whichever rules beat which.
* `Contest.decisions`, `Contest.opens` — what a contest adds to a run.
-/

namespace DecisionEngine

open Relation (TransGen EqvGen)

/-! ## Contests -/

/-- Everything holds that a rule asks for, given which rules fire. -/
structure FlatGraph.Eligible (k : FlatGraph) (e : Evidence) (fires : Bytes → Prop) (n : FlatNode) :
    Prop where
  met : n.Met e
  required : ∀ b, ⟨n.id, .requires, b⟩ ∈ k.edges → fires b
  neutralized : ∀ a, ⟨a, .neutralizes, n.id⟩ ∈ k.edges → ¬EqvGen k.Excludes n.id a → ¬fires a
  reached : (∃ a, ⟨a, .flowsTo, n.id⟩ ∈ k.edges) →
    ∃ a, ⟨a, .flowsTo, n.id⟩ ∈ k.edges ∧ fires a

/-- What a rule decides where it fires. -/
def FlatNode.decisions (n : FlatNode) (index : Nat) : List Decision :=
  (n.outcome.map fun o => Decision.chosenBy n.id o.action o.params index).toList

namespace Contest

/-- Whether a rule of a contest dominates another one. -/
def dominatesIn (c : Contest) (n m : FlatNode) : Bool := c.dominates.contains (n.id, m.id)

open Classical in
/-- The eligible rules of a contest, in the order of declaration. -/
noncomputable def eligible (c : Contest) (k : FlatGraph) (e : Evidence) (fires : Bytes → Prop) :
    List FlatNode := c.members.filter fun n => k.Eligible e fires n

/-- A contest is settled: the rule fires that is picked of the eligible ones, and no other one. -/
def Settled (c : Contest) (k : FlatGraph) (e : Evidence) (beats : FlatNode → FlatNode → Bool)
    (fires : Bytes → Prop) : Prop :=
  ∀ n ∈ c.members, fires n.id ↔ pick c.dominatesIn beats (c.eligible k e fires) = some n

open Classical in
/-- What the rules of a contest decide that fire. -/
noncomputable def decisions (c : Contest) (fires : Bytes → Prop) (index : Nat) : List Decision :=
  (c.members.filter fun n => fires n.id).flatMap (·.decisions index)

open Classical in
/-- A contest between several rules stays unresolved where none of them fires. -/
noncomputable def opens (c : Contest) (fires : Bytes → Prop) (index : Nat) : List Nat :=
  if 1 < c.members.length ∧ ∀ n ∈ c.members, ¬fires n.id then [index] else []

/-- A contest has the result that it should have: a rule of it fires if one is eligible, and then
only that one, which is eligible and not dominated by an eligible one. -/
structure Resolved (c : Contest) (k : FlatGraph) (e : Evidence) (fires : Bytes → Prop) :
    Prop where
  eligible : ∀ n ∈ c.members, fires n.id → k.Eligible e fires n
  decided : (∃ n ∈ c.members, k.Eligible e fires n) → ∃ n ∈ c.members, fires n.id
  single : ∀ n ∈ c.members, ∀ m ∈ c.members, fires n.id → fires m.id → n = m
  undominated : ∀ n ∈ c.members, fires n.id → ∀ m ∈ c.members, m ≠ n → k.Eligible e fires m →
    (m.id, n.id) ∉ c.dominates

variable {c : Contest} {k : FlatGraph} {e : Evidence} {fires fires' : Bytes → Prop}
variable {beats : FlatNode → FlatNode → Bool}

theorem mem_eligible {n : FlatNode} :
    n ∈ c.eligible k e fires ↔ n ∈ c.members ∧ k.Eligible e fires n := by
  classical
  rw [eligible, List.mem_filter, decide_eq_true_iff]

theorem eligible_congr
    (h : ∀ n ∈ c.members, (k.Eligible e fires n ↔ k.Eligible e fires' n)) :
    c.eligible k e fires = c.eligible k e fires' := by
  classical
  exact List.filter_congr fun n hn => decide_eq_decide.2 (h n hn)

theorem decisions_congr (h : ∀ n ∈ c.members, (fires n.id ↔ fires' n.id)) (index : Nat) :
    c.decisions fires index = c.decisions fires' index := by
  classical
  unfold decisions
  rw [List.filter_congr fun n hn => decide_eq_decide.2 (h n hn)]

theorem opens_congr (h : ∀ n ∈ c.members, (fires n.id ↔ fires' n.id)) (index : Nat) :
    c.opens fires index = c.opens fires' index := by
  classical
  exact if_congr (and_congr_right fun _ => forall₂_congr fun n hn => not_congr (h n hn)) rfl rfl

theorem decisions_of_none (h : ∀ n ∈ c.members, ¬fires n.id) (index : Nat) :
    c.decisions fires index = [] := by
  classical
  unfold decisions
  rw [List.filter_eq_nil_iff.2 fun n hn => by simpa using h n hn]
  rfl

/-- What the only rule of a contest that fires decides. -/
theorem decisions_of_one (hnodup : c.members.Nodup) {n : FlatNode} (hn : n ∈ c.members)
    (h : ∀ m ∈ c.members, (fires m.id ↔ m = n)) (index : Nat) :
    c.decisions fires index = n.decisions index := by
  classical
  have hone : (c.members.filter fun n => fires n.id) = [n] := by
    rw [← List.perm_singleton, List.perm_ext_iff_of_nodup (hnodup.filter _) (List.nodup_singleton n)]
    intro m
    rw [List.mem_filter, decide_eq_true_iff, List.mem_singleton]
    constructor
    · rintro ⟨hm, hfires⟩
      exact (h m hm).1 hfires
    · rintro rfl
      exact ⟨hn, (h m hn).2 rfl⟩
  unfold decisions
  rw [hone, List.flatMap_singleton]

theorem opens_of_one {n : FlatNode} (hn : n ∈ c.members) (h : fires n.id) (index : Nat) :
    c.opens fires index = [] := by
  classical
  exact if_neg fun hnone => hnone.2 n hn h

/-- Something is picked where something is eligible. -/
theorem exists_pick_eligible (beats : FlatNode → FlatNode → Bool)
    (hacyclic : ∀ a, ¬TransGen (fun x y => (x, y) ∈ c.dominates) a a)
    (h : ∃ n ∈ c.members, k.Eligible e fires n) :
    ∃ n, pick c.dominatesIn beats (c.eligible k e fires) = some n := by
  obtain ⟨n, hn, he⟩ := h
  refine exists_pick _ _ (List.ne_nil_of_mem (mem_eligible.2 ⟨hn, he⟩)) fun m _ hcycle => ?_
  refine hacyclic m.id (Relation.TransGen.lift (·.id) (fun x y hxy => ?_) m m hcycle)
  simpa [dominatesIn] using hxy

/-- Whichever rules beat which, a settled contest has the result that it should have. -/
theorem Settled.resolved (h : c.Settled k e beats fires)
    (hacyclic : ∀ a, ¬TransGen (fun x y => (x, y) ∈ c.dominates) a a) :
    c.Resolved k e fires := by
  refine ⟨fun n hn hfires => ?_, fun hsome => ?_, fun n hn m hm hfn hfm => ?_,
    fun n hn hfires m hm _ he hdominates => ?_⟩
  · exact (mem_eligible.1 (pick_spec ((h n hn).1 hfires)).1).2
  · obtain ⟨n, hpick⟩ := exists_pick_eligible beats hacyclic hsome
    have hn := (mem_eligible.1 (pick_spec hpick).1).1
    exact ⟨n, hn, (h n hn).2 hpick⟩
  · exact Option.some.inj (((h n hn).1 hfn).symm.trans ((h m hm).1 hfm))
  · have hfree := (pick_spec ((h n hn).1 hfires)).2 m (mem_eligible.2 ⟨hm, he⟩)
    simp [dominatesIn, hdominates] at hfree

end Contest

/-! ## Contests in their order -/

namespace FlatGraph.Arranges

variable {k : FlatGraph} {cs before after : List Contest} {c : Contest} {e : Evidence}
variable {fires fires' : Bytes → Prop}

theorem mem_nodes (h : k.Arranges cs) (hc : c ∈ cs) {n : FlatNode} (hn : n ∈ c.members) :
    n ∈ k.nodes := h.perm.mem_iff.1 (List.mem_flatMap.2 ⟨c, hc, hn⟩)

/-- Contests at different places share no rule. -/
theorem apart (hk : k.Tidy) (h : k.Arranges cs) (hsplit : cs = before ++ c :: after) {id : Bytes}
    (hc : c.Has id) : (∀ d ∈ before, ¬d.Has id) ∧ ∀ d ∈ after, ¬d.Has id := by
  have hnodup : ((cs.flatMap (·.members)).map (·.id)).Nodup :=
    (h.perm.map _).nodup_iff.2 hk.nodup
  have hmem : ∀ (ds : List Contest), (∃ d ∈ ds, d.Has id) →
      id ∈ (ds.flatMap (·.members)).map (·.id) := by
    rintro ds ⟨d, hd, n, hn, rfl⟩
    exact List.mem_map_of_mem (List.mem_flatMap.2 ⟨d, hd, hn⟩)
  obtain ⟨n, hn, rfl⟩ := hc
  rw [hsplit, List.flatMap_append, List.flatMap_cons, List.map_append, List.map_append,
    List.nodup_append] at hnodup
  obtain ⟨-, hlater, hbefore⟩ := hnodup
  have hown := List.mem_map_of_mem (f := (·.id)) hn
  refine ⟨fun d hd hhas => ?_, fun d hd hhas => ?_⟩
  · exact hbefore _ (hmem before ⟨d, hd, hhas⟩) _ (List.mem_append_left _ hown) rfl
  · exact (List.nodup_append.1 hlater).2.2 _ hown _ (hmem after ⟨d, hd, hhas⟩) rfl

/-- Rules exclude each other exactly if they are in one contest. -/
theorem has_iff (h : k.Arranges cs) (hc : c ∈ cs) {n : FlatNode}
    (hn : n ∈ c.members) {id : Bytes} (hid : id ∈ k.ids) :
    c.Has id ↔ EqvGen k.Excludes n.id id := by
  constructor
  · rintro ⟨m, hm, rfl⟩
    exact ((h.rivals c hc n hn m).1 hm).2
  · intro hrival
    obtain ⟨m, hm, rfl⟩ := List.mem_map.1 hid
    exact ⟨m, (h.rivals c hc n hn m).2 ⟨hm, hrival⟩, rfl⟩

/-- Whether a rule is eligible is settled by contests before its own. -/
theorem eligible_congr (h : k.Arranges cs) (hsplit : cs = before ++ c :: after)
    (hsame : ∀ d ∈ before, ∀ id, d.Has id → (fires id ↔ fires' id)) {n : FlatNode}
    (hn : n ∈ c.members) : k.Eligible e fires n ↔ k.Eligible e fires' n := by
  have hc : c ∈ cs := by simp [hsplit]
  have hbefore : ∀ ed ∈ k.edges, ∀ a, ed.ordering? = some (a, n.id) →
      (ed.kind = .neutralizes → ¬EqvGen k.Excludes n.id a) → (fires a ↔ fires' a) := by
    intro ed hed a hordering houter
    rcases h.order before c after hsplit n hn ed hed a hordering with
      ⟨d, hd, hhas⟩ | ⟨hkind, m, hm, rfl⟩
    · exact hsame d hd a hhas
    · exact absurd ((h.rivals c hc n hn m).1 hm).2 (houter hkind)
  have hrequires : ∀ b, ⟨n.id, .requires, b⟩ ∈ k.edges → (fires b ↔ fires' b) := fun b hb =>
    hbefore _ hb b rfl (by simp)
  have hneutralizes : ∀ a, ⟨a, .neutralizes, n.id⟩ ∈ k.edges → ¬EqvGen k.Excludes n.id a →
      (fires a ↔ fires' a) := fun a ha houter => hbefore _ ha a rfl fun _ => houter
  have hflows : ∀ a, ⟨a, .flowsTo, n.id⟩ ∈ k.edges → (fires a ↔ fires' a) := fun a ha =>
    hbefore _ ha a rfl (by simp)
  constructor
  · rintro ⟨hmet, hrequired, hneutralized, hreached⟩
    refine ⟨hmet, fun b hb => (hrequires b hb).1 (hrequired b hb), fun a ha houter => ?_,
      fun hsome => ?_⟩
    · rw [← hneutralizes a ha houter]
      exact hneutralized a ha houter
    · obtain ⟨a, ha, hfires⟩ := hreached hsome
      exact ⟨a, ha, (hflows a ha).1 hfires⟩
  · rintro ⟨hmet, hrequired, hneutralized, hreached⟩
    refine ⟨hmet, fun b hb => (hrequires b hb).2 (hrequired b hb), fun a ha houter => ?_,
      fun hsome => ?_⟩
    · rw [hneutralizes a ha houter]
      exact hneutralized a ha houter
    · obtain ⟨a, ha, hfires⟩ := hreached hsome
      exact ⟨a, ha, (hflows a ha).2 hfires⟩

/-- Whether a contest is settled is settled by it and the contests before it. -/
theorem settled_congr (h : k.Arranges cs) (hsplit : cs = before ++ c :: after)
    (hsame : ∀ d ∈ before ++ [c], ∀ id, d.Has id → (fires id ↔ fires' id))
    {beats : FlatNode → FlatNode → Bool} (hsettled : c.Settled k e beats fires) :
    c.Settled k e beats fires' := by
  have heligible : c.eligible k e fires = c.eligible k e fires' :=
    Contest.eligible_congr fun n hn => h.eligible_congr hsplit
      (fun d hd => hsame d (List.mem_append_left _ hd)) hn
  intro n hn
  rw [← heligible, ← hsame c (by simp) n.id ⟨n, hn, rfl⟩]
  exact hsettled n hn

/-- The rules of a contest have ids of their own. -/
theorem nodup_rules (hk : k.Tidy) (h : k.Arranges cs) (hc : c ∈ cs) :
    (c.members.map (·.id)).Nodup := by
  have hnodup : ((cs.flatMap (·.members)).map (·.id)).Nodup :=
    (h.perm.map _).nodup_iff.2 hk.nodup
  rw [List.map_flatMap] at hnodup
  exact (List.nodup_flatMap.1 hnodup).1 c hc

theorem nodup_members (hk : k.Tidy) (h : k.Arranges cs) (hc : c ∈ cs) : c.members.Nodup :=
  List.Nodup.of_map _ (nodup_rules hk h hc)

end FlatGraph.Arranges
end DecisionEngine
