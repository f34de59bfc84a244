import DecisionEngine.Proofs.Compile.Correctness
import DecisionEngine.Proofs.Compile.Thinning
/-!
# Contests in which fewer rules are left

Where a graph is what is left of another one, and pruning splits no exclusion group, its contests
are what is left of the contests of the other graph, and what settles those settles these.

* `filter_mergeSort` — sorting keeps the order of what is left.
* `FlatGraph.left` — what is left of a contest.
* `FlatGraph.Thins.members_perm` — contests are what is left of contests.
* `FlatGraph.Thins.settled` — they are settled by the same rules.
* `FlatGraph.Arranges.settled_unique` — contests are settled in one way only.
-/

namespace DecisionEngine

open Relation (EqvGen)

/-! ## Sorted lists -/

section Sorted

variable {α : Type} {le : α → α → Bool}

theorem takeWhile_append_eq {p : α → Bool} {xs ys : List α} (hxs : ∀ x ∈ xs, p x = true)
    (hys : ∀ y ∈ ys, p y = false) : (xs ++ ys).takeWhile p = xs := by
  rw [List.takeWhile_append_of_pos hxs]
  cases ys with
  | nil => exact List.append_nil _
  | cons y ys =>
    rw [List.takeWhile_cons_of_neg (by simp [hys y (List.mem_cons_self ..)]), List.append_nil]

/-- Sorting keeps the order of what is left. -/
theorem filter_mergeSort (htrans : ∀ a b c, le a b = true → le b c = true → le a c = true)
    (htotal : ∀ a b, (le a b || le b a) = true) (p : α → Bool) (l : List α) :
    (l.mergeSort le).filter p = (l.filter p).mergeSort le := by
  induction l with
  | nil => simp
  | cons a l ih =>
    obtain ⟨before, after, hcons, hrest, hbefore⟩ := List.mergeSort_cons htrans htotal a l
    rw [hrest, List.filter_append] at ih
    rw [hcons, List.filter_append]
    by_cases hp : p a = true
    · rw [List.filter_cons_of_pos hp, List.filter_cons_of_pos hp]
      obtain ⟨before', after', hcons', hrest', hbefore'⟩ :=
        List.mergeSort_cons htrans htotal a (l.filter p)
      have hsorted := List.pairwise_mergeSort htrans htotal (a :: l)
      have hsorted' := List.pairwise_mergeSort htrans htotal (a :: l.filter p)
      rw [hcons, List.pairwise_append, List.pairwise_cons] at hsorted
      rw [hcons', List.pairwise_append, List.pairwise_cons] at hsorted'
      -- The new element comes right before the first one that it is not above.
      have hplace : before.filter p = before' := by
        rw [hrest'] at ih
        have hfirst : (before.filter p ++ after.filter p).takeWhile (fun b => !le a b) =
            before.filter p :=
          takeWhile_append_eq (fun b hb => hbefore b (List.mem_filter.1 hb).1)
            fun b hb => by simp [hsorted.2.1.1 b (List.mem_filter.1 hb).1]
        have hsecond : (before' ++ after').takeWhile (fun b => !le a b) = before' :=
          takeWhile_append_eq hbefore' fun b hb => by simp [hsorted'.2.1.1 b hb]
        rw [← hfirst, ih, hsecond]
      rw [hcons', hplace]
      rw [hplace, hrest', List.append_cancel_left_eq] at ih
      rw [ih]
    · rwa [List.filter_cons_of_neg hp, List.filter_cons_of_neg hp]

/-- Sublists of a list without duplicates are the same if they have the same elements. -/
theorem eq_of_sublist {l xs ys : List α} (hl : l.Nodup) (hxs : xs.Sublist l) (hys : ys.Sublist l)
    (h : ∀ x, x ∈ xs ↔ x ∈ ys) : xs = ys := by
  induction l generalizing xs ys with
  | nil => rw [List.sublist_nil.1 hxs, List.sublist_nil.1 hys]
  | cons a l ih =>
    obtain ⟨hnew, hl⟩ := List.nodup_cons.1 hl
    have hfresh : ∀ {zs : List α}, zs.Sublist l → a ∉ zs := fun hzs hmem => hnew (hzs.subset hmem)
    cases hxs with
    | cons _ hxs =>
      cases hys with
      | cons _ hys => exact ih hl hxs hys h
      | cons_cons _ hys => exact absurd ((h a).2 (List.mem_cons_self ..)) (hfresh hxs)
    | cons_cons _ hxs =>
      cases hys with
      | cons _ hys => exact absurd ((h a).1 (List.mem_cons_self ..)) (hfresh hys)
      | cons_cons _ hys =>
        refine congrArg (a :: ·) (ih hl hxs hys fun x => ⟨fun hx => ?_, fun hx => ?_⟩)
        · refine (List.mem_cons.1 ((h x).1 (List.mem_cons_of_mem _ hx))).resolve_left ?_
          rintro rfl
          exact hfresh hxs hx
        · refine (List.mem_cons.1 ((h x).2 (List.mem_cons_of_mem _ hx))).resolve_left ?_
          rintro rfl
          exact hfresh hys hx

theorem nodup_of_flatten {xss : List (List α)} (h : xss.flatten.Nodup)
    (hne : ∀ xs ∈ xss, xs ≠ []) : xss.Nodup := by
  refine (List.nodup_flatten.1 h).2.imp_of_mem fun {xs ys} hxs _ hdisjoint heq => ?_
  obtain ⟨x, hx⟩ := List.exists_mem_of_ne_nil xs (hne xs hxs)
  exact hdisjoint hx (heq ▸ hx)

end Sorted

namespace FlatGraph

variable {k k' : FlatGraph} {cs cs' : List Contest} {e : Evidence} {fires fires' : Bytes → Prop}

/-! ## Contests -/

/-- The rules of contests are in the order of declaration, and by their ids among equal ones. -/
def Declares (k : FlatGraph) (cs : List Contest) : Prop :=
  ∀ c ∈ cs, ∃ ns : List FlatNode, ns.Sublist k.nodes ∧
    c.members = ns.mergeSort fun a b => decide (a.order ≤ b.order)

theorem declares_contests (hordered : k.ordered.2.failed = false) :
    k.Declares (k.contests k.ordered.1).1 := by
  intro c hc
  rw [contests_eq] at hc
  obtain ⟨u, hu, rfl⟩ := List.mem_map.1 hc
  have hu := (ordered_spec hordered).1.mem_iff.1 hu
  exact ⟨u.members, sublist_of_mem_units hu, rfl⟩

/-- What is left of a contest in a graph. -/
def left (k : FlatGraph) (c : Contest) : List FlatNode :=
  c.members.filter fun n => k.ids.contains n.id

theorem mem_left {c : Contest} {n : FlatNode} :
    n ∈ k.left c ↔ n ∈ c.members ∧ n.id ∈ k.ids := by
  unfold left
  rw [List.mem_filter, List.contains_iff_mem]

/-- Pruning splits no exclusion group: leaves that are left are connected by exclusions between
leaves that are left, if they were connected. -/
def Joint (k k' : FlatGraph) : Prop :=
  ∀ a ∈ k.ids, ∀ b ∈ k.ids, EqvGen k'.Excludes a b → EqvGen k.Excludes a b

namespace Thins

theorem mem_nodes (h : k.Thins k') {n : FlatNode} : n ∈ k.nodes ↔ n ∈ k'.nodes ∧ n.id ∈ k.ids := by
  rw [h.nodes, List.mem_filter, List.contains_iff_mem]

theorem excludes (h : k.Thins k') {a b : Bytes} (hab : EqvGen k.Excludes a b) :
    EqvGen k'.Excludes a b := by
  refine Relation.EqvGen.mono ?_ a b hab
  rintro a b ⟨ed, hed, hkind, hs, ht⟩
  exact ⟨ed, ((h.edges ed).1 hed).1, hkind, hs, ht⟩

/-- What is left of a contest is the contest of any rule that is left of it. -/
theorem left_eq (h : k.Thins k') (hk : k.Tidy) (hjoint : k.Joint k') (hcs : k.Arranges cs)
    (hcs' : k'.Arranges cs') (hdeclares : k.Declares cs) (hdeclares' : k'.Declares cs')
    {c c' : Contest} (hc : c ∈ cs) (hc' : c' ∈ cs') {n : FlatNode} (hn : n ∈ c.members)
    (hn' : n ∈ c'.members) : k.left c' = c.members := by
  obtain ⟨ns, hns, hmembers⟩ := hdeclares c hc
  obtain ⟨ns', hns', hmembers'⟩ := hdeclares' c' hc'
  have hnodup : k.nodes.Nodup := List.Nodup.of_map _ hk.nodup
  have hid : ∀ {m}, m ∈ k.nodes → m.id ∈ k.ids := fun hm => List.mem_map_of_mem hm
  have hsub : (ns'.filter fun m => k.ids.contains m.id).Sublist k.nodes := by
    rw [h.nodes]
    exact hns'.filter _
  have htrans : ∀ a b c : FlatNode, decide (a.order ≤ b.order) = true →
      decide (b.order ≤ c.order) = true → decide (a.order ≤ c.order) = true := fun a b c hab hbc =>
    decide_eq_true (UInt32.le_trans (of_decide_eq_true hab) (of_decide_eq_true hbc))
  have htotal : ∀ a b : FlatNode,
      (decide (a.order ≤ b.order) || decide (b.order ≤ a.order)) = true := fun a b => by
    simpa using UInt32.le_total a.order b.order
  unfold left
  rw [hmembers', hmembers, filter_mergeSort htrans htotal,
    eq_of_sublist hnodup hsub hns fun m => ?_]
  have hm : m ∈ ns ↔ m ∈ c.members := by rw [hmembers, List.mem_mergeSort]
  have hm' : m ∈ ns' ↔ m ∈ c'.members := by rw [hmembers', List.mem_mergeSort]
  rw [List.mem_filter, List.contains_iff_mem, hm, hm', hcs.rivals c hc n hn,
    hcs'.rivals c' hc' n hn', h.mem_nodes]
  constructor
  · rintro ⟨⟨hmk, hrivals⟩, hkept⟩
    exact ⟨⟨hmk, hkept⟩, hjoint _ (hid (hcs.mem_nodes hc hn)) _ hkept hrivals⟩
  · rintro ⟨⟨hmk, hkept⟩, hrivals⟩
    exact ⟨⟨hmk, h.excludes hrivals⟩, hkept⟩

/-- The contests of a graph are what is left of those of the other one, but for those of which
nothing is left. -/
theorem members_perm (h : k.Thins k') (hk : k.Tidy) (hk' : k'.Tidy) (hjoint : k.Joint k')
    (hcs : k.Arranges cs) (hcs' : k'.Arranges cs') (hdeclares : k.Declares cs)
    (hdeclares' : k'.Declares cs') :
    (cs.map (·.members)).Perm ((cs'.map k.left).filter fun ns => !ns.isEmpty) := by
  have hnodup : (cs.map (·.members)).flatten.Nodup := by
    rw [← List.flatMap_def]
    exact hcs.perm.nodup_iff.2 (List.Nodup.of_map _ hk.nodup)
  have hnodup' : ((cs'.map k.left).filter fun ns => !ns.isEmpty).flatten.Nodup := by
    have hleft : (cs'.map k.left).flatten =
        (cs'.flatMap (·.members)).filter fun n => k.ids.contains n.id := by
      rw [List.filter_flatMap, List.flatMap_def]
      rfl
    refine List.Nodup.sublist (List.filter_sublist.flatten) ?_
    rw [hleft]
    exact (hcs'.perm.nodup_iff.2 (List.Nodup.of_map _ hk'.nodup)).filter _
  refine (List.perm_ext_iff_of_nodup (nodup_of_flatten hnodup fun ns hns => ?_)
    (nodup_of_flatten hnodup' fun ns hns => ?_)).2 fun ns => ?_
  · obtain ⟨c, hc, rfl⟩ := List.mem_map.1 hns
    exact hcs.nonempty c hc
  · simpa using (List.mem_filter.1 hns).2
  · simp only [List.mem_map, List.mem_filter, Bool.not_eq_true', List.isEmpty_eq_false_iff]
    constructor
    · rintro ⟨c, hc, rfl⟩
      have hne := hcs.nonempty c hc
      obtain ⟨n, hn⟩ := List.exists_mem_of_ne_nil _ hne
      obtain ⟨c', hc', hn'⟩ := List.mem_flatMap.1
        (hcs'.perm.mem_iff.2 (h.mem_nodes.1 (hcs.mem_nodes hc hn)).1)
      exact ⟨⟨c', hc', h.left_eq hk hjoint hcs hcs' hdeclares hdeclares' hc hc' hn hn'⟩, hne⟩
    · rintro ⟨⟨c', hc', rfl⟩, hne⟩
      obtain ⟨n, hn⟩ := List.exists_mem_of_ne_nil _ hne
      obtain ⟨hn', hkept⟩ := List.mem_filter.1 hn
      have hnk : n ∈ k.nodes := h.mem_nodes.2 ⟨hcs'.mem_nodes hc' hn', by simpa using hkept⟩
      obtain ⟨c, hc, hnc⟩ := List.mem_flatMap.1 (hcs.perm.mem_iff.2 hnk)
      exact ⟨c, hc, (h.left_eq hk hjoint hcs hcs' hdeclares hdeclares' hc hc' hnc hn').symm⟩

/-! ## Eligibility -/

/-- Where only eligible rules fire, only rules fire that are left. -/
theorem kept_of_fires (h : k.Thins k') (hhonest : k'.Honest e fires) {id : Bytes} (hid : fires id) :
    id ∈ k.ids := by
  obtain ⟨n, hn, rfl, heligible⟩ := hhonest id hid
  by_contra hnot
  exact h.idle e fires hhonest n hn hnot heligible

/-- Rules that are left are eligible in both graphs alike, and the others are not eligible. -/
theorem eligible_iff (h : k.Thins k') (hjoint : k.Joint k') (hhonest : k'.Honest e fires)
    {n : FlatNode} (hn : n ∈ k'.nodes) :
    k'.Eligible e fires n ↔ n.id ∈ k.ids ∧ k.Eligible e fires n := by
  constructor
  · intro he
    have hkept : n.id ∈ k.ids := by
      by_contra hnot
      exact h.idle e fires hhonest n hn hnot he
    refine ⟨hkept, he.met, fun b hb => he.required b ((h.edges _).1 hb).1, fun a ha houter => ?_,
      fun hsome => ?_⟩
    · have hedge := (h.edges _).1 ha
      exact he.neutralized a hedge.1 fun hrival => houter (hjoint _ hkept _ hedge.2.1 hrival)
    · obtain ⟨a, ha⟩ := hsome
      obtain ⟨a', ha', hfires⟩ := he.reached ⟨a, ((h.edges _).1 ha).1⟩
      exact ⟨a', (h.edges _).2 ⟨ha', h.kept_of_fires hhonest hfires, hkept⟩, hfires⟩
  · rintro ⟨hkept, he⟩
    refine ⟨he.met, fun b hb => ?_, fun a ha houter hfires => ?_, fun hsome => ?_⟩
    · exact he.required b ((h.edges _).2 ⟨hb, hkept, h.requires _ b hb hkept⟩)
    · have hak := h.kept_of_fires hhonest hfires
      exact he.neutralized a ((h.edges _).2 ⟨ha, hak, hkept⟩)
        (fun hrival => houter (h.excludes hrival)) hfires
    · obtain ⟨a, ha⟩ := hsome
      obtain ⟨a', ha', hfires⟩ := he.reached (h.flowsTo a _ ha hkept)
      exact ⟨a', ((h.edges _).1 ha').1, hfires⟩

/-- What is left of a settled contest is settled. -/
theorem settled (h : k.Thins k') (hjoint : k.Joint k') (hcs : k.Arranges cs)
    (hcs' : k'.Arranges cs') (hhonest : k'.Honest e fires) {c c' : Contest} (hc : c ∈ cs)
    (hc' : c' ∈ cs') (hleft : k.left c' = c.members) {beats : FlatNode → FlatNode → Bool}
    (hsettled : c'.Settled k' e beats fires) : c.Settled k e beats fires := by
  classical
  have hmem : ∀ n ∈ c.members, n ∈ c'.members ∧ n.id ∈ k.ids := fun n hn => by
    rw [← hleft] at hn
    exact mem_left.1 hn
  have heligible : c.eligible k e fires = c'.eligible k' e fires := by
    unfold Contest.eligible
    rw [← hleft, left, List.filter_filter]
    refine List.filter_congr fun n hn => ?_
    rw [Bool.eq_iff_iff, Bool.and_eq_true, decide_eq_true_iff, decide_eq_true_iff,
      List.contains_iff_mem, h.eligible_iff hjoint hhonest (hcs'.mem_nodes hc' hn)]
    exact and_comm
  have hdominates : ∀ n ∈ c.members, ∀ m ∈ c.members,
      c.dominatesIn n m = c'.dominatesIn n m := by
    intro n hn m hm
    obtain ⟨hn', hnk⟩ := hmem n hn
    obtain ⟨hm', hmk⟩ := hmem m hm
    unfold Contest.dominatesIn
    rw [Bool.eq_iff_iff, List.contains_iff_mem, List.contains_iff_mem, hcs.dominates c hc,
      hcs'.dominates c' hc', h.edges]
    constructor
    · rintro ⟨-, -, hedge, -⟩
      exact ⟨⟨n, hn', rfl⟩, ⟨m, hm', rfl⟩, hedge⟩
    · rintro ⟨-, -, hedge⟩
      exact ⟨⟨n, hn, rfl⟩, ⟨m, hm, rfl⟩, hedge, hnk, hmk⟩
  have hpick : pick c.dominatesIn beats (c.eligible k e fires) =
      pick c'.dominatesIn beats (c.eligible k e fires) :=
    pick_congr fun n hn m hm => hdominates n (Contest.mem_eligible.1 hn).1 m
      (Contest.mem_eligible.1 hm).1
  intro n hn
  rw [hpick, heligible]
  exact hsettled n (hmem n hn).1

end Thins

/-- Contests are settled in one way only. -/
theorem Arranges.settled_unique (h : k.Arranges cs) {beats : FlatNode → FlatNode → Bool}
    (hfires : ∀ c ∈ cs, c.Settled k e beats fires)
    (hfires' : ∀ c ∈ cs, c.Settled k e beats fires') :
    ∀ c ∈ cs, ∀ id, c.Has id → (fires id ↔ fires' id) := by
  have hprefix : ∀ before after, cs = before ++ after →
      ∀ c ∈ before, ∀ id, c.Has id → (fires id ↔ fires' id) := by
    intro before
    induction before using List.reverseRecOn with
    | nil => exact fun _ _ c hc => absurd hc List.not_mem_nil
    | append_singleton before c ih =>
      intro after hsplit
      rw [List.append_assoc, List.singleton_append] at hsplit
      have hbefore := ih _ hsplit
      intro d hd id hid
      rcases List.mem_append.1 hd with hd | hd
      · exact hbefore d hd id hid
      · rw [List.mem_singleton.1 hd] at hid
        obtain ⟨n, hn, rfl⟩ := hid
        have hc : c ∈ cs := by simp [hsplit]
        rw [hfires c hc n hn, hfires' c hc n hn,
          Contest.eligible_congr fun m hm => h.eligible_congr hsplit hbefore hm]
  exact hprefix cs [] (List.append_nil cs).symm

end FlatGraph
end DecisionEngine
