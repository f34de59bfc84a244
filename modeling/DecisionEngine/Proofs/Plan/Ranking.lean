import DecisionEngine.Plan.Arbitration
import DecisionEngine.Proofs.Catalog.Masks
import Mathlib.Data.List.Forall2
import Mathlib.Data.List.Perm.Subperm
/-!
# What branches are ranked by

Branches are ranked by what their rules say: priority, weight, outcome, order of declaration and
labels.  Comparators that look at nothing else, and the rankings of the policies, do not see the
numbers of nodes, nor which labels have gone into masks and which into programs.

* `Branch.Alike` — branches of which the rules say the same.
* `Comparators.Impartial` — comparators that look at nothing else.
* `Selector.beats_congr` — branches that are alike rank alike.
* `Selector.settle_congr` — so candidates that are alike one by one are settled alike.
-/

namespace DecisionEngine

/-- The rules of two branches say the same about how they rank. -/
structure Branch.Alike (a b : Branch) : Prop where
  priority : a.priority = b.priority
  weight : a.weight = b.weight
  outcome : a.outcome = b.outcome
  order : a.order = b.order
  labels : a.guard.labels = b.guard.labels

/-- Comparators look at nothing but what the rules of branches say. -/
def Comparators.Impartial (cs : Comparators) : Prop :=
  ∀ entry ∈ cs.entries, ∀ a a' b b', Branch.Alike a a' → Branch.Alike b b' →
    entry.2 a b = entry.2 a' b'

theorem Comparators.impartial_empty : Comparators.empty.Impartial := fun _ h =>
  absurd h List.not_mem_nil

/-- Single bits put together are not more than there are. -/
theorem Mask.count_union_le {bits : List Nat} (h : ∀ b ∈ bits, b < 64) :
    Mask.count (bits.foldl (fun m b => m ||| Mask.single b) 0) ≤ bits.length := by
  refine (List.subperm_of_subset (List.nodup_range.filter _) fun i hi => ?_).length_le
  exact (Mask.has_union h i).1 (List.mem_filter.1 hi).2

/-- The mask of a branch has no more bits than there are labels. -/
def Branch.Counted (b : Branch) : Prop := b.guard.mask.count ≤ b.guard.labels.length

namespace Branch

variable {a b : Branch}

theorem Alike.symm (h : a.Alike b) : b.Alike a :=
  ⟨h.priority.symm, h.weight.symm, h.outcome.symm, h.order.symm, h.labels.symm⟩

/-- Which labels have a bit does not matter to how many conditions there are. -/
theorem Alike.specificity (h : a.Alike b) (ha : a.Counted) (hb : b.Counted) :
    a.specificity = b.specificity := by
  unfold Branch.specificity
  rw [Nat.max_eq_right ha, Nat.max_eq_right hb, h.labels]

end Branch

theorem Comparators.Impartial.find? {cs : Comparators} (h : cs.Impartial) {name : Bytes}
    {wins : Comparator} (hfind : cs.find? name = some wins) {a a' b b' : Branch}
    (ha : a.Alike a') (hb : b.Alike b') : wins a b = wins a' b' := by
  obtain ⟨l₁, l₂, hentries, -⟩ := List.lookup_eq_some_iff.1 hfind
  exact h (name, wins) (by simp [hentries]) a a' b b' ha hb

/-- Branches that are alike rank alike. -/
theorem Selector.beats_congr {s : Selector} {comparators : Comparators}
    (h : comparators.Impartial) {a a' b b' : Branch} (ha : a.Alike a') (hb : b.Alike b')
    (hcounted : a.Counted ∧ a'.Counted ∧ b.Counted ∧ b'.Counted) :
    (s.ranking comparators).1.beats a b = (s.ranking comparators).1.beats a' b' := by
  obtain ⟨hca, hca', hcb, hcb'⟩ := hcounted
  unfold Selector.ranking
  cases s.policy with
  | highestPriority => simp only [Ranking.beats, ha.priority, hb.priority]
  | highestWeight => simp only [Ranking.beats, Branch.outweighs, ha.weight, hb.weight]
  | firstSatisfied => rfl
  | bestMatch =>
    simp only [Ranking.beats, Branch.outweighs, ha.weight, hb.weight,
      ha.specificity hca hca', hb.specificity hcb hcb']
  | custom =>
    cases hfind : comparators.find? s.comparator with
    | none => rfl
    | some wins => simp only [Ranking.beats, h.find? hfind ha hb]

/-! ## Selections -/

/-- Two candidates are at the same place, with branches that are alike. -/
structure Candidate.Alike (c d : Candidate) : Prop where
  index : c.index = d.index
  id : c.id = d.id
  node : c.branch.node = d.branch.node
  branch : c.branch.Alike d.branch
  counted : c.branch.Counted ∧ d.branch.Counted

theorem find?_rel {α β : Type} {R : α → β → Prop} {p : α → Bool} {q : β → Bool}
    (hpq : ∀ x y, R x y → p x = q y) {xs : List α} {ys : List β} (h : List.Forall₂ R xs ys) :
    Option.Rel R (xs.find? p) (ys.find? q) := by
  induction h with
  | nil => exact .none
  | @cons x y _ _ hxy _ ih =>
    rw [List.find?_cons, List.find?_cons, hpq x y hxy]
    cases q y with
    | true => exact .some hxy
    | false => exact ih

theorem getElem?_rel {α β : Type} {R : α → β → Prop} {xs : List α} {ys : List β}
    (h : List.Forall₂ R xs ys) (i : Nat) : Option.Rel R xs[i]? ys[i]? := by
  obtain ⟨hlength, hget⟩ := List.forall₂_iff_get.1 h
  by_cases hi : i < xs.length
  · rw [List.getElem?_eq_getElem hi, List.getElem?_eq_getElem (hlength ▸ hi)]
    exact .some (hget i hi (hlength ▸ hi))
  · rw [List.getElem?_eq_none (by omega), List.getElem?_eq_none (by omega)]
    exact .none

namespace Selector

variable {s s' : Selector} {comparators : Comparators} {among among' : List Candidate}

theorem ranking_congr (hpolicy : s.policy = s'.policy) (hcomparator : s.comparator = s'.comparator) :
    s.ranking comparators = s'.ranking comparators := by
  unfold Selector.ranking
  rw [hpolicy, hcomparator]

theorem beats_alike (h : comparators.Impartial) {c c' d d' : Candidate} (hc : c.Alike c')
    (hd : d.Alike d') : (s.ranking comparators).1.beats c.branch d.branch =
      (s.ranking comparators).1.beats c'.branch d'.branch :=
  beats_congr h hc.branch hd.branch ⟨hc.counted.1, hc.counted.2, hd.counted.1, hd.counted.2⟩

/-- Candidates that are alike lose for the same reason. -/
theorem reason_congr (h : comparators.Impartial) {c c' d d' : Candidate} (hc : c.Alike c')
    (hd : d.Alike d') :
    (s.ranking comparators).1.reason c d = (s.ranking comparators).1.reason c' d' := by
  have hbeats := beats_alike (s := s) h hd hc
  have hspecificity := hc.branch.specificity hc.counted.1 hc.counted.2
  have hspecificity' := hd.branch.specificity hd.counted.1 hd.counted.2
  generalize (s.ranking comparators).1 = ranking at hbeats
  cases ranking <;> simp only [Ranking.reason, hbeats, hd.id, hc.branch.priority,
    hd.branch.priority, hc.branch.weight, hd.branch.weight, hspecificity, hspecificity']

theorem dominator?_rel (hdominates : s.dominates = s'.dominates)
    (h : List.Forall₂ Candidate.Alike among among') {c c' : Candidate} (hc : c.Alike c') :
    Option.Rel Candidate.Alike (s.dominator? among c) (s'.dominator? among' c') := by
  refine find?_rel (fun d d' hd => ?_) h
  unfold dominatesIn
  rw [hd.index, hd.node, hc.index, hc.node, hdominates]

theorem undominated_rel (hdominates : s.dominates = s'.dominates)
    (h : List.Forall₂ Candidate.Alike among among') :
    List.Forall₂ Candidate.Alike (s.undominated among) (s'.undominated among') := by
  refine List.rel_filter (fun c c' hc => ?_) h
  have hrel := dominator?_rel hdominates h hc
  dsimp only
  generalize s.dominator? among c = d at hrel
  generalize s'.dominator? among' c' = d' at hrel
  cases hrel <;> rfl

theorem dominatedLosses_congr (hdominates : s.dominates = s'.dominates)
    (h : List.Forall₂ Candidate.Alike among among') :
    s.dominatedLosses among = s'.dominatedLosses among' := by
  unfold dominatedLosses
  have hlosses : ∀ c c', c.Alike c' →
      (s.dominator? among c).map (fun d => (⟨c.index, .dominated d.id⟩ : Loss)) =
        (s'.dominator? among' c').map fun d => ⟨c'.index, .dominated d.id⟩ := by
    intro c c' hc
    have hrel := dominator?_rel hdominates h hc
    generalize s.dominator? among c = d at hrel
    generalize s'.dominator? among' c' = d' at hrel
    cases hrel with
    | none => rfl
    | some hd => rw [Option.map_some, Option.map_some, hc.index, hd.id]
  generalize s.dominator? among = dominator at hlosses
  generalize s'.dominator? among' = dominator' at hlosses
  induction h with
  | nil => rfl
  | cons hc _ ih => rw [List.filterMap_cons, List.filterMap_cons, hlosses _ _ hc, ih]

theorem rankedLosses_congr (h : comparators.Impartial) {w w' : Candidate} (hw : w.Alike w')
    (hamong : List.Forall₂ Candidate.Alike among among') :
    rankedLosses (s.ranking comparators).1 w among =
      rankedLosses (s.ranking comparators).1 w' among' := by
  unfold rankedLosses
  have hothers : List.Forall₂ Candidate.Alike (among.filter (·.index != w.index))
      (among'.filter (·.index != w'.index)) :=
    List.rel_filter (fun c c' hc => by dsimp only; rw [hc.index, hw.index]) hamong
  rw [← List.forall₂_eq_eq_eq, List.forall₂_map_left_iff, List.forall₂_map_right_iff]
  exact hothers.imp fun c c' hc => by rw [hc.index, reason_congr h hc hw]

theorem best_rel (h : comparators.Impartial) {first first' : Candidate}
    (hfirst : first.Alike first') (hrest : List.Forall₂ Candidate.Alike among among') :
    ((s.ranking comparators).1.best first among).Alike
      ((s.ranking comparators).1.best first' among') := by
  refine List.rel_foldl (P := Candidate.Alike) (fun c c' hc d d' hd => ?_) hfirst hrest
  rw [beats_alike h hd hc]
  split
  · exact hd
  · exact hc

/-- Candidates that are alike one by one are settled alike: the same place wins, and the same places
lose for the same reasons. -/
theorem settle_congr (hgroup : s.group = s'.group) (hpolicy : s.policy = s'.policy)
    (hcomparator : s.comparator = s'.comparator) (hdominates : s.dominates = s'.dominates)
    (h : comparators.Impartial) (hamong : List.Forall₂ Candidate.Alike among among') :
    s.settle comparators among = s'.settle comparators among' := by
  have hfree := undominated_rel hdominates hamong
  unfold settle
  rw [dominatedLosses_congr hdominates hamong, ← ranking_congr hpolicy hcomparator,
    hamong.length_eq, hgroup]
  generalize s.undominated among = free at hfree
  generalize s'.undominated among' = free' at hfree
  cases hfree with
  | nil => rfl
  | cons hfirst hrest =>
    have hbest := best_rel (s := s) h hfirst hrest
    dsimp only
    rw [rankedLosses_congr h hbest (.cons hfirst hrest), hbest.index, hbest.id]

end Selector
end DecisionEngine
