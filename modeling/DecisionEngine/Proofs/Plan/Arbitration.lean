import DecisionEngine.Plan.Arbitration
import DecisionEngine.Proofs.Compile.Reachability
import Mathlib.Data.List.Forall2
/-!
# Arbitration picks a candidate

Of several options those drop out that another one dominates, and of the others the first is picked
that no later one beats.  Where dominance does not run in circles there is always one to pick, and
arbitrating candidates gives the one that is picked.

* `pick` — the option that is picked.
* `pick_rel` — options that are alike one by one are picked alike.
* `Selector.exists_arbitrate` — candidates that exist are arbitrated.
-/

namespace DecisionEngine

open Relation (TransGen)

/-! ## Picking -/

section

variable {α β : Type}

/-- The first option that no later one beats, of those that no option dominates. -/
def pick (dominates beats : α → α → Bool) (l : List α) : Option α :=
  match l.filter fun x => !l.any fun y => dominates y x with
  | [] => none
  | first :: rest => some (rest.foldl (fun best x => if beats x best then x else best) first)

theorem foldl_mem_cons {f : α → α → α} (hf : ∀ a b, f a b = a ∨ f a b = b)
    (xs : List α) (a : α) : xs.foldl f a ∈ a :: xs := by
  induction xs generalizing a with
  | nil => exact List.mem_singleton.2 rfl
  | cons x xs ih =>
    rw [List.foldl_cons]
    rcases List.mem_cons.1 (ih (f a x)) with h | h
    · rw [h]
      rcases hf a x with h | h
      · rw [h]
        exact List.mem_cons_self ..
      · rw [h]
        exact List.mem_cons_of_mem _ (List.mem_cons_self ..)
    · exact List.mem_cons_of_mem _ (List.mem_cons_of_mem _ h)

variable {dominates beats : α → α → Bool} {l : List α}

/-- What is picked is one of the options, and none of them dominates it. -/
theorem pick_spec {x : α} (h : pick dominates beats l = some x) :
    x ∈ l ∧ ∀ y ∈ l, dominates y x = false := by
  have hmem : x ∈ l.filter fun x => !l.any fun y => dominates y x := by
    unfold pick at h
    split at h
    · cases h
    · rename_i first rest hfree
      rw [hfree, ← Option.some.inj h]
      refine foldl_mem_cons (fun a b => ?_) rest first
      by_cases hb : beats b a = true
      · exact .inr (if_pos hb)
      · exact .inl (if_neg hb)
  obtain ⟨hx, hfree⟩ := List.mem_filter.1 hmem
  refine ⟨hx, fun y hy => ?_⟩
  simp only [Bool.not_eq_true', List.any_eq_false, Bool.not_eq_true] at hfree
  exact hfree y hy

/-- Something is picked of any options that do not dominate each other in circles. -/
theorem exists_pick (dominates beats : α → α → Bool) (hne : l ≠ [])
    (hacyclic : ∀ x ∈ l, ¬TransGen (fun x y => dominates x y = true) x x) :
    ∃ x, pick dominates beats l = some x := by
  obtain ⟨x, hx, hfree⟩ := exists_unbeaten (R := fun x y => dominates x y = true) hne hacyclic
  have hmem : x ∈ l.filter fun x => !l.any fun y => dominates y x := by
    refine List.mem_filter.2 ⟨hx, ?_⟩
    simpa using hfree
  unfold pick
  split
  · rename_i hnone
    rw [hnone] at hmem
    exact absurd hmem List.not_mem_nil
  · exact ⟨_, rfl⟩

/-- Options that are alike one by one, and dominate and beat each other alike, are picked alike. -/
theorem pick_rel {dominates' beats' : β → β → Bool} {R : α → β → Prop} {l' : List β}
    (hl : List.Forall₂ R l l')
    (hdominates : ∀ x x' y y', R x x' → R y y' → dominates x y = dominates' x' y')
    (hbeats : ∀ x x' y y', R x x' → R y y' → beats x y = beats' x' y') :
    Option.Rel R (pick dominates beats l) (pick dominates' beats' l') := by
  have hany : ∀ x x', R x x' →
      (l.any fun y => dominates y x) = l'.any fun y => dominates' y x' := by
    intro x x' hx
    clear hbeats
    induction hl with
    | nil => rfl
    | cons hy _ ih => rw [List.any_cons, List.any_cons, ih, hdominates _ _ _ _ hy hx]
  have hfree : List.Forall₂ R (l.filter fun x => !l.any fun y => dominates y x)
      (l'.filter fun x => !l'.any fun y => dominates' y x) :=
    List.rel_filter (fun x x' hx => by dsimp only; rw [hany x x' hx]) hl
  unfold pick
  generalize l.filter _ = free at hfree
  generalize l'.filter _ = free' at hfree
  cases hfree with
  | nil => exact .none
  | cons hfirst hrest =>
    refine .some (List.rel_foldl (P := R) (fun x x' hx y y' hy => ?_) hfirst hrest)
    rw [hbeats y y' x x' hy hx]
    by_cases hb : beats' y' x' = true
    · rwa [if_pos hb, if_pos hb]
    · rwa [if_neg hb, if_neg hb]

/-- Which options dominate each other only matters among those that there are. -/
theorem pick_congr {dominates' : α → α → Bool}
    (h : ∀ x ∈ l, ∀ y ∈ l, dominates x y = dominates' x y) :
    pick dominates beats l = pick dominates' beats l := by
  have hrel : Option.Rel (fun x y => x = y ∧ x ∈ l) (pick dominates beats l)
      (pick dominates' beats l) :=
    pick_rel (List.forall₂_same.2 fun x hx => ⟨rfl, hx⟩)
      (fun x _ y _ hx hy => by rw [← hx.1, ← hy.1, h x hx.2 y hy.2])
      fun x _ y _ hx hy => by rw [← hx.1, ← hy.1]
  generalize pick dominates beats l = picked at hrel ⊢
  generalize pick dominates' beats l = picked' at hrel ⊢
  cases hrel with
  | none => rfl
  | some hsame => rw [hsame.1]

end

/-! ## Selections -/

theorem forall₂_of_mem_left {α β : Type} {R : α → β → Prop} {xs : List α} {ys : List β}
    (h : List.Forall₂ R xs ys) {x : α} (hx : x ∈ xs) : ∃ y ∈ ys, R x y := by
  induction h with
  | nil => exact absurd hx List.not_mem_nil
  | cons hr _ ih =>
    rcases List.mem_cons.1 hx with rfl | hx
    · exact ⟨_, List.mem_cons_self .., hr⟩
    · obtain ⟨y, hy, hxy⟩ := ih hx
      exact ⟨y, List.mem_cons_of_mem _ hy, hxy⟩

theorem exists_forall₂ {α β : Type} {R : α → β → Prop} {xs : List α}
    (h : ∀ x ∈ xs, ∃ y, R x y) : ∃ ys, List.Forall₂ R xs ys := by
  induction xs with
  | nil => exact ⟨[], .nil⟩
  | cons x xs ih =>
    obtain ⟨y, hy⟩ := h x (List.mem_cons_self ..)
    obtain ⟨ys, hys⟩ := ih fun z hz => h z (List.mem_cons_of_mem _ hz)
    exact ⟨y :: ys, .cons hy hys⟩

theorem mapM_eq_some_of_forall₂ {α β : Type} {f : α → Option β} {xs : List α} {ys : List β}
    (h : List.Forall₂ (fun x y => f x = some y) xs ys) : xs.mapM f = some ys := by
  induction h with
  | nil => rfl
  | cons hx _ ih =>
    rw [List.mapM_cons, hx, ih]
    rfl

theorem forall₂_of_mapM_eq_some {α β : Type} {f : α → Option β} {xs : List α} {ys : List β}
    (h : xs.mapM f = some ys) : List.Forall₂ (fun x y => f x = some y) xs ys := by
  induction xs generalizing ys with
  | nil =>
    cases h
    exact .nil
  | cons x xs ih =>
    rw [List.mapM_cons] at h
    obtain ⟨y, hy, h⟩ := Option.bind_eq_some_iff.1 h
    obtain ⟨rest, hrest, h⟩ := Option.bind_eq_some_iff.1 h
    cases h
    exact .cons hy (ih hrest)

namespace Selector

variable {s : Selector} {nodes : List PlanNode} {among : List Candidate}

/-- Every branch whose node the plan has can be a candidate. -/
theorem candidate?_eq {i : Nat} {b : Branch} {n : PlanNode} (hb : s.branches[i]? = some b)
    (hnode : nodes[b.node]? = some n) : s.candidate? nodes i = some ⟨i, b, n.id⟩ := by
  unfold candidate?
  rw [hb, Option.bind_eq_bind, Option.bind_some, hnode]
  rfl

/-- Which of two candidates ranks above the other one. -/
def beats (s : Selector) (comparators : Comparators) (a b : Candidate) : Bool :=
  (s.ranking comparators).1.beats a.branch b.branch

/-- One of some candidates is picked unless dominance runs in circles. -/
theorem exists_picked (comparators : Comparators) (hne : among ≠ [])
    (hacyclic : ∀ n, ¬TransGen (fun x y => (x, y) ∈ s.dominates) n n) :
    ∃ w, pick s.dominatesIn (s.beats comparators) among = some w := by
  refine exists_pick _ _ hne fun c _ hcycle => ?_
  refine hacyclic c.branch.node (TransGen.lift (·.branch.node) (fun x y hxy => ?_) c c hcycle)
  simp only [dominatesIn, Bool.and_eq_true, List.contains_iff_mem] at hxy
  exact hxy.2

theorem undominated_eq :
    s.undominated among = among.filter fun c => !among.any fun d => s.dominatesIn d c := by
  unfold undominated dominator?
  refine List.filter_congr fun c _ => ?_
  rw [Bool.eq_iff_iff, Option.isNone_iff_eq_none, List.find?_eq_none]
  simp

/-- None is picked just where all candidates are dominated. -/
theorem pick_eq_none_iff {beats : Candidate → Candidate → Bool} :
    pick s.dominatesIn beats among = none ↔ s.undominated among = [] := by
  rw [undominated_eq]
  unfold pick
  split
  · rename_i hnone
    exact iff_of_true rfl hnone
  · rename_i first rest hsome
    exact iff_of_false (Option.some_ne_none _) (hsome ▸ List.cons_ne_nil first rest)

/-- The candidate that is picked wins, and the losers are among the candidates. -/
theorem settle_of_pick {comparators : Comparators} {w : Candidate}
    (h : pick s.dominatesIn (s.beats comparators) among = some w) :
    ∃ v, s.settle comparators among = .ok v ∧ v.winner = some w.index ∧
      ∀ l ∈ v.losers, ∃ c ∈ among, l.branch = c.index := by
  unfold pick at h
  rw [← undominated_eq] at h
  unfold settle
  split at h
  · cases h
  · rename_i first rest hundominated
    rw [hundominated]
    refine ⟨_, rfl, congrArg (fun c => some c.index) (Option.some.inj h), fun l hl => ?_⟩
    rw [List.mem_mergeSort, List.mem_append] at hl
    rcases hl with hl | hl
    · obtain ⟨c, hc, hl⟩ := List.mem_filterMap.1 hl
      obtain ⟨d, -, rfl⟩ := Option.map_eq_some_iff.1 hl
      exact ⟨c, hc, rfl⟩
    · obtain ⟨c, hc, rfl⟩ := List.mem_map.1 hl
      rw [← hundominated] at hc
      exact ⟨c, (List.mem_filter.1 (List.mem_filter.1 hc).1).1, rfl⟩

/-- Candidates that exist are arbitrated, and the one that is picked wins. -/
theorem exists_arbitrate {comparators : Comparators} {places : List Nat} {w : Candidate}
    (hplaces : List.Forall₂ (fun i c => s.candidate? nodes i = some c ∧ c.index = i) places among)
    (hpick : pick s.dominatesIn (s.beats comparators) among = some w) :
    ∃ v, s.arbitrate comparators nodes places = .ok v ∧ v.winner = some w.index ∧
      ∀ l ∈ v.losers, l.branch ∈ places := by
  have hne : places ≠ [] := by
    rintro rfl
    cases hplaces
    cases hpick
  obtain ⟨v, hv, hwinner, hlosers⟩ := settle_of_pick hpick
  refine ⟨v, ?_, hwinner, fun l hl => ?_⟩
  · unfold arbitrate
    rw [if_neg (by simpa using hne), mapM_eq_some_of_forall₂ (hplaces.imp fun _ _ h => h.1)]
    exact hv
  · obtain ⟨c, hc, hlc⟩ := hlosers l hl
    have hindices : among.map (·.index) = places := by
      rw [← List.forall₂_eq_eq_eq, List.forall₂_map_left_iff]
      exact hplaces.flip.imp fun _ _ h => h.2
    rw [hlc, ← hindices]
    exact List.mem_map_of_mem hc

end Selector
end DecisionEngine
