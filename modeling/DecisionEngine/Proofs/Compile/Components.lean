import DecisionEngine.Compile.DisjointSets
import Mathlib.Data.List.FinRange
import Mathlib.Logic.Relation
import Mathlib.Order.Bounds.Basic
import Mathlib.Order.Fin.Basic
import Mathlib.Order.MinMax
/-!
# Disjoint sets are components

A walk over the forest changes parents, but no tree: halving a path points numbers to other numbers
of their tree.  So what a walk finds depends only on which numbers were united, and it is the
smallest number of the component.

* `DisjointSets.top` — the root of the tree of a number.
* `DisjointSets.Rooted` — what tells the tops of a forest from other labels.
* `DisjointSets.top_find`, `DisjointSets.top_unite` — what walking and uniting do to the tops.
* `DisjointSets.Represents` — two numbers are in one set exactly if a relation connects them.
* `DisjointSets.groups_eq` — the groups are the sets with their smallest numbers in front.
* `DisjointSets.find_isLeast` — after any calls a walk finds the smallest number of the component.
-/

namespace DecisionEngine

open Relation (EqvGen)

namespace DisjointSets

variable {n : Nat} {d : DisjointSets n} {f : Fin n → Fin n} {R : Fin n → Fin n → Prop}

/-! ## Trees -/

theorem parent_lt {v : Fin n} (h : d.parent v ≠ v) : d.parent v < v :=
  lt_of_le_of_ne (d.parent_le v) h

/-- The root of the tree of a number. -/
def top (d : DisjointSets n) (v : Fin n) : Fin n :=
  if _stays : d.parent v = v then v else d.top (d.parent v)
termination_by v.val
decreasing_by exact parent_lt _stays

/-- A label for each number: the same for a number and its parent, and for a root the root. -/
structure Rooted (d : DisjointSets n) (f : Fin n → Fin n) : Prop where
  climb : ∀ v, f (d.parent v) = f v
  root : ∀ v, d.parent v = v → f v = v

theorem rooted_top (d : DisjointSets n) : d.Rooted d.top := by
  have hroot : ∀ v, d.parent v = v → d.top v = v := by
    intro v hv
    rw [top, dif_pos hv]
  refine ⟨fun v => ?_, hroot⟩
  by_cases hv : d.parent v = v
  · rw [hv]
  · conv_rhs => rw [top, dif_neg hv]

/-- The tops are the only labels of this kind. -/
theorem Rooted.top_eq (h : d.Rooted f) : d.top = f := by
  funext v
  induction v using top.induct (d := d) with
  | case1 v hv => rw [d.rooted_top.root v hv, h.root v hv]
  | case2 v hv ih => rw [← d.rooted_top.climb, ih, h.climb]

theorem top_le (d : DisjointSets n) (v : Fin n) : d.top v ≤ v := by
  induction v using top.induct (d := d) with
  | case1 v hv => exact (d.rooted_top.root v hv).le
  | case2 v hv ih =>
    rw [← d.rooted_top.climb]
    exact ih.trans (d.parent_le v)

theorem parent_top (d : DisjointSets n) (v : Fin n) : d.parent (d.top v) = d.top v := by
  induction v using top.induct (d := d) with
  | case1 v hv => rwa [d.rooted_top.root v hv]
  | case2 v hv ih => rwa [← d.rooted_top.climb]

@[simp] theorem top_top (d : DisjointSets n) (v : Fin n) : d.top (d.top v) = d.top v :=
  d.rooted_top.root _ (d.parent_top v)

@[simp] theorem top_discrete (n : Nat) (v : Fin n) : (discrete n).top v = v :=
  (discrete n).rooted_top.root v (by simp [parent, discrete])

/-! ## Walking -/

theorem parent_point (d : DisjointSets n) {v target : Fin n} (h : target ≤ v) (w : Fin n) :
    (d.point v target h).parent w = if w = v then target else d.parent w := by
  simp only [parent, point, Fin.getElem_fin, Vector.getElem_set, Fin.ext_iff, eq_comm]

/-- To halve a path changes no tree. -/
theorem Rooted.point_grandparent (h : d.Rooted f) (v : Fin n)
    (hle : d.parent (d.parent v) ≤ v) : (d.point v (d.parent (d.parent v)) hle).Rooted f := by
  refine ⟨fun w => ?_, fun w hw => ?_⟩
  · rw [parent_point]
    split
    · next hwv => rw [h.climb, h.climb, hwv]
    · exact h.climb w
  · rw [parent_point] at hw
    split at hw
    · next hwv =>
      -- A number that is its own grandparent lies between itself and its parent.
      subst hwv
      exact h.root w (le_antisymm (d.parent_le w) (hw.symm.le.trans (d.grandparent_le w)))
    · exact h.root w hw

theorem Rooted.find (h : d.Rooted f) (v : Fin n) :
    (d.find v).1 = f v ∧ (d.find v).2.Rooted f := by
  induction d, v using find.induct with
  | case1 d v hv =>
    rw [DisjointSets.find, dif_pos hv]
    exact ⟨(h.root v hv).symm, h⟩
  | case2 d v hv next ih =>
    rw [DisjointSets.find, dif_neg hv]
    obtain ⟨hfound, hrooted⟩ := ih (h.point_grandparent v _)
    refine ⟨hfound.trans ?_, hrooted⟩
    rw [h.climb, h.climb]

/-- A walk finds the top. -/
@[simp] theorem find_fst (d : DisjointSets n) (v : Fin n) : (d.find v).1 = d.top v :=
  (d.rooted_top.find v).1

/-- A walk changes no top. -/
@[simp] theorem top_find (d : DisjointSets n) (v : Fin n) : (d.find v).2.top = d.top :=
  (d.rooted_top.find v).2.top_eq

/-! ## Uniting -/

/-- Pointing one root to another one takes all numbers of its tree along. -/
theorem top_point_root {r s : Fin n} (hr : d.parent r = r) (hs : d.parent s = s) (h : s ≤ r)
    (v : Fin n) : (d.point r s h).top v = if d.top v = r then s else d.top v := by
  have hrooted : (d.point r s h).Rooted fun v => if d.top v = r then s else d.top v := by
    refine ⟨fun w => ?_, fun w hw => ?_⟩
    · rw [parent_point]
      split
      · next hwr => rw [hwr, d.rooted_top.root r hr, d.rooted_top.root s hs, if_pos rfl, ite_self]
      · rw [d.rooted_top.climb]
    · rw [parent_point] at hw
      split at hw
      · next hwr => rw [hwr, d.rooted_top.root r hr, if_pos rfl, ← hwr, hw]
      · next hwr => rw [d.rooted_top.root w hw, if_neg hwr]
  exact congrFun hrooted.top_eq v

/-- Uniting gives both sets the smaller one of their tops. -/
theorem top_unite (d : DisjointSets n) (a b v : Fin n) : (d.unite a b).top v =
    if d.top v = d.top a ∨ d.top v = d.top b then min (d.top a) (d.top b) else d.top v := by
  have hroot : ∀ v, ((d.find a).2.find b).2.parent (d.top v) = d.top v := by
    intro v
    have h := ((d.find a).2.find b).2.parent_top v
    rwa [top_find, top_find] at h
  unfold unite
  simp only [find_fst, top_find]
  split
  · next hlt =>
    rw [top_point_root (hroot b) (hroot a), top_find, top_find, min_eq_left hlt.le]
    split_ifs <;> simp_all
  · split
    · next hlt =>
      rw [top_point_root (hroot a) (hroot b), top_find, top_find, min_eq_right hlt.le]
      split_ifs <;> simp_all
    · next hge hle =>
      have heq : d.top a = d.top b := le_antisymm (not_lt.1 hle) (not_lt.1 hge)
      simp only [top_find, heq, or_self, min_self]
      split_ifs with hv
      · exact hv
      · rfl

/-! ## Components -/

/-- Two numbers are in one set exactly if a relation connects them. -/
def Represents (d : DisjointSets n) (R : Fin n → Fin n → Prop) : Prop :=
  ∀ v w, d.top v = d.top w ↔ EqvGen R v w

theorem represents_discrete (n : Nat) : (discrete n).Represents fun _ _ => False := by
  intro v w
  rw [top_discrete, top_discrete]
  constructor
  · rintro rfl
    exact .refl _
  · intro h
    induction h with
    | rel _ _ h => exact h.elim
    | refl _ => rfl
    | symm _ _ _ ih => exact ih.symm
    | trans _ _ _ _ _ ih ih' => exact ih.trans ih'

/-- Uniting two sets adds one pair to the relation. -/
theorem Represents.unite (h : d.Represents R) (a b : Fin n) :
    (d.unite a b).Represents fun v w => R v w ∨ (v = a ∧ w = b) := by
  have htop := d.top_unite a b
  intro v w
  have hmono : ∀ x y, EqvGen R x y → EqvGen (fun v w => R v w ∨ (v = a ∧ w = b)) x y :=
    fun x y hxy => hxy.mono fun _ _ => .inl
  have hab : EqvGen (fun v w => R v w ∨ (v = a ∧ w = b)) a b := .rel _ _ (.inr ⟨rfl, rfl⟩)
  have hnear : ∀ x, d.top x = d.top a ∨ d.top x = d.top b →
      EqvGen (fun v w => R v w ∨ (v = a ∧ w = b)) x a := by
    rintro x (hx | hx)
    · exact hmono _ _ ((h x a).1 hx)
    · exact (hmono _ _ ((h x b).1 hx)).trans _ _ _ (hab.symm _ _)
  constructor
  · intro heq
    rw [htop v, htop w] at heq
    have hmin := min_choice (d.top a) (d.top b)
    by_cases hv : d.top v = d.top a ∨ d.top v = d.top b
    · by_cases hw : d.top w = d.top a ∨ d.top w = d.top b
      · exact (hnear v hv).trans _ _ _ ((hnear w hw).symm _ _)
      · rw [if_pos hv, if_neg hw] at heq
        exact absurd (hmin.imp heq.symm.trans heq.symm.trans) hw
    · by_cases hw : d.top w = d.top a ∨ d.top w = d.top b
      · rw [if_neg hv, if_pos hw] at heq
        exact absurd (hmin.imp heq.trans heq.trans) hv
      · rw [if_neg hv, if_neg hw] at heq
        exact hmono _ _ ((h v w).1 heq)
  · intro heqv
    induction heqv with
    | rel x y hxy =>
      rcases hxy with hxy | ⟨rfl, rfl⟩
      · rw [htop x, htop y, (h x y).2 (.rel _ _ hxy)]
      · rw [htop, htop, if_pos (.inl rfl), if_pos (.inr rfl)]
    | refl _ => rfl
    | symm _ _ _ ih => exact ih.symm
    | trans _ _ _ _ _ ih ih' => exact ih.trans ih'

/-- The top of a number is the smallest number that is connected to it. -/
theorem Represents.isLeast_top (h : d.Represents R) (v : Fin n) :
    IsLeast {w | EqvGen R v w} (d.top v) := by
  refine ⟨(h v _).1 (d.top_top v).symm, fun w hw => ?_⟩
  rw [(h v w).2 hw]
  exact d.top_le w

/-! ## Groups -/

theorem findAll_eq (d : DisjointSets n) (vs : List (Fin n)) :
    d.findAll vs = vs.map fun v => (v, d.top v) := by
  induction vs generalizing d with
  | nil => rfl
  | cons v rest ih =>
    rw [findAll, List.map_cons]
    dsimp only
    rw [ih, find_fst, top_find]

/-- The groups are the sets of numbers with one top. -/
theorem groups_eq (d : DisjointSets n) : d.groups =
    ((List.finRange n).filter fun v => d.top v == v).map fun root =>
      (List.finRange n).filter fun v => d.top v == root := by
  unfold groups
  simp only [findAll_eq, List.any_map, List.filter_map, List.map_map]
  have hroots : ((List.finRange n).filter fun root =>
      (List.finRange n).any ((·.2 == root) ∘ fun v => (v, d.top v))) =
      (List.finRange n).filter fun v => d.top v == v := by
    refine List.filter_congr fun root _ => ?_
    rw [Bool.eq_iff_iff, List.any_eq_true, beq_iff_eq]
    constructor
    · rintro ⟨v, -, hv⟩
      obtain rfl : d.top v = root := beq_iff_eq.1 hv
      exact d.top_top v
    · intro hroot
      exact ⟨root, List.mem_finRange root, beq_iff_eq.2 hroot⟩
  rw [hroots]
  refine List.map_congr_left fun root _ => ?_
  exact List.map_id _

/-! ## Calls -/

/-- What can be asked of a forest. -/
inductive Call (n : Nat)
  | unite (a b : Fin n)
  | find (v : Fin n)
  deriving DecidableEq

/-- The forest after a call. -/
def after (d : DisjointSets n) : Call n → DisjointSets n
  | .unite a b => d.unite a b
  | .find v => (d.find v).2

/-- The forest after calls from the beginning. -/
def run (calls : List (Call n)) : DisjointSets n := calls.foldl after (discrete n)

/-- Two numbers are in one component of the pairs that the calls unite. -/
def Linked (calls : List (Call n)) : Fin n → Fin n → Prop :=
  EqvGen fun a b => Call.unite a b ∈ calls

/-- Calls that unite the same pairs link the same numbers, whichever of a pair comes first. -/
theorem linked_of_unites {calls calls' : List (Call n)} (h : ∀ a b, Call.unite a b ∈ calls →
    Call.unite a b ∈ calls' ∨ Call.unite b a ∈ calls') {v w : Fin n} (hlinked : Linked calls v w) :
    Linked calls' v w := by
  induction hlinked with
  | rel a b hab =>
    rcases h a b hab with hpair | hpair
    · exact EqvGen.rel a b hpair
    · exact EqvGen.symm b a (.rel b a hpair)
  | refl _ => exact .refl _
  | symm _ _ _ ih => exact ih.symm
  | trans _ _ _ _ _ ih ih' => exact ih.trans _ _ _ ih'

/-- A call adds the pair that it unites, if it unites one. -/
theorem Represents.after (h : d.Represents R) (c : Call n) :
    (d.after c).Represents fun v w => R v w ∨ c = .unite v w := by
  cases c with
  | unite a b =>
    have hpair : (fun v w => R v w ∨ Call.unite a b = .unite v w) =
        fun v w => R v w ∨ (v = a ∧ w = b) := by
      funext v w
      simp only [Call.unite.injEq, eq_comm]
    rw [hpair]
    exact h.unite a b
  | find v =>
    intro x y
    rw [DisjointSets.after, top_find, h x y]
    simp only [reduceCtorEq, or_false]

theorem Represents.foldl (h : d.Represents R) (calls : List (Call n)) :
    (calls.foldl DisjointSets.after d).Represents
      fun v w => R v w ∨ Call.unite v w ∈ calls := by
  induction calls generalizing d R with
  | nil => simpa using h
  | cons c rest ih =>
    have hrest := ih (h.after c)
    simp only [or_assoc] at hrest
    simpa only [List.foldl_cons, List.mem_cons, eq_comm] using hrest

theorem represents_run (calls : List (Call n)) :
    (run calls).Represents fun v w => Call.unite v w ∈ calls := by
  have h := (represents_discrete n).foldl calls
  simp only [false_or] at h
  exact h

/-- **Sets do not depend on the order of the calls.**  After any calls, walks among them, a walk
ends at the smallest number of the component of the united pairs; and calls with the same components
in another order, with other walks between them, give the same answers and the same groups. -/
theorem find_isLeast (calls : List (Call n)) :
    (∀ v, IsLeast {w | Linked calls v w} ((run calls).find v).1) ∧
      ∀ calls' : List (Call n), (∀ v w, Linked calls v w ↔ Linked calls' v w) →
        (∀ v, ((run calls).find v).1 = ((run calls').find v).1) ∧
          (run calls).groups = (run calls').groups := by
  have hleast : ∀ calls : List (Call n), ∀ v, IsLeast {w | Linked calls v w} ((run calls).top v) :=
    fun calls v => (represents_run calls).isLeast_top v
  refine ⟨fun v => find_fst _ v ▸ hleast calls v, fun calls' hsame => ?_⟩
  have htop : (run calls).top = (run calls').top := by
    funext v
    have hset : {w | Linked calls v w} = {w | Linked calls' v w} := Set.ext (hsame v)
    exact (hleast calls v).unique (hset ▸ hleast calls' v)
  refine ⟨fun v => ?_, ?_⟩
  · rw [find_fst, find_fst, htop]
  · rw [groups_eq, groups_eq, htop]

/-- Calls that make one component of four numbers, with walks between them. -/
def joins : List (Call 6) := [.unite 5 4, .unite 4 3, .find 5, .unite 3 2, .find 5, .unite 1 0]

/-- The same pairs in another order. -/
def joinsReversed : List (Call 6) := [.unite 0 1, .unite 2 3, .unite 3 4, .find 4, .unite 4 5]

theorem find_isLeast_joins :
    (∀ v w, Linked joins v w ↔ Linked joinsReversed v w) ∧
      IsLeast {w | Linked joins 5 w} 2 ∧ ((run joinsReversed).find 5).1 = 2 ∧
      (run joinsReversed).groups = [[0, 1], [2, 3, 4, 5]] := by
  have hsame : ∀ v w, Linked joins v w ↔ Linked joinsReversed v w := fun v w =>
    ⟨linked_of_unites (by decide), linked_of_unites (by decide)⟩
  obtain ⟨hleast, hother⟩ := find_isLeast joins
  obtain ⟨hfound, hgroups⟩ := hother joinsReversed hsame
  have htop : ((run joins).find 5).1 = 2 := by decide +kernel
  have hall : (run joins).groups = [[0, 1], [2, 3, 4, 5]] := by decide +kernel
  exact ⟨hsame, htop ▸ hleast 5, (hfound 5).symm.trans htop, hgroups.symm.trans hall⟩

end DisjointSets
end DecisionEngine
