import DecisionEngine.Compile.Digraph
import DecisionEngine.Proofs.Compile.Cycles
import Mathlib.Data.List.Perm.Subperm
import Mathlib.Tactic.ByContra
/-!
# What reachability and cycles find

The rounds of `Digraph.reach` end with everything that is reachable, and `Digraph.cycles` is empty
only where no vertex is reachable from itself.

* `Digraph.mem_reach_iff` — the rounds find what is reachable, and nothing else.  A round that
  adds something leaves fewer vertices to be seen, so there are never more rounds than vertices.
* `Digraph.cycles_eq_nil_iff` — the list of cycles is empty where no vertex reaches itself, and only
  there.
* `exists_unbeaten` — a list that is not empty has an element that no other one is in front of.
-/

namespace DecisionEngine
namespace Digraph

open Relation (ReflTransGen TransGen)

variable {α : Type} [DecidableEq α] {g : Digraph α}

/-- An edge of the graph. -/
def Step (g : Digraph α) (v w : α) : Prop := w ∈ g.next v

/-- All edges lead to vertices. -/
def Closed (g : Digraph α) : Prop := ∀ v w, g.Step v w → w ∈ g.vertices

/-! ## Rounds -/

/-- The vertices that were not seen yet. -/
def unseen (g : Digraph α) (seen : List α) : List α := g.vertices.filter fun v => !seen.contains v

/-- What a round adds: the successors of its frontier that were not seen. -/
def fresh (g : Digraph α) (frontier seen : List α) : List α :=
  ((frontier.flatMap g.next).eraseDups).filter fun w => !seen.contains w

theorem mem_fresh {frontier seen : List α} {w : α} :
    w ∈ g.fresh frontier seen ↔ (∃ v ∈ frontier, g.Step v w) ∧ w ∉ seen := by
  simp [fresh, Step, List.mem_eraseDups]

/-- A round that adds something leaves fewer vertices to be seen. -/
theorem unseen_lt (hg : g.Closed) {frontier seen : List α}
    (h : (g.fresh frontier seen).isEmpty = false) :
    (g.unseen (seen ++ g.fresh frontier seen)).length < (g.unseen seen).length := by
  obtain ⟨w, hw⟩ : ∃ w, w ∈ g.fresh frontier seen := by
    cases hf : g.fresh frontier seen with
    | nil => rw [hf] at h; cases h
    | cons w _ => exact ⟨w, List.mem_cons_self ..⟩
  obtain ⟨⟨v, -, hvw⟩, hseen⟩ := mem_fresh.1 hw
  have hsub : g.unseen (seen ++ g.fresh frontier seen) =
      (g.unseen seen).filter fun v => !(g.fresh frontier seen).contains v := by
    unfold unseen
    rw [List.filter_filter]
    refine List.filter_congr fun x _ => ?_
    simp [Bool.and_comm]
  rw [hsub]
  refine List.length_filter_lt_length_iff_exists.2 ⟨w, ?_, by simpa using hw⟩
  simpa [unseen] using ⟨hg v w hvw, hseen⟩

/-- Everything that the rounds find is reachable from what was seen before. -/
theorem reachable_of_mem_spread {rounds : Nat} {frontier seen : List α} (hf : frontier ⊆ seen)
    {w : α} (h : w ∈ g.spread rounds frontier seen) : ∃ v ∈ seen, ReflTransGen g.Step v w := by
  induction rounds generalizing frontier seen with
  | zero => exact ⟨w, h, .refl⟩
  | succ rounds ih =>
    rw [spread] at h
    change w ∈ (if (g.fresh frontier seen).isEmpty then seen else _) at h
    split at h
    · exact ⟨w, h, .refl⟩
    · obtain ⟨v, hv, hvw⟩ := ih (fun x hx => List.mem_append_right _ hx) h
      rcases List.mem_append.1 hv with hv | hv
      · exact ⟨v, hv, hvw⟩
      · obtain ⟨⟨u, hu, huv⟩, -⟩ := mem_fresh.1 hv
        exact ⟨u, hf hu, .head huv hvw⟩

theorem subset_spread (rounds : Nat) (frontier seen : List α) :
    seen ⊆ g.spread rounds frontier seen := by
  induction rounds generalizing frontier seen with
  | zero => exact fun _ h => h
  | succ rounds ih =>
    intro w hw
    rw [spread]
    change w ∈ (if (g.fresh frontier seen).isEmpty then seen else _)
    split
    · exact hw
    · exact ih _ _ (List.mem_append_left _ hw)

/-- With a round for each vertex that was not seen, the rounds end with a closed set.  Everything
behind the frontier has its successors among what was seen. -/
theorem closed_spread (hg : g.Closed) {rounds : Nat} {frontier seen : List α}
    (hrounds : (g.unseen seen).length ≤ rounds)
    (hbehind : ∀ v ∈ seen, v ∉ frontier → ∀ w, g.Step v w → w ∈ seen) :
    ∀ v ∈ g.spread rounds frontier seen, ∀ w, g.Step v w →
      w ∈ g.spread rounds frontier seen := by
  induction rounds generalizing frontier seen with
  | zero =>
    intro v hv w hw
    have hnone : g.unseen seen = [] := List.length_eq_zero_iff.1 (Nat.le_zero.1 hrounds)
    unfold unseen at hnone
    have hseen := List.filter_eq_nil_iff.1 hnone w (hg v w hw)
    rw [spread]
    simpa using hseen
  | succ rounds ih =>
    rw [spread]
    change ∀ v ∈ (if (g.fresh frontier seen).isEmpty then seen else
      g.spread rounds (g.fresh frontier seen) (seen ++ g.fresh frontier seen)), ∀ w, g.Step v w →
        w ∈ (if (g.fresh frontier seen).isEmpty then seen else
          g.spread rounds (g.fresh frontier seen) (seen ++ g.fresh frontier seen))
    have hnext : ∀ v ∈ seen, ∀ w, g.Step v w → w ∈ seen ++ g.fresh frontier seen := by
      intro v hv w hw
      by_cases hfront : v ∈ frontier
      · by_cases hseen : w ∈ seen
        · exact List.mem_append_left _ hseen
        · exact List.mem_append_right _ (mem_fresh.2 ⟨⟨v, hfront, hw⟩, hseen⟩)
      · exact List.mem_append_left _ (hbehind v hv hfront w hw)
    by_cases hempty : (g.fresh frontier seen).isEmpty
    · rw [if_pos hempty]
      intro v hv w hw
      have hmem := hnext v hv w hw
      rwa [List.isEmpty_iff.1 hempty, List.append_nil] at hmem
    · rw [if_neg hempty]
      have hlt := unseen_lt hg (Bool.eq_false_iff.2 hempty)
      refine ih (by omega) fun v hv hfront w hw => ?_
      rcases List.mem_append.1 hv with hv | hv
      · exact hnext v hv w hw
      · exact absurd hv hfront

/-- What is reached is what is reachable. -/
theorem mem_reach_iff (hg : g.Closed) {start : List α} {w : α} :
    w ∈ g.reach start ↔ ∃ v ∈ start, ReflTransGen g.Step v w := by
  constructor
  · intro h
    obtain ⟨v, hv, hvw⟩ := reachable_of_mem_spread (fun _ hx => hx) h
    exact ⟨v, List.mem_eraseDups.1 hv, hvw⟩
  · rintro ⟨v, hv, hvw⟩
    have hclosed : ∀ x ∈ g.reach start, ∀ y, g.Step x y → y ∈ g.reach start :=
      closed_spread hg (List.length_filter_le _ _) fun x hx hnot => absurd hx hnot
    have hstart : v ∈ g.reach start := subset_spread _ _ _ (List.mem_eraseDups.2 hv)
    clear hv
    induction hvw with
    | refl => exact hstart
    | tail _ hstep ih => exact hclosed _ ih _ hstep

/-! ## Cycles -/

theorem exists_place {v : α} (hv : v ∈ g.vertices) :
    ∃ i, g.vertices.finIdxOf? v = some i :=
  Option.isSome_iff_exists.1 (List.isSome_finIdxOf?.trans (List.contains_iff_mem.2 hv))

theorem get_place {v : α} {i : Fin g.vertices.length} (h : g.vertices.finIdxOf? v = some i) :
    g.vertices.get i = v :=
  (List.finIdxOf?_eq_some_iff.1 h).1

/-- An edge between places is one between the vertices there. -/
theorem step_get {i j : Fin g.vertices.length} (h : g.places.Step i j) :
    g.Step (g.vertices.get i) (g.vertices.get j) := by
  obtain ⟨w, hw, hj⟩ := List.mem_filterMap.1 h
  rw [get_place hj]
  exact hw

/-- What the vertex at a place leads to has a place that this place leads to. -/
theorem exists_transGen_places (hg : g.Closed) {i : Fin g.vertices.length} {w : α}
    (h : TransGen g.Step (g.vertices.get i) w) :
    ∃ j, g.vertices.finIdxOf? w = some j ∧ TransGen g.places.Step i j := by
  have hplace : ∀ {k x}, g.Step (g.vertices.get k) x →
      ∃ j, g.vertices.finIdxOf? x = some j ∧ g.places.Step k j := by
    intro k x hx
    obtain ⟨j, hj⟩ := exists_place (hg _ x hx)
    exact ⟨j, hj, List.mem_filterMap.2 ⟨x, hx, hj⟩⟩
  induction h with
  | single hstep =>
    obtain ⟨j, hj, hij⟩ := hplace hstep
    exact ⟨j, hj, .single hij⟩
  | tail _ hstep ih =>
    obtain ⟨k, hk, hik⟩ := ih
    rw [← get_place hk] at hstep
    obtain ⟨j, hj, hkj⟩ := hplace hstep
    exact ⟨j, hj, hik.tail hkj⟩

/-- The list of cycles is empty exactly if no vertex reaches itself. -/
theorem cycles_eq_nil_iff (hg : g.Closed) :
    g.cycles = [] ↔ ∀ v ∈ g.vertices, ¬TransGen g.Step v v := by
  unfold cycles
  rw [List.map_eq_nil_iff, CycleFinder.run_eq_nil_iff]
  constructor
  · intro hacyclic v hv hcycle
    obtain ⟨i, hi⟩ := exists_place hv
    rw [← get_place hi] at hcycle
    obtain ⟨j, hj, hij⟩ := exists_transGen_places hg hcycle
    rw [get_place hi, hi] at hj
    obtain rfl := Option.some.inj hj
    exact hacyclic i hij
  · intro hacyclic i hcycle
    exact hacyclic _ (List.get_mem ..) (hcycle.lift g.vertices.get fun _ _ => step_get)

/-- The same for a relation between vertices that the graph is drawn from. -/
theorem cycles_eq_nil_iff_acyclic {R : α → α → Prop} (hstep : ∀ v w, g.Step v w ↔ R v w)
    (hends : ∀ v w, R v w → v ∈ g.vertices ∧ w ∈ g.vertices) :
    g.cycles = [] ↔ ∀ v, ¬TransGen R v v := by
  have hsame : g.Step = R := funext fun v => funext fun w => propext (hstep v w)
  have hclosed : g.Closed := fun v w hvw => (hends v w ((hstep v w).1 hvw)).2
  rw [cycles_eq_nil_iff hclosed, hsame]
  refine ⟨fun h v hcycle => ?_, fun h v _ => h v⟩
  obtain ⟨w, hvw, -⟩ := Relation.TransGen.head'_iff.1 hcycle
  exact h v (hends v w hvw).1 hcycle

end Digraph

/-- Where nothing is in front of itself, even through others, a list that is not empty has an
element that nothing in the list is in front of. -/
theorem exists_unbeaten {α : Type} {R : α → α → Prop} {l : List α} (hne : l ≠ [])
    (hacyclic : ∀ x ∈ l, ¬Relation.TransGen R x x) : ∃ x ∈ l, ∀ y ∈ l, ¬R y x := by
  -- Otherwise a walk along `R` inside the list goes on, and comes back to where it was.
  by_contra! hbeaten
  have hwalk : ∀ n : Nat, ∀ x ∈ l, ∃ path : List α, path.length = n ∧ path ⊆ l ∧
      (x :: path).Pairwise (fun a b => Relation.TransGen R b a) := by
    intro n
    induction n with
    | zero => exact fun x _ => ⟨[], rfl, by simp, by simp⟩
    | succ n ih =>
      intro x hx
      obtain ⟨y, hy, hyx⟩ := hbeaten x hx
      obtain ⟨path, hlen, hsub, hpath⟩ := ih y hy
      refine ⟨y :: path, by simp [hlen], by simpa using ⟨hy, hsub⟩, ?_⟩
      refine List.pairwise_cons.2 ⟨fun z hz => ?_, hpath⟩
      rcases List.mem_cons.1 hz with rfl | hz
      · exact .single hyx
      · exact ((List.pairwise_cons.1 hpath).1 z hz).tail hyx
  obtain ⟨x, hx⟩ := List.exists_mem_of_ne_nil l hne
  obtain ⟨path, hlen, hsub, hpath⟩ := hwalk l.length x hx
  have hnodup : (x :: path).Nodup := by
    refine hpath.imp_of_mem fun {a b} ha hb hab heq => ?_
    subst heq
    rcases List.mem_cons.1 ha with rfl | ha
    · exact hacyclic _ hx hab
    · exact hacyclic _ (hsub ha) hab
  have hle := (List.subperm_of_subset hnodup (List.cons_subset.2 ⟨hx, hsub⟩)).length_le
  simp only [List.length_cons] at hle
  omega

end DecisionEngine
