import DecisionEngine.Compile.CycleFinder
import Mathlib.Data.List.Sort
import Mathlib.Logic.Relation
/-!
# Where the search for cycles stands

Between two steps of the search the vertices are of three kinds: those that it did not come to,
those on the stack, and those whose component is closed, from which it cannot get back to the
stack.  The vertices that are being visited lie on the stack, and every other one on it leads back
to one of them.  A component is closed when no edge leads from the upper part of the stack to the
rest.

* `Adjacency.Cycle` — the strongly connected components that contain a cycle.
* `CycleFinder.Sound` — what holds between the steps of the search.
* `Sound.enter`, `Sound.leave`, `Severed.sound_close` — the steps preserve it.
-/

namespace DecisionEngine

open Relation (ReflTransGen TransGen)

variable {n : Nat} {next : Adjacency n}

/-! ## Components -/

namespace Adjacency

/-- An edge of the graph. -/
def Step (next : Adjacency n) (v w : Fin n) : Prop := w ∈ next v

instance (v w : Fin n) : Decidable (next.Step v w) := inferInstanceAs (Decidable (w ∈ next v))

/-- One vertex leads to another, by any number of edges. -/
def Leads (next : Adjacency n) : Fin n → Fin n → Prop := ReflTransGen next.Step

/-- A list has the members of a strongly connected component: all vertices that one of them leads to
and that lead back to it. -/
def IsComponent (next : Adjacency n) (c : List (Fin n)) : Prop :=
  ∃ v, ∀ w, w ∈ c ↔ next.Leads v w ∧ next.Leads w v

/-- A component with a cycle, in ascending order: it has several vertices, or a self loop. -/
structure Cycle (next : Adjacency n) (c : List (Fin n)) : Prop where
  ascending : c.Pairwise (· < ·)
  component : next.IsComponent c
  circular : 1 < c.length ∨ ∃ v ∈ c, next.Step v v

/-- What a set of vertices without way out leads to is in the set. -/
theorem Leads.mem_of_closed {P : Fin n → Prop} (hP : ∀ v, P v → ∀ w, next.Step v w → P w)
    {v w : Fin n} (h : next.Leads v w) (hv : P v) : P w := by
  induction h with
  | refl => exact hv
  | tail _ hstep ih => exact hP _ ih _ hstep

end Adjacency

namespace CycleFinder

variable {path new : List (Fin n)} {s t : Search n} {v w : Fin n} {c : List (Fin n)}

/-! ## The parts of a state -/

namespace Search

/-- The component of a vertex is closed. -/
def Settled (s : Search n) (v : Fin n) : Prop := v ∈ s.visited ∧ v ∉ s.stack

theorem number_enter_self (hv : v ∉ s.visited) : (s.enter v).number v = s.visited.length := by
  unfold number enter
  rw [List.idxOf_append_of_notMem hv]
  simp

theorem number_lt (hw : w ∈ s.visited) : s.number w < s.visited.length :=
  List.idxOf_lt_length_of_mem hw

theorem settled_enter_iff (hv : v ∉ s.visited) : (s.enter v).Settled w ↔ s.Settled w := by
  unfold Settled enter
  by_cases hw : w = v
  · subst hw
    simp [hv]
  · simp [hw]

end Search

/-- One state comes later in a search than another, with the same vertices being visited: what was
visited keeps its number, and the stack may have grown by new vertices. -/
structure Continues (s t : Search n) : Prop where
  visited : s.visited <+: t.visited
  stack : ∃ new, t.stack = new ++ s.stack ∧ ∀ w ∈ new, w ∉ s.visited

namespace Continues

theorem enter (hv : v ∉ s.visited) : Continues s (s.enter v) :=
  ⟨List.prefix_append _ _, [v], rfl, by simpa using hv⟩

theorem refl (s : Search n) : Continues s s := ⟨List.prefix_rfl, [], rfl, by simp⟩

theorem trans {u : Search n} (h : Continues s t) (h' : Continues t u) : Continues s u := by
  obtain ⟨new, hstack, hnew⟩ := h.stack
  obtain ⟨later, hstack', hlater⟩ := h'.stack
  refine ⟨h.visited.trans h'.visited, later ++ new, by rw [hstack', hstack, List.append_assoc], ?_⟩
  intro w hw
  rcases List.mem_append.1 hw with hw | hw
  · exact fun hs => hlater w hw (h.visited.subset hs)
  · exact hnew w hw

theorem mem_visited (h : Continues s t) (hw : w ∈ s.visited) : w ∈ t.visited := h.visited.subset hw

theorem mem_stack (h : Continues s t) (hw : w ∈ s.stack) : w ∈ t.stack := by
  obtain ⟨new, hstack, -⟩ := h.stack
  rw [hstack]
  exact List.mem_append_right _ hw

theorem number (h : Continues s t) (hw : w ∈ s.visited) : t.number w = s.number w := by
  obtain ⟨more, hmore⟩ := h.visited
  unfold Search.number
  rw [← hmore]
  exact List.idxOf_append_of_mem hw

/-- A vertex that was not visited before has a number that no earlier one has. -/
theorem le_number (h : Continues s t) (hw : w ∉ s.visited) : s.visited.length ≤ t.number w := by
  obtain ⟨more, hmore⟩ := h.visited
  unfold Search.number
  rw [← hmore, List.idxOf_append_of_notMem hw]
  omega

end Continues

/-! ## What holds between the steps -/

/-- What holds of a search while the vertices of `path` are being visited. -/
structure Sound (next : Adjacency n) (path : List (Fin n)) (s : Search n) : Prop where
  distinct : s.visited.Nodup
  stacked : s.stack.Nodup
  visited : s.stack ⊆ s.visited
  leads : s.stack.Pairwise fun a b => next.Leads b a
  current : path ⊆ s.stack
  anchored : ∀ v ∈ s.stack, ∃ p ∈ path, next.Leads v p
  explored : ∀ v ∈ s.visited, v ∉ path → ∀ w, next.Step v w → w ∈ s.visited
  closed : ∀ v, s.Settled v → ∀ w, next.Step v w → s.Settled w
  cycles : ∀ c, c ∈ s.cycles ↔ next.Cycle c ∧ ∀ v ∈ c, s.Settled v
  once : s.cycles.Nodup

namespace Sound

theorem start : Sound next [] .start where
  distinct := List.nodup_nil
  stacked := List.nodup_nil
  visited := List.Subset.refl _
  leads := .nil
  current := List.Subset.refl _
  anchored := by simp [Search.start]
  explored := by simp [Search.start]
  closed := by simp [Search.Settled, Search.start]
  cycles c := by
    refine ⟨fun h => absurd h List.not_mem_nil, fun ⟨⟨_, ⟨v, hv⟩, _⟩, hsettled⟩ => ?_⟩
    exact absurd (hsettled v ((hv v).2 ⟨.refl, .refl⟩)).1 List.not_mem_nil
  once := List.nodup_nil

/-- A vertex that can be reached from those being visited is entered. -/
theorem enter (h : Sound next path s) (hv : v ∉ s.visited) (hpath : ∀ p ∈ path, next.Leads p v) :
    Sound next (v :: path) (s.enter v) where
  distinct := h.distinct.append (List.nodup_singleton v) (by simpa using hv)
  stacked := List.nodup_cons.2 ⟨fun hstack => hv (h.visited hstack), h.stacked⟩
  visited := List.cons_subset.2 ⟨by simp [Search.enter], fun w hw =>
    List.mem_append_left _ (h.visited hw)⟩
  leads := by
    refine List.pairwise_cons.2 ⟨fun w hw => ?_, h.leads⟩
    obtain ⟨p, hp, hwp⟩ := h.anchored w hw
    exact hwp.trans (hpath p hp)
  current := List.cons_subset.2 ⟨List.mem_cons_self .., fun w hw =>
    List.mem_cons_of_mem _ (h.current hw)⟩
  anchored w hw := by
    rcases List.mem_cons.1 hw with rfl | hw
    · exact ⟨w, List.mem_cons_self .., .refl⟩
    · obtain ⟨p, hp, hwp⟩ := h.anchored w hw
      exact ⟨p, List.mem_cons_of_mem _ hp, hwp⟩
  explored w hw hnot x hx := by
    rw [List.mem_cons, not_or] at hnot
    rcases List.mem_append.1 hw with hw | hw
    · exact List.mem_append_left _ (h.explored w hw hnot.2 x hx)
    · exact absurd (List.mem_singleton.1 hw) hnot.1
  closed w hw x hx := by
    rw [Search.settled_enter_iff hv] at hw ⊢
    exact h.closed w hw x hx
  cycles c := by
    rw [show (s.enter v).cycles = s.cycles from rfl, h.cycles]
    simp only [Search.settled_enter_iff hv]
  once := h.once

/-- A vertex whose successors were visited, and that leads back to another one being visited, is
left on the stack. -/
theorem leave (h : Sound next (v :: path) s) (hnext : ∀ w, next.Step v w → w ∈ s.visited)
    (hback : ∃ p ∈ path, next.Leads v p) : Sound next path s where
  distinct := h.distinct
  stacked := h.stacked
  visited := h.visited
  leads := h.leads
  current := (List.cons_subset.1 h.current).2
  anchored w hw := by
    obtain ⟨p, hp, hwp⟩ := h.anchored w hw
    rcases List.mem_cons.1 hp with rfl | hp
    · obtain ⟨q, hq, hpq⟩ := hback
      exact ⟨q, hq, hwp.trans hpq⟩
    · exact ⟨p, hp, hwp⟩
  explored w hw hnot x hx := by
    by_cases hwv : w = v
    · subst hwv
      exact hnext x hx
    · exact h.explored w hw (by simp [hwv, hnot]) x hx
  closed := h.closed
  cycles := h.cycles
  once := h.once

end Sound

/-! ## Closing a component -/

/-- A component is circular if its first vertex makes it so. -/
theorem circular_sorted_iff :
    (1 < ((new ++ [v]).mergeSort fun a b => decide (a ≤ b)).length ∨
        ∃ w ∈ (new ++ [v]).mergeSort (fun a b => decide (a ≤ b)), next.Step w w) ↔
      1 < (new ++ [v]).length ∨ next.Step v v := by
  rw [List.length_mergeSort]
  constructor
  · rintro (hlength | ⟨w, hw, hloop⟩)
    · exact .inl hlength
    · rw [List.mem_mergeSort] at hw
      rcases List.mem_append.1 hw with hnew | hself
      · have hpos := List.length_pos_of_mem hnew
        exact .inl (by simpa using hpos)
      · exact .inr (List.mem_singleton.1 hself ▸ hloop)
  · rintro (hlength | hloop)
    · exact .inl hlength
    · exact .inr ⟨v, by simp, hloop⟩

/-- The upper part of the stack, down to a vertex that is being visited, with no edge to the rest,
and nothing left to explore. -/
structure Severed (next : Adjacency n) (path : List (Fin n)) (v : Fin n) (new : List (Fin n))
    (rest : List (Fin n)) (s : Search n) : Prop where
  sound : Sound next (v :: path) s
  stack : s.stack = new ++ v :: rest
  below : path ⊆ rest
  done : ∀ w, next.Step v w → w ∈ s.visited
  severed : ∀ a ∈ new ++ [v], ∀ b ∈ rest, ¬ next.Step a b

namespace Severed

variable {rest : List (Fin n)}

theorem nodup_stack (h : Severed next path v new rest s) : ((new ++ [v]) ++ rest).Nodup := by
  rw [← List.append_cons, ← h.stack]
  exact h.sound.stacked

theorem not_mem_new (h : Severed next path v new rest s) : v ∉ new := fun hv =>
  (List.nodup_append.1 h.nodup_stack.of_append_left).2.2 v hv v (List.mem_singleton_self v) rfl

theorem component_eq (h : Severed next path v new rest s) : s.component v = new ++ [v] := by
  unfold Search.component
  rw [h.stack, List.takeWhile_append_of_pos fun w hw => ?_]
  · simp
  · simpa using fun heq : w = v => h.not_mem_new (heq ▸ hw)

theorem stack_close (h : Severed next path v new rest s) : (s.close next v).stack = rest := by
  unfold Search.close
  dsimp only
  rw [h.stack, List.dropWhile_append_of_pos fun w hw => ?_]
  · simp
  · simpa using fun heq : w = v => h.not_mem_new (heq ▸ hw)

theorem mem_stack (h : Severed next path v new rest s) :
    w ∈ s.stack ↔ w ∈ new ++ [v] ∨ w ∈ rest := by
  rw [h.stack]
  simp [or_assoc]

/-- No vertex is in both parts of the stack. -/
theorem disjoint (h : Severed next path v new rest s) (hw : w ∈ new ++ [v]) : w ∉ rest :=
  fun hrest => (List.nodup_append.1 h.nodup_stack).2.2 w hw w hrest rfl

theorem settled_close_iff (h : Severed next path v new rest s) :
    (s.close next v).Settled w ↔ s.Settled w ∨ w ∈ new ++ [v] := by
  unfold Search.Settled
  rw [h.stack_close, h.mem_stack]
  constructor
  · rintro ⟨hvisited, hrest⟩
    by_cases hw : w ∈ new ++ [v]
    · exact .inr hw
    · exact .inl ⟨hvisited, fun hmem => hmem.elim hw hrest⟩
  · rintro (⟨hvisited, hstack⟩ | hw)
    · exact ⟨hvisited, fun hrest => hstack (.inr hrest)⟩
    · exact ⟨h.sound.visited (h.mem_stack.2 (.inl hw)), h.disjoint hw⟩

/-- What is closed now has no way out. -/
theorem closed_close (h : Severed next path v new rest s) (hw : (s.close next v).Settled w)
    {x : Fin n} (hx : next.Step w x) : (s.close next v).Settled x := by
  rw [h.settled_close_iff] at hw ⊢
  rcases hw with hw | hw
  · exact .inl (h.sound.closed w hw x hx)
  · have hvisited : x ∈ s.visited := by
      by_cases hwv : w = v
      · subst hwv
        exact h.done x hx
      · refine h.sound.explored w (h.sound.visited (h.mem_stack.2 (.inl hw))) ?_ x hx
        exact List.not_mem_cons_of_ne_of_not_mem hwv fun hp => h.disjoint hw (h.below hp)
    by_cases hstack : x ∈ s.stack
    · exact .inr ((h.mem_stack.1 hstack).resolve_right fun hrest => h.severed w hw x hrest hx)
    · exact .inl ⟨hvisited, hstack⟩

/-- **The upper part of the stack is a component**: its vertices lead back to the vertex that is
being visited, since they cannot get to any other such vertex; and nothing that is closed leads to
the stack. -/
theorem mem_component_iff (h : Severed next path v new rest s) :
    w ∈ new ++ [v] ↔ next.Leads v w ∧ next.Leads w v := by
  have hv : v ∈ new ++ [v] := List.mem_append_right _ (List.mem_singleton_self v)
  constructor
  · intro hw
    have hleads := h.sound.leads
    rw [h.stack, List.pairwise_append] at hleads
    have hto : next.Leads v w := by
      rcases List.mem_append.1 hw with hnew | hself
      · exact hleads.2.2 w hnew v (List.mem_cons_self ..)
      · rw [List.mem_singleton.1 hself]
        exact .refl
    obtain ⟨p, hp, hwp⟩ := h.sound.anchored w (h.mem_stack.2 (.inl hw))
    have hsettled : (s.close next v).Settled p :=
      hwp.mem_of_closed (fun _ hx _ => h.closed_close hx) (h.settled_close_iff.2 (.inr hw))
    rcases List.mem_cons.1 hp with rfl | hpath
    · exact ⟨hto, hwp⟩
    · exact absurd (h.stack_close ▸ h.below hpath) hsettled.2
  · rintro ⟨hvw, hwv⟩
    have hsettled : (s.close next v).Settled w :=
      hvw.mem_of_closed (fun _ hx _ => h.closed_close hx) (h.settled_close_iff.2 (.inr hv))
    refine (h.settled_close_iff.1 hsettled).resolve_left fun hold => ?_
    have hself : s.Settled v := hwv.mem_of_closed h.sound.closed hold
    exact hself.2 (h.mem_stack.2 (.inl hv))

theorem cycles_close (h : Severed next path v new rest s) : (s.close next v).cycles =
    if 1 < (new ++ [v]).length ∨ next.Step v v then
      s.cycles ++ [(new ++ [v]).mergeSort fun a b => decide (a ≤ b)]
    else s.cycles := by
  unfold Search.close
  dsimp only
  rw [h.component_eq]
  rfl

/-- The component that is closed, put in order. -/
theorem mem_sorted_iff (h : Severed next path v new rest s) :
    w ∈ (new ++ [v]).mergeSort (fun a b => decide (a ≤ b)) ↔ next.Leads v w ∧ next.Leads w v := by
  rw [List.mem_mergeSort, h.mem_component_iff]

theorem ascending_sorted (h : Severed next path v new rest s) :
    ((new ++ [v]).mergeSort fun a b => decide (a ≤ b)).Pairwise (· < ·) := by
  have hsorted := (List.pairwise_mergeSort' (r := fun a b : Fin n => a ≤ b) (new ++ [v])).sortedLE
  exact (hsorted.sortedLT_of_nodup
    ((List.mergeSort_perm _ _).nodup_iff.2 h.nodup_stack.of_append_left)).pairwise

/-- A component with a cycle that has a member in the upper part of the stack is all of it. -/
theorem cycle_eq (h : Severed next path v new rest s) (hc : next.Cycle c) (hw : w ∈ c)
    (hnew : w ∈ new ++ [v]) : c = (new ++ [v]).mergeSort fun a b => decide (a ≤ b) := by
  obtain ⟨u, hu⟩ := hc.component
  obtain ⟨huw, hwu⟩ := (hu w).1 hw
  obtain ⟨hvw, hwv⟩ := h.mem_component_iff.1 hnew
  refine hc.ascending.sortedLT.eq_of_mem_iff h.ascending_sorted.sortedLT fun x => ?_
  rw [hu, h.mem_sorted_iff]
  exact ⟨fun ⟨hux, hxu⟩ => ⟨(hvw.trans hwu).trans hux, (hxu.trans huw).trans hwv⟩,
    fun ⟨hvx, hxv⟩ => ⟨(huw.trans hwv).trans hvx, (hxv.trans hvw).trans hwu⟩⟩

/-- What is recorded are the components with a cycle that are closed. -/
theorem mem_cycles_close_iff (h : Severed next path v new rest s) :
    c ∈ (s.close next v).cycles ↔ next.Cycle c ∧ ∀ w ∈ c, (s.close next v).Settled w := by
  let sorted := (new ++ [v]).mergeSort fun a b => decide (a ≤ b)
  have hrecorded : c ∈ (s.close next v).cycles ↔
      c ∈ s.cycles ∨ (1 < (new ++ [v]).length ∨ next.Step v v) ∧ c = sorted := by
    rw [h.cycles_close]
    split
    · rename_i hcircular
      rw [List.mem_append, List.mem_singleton, and_iff_right hcircular]
    · rename_i hcircular
      exact ⟨.inl, fun hc => hc.resolve_right fun ⟨hloop, _⟩ => hcircular hloop⟩
  rw [hrecorded, h.sound.cycles, ← circular_sorted_iff]
  constructor
  · rintro (⟨hc, hsettled⟩ | ⟨hcircular, rfl⟩)
    · exact ⟨hc, fun w hw => h.settled_close_iff.2 (.inl (hsettled w hw))⟩
    · refine ⟨⟨h.ascending_sorted, ⟨v, fun w => h.mem_sorted_iff⟩, hcircular⟩, fun w hw => ?_⟩
      exact h.settled_close_iff.2 (.inr (List.mem_mergeSort.1 hw))
  · rintro ⟨hc, hsettled⟩
    by_cases hnew : ∃ w ∈ c, w ∈ new ++ [v]
    · obtain ⟨w, hw, hwnew⟩ := hnew
      obtain rfl : c = sorted := h.cycle_eq hc hw hwnew
      exact .inr ⟨hc.circular, rfl⟩
    · refine .inl ⟨hc, fun w hw => ?_⟩
      exact (h.settled_close_iff.1 (hsettled w hw)).resolve_right fun hwnew => hnew ⟨w, hw, hwnew⟩

theorem nodup_cycles_close (h : Severed next path v new rest s) :
    (s.close next v).cycles.Nodup := by
  rw [h.cycles_close]
  split
  · refine h.sound.once.append (List.nodup_singleton _) ?_
    -- The vertex that is being visited is on the stack; recorded components have none from there.
    rw [List.disjoint_singleton]
    intro hold
    have hsettled := ((h.sound.cycles _).1 hold).2 v (h.mem_sorted_iff.2 ⟨.refl, .refl⟩)
    exact hsettled.2 (h.mem_stack.2 (.inl (by simp)))
  · exact h.sound.once

/-- A component is taken off the stack. -/
theorem sound_close (h : Severed next path v new rest s)
    (hanchored : ∀ w ∈ rest, ∃ p ∈ path, next.Leads w p) : Sound next path (s.close next v) where
  distinct := h.sound.distinct
  stacked := by
    rw [h.stack_close]
    exact h.nodup_stack.of_append_right
  visited w hw := h.sound.visited (h.mem_stack.2 (.inr (h.stack_close ▸ hw)))
  leads := by
    have hall := h.sound.leads
    rw [h.stack, List.append_cons] at hall
    rw [h.stack_close]
    exact (List.pairwise_append.1 hall).2.1
  current := by
    rw [h.stack_close]
    exact h.below
  anchored := by
    rw [h.stack_close]
    exact hanchored
  explored w hw hnot x hx := by
    by_cases hwv : w = v
    · subst hwv
      exact h.done x hx
    · exact h.sound.explored w hw (List.not_mem_cons_of_ne_of_not_mem hwv hnot) x hx
  closed _ hw _ hx := h.closed_close hw hx
  cycles _ := h.mem_cycles_close_iff
  once := h.nodup_cycles_close

end Severed
end CycleFinder
end DecisionEngine
