import DecisionEngine.Proofs.Compile.Search
import DecisionEngine.Proofs.Sorting
import Mathlib.Data.Fintype.Card
import Mathlib.Data.List.Lex
/-!
# The search for cycles is exact

A visit of a vertex goes through its successors and ends in one of two ways: its component is
closed, or it leads to a vertex below it on the stack.  Which of the two it is shows in the lowest
number that was found, because that is the number of a vertex on the stack that it leads to, and no
edge from the new part of the stack to the old one leads to a lower one.

* `Visited` — what a visit comes to; `visited_connect` that every visit does.
* `mem_run_iff` — what is found are the components with a cycle.
* `run_exact` — so it is with every graph, each component once, and in order.
-/

namespace DecisionEngine
namespace CycleFinder

open Relation (ReflTransGen TransGen)

variable {n : Nat} {next : Adjacency n} {path done rest : List (Fin n)} {s t : Search n}
  {v w y : Fin n} {r : Nat × Search n} {visit : Fin n → Search n → Nat × Search n}

/-! ## Visits -/

/-- What a visit of a vertex comes to: it leads to a vertex of the number that is answered, on the
stack or the vertex itself; and no edge from what is new on the stack leads to a lower number. -/
structure Visited (next : Adjacency n) (path : List (Fin n)) (v : Fin n) (s : Search n)
    (r : Nat × Search n) : Prop where
  sound : Sound next path r.2
  continues : Continues s r.2
  visited : v ∈ r.2.visited
  low : ∃ y ∈ v :: s.stack, r.1 = r.2.number y ∧ next.Leads v y
  edges : ∀ a ∈ r.2.stack, a ∉ s.stack → ∀ b ∈ s.stack, next.Step a b → r.1 ≤ s.number b

/-- What holds during the visit of a new vertex, after some of its successors were followed. -/
structure Exploring (next : Adjacency n) (path : List (Fin n)) (v : Fin n) (s : Search n)
    (done : List (Fin n)) (r : Nat × Search n) : Prop where
  before : Sound next path s
  new : v ∉ s.visited
  sound : Sound next (v :: path) r.2
  continues : Continues (s.enter v) r.2
  followed : ∀ w ∈ done, w ∈ r.2.visited
  low : ∃ y ∈ v :: s.stack, r.1 = r.2.number y ∧ next.Leads v y
  bound : r.1 ≤ s.visited.length
  edges : ∀ a ∈ r.2.stack, a ∉ s.stack → ∀ b ∈ s.stack, next.Step a b → (a = v → b ∈ done) →
    r.1 ≤ s.number b

namespace Exploring

theorem start (h : Sound next path s) (hv : v ∉ s.visited) (hpath : ∀ p ∈ path, next.Leads p v) :
    Exploring next path v s [] (s.visited.length, s.enter v) where
  before := h
  new := hv
  sound := h.enter hv hpath
  continues := .refl _
  followed := by simp
  low := ⟨v, List.mem_cons_self .., (Search.number_enter_self hv).symm, .refl⟩
  bound := Nat.le_refl _
  edges a ha hnot b _ _ hdone := by
    have hav : a = v := (List.mem_cons.1 ha).resolve_right hnot
    exact absurd (hdone hav) List.not_mem_nil

section

variable (h : Exploring next path v s done r)
include h

theorem continues_start : Continues s r.2 := (Continues.enter h.new).trans h.continues

theorem mem_visited (hy : y ∈ v :: s.stack) : y ∈ r.2.visited :=
  h.sound.visited (h.continues.mem_stack hy)

theorem number_self : r.2.number v = s.visited.length := by
  rw [h.continues.number (by simp [Search.enter]), Search.number_enter_self h.new]

/-- What has no higher number than the vertex that is visited was on the stack before, or is that
vertex. -/
theorem mem_of_number_le (hy : y ∈ r.2.stack) (hle : r.2.number y ≤ s.visited.length) :
    y ∈ v :: s.stack := by
  obtain ⟨new, hstack, hnew⟩ := h.continues.stack
  rw [hstack] at hy
  refine (List.mem_append.1 hy).resolve_left fun hmem => ?_
  have hlater := h.continues.le_number (hnew y hmem)
  simp only [Search.enter, List.length_append, List.length_singleton] at hlater
  omega

/-- An edge to a vertex that is new is followed. -/
theorem followed_new {q : Nat × Search n} (hw : next.Step v w) (hnew : w ∉ r.2.visited)
    (hq : Visited next (v :: path) w r.2 q) :
    Exploring next path v s (done ++ [w]) (min r.1 q.1, q.2) where
  before := h.before
  new := h.new
  sound := hq.sound
  continues := h.continues.trans hq.continues
  followed x hx := by
    rcases List.mem_append.1 hx with hx | hx
    · exact hq.continues.mem_visited (h.followed x hx)
    · rw [List.mem_singleton.1 hx]
      exact hq.visited
  low := by
    obtain ⟨y, hy, hlow, hvy⟩ := h.low
    obtain ⟨z, hz, hlow', hwz⟩ := hq.low
    have hbound := h.bound
    rcases Nat.le_total r.1 q.1 with hle | hle
    · refine ⟨y, hy, ?_, hvy⟩
      rw [Nat.min_eq_left hle, hq.continues.number (h.mem_visited hy), hlow]
    · -- The successor has a higher number, so the vertex it leads to is one of those below.
      have hle' : q.2.number z ≤ s.visited.length := by omega
      have hzw : z ≠ w := by
        rintro rfl
        have hlater := hq.continues.le_number hnew
        have hentered := h.continues.visited.length_le
        simp only [Search.enter, List.length_append, List.length_singleton] at hentered
        omega
      have hstack : z ∈ r.2.stack := (List.mem_cons.1 hz).resolve_left hzw
      rw [hq.continues.number (h.sound.visited hstack)] at hle'
      exact ⟨z, h.mem_of_number_le hstack hle', by rw [Nat.min_eq_right hle, hlow'],
        hwz.head hw⟩
  bound := Nat.le_trans (Nat.min_le_left ..) h.bound
  edges a ha hnot b hb hab hdone := by
    by_cases hold : a ∈ r.2.stack
    · refine Nat.le_trans (Nat.min_le_left ..) (h.edges a hold hnot b hb hab fun hav => ?_)
      refine (List.mem_append.1 (hdone hav)).resolve_right fun hbw => ?_
      rw [List.mem_singleton.1 hbw] at hb
      exact hnew (h.mem_visited (List.mem_cons_of_mem _ hb))
    · have hb' : b ∈ r.2.stack := h.continues_start.mem_stack hb
      have hle := hq.edges a ha hold b hb' hab
      rw [h.continues_start.number (h.before.visited hb)] at hle
      exact Nat.le_trans (Nat.min_le_right ..) hle

/-- An edge to a vertex that was visited is followed; it counts if the vertex is on the stack. -/
theorem followed_old (hw : next.Step v w) (hold : w ∈ r.2.visited) :
    Exploring next path v s (done ++ [w])
      (if w ∈ r.2.stack then min r.1 (r.2.number w) else r.1, r.2) := by
  have hlower : (if w ∈ r.2.stack then min r.1 (r.2.number w) else r.1) ≤ r.1 := by
    split
    · exact Nat.min_le_left ..
    · exact Nat.le_refl _
  refine ⟨h.before, h.new, h.sound, h.continues, fun x hx => ?_, ?_, hlower.trans h.bound,
    fun a ha hnot b hb hab hdone => ?_⟩
  · rcases List.mem_append.1 hx with hx | hx
    · exact h.followed x hx
    · rwa [List.mem_singleton.1 hx]
  · obtain ⟨y, hy, hlow, hvy⟩ := h.low
    have hbound := h.bound
    split
    · rename_i hstack
      rcases Nat.le_total r.1 (r.2.number w) with hle | hle
      · exact ⟨y, hy, by rw [Nat.min_eq_left hle, hlow], hvy⟩
      · exact ⟨w, h.mem_of_number_le hstack (hle.trans hbound), Nat.min_eq_right hle, .single hw⟩
    · exact ⟨y, hy, hlow, hvy⟩
  · by_cases hown : a = v → b ∈ done
    · exact hlower.trans (h.edges a ha hnot b hb hab hown)
    · obtain ⟨hav, hbdone⟩ := Classical.not_imp.1 hown
      obtain rfl := List.mem_singleton.1 ((List.mem_append.1 (hdone hav)).resolve_left hbdone)
      rw [if_pos (h.continues_start.mem_stack hb),
        h.continues_start.number (h.before.visited hb)]
      exact Nat.min_le_right ..

/-- Following one edge. -/
theorem follow (hw : next.Step v w)
    (hvisit : w ∉ r.2.visited → Visited next (v :: path) w r.2 (visit w r.2)) :
    Exploring next path v s (done ++ [w]) (CycleFinder.follow visit r w) := by
  unfold CycleFinder.follow
  dsimp only
  by_cases hnew : w ∈ r.2.visited
  · have hold := h.followed_old hw hnew
    rw [if_neg (not_not.2 hnew)]
    by_cases hstack : w ∈ r.2.stack
    · rwa [if_pos hstack] at hold ⊢
    · rwa [if_neg hstack] at hold ⊢
  · rw [if_pos hnew]
    exact h.followed_new hw hnew (hvisit hnew)

end

/-- Following all edges. -/
theorem foldl (hvisit : ∀ w t, next.Step v w → Sound next (v :: path) t → Continues (s.enter v) t →
      w ∉ t.visited → Visited next (v :: path) w t (visit w t))
    (h : Exploring next path v s done r) (hrest : ∀ w ∈ rest, next.Step v w) :
    Exploring next path v s (done ++ rest) (rest.foldl (CycleFinder.follow visit) r) := by
  induction rest generalizing done r with
  | nil => rwa [List.append_nil]
  | cons w rest ih =>
    have hw := hrest w (List.mem_cons_self ..)
    rw [List.append_cons, List.foldl_cons]
    exact ih (h.follow hw (hvisit w r.2 hw h.sound h.continues)) fun x hx =>
      hrest x (List.mem_cons_of_mem _ hx)

/-- **How a visit ends**: a number that is no lower than the vertex's own says that its component is
on the stack; a lower one leads to a vertex below. -/
theorem finish (h : Exploring next path v s (next v) r) : Visited next path v s
    (r.1, if r.1 = s.visited.length then r.2.close next v else r.2) := by
  obtain ⟨new, hstack, hnew⟩ := h.continues.stack
  have hbefore : ∀ b ∈ s.stack, s.number b < s.visited.length := fun b hb =>
    Search.number_lt (h.before.visited hb)
  have hvisited := h.mem_visited (List.mem_cons_self (a := v))
  by_cases hlow : r.1 = s.visited.length
  · rw [if_pos hlow]
    have hsevered : Severed next path v new s.stack r.2 := by
      refine ⟨h.sound, hstack, h.before.current, h.followed, fun a ha b hb hab => ?_⟩
      have hanew : a ∉ s.stack := by
        intro hastack
        rcases List.mem_append.1 ha with ha | ha
        · exact hnew a ha (List.mem_append_left _ (h.before.visited hastack))
        · exact h.new (List.mem_singleton.1 ha ▸ h.before.visited hastack)
      have hastack : a ∈ r.2.stack := by
        rw [hstack, Search.enter, List.append_cons]
        exact List.mem_append_left _ ha
      have hle := h.edges a hastack hanew b hb hab fun hav => hav ▸ hab
      have hlt := hbefore b hb
      omega
    refine ⟨hsevered.sound_close h.before.anchored, ⟨h.continues_start.visited, [], ?_, by simp⟩,
      hvisited, ⟨v, List.mem_cons_self .., hlow.trans h.number_self.symm, .refl⟩,
      fun a ha hanew => ?_⟩
    · exact hsevered.stack_close
    · exact absurd (hsevered.stack_close ▸ ha) hanew
  · rw [if_neg hlow]
    obtain ⟨y, hy, hylow, hvy⟩ := h.low
    have hyv : y ≠ v := by
      rintro rfl
      exact hlow (hylow.trans h.number_self)
    obtain ⟨p, hp, hyp⟩ := h.before.anchored y ((List.mem_cons.1 hy).resolve_left hyv)
    exact ⟨h.sound.leave h.followed ⟨p, hp, hvy.trans hyp⟩, h.continues_start, hvisited,
      ⟨y, hy, hylow, hvy⟩, fun a ha hanew b hb hab =>
        h.edges a ha hanew b hb hab fun hav => hav ▸ hab⟩

end Exploring

/-- **Every visit of a new vertex comes to what it should.**  There are always enough visits left,
because each one that is nested in others has a vertex of its own. -/
theorem visited_connect (depth : Nat) (h : Sound next path s) (hv : v ∉ s.visited)
    (hpath : ∀ p ∈ path, next.Leads p v) (hdepth : n ≤ depth + s.visited.length) :
    Visited next path v s (connect next depth v s) := by
  induction depth generalizing path v s with
  | zero =>
    have hlength := List.Nodup.length_le_card (List.nodup_cons.2 ⟨hv, h.distinct⟩)
    simp only [List.length_cons, Fintype.card_fin] at hlength
    omega
  | succ depth ih =>
    have hfollowed : Exploring next path v s (next v) ((next v).foldl
        (CycleFinder.follow (connect next depth)) (s.visited.length, s.enter v)) := by
      refine Exploring.foldl (fun w t hw ht hcontinues hnew => ?_) (.start h hv hpath)
        fun w hw => hw
      have hlonger := hcontinues.visited.length_le
      simp only [Search.enter, List.length_append, List.length_singleton] at hlonger
      refine ih ht hnew (fun p hp => ?_) (by omega)
      rcases List.mem_cons.1 hp with rfl | hp
      · exact .single hw
      · exact (hpath p hp).tail hw
    exact hfollowed.finish

/-! ## The whole search -/

theorem sound_visitOnce (h : Sound next [] s) (v : Fin n) : Sound next [] (visitOnce next s v) ∧
    Continues s (visitOnce next s v) ∧ v ∈ (visitOnce next s v).visited := by
  unfold visitOnce
  split
  · rename_i hv
    exact ⟨h, .refl s, hv⟩
  · rename_i hv
    have hvisited := visited_connect n h hv (by simp) (Nat.le_add_right ..)
    exact ⟨hvisited.sound, hvisited.continues, hvisited.visited⟩

theorem sound_foldl_visitOnce (h : Sound next [] s) (vs : List (Fin n)) :
    Sound next [] (vs.foldl (visitOnce next) s) ∧ Continues s (vs.foldl (visitOnce next) s) ∧
      ∀ v ∈ vs, v ∈ (vs.foldl (visitOnce next) s).visited := by
  induction vs generalizing s with
  | nil => exact ⟨h, .refl s, by simp⟩
  | cons v vs ih =>
    obtain ⟨hsound, hcontinues, hvisited⟩ := sound_visitOnce h v
    obtain ⟨hsound', hcontinues', hvisited'⟩ := ih hsound
    exact ⟨hsound', hcontinues.trans hcontinues',
      List.forall_mem_cons.2 ⟨hcontinues'.mem_visited hvisited, hvisited'⟩⟩

/-- In the end every component with a cycle is recorded, and nothing else. -/
theorem cycles_of_search (next : Adjacency n) :
    (∀ c, c ∈ ((List.finRange n).foldl (visitOnce next) .start).cycles ↔ next.Cycle c) ∧
      ((List.finRange n).foldl (visitOnce next) .start).cycles.Nodup := by
  have hstart : Sound next [] .start := .start
  obtain ⟨hsound, -, hvisited⟩ := sound_foldl_visitOnce hstart (List.finRange n)
  refine ⟨fun c => (hsound.cycles c).trans (and_iff_left fun v _ => ?_), hsound.once⟩
  refine ⟨hvisited v (List.mem_finRange v), fun hstack => ?_⟩
  obtain ⟨p, hp, -⟩ := hsound.anchored v hstack
  cases hp

/-- What is found are the components with a cycle. -/
theorem mem_run_iff (next : Adjacency n) (c : List (Fin n)) : c ∈ run next ↔ next.Cycle c := by
  unfold run
  rw [List.mem_mergeSort, (cycles_of_search next).1]

/-- The lexicographic order of lists of vertices, which components are sorted by. -/
theorem strictOrder_lt (n : Nat) : StrictOrder fun c d : List (Fin n) => decide (c < d) where
  irrefl c := decide_eq_false (lt_irrefl c)
  trans _ _ _ hcd hde := decide_eq_true ((of_decide_eq_true hcd).trans (of_decide_eq_true hde))
  connected _ _ hne := (lt_or_gt_of_ne hne).imp decide_eq_true decide_eq_true

/-- They are found in order, and each once. -/
theorem ascending_run (next : Adjacency n) : (run next).Pairwise (· < ·) := by
  have hsorted : (run next).Pairwise fun c d => decide (d < c) = false :=
    (strictOrder_lt n).pairwise_mergeSort _
  have honce : (run next).Nodup :=
    (List.mergeSort_perm _ _).nodup_iff.2 (cycles_of_search next).2
  refine hsorted.imp₂ (fun c d hdc hne => ?_) honce
  exact (lt_or_gt_of_ne hne).resolve_right (of_decide_eq_false hdc)

end CycleFinder

namespace Adjacency

open Relation (ReflTransGen TransGen)

variable {n : Nat} {next : Adjacency n} {v : Fin n} {c : List (Fin n)}

/-- A component with a cycle has a vertex that leads back to itself. -/
theorem Cycle.exists_transGen (h : next.Cycle c) : ∃ v ∈ c, TransGen next.Step v v := by
  rcases h.circular with hlength | ⟨v, hv, hloop⟩
  · match c, h, hlength with
    | a :: b :: _, h, _ =>
      obtain ⟨u, hu⟩ := h.component
      obtain ⟨hua, hau⟩ := (hu a).1 (by simp)
      obtain ⟨hub, hbu⟩ := (hu b).1 (by simp)
      have hne : a ≠ b := ne_of_lt ((List.pairwise_cons.1 h.ascending).1 b (by simp))
      have hab := (Relation.reflTransGen_iff_eq_or_transGen.1 (hau.trans hub)).resolve_left hne.symm
      exact ⟨a, by simp, hab.trans_left (hbu.trans hua)⟩
  · exact ⟨v, hv, .single hloop⟩

/-- A vertex that leads back to itself is in a component with a cycle. -/
theorem exists_cycle (h : TransGen next.Step v v) : ∃ c, next.Cycle c := by
  classical
  let c := (List.finRange n).filter fun w => decide (next.Leads v w ∧ next.Leads w v)
  have hmem : ∀ w, w ∈ c ↔ next.Leads v w ∧ next.Leads w v := fun w => by simp [c]
  have hascending : c.Pairwise (· < ·) := (List.pairwise_lt_finRange n).filter _
  refine ⟨c, hascending, ⟨v, hmem⟩, ?_⟩
  obtain ⟨w, hvw, hwv⟩ := Relation.TransGen.head'_iff.1 h
  have hv : v ∈ c := (hmem v).2 ⟨.refl, .refl⟩
  by_cases hne : v = w
  · exact .inr ⟨v, hv, hne ▸ hvw⟩
  · have hw : w ∈ c := (hmem w).2 ⟨.single hvw, hwv⟩
    have htwo : [v, w].Subperm c := List.subperm_of_subset (by simp [hne]) (by simp [hv, hw])
    exact .inl htwo.length_le

end Adjacency

namespace CycleFinder

open Relation (TransGen)

variable {n : Nat}

/-- Nothing is found exactly if no vertex leads back to itself. -/
theorem run_eq_nil_iff (next : Adjacency n) :
    run next = [] ↔ ∀ v, ¬TransGen next.Step v v := by
  rw [List.eq_nil_iff_forall_not_mem]
  constructor
  · intro hnone v hcycle
    obtain ⟨c, hc⟩ := Adjacency.exists_cycle hcycle
    exact hnone c ((mem_run_iff next c).2 hc)
  · intro hacyclic c hc
    obtain ⟨v, -, hcycle⟩ := ((mem_run_iff next c).1 hc).exists_transGen
    exact hacyclic v hcycle

/-- **The search for cycles is exact.**  Whatever the graph is, what is found are the strongly
connected components that have several vertices or a self loop, each in ascending order, and once,
in order; so nothing is found exactly if there is no cycle. -/
theorem run_exact (next : Adjacency n) :
    (∀ c, c ∈ run next ↔ c.Pairwise (· < ·) ∧ next.IsComponent c ∧
        (1 < c.length ∨ ∃ v ∈ c, v ∈ next v)) ∧
      (run next).Pairwise (· < ·) ∧ (run next = [] ↔ ∀ v, ¬TransGen next.Step v v) := by
  refine ⟨fun c => ?_, ascending_run next, run_eq_nil_iff next⟩
  rw [mem_run_iff]
  exact ⟨fun h => ⟨h.ascending, h.component, h.circular⟩, fun ⟨ha, hc, hl⟩ => ⟨ha, hc, hl⟩⟩

example : run (fun v : Fin 4 => [[1, 1], [0, 2], [2, 3], []][v]) = [[0, 1], [2]] := by cbv

end CycleFinder
end DecisionEngine
